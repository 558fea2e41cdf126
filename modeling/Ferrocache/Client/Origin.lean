import Ferrocache.Client.Middleware
import Ferrocache.Cluster.Replicas
import Ferrocache.Index.Search
import Ferrocache.Node.Provenance

/-!
# Where the answers of the middleware come from

The API is called at most once for every call, and not at all when the answer
comes from the cache.  What comes from the cache was said by the API before, to
a call whose insert goes to one of the namespaces that this call consults,
whichever nodes stored, forwarded or copied it (`answers_from_the_api`).

The calls only grow: a call keeps its client and its arguments, and what the API
said to it stays said.  So `Origin` holds for good once it holds, and everything
stored, waiting or on its way in the cluster has one.
-/

namespace Ferrocache

/-! ## What a hit reports -/

section Hits

variable [Platform]

/-- The entry has the text of the query, or the similarity is not below the
threshold. -/
def Matches (text : Option String) (threshold similarity : F32) (queryText : String) : Prop :=
  (∃ t, text = some t ∧ normalizeQueryText queryText = normalizeQueryText t) ∨
    Platform.lt similarity threshold = false

namespace NamespacedIndex

variable {ns : NamespacedIndex} {hit : QueryHit} {threshold : F32} {text : Option String} {now : Nat}

/-- The hit gives the response of an entry that matches. -/
def Reports (ns : NamespacedIndex) (text : Option String) (threshold : F32) (hit : QueryHit) :
    Prop :=
  ∃ e, ns.entries.lookup hit.internalId = some e ∧ hit.response = e.response ∧
    Matches text threshold hit.similarity e.queryText

theorem exactMatch_flagged {t : String} (found : ns.exactMatch t now = some hit) :
    hit.exactMatch = true := by
  unfold NamespacedIndex.exactMatch at found
  simp only [Option.bind_eq_bind, Option.bind_eq_some_iff] at found
  obtain ⟨_, -, _, -, _, -, _, -, _, -, _, -, same⟩ := found
  obtain rfl := Option.some.inj same
  rfl

theorem reports_of_scanNeighbours {neighbours : List Neighbour}
    (found : ns.scanNeighbours threshold now neighbours = .ok (some hit)) :
    ns.Reports text threshold hit := by
  induction neighbours with
  | nil => cases found
  | cons n neighbours ih =>
      unfold scanNeighbours at found
      split at found
      · exact ih found
      · split at found
        · cases found
        · next reaches =>
            split at found
            · cases found
            · next entry here =>
                split at found
                · exact ih found
                · cases found
                  exact ⟨entry, here, rfl, .inr (Bool.eq_false_iff.mpr reaches)⟩

theorem WellFormed.reports_of_query (wf : ns.WellFormed) {embedding : Embedding}
    (found : ns.queryWithText embedding threshold text now = .ok (some hit)) :
    ns.Reports text threshold hit := by
  unfold queryWithText at found
  split at found
  · next exact' matched =>
      cases found
      obtain ⟨t, rfl, here⟩ := Option.bind_eq_some_iff.mp matched
      obtain ⟨entry, justified⟩ := wf.justified_of_exactMatch threshold here
      refine ⟨entry, justified.stored, justified.response, ?_⟩
      rcases justified.reason with ⟨-, same⟩ | ⟨scanned, -⟩
      · exact .inl same
      · rw [exactMatch_flagged here] at scanned
        cases scanned
  · unfold queryAnn at found
    split at found
    · cases found
    · split at found
      · cases found
      · exact reports_of_scanNeighbours found

end NamespacedIndex

namespace SemanticIndex

variable {idx : SemanticIndex} {hit : QueryHit} {embedding : Embedding} {threshold : F32}
  {text : Option String} {now : Nat}

/-- The hit gives the response of an entry of one of the namespaces. -/
def Reports (idx : SemanticIndex) (namespaces : List String) (text : Option String)
    (threshold : F32) (hit : QueryHit) : Prop :=
  ∃ m ∈ namespaces, ∃ u e, idx.entryAt m u = some e ∧ hit.response = e.response ∧
    Matches text threshold hit.similarity e.queryText

theorem Reports.of_lookup (wf : idx.WellFormed) {namespaces : List String} {m : String}
    {ns : NamespacedIndex} (listed : m ∈ namespaces) (known : idx.namespaces.lookup m = some ns)
    (found : ns.queryWithText embedding threshold text now = .ok (some hit)) :
    idx.Reports namespaces text threshold hit := by
  obtain ⟨e, here, response, matches'⟩ := (wf m ns known).reports_of_query found
  refine ⟨m, listed, e.uuid, e, ?_, response, matches'⟩
  rw [entryAt_of_lookup known]
  exact (wf m ns known).getByUuid_eq_some.mpr ⟨rfl, _, here⟩

theorem reports_of_fallback (wf : idx.WellFormed) {namespaces : List String} {baseNs ns : String}
    {scope : Option Scope} (listed : baseNs ∈ namespaces)
    (found : queryTwoLevel.fallback idx embedding threshold baseNs text now =
      .ok (some hit, ns, scope)) : idx.Reports namespaces text threshold hit := by
  unfold queryTwoLevel.fallback at found
  cases known : idx.namespaces.lookup baseNs with
  | none =>
      rw [known] at found
      cases found
  | some base =>
      rw [known] at found
      dsimp only at found
      cases answer : base.queryWithText embedding threshold text now with
      | error msg =>
          rw [answer] at found
          cases found
      | ok result =>
          rw [answer] at found
          cases found
          exact .of_lookup wf listed known answer

theorem reports_of_twoLevel (wf : idx.WellFormed) {namespaces : List String}
    {convNs baseNs ns : String} {scope : Option Scope} (conv : convNs ∈ namespaces)
    (base : baseNs ∈ namespaces)
    (found : idx.queryTwoLevel embedding threshold convNs baseNs text now =
      .ok (some hit, ns, scope)) : idx.Reports namespaces text threshold hit := by
  unfold queryTwoLevel at found
  cases known : idx.namespaces.lookup convNs with
  | none =>
      rw [known] at found
      exact reports_of_fallback wf base found
  | some first =>
      rw [known] at found
      dsimp only at found
      cases answer : first.queryWithText embedding threshold text now with
      | error msg =>
          rw [answer] at found
          cases found
      | ok result =>
          rw [answer] at found
          cases result with
          | none => exact reports_of_fallback wf base found
          | some own =>
              cases found
              exact .of_lookup wf conv known answer

end SemanticIndex

/-- A hit gives the response of an entry of a namespace that the query consults. -/
theorem reports_of_queryLocally {idx : SemanticIndex} (wf : idx.WellFormed) {req : QueryRequest}
    {modelId : String} {now : Nat} {hit : QueryHit}
    (found : (queryLocally idx req modelId now).1 = .ok (some hit)) :
    idx.Reports (req.target modelId).consulted req.queryText req.threshold hit := by
  have base : baseNamespace modelId req.cacheScope ∈ (req.target modelId).consulted :=
    List.mem_append_right _ List.mem_cons_self
  unfold queryLocally at found
  dsimp only at found
  split at found
  · next convNs conv =>
      have first : convNs ∈ (req.target modelId).consulted := by
        refine List.mem_append_left _ ?_
        unfold QueryRequest.target
        rw [conv]
        exact List.mem_singleton_self convNs
      split at found
      · next answer =>
          cases found
          exact SemanticIndex.reports_of_twoLevel wf first base answer
      · cases found
  · unfold SemanticIndex.queryWithText at found
    split at found
    · next ns known => exact .of_lookup wf base known found
    · cases found

omit [Platform] in
theorem validateModelId_eq_ok {modelId : Option String} {m : String}
    (valid : validateModelId modelId = .ok m) : modelId = some m := by
  unfold validateModelId at valid
  split at valid
  · split at valid
    · cases valid
    · cases valid
      rfl
  · cases valid

theorem reports_of_answerLocally {idx : SemanticIndex} (wf : idx.WellFormed) {client : Wrapped}
    {prompt : String} {embedding : Embedding} {now : Nat} {hit : QueryHit}
    (served : answerLocally idx (client.queryRequest prompt embedding) now = some (some hit)) :
    idx.Reports client.target.consulted (some prompt) client.threshold hit := by
  unfold answerLocally at served
  split at served
  · cases served
  · next modelId valid =>
      cases validateModelId_eq_ok valid
      generalize asked : client.queryRequest prompt embedding = req at served
      cases answer : (queryLocally idx req client.modelId now).1 with
      | error msg =>
          rw [answer] at served
          cases served
      | ok found =>
          rw [answer] at served
          cases served
          have reports := reports_of_queryLocally wf answer
          rw [← asked] at reports
          exact reports

end Hits

/-! ## Where answers come from -/

section Origin

variable {R : Type} (extract : R → Option String)

/-- The API said `content` to a call about `prompt`, whose insert goes to the
namespace. -/
def Origin (calls : List (Intercept R)) (m content prompt : String) : Prop :=
  ∃ c ∈ calls, c.client.target.key = m ∧ c.kwargs.prompt = some prompt ∧
    ∃ r ∈ c.answers, extract r = some content

/-- The same call later. -/
structure Intercept.Continues (c c' : Intercept R) : Prop where
  client : c'.client = c.client
  kwargs : c'.kwargs = c.kwargs
  answers : c.answers ⊆ c'.answers

/-- The same calls later, and maybe more. -/
def Grows (calls calls' : List (Intercept R)) : Prop :=
  ∀ c ∈ calls, ∃ c' ∈ calls', c.Continues c'

/-- Serving a query sends it on, or adds a hit of the node. -/
theorem Intercept.serve_eq [Platform] (c : Intercept R) (idx : SemanticIndex) (params : LocalParam)
    (app : QueryState) (now : Nat) :
    ∃ sent offers, c.serve idx params app now = { c with sent := sent, offers := offers } ∧
      ∀ hit ∈ offers, hit ∈ c.offers ∨ ∃ prompt embedding, c.phase = .querying prompt embedding ∧
        answerLocally idx (c.client.queryRequest prompt embedding) now = some (some hit) := by
  have sends : ∀ sent, ∃ sent' offers,
      { c with sent := sent } = { c with sent := sent', offers := offers } ∧
        ∀ hit ∈ offers, hit ∈ c.offers ∨ ∃ prompt embedding, c.phase = .querying prompt embedding ∧
          answerLocally idx (c.client.queryRequest prompt embedding) now = some (some hit) :=
    fun sent => ⟨sent, c.offers, rfl, fun hit mem => .inl mem⟩
  unfold Intercept.serve
  split
  · next prompt embedding phase =>
      dsimp only
      split
      · split
        · exact sends _
        · exact sends c.sent
      · split
        · next hit found =>
            refine ⟨c.sent, c.offers ++ [hit], rfl, fun other mem => ?_⟩
            rcases List.mem_append.mp mem with old | new
            · exact .inl old
            · cases List.mem_singleton.mp new
              exact .inr ⟨prompt, embedding, phase, found⟩
        · exact sends _
        · exact sends c.sent
      · exact sends c.sent
  · exact sends c.sent

namespace Intercept.Continues

variable {c : Intercept R}

theorem refl (c : Intercept R) : c.Continues c := ⟨rfl, rfl, fun _ mem => mem⟩

theorem embedded (result : Option Embedding) : c.Continues (c.embedded result) := by
  unfold Intercept.embedded
  split
  · split
    · exact ⟨rfl, rfl, fun _ mem => mem⟩
    · split
      · exact ⟨rfl, rfl, fun _ mem => mem⟩
      · exact ⟨rfl, rfl, fun _ mem => mem⟩
  · exact refl c

theorem lookupFailed (e : CacheExn) : c.Continues (c.lookupFailed e) :=
  ⟨rfl, rfl, fun _ mem => mem⟩

theorem looked (reply : LookupReply) : c.Continues (c.looked reply) := by
  unfold Intercept.looked
  split
  · split
    · exact lookupFailed _
    · exact ⟨rfl, rfl, fun _ mem => mem⟩
    · split
      · exact refl c
      · exact ⟨rfl, rfl, fun _ mem => mem⟩
  · exact refl c

theorem serve [Platform] (idx : SemanticIndex) (params : LocalParam) (app : QueryState)
    (now : Nat) : c.Continues (c.serve idx params app now) := by
  obtain ⟨sent, offers, same, -⟩ := c.serve_eq idx params app now
  rw [same]
  exact ⟨rfl, rfl, fun _ mem => mem⟩

theorem called (result : Option R) : c.Continues (c.called extract result) := by
  unfold Intercept.called
  split
  · split
    · exact ⟨rfl, rfl, fun _ mem => mem⟩
    · exact ⟨rfl, rfl, fun _ mem => List.mem_append_left _ mem⟩
  · exact refl c

theorem stored (failure : Option CacheExn) : c.Continues (c.stored failure) := by
  unfold Intercept.stored
  split <;> exact ⟨rfl, rfl, fun _ mem => mem⟩

end Intercept.Continues

theorem Grows.append (calls more : List (Intercept R)) : Grows calls (calls ++ more) :=
  fun c mem => ⟨c, List.mem_append_left _ mem, .refl c⟩

theorem Grows.modify {f : Intercept R → Intercept R}
    (continues : ∀ c : Intercept R, c.Continues (f c)) (calls : List (Intercept R)) (i : Nat) :
    Grows calls (calls.modify i f) := by
  intro c mem
  obtain ⟨j, here⟩ := List.mem_iff_getElem?.mp mem
  have there : (calls.modify i f)[j]? = some (if i = j then f c else c) := by
    rw [List.getElem?_modify, here]
    split <;> rfl
  refine ⟨_, List.mem_of_getElem? there, ?_⟩
  split
  · exact continues c
  · exact .refl c

variable {extract}

theorem Origin.mono {calls calls' : List (Intercept R)} (grows : Grows calls calls')
    {m content prompt : String} (origin : Origin extract calls m content prompt) :
    Origin extract calls' m content prompt := by
  obtain ⟨c, mem, key, asked, r, said, text⟩ := origin
  obtain ⟨c', mem', same⟩ := grows c mem
  exact ⟨c', mem', by rw [same.client, key], by rw [same.kwargs, asked], r, same.answers said, text⟩

end Origin

/-! ## Accounts -/

section Accounts

variable [Platform] {R : Type} (extract : R → Option String)

namespace Intercept

/-- The API said the text to another call, which stores it where this call looks;
the prompt of that call has the same text, or the similarity is not below the
threshold. -/
def Backed (calls : List (Intercept R)) (c : Intercept R) (content : String) (similarity : F32) :
    Prop :=
  ∃ m ∈ c.client.target.consulted, ∃ prompt, Origin extract calls m content prompt ∧
    Matches c.kwargs.prompt c.client.threshold similarity prompt

/-- What the outcome of a call says about the API. -/
def Accounts (calls : List (Intercept R)) (c : Intercept R) : Outcome R → Prop
  | .api resp _ => c.asked = 1 ∧ c.answers = [resp]
  | .cached content _ similarity => c.asked = 0 ∧ c.answers = [] ∧
      c.Backed extract calls content similarity
  | .raised .api => c.asked = 1 ∧ c.answers = []
  | .raised .valueError => c.asked = 0 ∧ c.client.modelId = ""
  | .raised (.cache e) => c.asked ≤ 1 ∧ (e = .ferrocacheError → c.client.failOpen = false)

/-- What holds of a call on its way. -/
def Sound (calls : List (Intercept R)) (c : Intercept R) : Prop :=
  match c.phase with
  | .embedding prompt => c.asked = 0 ∧ c.answers = [] ∧ c.kwargs.prompt = some prompt
  | .querying prompt _ => c.asked = 0 ∧ c.answers = [] ∧ c.kwargs.prompt = some prompt
  | .calling _ store => c.asked = 0 ∧ c.answers = [] ∧
      ∀ pair ∈ store, c.kwargs.prompt = some pair.1
  | .storing resp text prompt _ => c.asked = 1 ∧ c.answers = [resp] ∧ extract resp = some text ∧
      c.kwargs.prompt = some prompt
  | .done outcome => c.Accounts extract calls outcome

/-- Every hit that was found for the call has its origin. -/
def Offered (calls : List (Intercept R)) (c : Intercept R) : Prop :=
  ∀ hit ∈ c.offers, c.Backed extract calls hit.response hit.similarity

variable {extract} {calls calls' : List (Intercept R)} {c : Intercept R}

theorem Backed.mono (grows : Grows calls calls') {content : String} {similarity : F32}
    (backed : c.Backed extract calls content similarity) :
    c.Backed extract calls' content similarity := by
  obtain ⟨m, listed, prompt, origin, reason⟩ := backed
  exact ⟨m, listed, prompt, origin.mono grows, reason⟩

theorem Accounts.mono (grows : Grows calls calls') {outcome : Outcome R}
    (accounts : c.Accounts extract calls outcome) : c.Accounts extract calls' outcome := by
  match outcome, accounts with
  | .api .., accounts => exact accounts
  | .cached .., ⟨unasked, unanswered, backed⟩ => exact ⟨unasked, unanswered, backed.mono grows⟩
  | .raised .api, accounts => exact accounts
  | .raised .valueError, accounts => exact accounts
  | .raised (.cache _), accounts => exact accounts

theorem Sound.mono (grows : Grows calls calls') (sound : c.Sound extract calls) :
    c.Sound extract calls' := by
  unfold Sound at sound ⊢
  cases phase : c.phase with
  | done outcome =>
      rw [phase] at sound
      exact Accounts.mono grows sound
  | embedding prompt => simpa only [phase] using sound
  | querying prompt embedding => simpa only [phase] using sound
  | calling mark store => simpa only [phase] using sound
  | storing resp text prompt embedding => simpa only [phase] using sound

theorem Sound.asked_le (sound : c.Sound extract calls) : c.asked ≤ 1 := by
  unfold Sound at sound
  split at sound
  · omega
  · omega
  · omega
  · omega
  · next outcome _ =>
      match outcome, sound with
      | .api .., sound => exact sound.1.le
      | .cached .., sound => exact sound.1.trans_le (Nat.zero_le 1)
      | .raised .api, sound => exact sound.1.le
      | .raised .valueError, sound => exact sound.1.trans_le (Nat.zero_le 1)
      | .raised (.cache _), sound => exact sound.1

theorem sound_begin (client : Wrapped) (kwargs : Kwargs) :
    (begin client kwargs).Sound extract calls := by
  unfold begin Sound
  dsimp only
  cases prompt : kwargs.prompt with
  | none => exact ⟨rfl, rfl, fun _ mem => by cases mem⟩
  | some text => exact ⟨rfl, rfl, rfl⟩

theorem Sound.embedded (sound : c.Sound extract calls) (result : Option Embedding) :
    (c.embedded result).Sound extract calls := by
  unfold Intercept.embedded
  split
  · next prompt phase =>
      unfold Sound at sound
      rw [phase] at sound
      cases result with
      | none => exact ⟨sound.1, sound.2.1, fun _ mem => by cases mem⟩
      | some embedding =>
          dsimp only
          split
          · next empty => exact ⟨sound.1, empty⟩
          · exact sound
  · exact sound

theorem sound_lookupFailed (unasked : c.asked = 0) (unanswered : c.answers = []) (e : CacheExn) :
    (c.lookupFailed e).Sound extract calls := by
  unfold Sound
  by_cases falls : e = .ferrocacheError ∧ c.client.failOpen
  · have phase : (c.lookupFailed e).phase = .calling (some none) none := if_pos falls
    rw [phase]
    exact ⟨unasked, unanswered, fun _ mem => by cases mem⟩
  · have phase : (c.lookupFailed e).phase = .done (.raised (.cache e)) := if_neg falls
    rw [phase]
    refine ⟨unasked.trans_le (Nat.zero_le 1), fun same => ?_⟩
    exact Bool.eq_false_iff.mpr fun opened => falls ⟨same, opened⟩

theorem Sound.looked (sound : c.Sound extract calls) (offered : c.Offered extract calls)
    (reply : LookupReply) : (c.looked reply).Sound extract calls := by
  unfold Intercept.looked
  split
  · next prompt embedding phase =>
      have here := sound
      unfold Sound at here
      rw [phase] at here
      obtain ⟨unasked, unanswered, asked⟩ := here
      cases reply with
      | failed e => exact sound_lookupFailed unasked unanswered e
      | miss =>
          refine ⟨unasked, unanswered, fun pair mem => ?_⟩
          cases mem
          exact asked
      | hit k =>
          dsimp only
          split
          · exact sound
          · next hit found => exact ⟨unasked, unanswered, offered hit (List.mem_of_getElem? found)⟩
  · exact sound

theorem Sound.called (sound : c.Sound extract calls) (result : Option R) :
    (c.called extract result).Sound extract calls := by
  unfold Intercept.called
  split
  · next mark store phase =>
      unfold Sound at sound
      rw [phase] at sound
      obtain ⟨unasked, unanswered, asked⟩ := sound
      have once : c.asked + 1 = 1 := by omega
      cases result with
      | none => exact ⟨once, unanswered⟩
      | some resp =>
          have said : c.answers ++ [resp] = [resp] := by rw [unanswered, List.nil_append]
          unfold Sound
          dsimp only
          rcases store with _ | ⟨prompt, embedding⟩
          · exact ⟨once, said⟩
          · cases text : extract resp with
            | none => exact ⟨once, said⟩
            | some text' => exact ⟨once, said, text, asked _ rfl⟩
  · exact sound

theorem Sound.stored (sound : c.Sound extract calls) (failure : Option CacheExn) :
    (c.stored failure).Sound extract calls := by
  unfold Intercept.stored
  split
  · next resp text prompt embedding phase =>
      unfold Sound at sound
      rw [phase] at sound
      obtain ⟨once, said, -, -⟩ := sound
      unfold Sound
      dsimp only
      cases failure with
      | none => exact ⟨once, said⟩
      | some e =>
          dsimp only
          by_cases falls : e = .ferrocacheError ∧ c.client.failOpen
          · rw [if_pos falls]
            exact ⟨once, said⟩
          · rw [if_neg falls]
            refine ⟨once.le, fun same => ?_⟩
            exact Bool.eq_false_iff.mpr fun opened => falls ⟨same, opened⟩
  · exact sound

theorem Offered.mono (grows : Grows calls calls') (offered : c.Offered extract calls) :
    c.Offered extract calls' :=
  fun hit mem => (offered hit mem).mono grows

theorem Offered.of_same {c' : Intercept R} (offered : c.Offered extract calls)
    (continues : c.Continues c') (same : c'.offers = c.offers) : c'.Offered extract calls := by
  intro hit mem
  rw [same] at mem
  obtain ⟨m, listed, rest⟩ := offered hit mem
  refine ⟨m, ?_, ?_⟩
  · rw [continues.client]
    exact listed
  · rw [continues.client, continues.kwargs]
    exact rest

omit [Platform] in
theorem offers_embedded (result : Option Embedding) : (c.embedded result).offers = c.offers := by
  unfold Intercept.embedded
  split
  · split
    · rfl
    · split <;> rfl
  · rfl

omit [Platform] in
theorem offers_looked (reply : LookupReply) : (c.looked reply).offers = c.offers := by
  unfold Intercept.looked
  split
  · split
    · rfl
    · rfl
    · split <;> rfl
  · rfl

omit [Platform] in
theorem offers_called (result : Option R) : (c.called extract result).offers = c.offers := by
  unfold Intercept.called
  split
  · split <;> rfl
  · rfl

omit [Platform] in
theorem offers_stored (failure : Option CacheExn) : (c.stored failure).offers = c.offers := by
  unfold Intercept.stored
  split <;> rfl

/-- A hit of a node was stored with a text that the API said. -/
theorem serve_spec (sound : c.Sound extract calls) (offered : c.Offered extract calls)
    {idx : SemanticIndex} (wf : idx.WellFormed)
    (only : idx.Only fun m _ record => Origin extract calls m record.response record.queryText)
    (params : LocalParam) (app : QueryState) (now : Nat) :
    (c.serve idx params app now).Sound extract calls ∧
      (c.serve idx params app now).Offered extract calls := by
  obtain ⟨sent, offers, same, found⟩ := c.serve_eq idx params app now
  rw [same]
  refine ⟨sound, fun hit mem => ?_⟩
  rcases found hit mem with old | ⟨prompt, embedding, phase, served⟩
  · exact offered hit old
  · obtain ⟨m, listed, u, e, live, response, reason⟩ := reports_of_answerLocally wf served
    unfold Sound at sound
    rw [phase] at sound
    refine ⟨m, listed, e.queryText, ?_, ?_⟩
    · rw [response]
      exact only m u e live
    · change Matches c.kwargs.prompt _ _ _
      rw [sound.2.2]
      exact reason

end Intercept

namespace Deployment

/-- Everything stored, waiting or on its way was said by the API. -/
structure Sound (d : Deployment R) : Prop where
  wellFormed : ∀ p, (d.nodes p).index.WellFormed
  stored : ∀ P : String → String → Record → Prop,
    (∀ m u record, Origin extract d.calls m record.response record.queryText → P m u record) →
      ∀ p, (d.nodes p).Only P
  wire : ∀ msg ∈ d.wire, ∀ modelId, validateModelId msg.req.modelId = .ok modelId →
    Origin extract d.calls (insertNamespace modelId msg.req.cacheScope msg.req.conversationId)
      msg.req.response msg.req.queryText
  copies : ∀ p full, (p, full) ∈ d.copies →
    Origin extract d.calls full.modelId full.response full.queryText
  calls : ∀ c ∈ d.calls, c.Sound extract d.calls
  offers : ∀ c ∈ d.calls, c.Offered extract d.calls

variable {extract} {fleet : Fleet} {d : Deployment R}

omit [Platform] in
theorem mem_modify {f : Intercept R → Intercept R} {calls : List (Intercept R)} {i : Nat}
    {c : Intercept R} (mem : c ∈ calls.modify i f) : c ∈ calls ∨ ∃ old ∈ calls, c = f old := by
  obtain ⟨j, here⟩ := List.mem_iff_getElem?.mp mem
  rw [List.getElem?_modify] at here
  obtain ⟨old, found, same⟩ := Option.map_eq_some_iff.mp here
  have before := List.mem_of_getElem? found
  split at same
  · exact .inr ⟨old, before, same.symm⟩
  · exact .inl (same ▸ before)

/-- Calls that go on, or begin, leave what is stored as it was. -/
theorem Sound.grow (sound : d.Sound extract) {calls : List (Intercept R)}
    (grows : Grows d.calls calls)
    (steps : ∀ c ∈ calls, c.Sound extract d.calls ∧ c.Offered extract d.calls) :
    ({ d with calls := calls } : Deployment R).Sound extract where
  wellFormed := sound.wellFormed
  stored P covers := sound.stored P fun m u record origin => covers m u record (origin.mono grows)
  wire msg mem modelId valid := (sound.wire msg mem modelId valid).mono grows
  copies p full mem := (sound.copies p full mem).mono grows
  calls c mem := (steps c mem).1.mono grows
  offers c mem := (steps c mem).2.mono grows

theorem Sound.change (sound : d.Sound extract) {f : Intercept R → Intercept R} {i : Nat}
    (continues : ∀ c : Intercept R, c.Continues (f c))
    (steps : ∀ c ∈ d.calls, (f c).Sound extract d.calls ∧ (f c).Offered extract d.calls) :
    (d.change i f).Sound extract := by
  refine sound.grow (.modify continues d.calls i) fun c mem => ?_
  rcases mem_modify mem with old | ⟨old, before, rfl⟩
  · exact ⟨sound.calls c old, sound.offers c old⟩
  · exact steps old before

/-- A step of the client itself, which asks no node. -/
theorem Sound.client (sound : d.Sound extract) {f : Intercept R → Intercept R} {i : Nat}
    (continues : ∀ c : Intercept R, c.Continues (f c)) (quiet : ∀ c, (f c).offers = c.offers)
    (steps : ∀ c ∈ d.calls, (f c).Sound extract d.calls) : (d.change i f).Sound extract :=
  sound.change continues fun c mem =>
    ⟨steps c mem, (sound.offers c mem).of_same (continues c) (quiet c)⟩

theorem Sound.serve (sound : d.Sound extract) (i k : Nat) (app : QueryState) (now : Nat) :
    (d.serve fleet i k app now).Sound extract := by
  have only := fun p => (sound.stored _ (fun _ _ _ origin => origin) p).index
  refine sound.change (fun c => ?_) fun c mem => ?_
  · split
    · exact .refl c
    · exact .serve _ _ app now
  · split
    · exact ⟨sound.calls c mem, sound.offers c mem⟩
    · exact Intercept.serve_spec (sound.calls c mem) (sound.offers c mem) (sound.wellFormed _)
        (only _) _ app now

/-- An insert that is sent carries what the API said. -/
theorem Sound.request (sound : d.Sound extract) {c : Intercept R} (mem : c ∈ d.calls)
    {msg : InsertMessage} (sends : c.request = some msg) {modelId : String}
    (valid : validateModelId msg.req.modelId = .ok modelId) :
    Origin extract d.calls (insertNamespace modelId msg.req.cacheScope msg.req.conversationId)
      msg.req.response msg.req.queryText := by
  have here := sound.calls c mem
  unfold Intercept.request at sends
  unfold Intercept.Sound at here
  split at sends
  · next resp text prompt embedding phase =>
      rw [phase] at here
      obtain ⟨-, said, extracted, asked⟩ := here
      cases sends
      cases validateModelId_eq_ok valid
      exact ⟨c, mem, rfl, asked, resp, by rw [said]; exact List.mem_singleton_self resp, extracted⟩
  · cases sends

theorem Sound.act (sound : d.Sound extract) {p : String} {a : Action}
    (admissible : (d.nodes p).Admissible (fleet.config p) a)
    (submitted : ∀ entry, a = .submit entry → Origin extract d.calls entry.modelId
      entry.response entry.queryText) : (d.act fleet p a).Sound extract where
  wellFormed q := by
    unfold Deployment.act Fleet.act
    by_cases here : q = p
    · subst here
      dsimp only
      rw [Function.update_self]
      exact (Node.act_index (sound.wellFormed q) admissible).wellFormed (sound.wellFormed q)
    · dsimp only
      rw [Function.update_of_ne here]
      exact sound.wellFormed q
  stored P covers q := by
    unfold Deployment.act Fleet.act
    by_cases here : q = p
    · subst here
      dsimp only
      rw [Function.update_self]
      exact (sound.stored P covers q).act (sound.wellFormed q) admissible
        fun entry same _ => covers _ _ _ (submitted entry same)
    · dsimp only
      rw [Function.update_of_ne here]
      exact sound.stored P covers q
  wire := sound.wire
  copies := sound.copies
  calls := sound.calls
  offers := sound.offers

theorem Sound.send (sound : d.Sound extract) {more : List InsertMessage}
    (origins : ∀ msg ∈ more, ∀ modelId, validateModelId msg.req.modelId = .ok modelId →
      Origin extract d.calls (insertNamespace modelId msg.req.cacheScope msg.req.conversationId)
        msg.req.response msg.req.queryText) :
    ({ d with wire := d.wire ++ more } : Deployment R).Sound extract :=
  { sound with
    wire := fun msg mem => (List.mem_append.mp mem).elim (sound.wire msg) (origins msg) }

omit [Platform] in
/-- A request that is not rejected has the model id it is stored under. -/
theorem validateModelId_of_plan {call : InsertCall}
    (accepted : ∀ msg, call.plan ≠ .reject msg) :
    validateModelId call.req.modelId = .ok call.modelId := by
  cases valid : call.req.validate with
  | error msg =>
      refine absurd ?_ (accepted msg)
      unfold InsertCall.plan
      rw [valid]
  | ok _ =>
      unfold InsertRequest.validate at valid
      cases first : validateEmbedding call.req.embedding with
      | error msg =>
          rw [first] at valid
          cases valid
      | ok _ =>
          rw [first] at valid
          cases second : validateModelId call.req.modelId with
          | error msg =>
              rw [second] at valid
              cases valid
          | ok m =>
              unfold InsertCall.modelId
              rw [validateModelId_eq_ok second]
              rfl

theorem Sound.arrive (sound : d.Sound extract) (j : Nat) (app : AppState) (newUuid : String)
    (now : Nat) : (d.arrive fleet j app newUuid now).Sound extract := by
  unfold Deployment.arrive
  split
  · exact sound
  · next msg here =>
      have origin := sound.wire msg (List.mem_of_getElem? here)
      dsimp only
      generalize called : InsertCall.mk (fleet.owner msg.addr) app msg.isLocal msg.req newUuid = call
      have same : call.req = msg.req := by rw [← called]
      have stores : (∀ text, call.plan ≠ .reject text) →
          (d.act fleet (fleet.owner msg.addr) (.submit (call.line now
            (fleet.conversationTtl (fleet.owner msg.addr))))).Sound extract := fun accepted => by
        refine sound.act rfl fun entry line => ?_
        cases line
        have known := origin call.modelId (same ▸ validateModelId_of_plan accepted)
        rw [← same] at known
        exact known
      split
      · exact sound
      · next planned => exact stores fun text reject => by rw [planned] at reject; cases reject
      · next cluster replicas planned =>
          have accepted : ∀ text, call.plan ≠ .reject text := fun text reject => by
            rw [planned] at reject
            cases reject
          have sends : ∀ msg' ∈ forwards app cluster replicas { msg.req with uuid := some newUuid },
              msg'.req = { msg.req with uuid := some newUuid } := by
            intro msg' mem
            unfold forwards at mem
            split at mem
            · obtain ⟨_, -, rfl⟩ := List.mem_map.mp mem
              rfl
            · cases mem
          split
          · refine (stores accepted).send fun msg' mem modelId valid => ?_
            rw [sends msg' mem] at valid ⊢
            exact origin modelId valid
          · refine sound.send fun msg' mem modelId valid => ?_
            rw [sends msg' mem] at valid ⊢
            exact origin modelId valid

theorem Sound.fetch (sound : d.Sound extract) (p addr uuid : String) :
    (d.step extract fleet (.fetch p addr uuid)).Sound extract := by
  refine { sound with copies := fun q full mem => ?_ }
  rcases List.mem_append.mp mem with old | new
  · exact sound.copies q full old
  · obtain ⟨full', found, same⟩ := List.mem_map.mp new
    cases same
    obtain ⟨e, live, -, record⟩ :=
      SemanticIndex.entryAt_of_getEntryByUuid (Option.mem_toList.mp found)
    have origin := (sound.stored _ (fun _ _ _ origin => origin) _).index _ _ e live
    rw [← record] at origin
    exact origin

theorem Sound.copy (sound : d.Sound extract) (j : Nat) : (d.copy fleet j).Sound extract := by
  unfold Deployment.copy
  split
  · exact sound
  · next p full found =>
      refine sound.act rfl fun entry line => ?_
      cases line
      exact sound.copies p full (List.mem_of_getElem? found)

theorem Sound.step (sound : d.Sound extract) {e : ClientEvent R} (admissible : d.Admissible fleet e) :
    (d.step extract fleet e).Sound extract := by
  cases e with
  | start client kwargs =>
      refine sound.grow (.append d.calls [.begin client kwargs]) fun c mem => ?_
      rcases List.mem_append.mp mem with old | new
      · exact ⟨sound.calls c old, sound.offers c old⟩
      · cases List.mem_singleton.mp new
        exact ⟨Intercept.sound_begin client kwargs, fun _ none => by cases none⟩
  | embed i result =>
      exact sound.client (fun _ => .embedded result) (fun _ => Intercept.offers_embedded result)
        fun c mem => (sound.calls c mem).embedded result
  | serve i k app now => exact sound.serve i k app now
  | lookup i reply =>
      exact sound.client (fun _ => .looked reply) (fun _ => Intercept.offers_looked reply)
        fun c mem => (sound.calls c mem).looked (sound.offers c mem) reply
  | api i result =>
      exact sound.client (fun _ => .called extract result) (fun _ => Intercept.offers_called result)
        fun c mem => (sound.calls c mem).called result
  | insert i sent failure =>
      have changed : (d.change i (·.stored failure)).Sound extract :=
        sound.client (fun _ => .stored failure) (fun _ => Intercept.offers_stored failure)
          fun c mem => (sound.calls c mem).stored failure
      refine changed.send fun msg mem modelId valid => ?_
      cases sent with
      | false => cases mem
      | true =>
          obtain ⟨c, found, sends⟩ := Option.bind_eq_some_iff.mp (Option.mem_toList.mp mem)
          exact (sound.request (List.mem_of_getElem? found) sends valid).mono
            (.modify (fun _ => .stored failure) d.calls i)
  | arrive j app newUuid now => exact sound.arrive j app newUuid now
  | fetch p addr uuid => exact sound.fetch p addr uuid
  | copy j => exact sound.copy j
  | node p a => exact sound.act admissible.1 fun entry same => absurd same (admissible.2 entry)

theorem Reachable.sound (reached : Reachable extract fleet d) : d.Sound extract := by
  induction reached with
  | new =>
      exact ⟨fun _ => SemanticIndex.wellFormed_new _, fun _ _ _ => Node.only_new,
        fun _ mem => absurd mem List.not_mem_nil, fun _ _ mem => absurd mem List.not_mem_nil,
        fun _ mem => absurd mem List.not_mem_nil, fun _ mem => absurd mem List.not_mem_nil⟩
  | step e _ admissible ih => exact ih.step admissible

/-- In every run of a cluster and its clients, the API is called at most once for
a call.  A call that ends with a response of the API gives the only one it got.
A call that is answered from the cache did not call the API: the API said the
text to another call, whose insert goes to a namespace that this one consults,
and the prompt of that call has the same text, or the reported similarity is not
below the threshold.  A call ends with the error of an unreachable cache only if
its client does not fail open. -/
theorem answers_from_the_api (reached : Reachable extract fleet d)
    {c : Intercept R} (mem : c ∈ d.calls) :
    c.asked ≤ 1 ∧ ∀ outcome, c.phase = .done outcome → c.Accounts extract d.calls outcome := by
  have sound := reached.sound.calls c mem
  refine ⟨sound.asked_le, fun outcome finished => ?_⟩
  unfold Intercept.Sound at sound
  rw [finished] at sound
  exact sound

end Deployment

end Accounts


/-! ## A question asked twice -/

section Example

local instance middlewareExamplePlatform : Platform := Platform.sample

namespace Deployment

def question (text : String) : Kwargs :=
  ⟨some [⟨some "system", .other⟩, ⟨some "user", .text text⟩], none⟩

def wrapped (url : String) : Wrapped := ⟨url, "m", Platform.one, true, none, none⟩

/-- What node `self` knows: two nodes that hold every entry. -/
def pairApp (self : String) : QueryState :=
  ⟨⟨some (ClusterState.sample self ∅), true, 2, 0⟩, true⟩

/-- The first call is a miss, and node `a` stores its answer; the second one is
answered by way of node `b`, which asks node `a`; the third one cannot reach the
cache. -/
def askedTwice : List (ClientEvent String) :=
  [.start (wrapped "a:3000") (question "Why?"), .embed 0 (some [1#32]), .serve 0 0 (pairApp "a") 0,
    .lookup 0 .miss, .api 0 (some "because"), .insert 0 true none,
    .arrive 0 (pairApp "a").toAppState "p" 3, .node "a" (.collect 1),
    .node "a" (.write .synced), .node "a" .acquire, .node "a" .apply, .node "a" .apply,
    .node "a" (.evict [] ⟨[], fun _ => []⟩), .start (wrapped "b:3000") (question " why?"),
    .embed 1 (some [1#32]), .serve 1 0 (pairApp "b") 4, .serve 1 1 (pairApp "a") 4,
    .lookup 1 (.hit 0), .start (wrapped "b:3000") (question "Why?"), .embed 2 (some [1#32]),
    .lookup 2 (.failed .ferrocacheError), .api 2 (some "no idea")]

theorem answers_from_the_api_sample :
    let d := (new Fleet.sample).run some Fleet.sample askedTwice
    d.calls.map (·.asked) = [1, 0, 1] ∧
      ∀ c ∈ d.calls, c.asked ≤ 1 ∧ ∀ outcome, c.phase = .done outcome →
        c.Accounts some d.calls outcome := by
  refine ⟨by decide +kernel, fun c mem => answers_from_the_api (Reachable.run .new ?_) mem⟩
  refine ⟨trivial, trivial, ?_, trivial, trivial, trivial, trivial, ⟨⟨by decide, by decide⟩, nofun⟩,
    ⟨trivial, nofun⟩, ⟨trivial, nofun⟩, ⟨trivial, nofun⟩, ⟨trivial, nofun⟩,
    ⟨(fun _ capped => by cases capped), nofun⟩, trivial, trivial, ?_, ?_, trivial, trivial, trivial,
    trivial, trivial, trivial⟩
  · intro c addr params found sent
    cases found
    cases sent
    rfl
  · intro c addr params found sent
    cases found
    cases sent
    rfl
  · intro c addr params found sent
    cases found
    cases sent
    rfl

end Deployment

end Example

end Ferrocache
