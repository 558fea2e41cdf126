import Ferrocache.Cluster.Progress
import Ferrocache.Node.Provenance

/-!
# Replicas agree

A forwarded insert may reach a replica any number of times, be copied there by
read repair, and interleave with everything else the node does.  Whatever a
node stores under the coordinator's UUID is the entry of the request, and a node
that acknowledged it holds it, once, until it removes it.
-/

namespace Ferrocache

/-- What the request asks to be stored under the UUID. -/
def InsertCall.Content (call : InsertCall) (m u : String) (r : Record) : Prop :=
  u = call.id → m = call.targetNamespace ∧ r.embedding = call.req.embedding ∧
    r.response = call.req.response ∧ r.queryText = call.req.queryText

theorem InsertCall.line_meets (call : InsertCall) (now : Nat) (ttl : Option Nat) :
    (call.line now ttl).Meets call.Content := fun _ _ => ⟨rfl, rfl, rfl, rfl⟩

namespace SemanticIndex

/-- The index has one entry with the UUID, in namespace `m`, and it satisfies
`Q`. -/
def HoldsOnce (idx : SemanticIndex) (m u : String) (Q : CacheEntry → Prop) : Prop :=
  ∃ ns i e, idx.namespaces.lookup m = some ns ∧ ns.entries.lookup i = some e ∧ e.uuid = u ∧ Q e ∧
    ∀ m' ns' i' e', idx.namespaces.lookup m' = some ns' → ns'.entries.lookup i' = some e' →
      e'.uuid = u → m' = m ∧ i' = i

variable [Platform] {idx : SemanticIndex}

/-- A UUID that is live in one namespace only is held once. -/
theorem holdsOnce_of_entryAt (wf : idx.WellFormed) {m u : String} {e : CacheEntry}
    (live : idx.entryAt m u = some e) {Q : CacheEntry → Prop} (meets : Q e)
    (only : ∀ m' e', idx.entryAt m' u = some e' → m' = m) : idx.HoldsOnce m u Q := by
  obtain ⟨ns, known, found⟩ := Option.bind_eq_some_iff.mp live
  obtain ⟨named, i, stored⟩ := (wf m ns known).getByUuid_eq_some.mp found
  refine ⟨ns, i, e, known, stored, named, meets, fun m' ns' i' e' known' stored' named' => ?_⟩
  have live' : idx.entryAt m' u = some e' := by
    rw [entryAt_of_lookup known', ← named']
    exact (wf m' ns' known').getByUuid_of_entry stored'
  have here := only m' e' live'
  subst here
  cases known.symm.trans known'
  exact ⟨rfl, (wf m' ns known).id_unique stored' stored (named'.trans named.symm)⟩

omit [Platform] in
/-- An entry found by its UUID is live in the namespace it names. -/
theorem entryAt_of_getEntryByUuid {u : String} {full : FullEntry}
    (found : idx.getEntryByUuid u = some full) :
    ∃ e, idx.entryAt full.modelId u = some e ∧ e.uuid = full.uuid ∧
      full.repairLine.cacheEntry.record = e.record := by
  unfold getEntryByUuid at found
  simp only [Option.bind_eq_bind, Option.bind_eq_some_iff] at found
  obtain ⟨m, -, ns, known, e, live, same⟩ := found
  cases same
  refine ⟨e, ?_, rfl, rfl⟩
  rw [entryAt_of_lookup known]
  exact live

end SemanticIndex

namespace Node

variable [Platform] {cfg : NodeConfig} {n : Node}

/-- An acknowledgment is an accepted insertion of a line that was pending. -/
theorem acks_spec (wf : n.index.WellFormed) {uuid : String} {a : Action}
    (acked : n.acks uuid a = true) : ∃ line ∈ n.phase.pending, line.tombstone = false ∧
      line.uuid = uuid ∧ (n.act cfg a).log = n.log ∧
        SemanticIndex.Inserted n.index (n.act cfg a).index line.modelId line.cacheEntry := by
  unfold acks at acked
  split at acked
  · split at acked
    · next line lines compact phase =>
        simp only [Bool.and_eq_true, Bool.not_eq_true', decide_eq_true_eq] at acked
        obtain ⟨⟨insert, named⟩, ok⟩ := acked
        rw [SemanticIndex.replayEntry_of_insert insert] at ok
        have accepted : NamespacedIndex.Accepts (n.index.dimensionOf line.modelId)
            line.cacheEntry.embedding.length := by
          by_contra refused
          obtain ⟨msg, rejected⟩ := SemanticIndex.insertInto_of_not_accepts refused
          rw [rejected] at ok
          cases ok
        obtain ⟨inserted, taken⟩ := SemanticIndex.insertInto_of_accepts wf accepted
        refine ⟨line, by rw [phase]; exact List.mem_cons_self, insert, named, ?_⟩
        simp only [act, Node.apply, phase, SemanticIndex.replayEntry_of_insert insert]
        rcases result : n.index.insertInto line.modelId line.cacheEntry with ⟨index, _ | _⟩
        · rw [result] at taken
          cases taken
        · rw [result] at inserted
          exact ⟨rfl, inserted⟩
    · cases acked
  · cases acked

end Node

namespace Insertion

section Agreement

variable [Platform] {fleet : Fleet} {call : InsertCall} {s : Insertion}

/-- No other request uses the generated UUID. -/
def Fresh (call : InsertCall) : InsertEvent → Prop
  | .node _ (.submit entry) => entry.uuid ≠ call.newUuid
  | _ => True

/-- What every node stores, waits to store or is given by read repair satisfies
`P`. -/
structure Restricted (P : String → String → Record → Prop) (s : Insertion) : Prop where
  wellFormed : ∀ p, (s.nodes p).index.WellFormed
  only : ∀ p, (s.nodes p).Only P
  copies : ∀ full ∈ s.copies, full.repairLine.Meets P

/-- A step whose submissions satisfy `P`. -/
theorem Restricted.step {P : String → String → Record → Prop} (restricted : Restricted P s)
    {e : InsertEvent} (admissible : s.Admissible fleet call e)
    (submitted : ∀ p a, Causes fleet call e p a → ∀ entry, a = .submit entry → entry.Meets P) :
    Restricted P (s.step fleet call e) := by
  have nodes : (∀ p, ((s.step fleet call e).nodes p).index.WellFormed) ∧
      ∀ p, ((s.step fleet call e).nodes p).Only P := by
    rcases step_world e with same | ⟨p, a, causes, acts⟩
    · rw [same]
      exact ⟨restricted.wellFormed, restricted.only⟩
    · rw [acts]
      have able := causes.admissible admissible
      have wf := restricted.wellFormed p
      exact ⟨World.forall_onNode (K := fun n => n.index.WellFormed) restricted.wellFormed
          ((Node.act_index wf able).wellFormed wf),
        World.forall_onNode restricted.only ((restricted.only p).act wf able (submitted p a causes))⟩
  refine ⟨nodes.1, nodes.2, fun full mem _ => ?_⟩
  rcases step_copies e mem with old | ⟨p, found⟩
  · exact restricted.copies full old rfl
  · obtain ⟨e, live, named, record⟩ := SemanticIndex.entryAt_of_getEntryByUuid found
    obtain ⟨ns, known, here⟩ := Option.bind_eq_some_iff.mp live
    have same : e.uuid = call.id :=
      (restricted.wellFormed p full.modelId ns known).getByUuid_eq_some.mp here |>.1
    rw [record]
    change P full.modelId full.uuid e.record
    rw [← named, same]
    exact (restricted.only p).index full.modelId call.id e live

/-- A run in which the request and everything else that is submitted satisfy `P`. -/
theorem Reachable.restricted {guard : InsertEvent → Prop} {start : String → Node}
    {P : String → String → Record → Prop} (own : ∀ now ttl, (call.line now ttl).Meets P)
    (others : ∀ p entry, guard (.node p (.submit entry)) → entry.Meets P)
    (started : ∀ p, (start p).index.WellFormed ∧ (start p).Only P)
    (reached : Reachable fleet call guard start s) : Restricted P s := by
  induction reached with
  | new =>
      exact ⟨fun p => (started p).1, fun p => (started p).2, fun _ mem => absurd mem List.not_mem_nil⟩
  | step e _ admissible guarded ih =>
      refine ih.step admissible fun p a causes entry same => ?_
      cases causes with
      | own now first =>
          cases same
          exact own now _
      | delivered addr now =>
          cases same
          exact own now _
      | repaired p full =>
          cases same
          exact ih.copies full admissible
      | runs p a =>
          subst same
          exact others p entry guarded

/-- A node that acknowledged the UUID and has not removed it holds it. -/
def Held (call : InsertCall) (w : World) : Prop :=
  ∀ p ∈ w.acked, p ∉ w.removed → (w.nodes p).index.entryAt call.targetNamespace call.id ≠ none

theorem Held.step (held : Held call s.toWorld) (restricted : Restricted call.Content s)
    {e : InsertEvent} (admissible : s.Admissible fleet call e) :
    Held call (s.step fleet call e).toWorld := by
  rcases step_world e with same | ⟨p, a, causes, acts⟩
  · rw [same]
    exact held
  rw [acts]
  have wf := restricted.wellFormed p
  intro q acked kept
  rw [World.mem_onNode_acked] at acked
  rw [World.mem_onNode_removed, not_or] at kept
  rcases acked with before | ⟨rfl, now⟩
  · have live := held q before kept.1
    by_cases same : q = p
    · subst same
      rw [World.onNode_nodes_self]
      refine Node.act_entryAt_ne_none wf (causes.admissible admissible) ?_ live
      exact Bool.eq_false_of_not_eq_true fun removes => kept.2 ⟨rfl, removes⟩
    · rw [World.onNode_nodes_of_ne same]
      exact live
  · obtain ⟨line, waits, insert, named, -, inserted⟩ := Node.acks_spec wf now
    obtain ⟨home, -⟩ := (restricted.only q).pending line waits insert named
    rw [World.onNode_nodes_self, inserted.live, if_pos ⟨home.symm, named.symm⟩]
    exact Option.some_ne_none _

/-- What every node of the cluster stores under the generated UUID. -/
theorem Reachable.agrees {start : String → Node} (fresh : call.id = call.newUuid)
    (started : ∀ p, Node.Reachable (fleet.config p) (fun _ => Node.Avoids call.newUuid) (start p))
    (reached : Reachable fleet call (Fresh call) start s) :
    Restricted call.Content s ∧ Held call s.toWorld := by
  have others : ∀ p entry, Fresh call (.node p (.submit entry)) → entry.Meets call.Content :=
    fun _ entry avoids _ named => absurd (named.trans fresh) avoids
  have begun : ∀ p, (start p).index.WellFormed ∧ (start p).Only call.Content := fun p =>
    ⟨(started p).wellFormed, (started p).only fun _ entry avoids _ named =>
      absurd (named.trans fresh) avoids⟩
  have restricted : ∀ {s}, Reachable fleet call (Fresh call) start s → Restricted call.Content s :=
    fun reached => reached.restricted call.line_meets others begun
  refine ⟨restricted reached, ?_⟩
  induction reached with
  | new => exact fun _ acked => absurd acked (Finset.notMem_empty _)
  | step e reached admissible guarded ih => exact ih.step (restricted reached) admissible

/-- When a replicated insert is answered OK, every replica that was not skipped
as dead has acknowledged it, and one that has not removed it since holds exactly
one entry with the UUID, in the namespace and with the embedding, response and
query text of the request.  A crash of the replica, before or after its
acknowledgment, counts as a removal. -/
theorem replicas_hold_request {start : String → Node} {cluster : ClusterState}
    {replicas : List (String × String)} (planned : call.plan = .replicate cluster replicas)
    (started : ∀ p, Node.Reachable (fleet.config p) (fun _ => Node.Avoids call.newUuid) (start p))
    (reached : Reachable fleet call (Fresh call) start s) {id : String}
    (answered : s.phase = .answered (.ok id)) :
    ∀ r ∈ replicas, InsertCall.Targets cluster r →
      call.replicaNode fleet cluster r ∈ s.acked ∧
        (call.replicaNode fleet cluster r ∉ s.removed →
          (s.nodes (call.replicaNode fleet cluster r)).index.HoldsOnce call.targetNamespace id
            fun e => e.embedding = call.req.embedding ∧ e.response = call.req.response ∧
              e.queryText = call.req.queryText) := by
  intro r mem target
  have fresh := call.id_of_replicate planned
  obtain ⟨rfl, ⟨elsewhere, -⟩ | ⟨cluster', replicas', planned', acked⟩⟩ :=
    reached.acknowledged answered
  · cases planned.symm.trans elsewhere
  cases planned.symm.trans planned'
  obtain ⟨restricted, held⟩ := reached.agrees fresh started
  refine ⟨acked r mem target, fun kept => ?_⟩
  have live := held _ (acked r mem target) kept
  obtain ⟨e, found⟩ := Option.ne_none_iff_exists'.mp live
  have content := (restricted.only (call.replicaNode fleet cluster r)).index
  refine SemanticIndex.holdsOnce_of_entryAt (restricted.wellFormed _) found
    (content _ _ e found rfl).2 fun m' e' other => ?_
  exact (content m' _ e' other rfl).1

end Agreement

/-! ## Two replicas, a lost reply and a duplicate -/

section Example

local instance replicasExamplePlatform : Platform := Platform.sample

def sampleRequest : InsertRequest where
  embedding := [0x3F800000#32]
  response := "r"
  queryText := "q"
  modelId := some "m"
  uuid := none
  ttlSeconds := none
  cacheScope := none
  conversationId := none

/-- `a` coordinates an insert on both nodes. -/
def sampleCall : InsertCall :=
  ⟨"a", ⟨some (ClusterState.sample "a" ∅), true, 2, 3⟩, false, sampleRequest, "id"⟩

/-- The first reply of `b` is lost and the insert is delivered again. -/
def sampleEvents : List InsertEvent :=
  [.receive 0, .node "a" (.collect 1), .node "a" (.write .synced), .node "a" .acquire,
    .node "a" .apply, .flushed .ok, .forward, .deliver "b:3000" 5, .outcome .retryable,
    .deliver "b:3000" 6, .node "b" (.collect 2), .node "b" (.write .synced), .node "b" .acquire,
    .node "b" .apply, .node "b" .apply, .outcome .ok, .forward]

def sampleStart : Insertion := .new fun _ => Node.new ⟨⟨0, none⟩, 256, 0⟩

theorem allowed_sampleEvents :
    Allowed Fleet.sample sampleCall (fun _ => True) sampleStart sampleEvents := by
  refine ⟨trivial, trivial, ⟨by decide, by decide⟩, trivial, trivial, trivial, trivial, trivial,
    trivial, trivial, ?_⟩
  refine ⟨fun _ => by decide +kernel, trivial, trivial, trivial, ?_⟩
  refine ⟨show "b:3000" ∈ Insertion.sent _ by decide +kernel, trivial, ?_⟩
  refine ⟨fun lost => (nomatch lost), trivial, ?_⟩
  refine ⟨show "b:3000" ∈ Insertion.sent _ by decide +kernel, trivial, ?_⟩
  refine ⟨⟨by decide, by decide⟩, trivial, trivial, trivial, trivial, trivial, trivial, trivial,
    trivial, trivial, ?_⟩
  refine ⟨fun _ addr attempt rest phase => ?_, trivial, trivial, trivial, trivial⟩
  have second : (sampleStart.run Fleet.sample sampleCall (sampleEvents.take 15)).phase =
      .forwarding "b:3000" 1 [] := by
    decide +kernel
  cases second.symm.trans phase
  decide +kernel

theorem plan_sampleCall : sampleCall.plan =
    .replicate (ClusterState.sample "a" ∅) [("a", "a:3000"), ("b", "b:3000")] := by
  have valid : sampleRequest.validate = .ok () := by decide +kernel
  have replicas : (ClusterState.sample "a" ∅).getReplicaAddrs sampleRequest.embedding 2 =
      [("a", "a:3000"), ("b", "b:3000")] := by
    decide +kernel
  simp only [InsertCall.plan, sampleCall, valid, Bool.false_eq_true, if_false, replicas]

theorem replicas_hold_request_sample :
    let s := sampleStart.run Fleet.sample sampleCall sampleEvents
    s.phase = .answered (.ok "id") ∧ (s.nodes "b").index.HoldsOnce "m" "id" fun e =>
      e.embedding = [0x3F800000#32] ∧ e.response = "r" ∧ e.queryText = "q" := by
  have answered : (sampleStart.run Fleet.sample sampleCall sampleEvents).phase =
      .answered (.ok "id") := by
    decide +kernel
  have fresh : ∀ e ∈ sampleEvents, Fresh sampleCall e := by
    simp [sampleEvents, Fresh]
  have held := replicas_hold_request plan_sampleCall (fun _ => .new)
    (.run .new (allowed_sampleEvents.of_forall fresh)) answered ("b", "b:3000") (by decide)
    (.inr (by decide +kernel))
  exact ⟨answered, held.2 (by decide +kernel)⟩

end Example

end Insertion

end Ferrocache
