import Ferrocache.Index.Search
import Ferrocache.Index.Ids

/-!
# The owner of a text

The exact-match index keeps one UUID for each normalised text, the owner, while
any number of live entries may share the text.  The last insertion becomes the
owner, and a removed owner is not replaced.  A query with the text of a live
entry therefore finds it by the text exactly as long as the owner is there and
does not expire before the others (`ExactComplete`, `Owned`).

`KeepsOwners` says which calls keep it so: an insertion must outlive the live
entries whose text it takes over, and a removal must not take the owner away
while another live entry has its text.  Expiry passes, access bookkeeping and
rebuilds always keep it.
-/

namespace Ferrocache

/-- The entry expires no earlier than the other one. -/
def CacheEntry.outlives (e f : CacheEntry) : Bool :=
  match e.expiresAt, f.expiresAt with
  | none, _ => true
  | some _, none => false
  | some a, some b => decide (b ≤ a)

theorem CacheEntry.outlives_iff {e f : CacheEntry} :
    e.outlives f = true ↔ ∀ now, f.liveAt now = true → e.liveAt now = true := by
  unfold outlives liveAt
  cases e.expiresAt with
  | none => simp
  | some a =>
      cases f.expiresAt with
      | none =>
          simp only [Bool.false_eq_true, decide_eq_true_eq, forall_const, false_iff]
          exact fun all => absurd (all (a + 1)) (by omega)
      | some b =>
          simp only [decide_eq_true_eq]
          constructor
          · intro order now live
            exact live.trans order
          · exact fun all => all b (le_refl b)

theorem CacheEntry.outlives_refl (e : CacheEntry) : e.outlives e = true :=
  outlives_iff.mpr fun _ live => live

theorem CacheEntry.liveAt_zero (e : CacheEntry) : e.liveAt 0 = true := by
  unfold liveAt
  split
  · rfl
  · exact decide_eq_true (Nat.zero_le _)

namespace NamespacedIndex

section Owner

variable [Platform]

/-- The key of an entry in the exact-match index. -/
def textKey (e : CacheEntry) : String := normalizeQueryText e.queryText

omit [Platform] in
/-- The entry is live in the namespace. -/
def Stored (ns : NamespacedIndex) (e : CacheEntry) : Prop := ∃ i, ns.entries.lookup i = some e

/-- A query with the text of a live entry is answered by the text, whatever the
embedding and the threshold. -/
def ExactComplete (ns : NamespacedIndex) : Prop :=
  ∀ text now, normalizeQueryText text ≠ "" →
    (∃ e, ns.Stored e ∧ e.liveAt now = true ∧ textKey e = normalizeQueryText text) →
      ∀ embedding threshold, ∃ hit,
        ns.queryWithText embedding threshold (some text) now = .ok (some hit) ∧
          hit.exactMatch = true

/-- Every text of a live entry has an owner that outlives the entry. -/
def Owned (ns : NamespacedIndex) : Prop :=
  ∀ e, ns.Stored e → textKey e ≠ "" →
    ∃ f, ns.Stored f ∧ ns.exactMatchIndex.lookup (textKey e) = some f.uuid ∧ f.outlives e = true

variable {ns : NamespacedIndex}

/-! ## Completeness is ownership -/

/-- The owner answers as long as it is not expired. -/
theorem WellFormed.exactMatch_of_owner (wf : ns.WellFormed) {text : String} {now : Nat}
    {f : CacheEntry} (nonempty : normalizeQueryText text ≠ "") (stored : ns.Stored f)
    (owner : ns.exactMatchIndex.lookup (normalizeQueryText text) = some f.uuid) :
    ns.exactMatch text now =
      if f.liveAt now then (ns.uuidToInternal.lookup f.uuid).map
        fun j => ⟨f.uuid, f.response, Platform.one, j, true⟩ else none := by
  obtain ⟨j, found⟩ := stored
  have known := (wf.inverse f.uuid j).mpr ⟨f, found, rfl⟩
  have present := wf.disjoint j (Finmap.mem_of_lookup_eq_some found)
  unfold exactMatch
  simp only [owner, known, found, Option.bind_eq_bind, Option.bind_some, guard]
  simp only [nonempty, present, ne_eq, not_false_iff, if_true, Option.pure_def, Option.bind_some]
  split <;> rfl

/-- A hit of the scan is not an exact match. -/
theorem exactMatch_of_scanNeighbours {threshold : F32} {now : Nat} {neighbours : List Neighbour}
    {hit : QueryHit} (found : ns.scanNeighbours threshold now neighbours = .ok (some hit)) :
    hit.exactMatch = false := by
  induction neighbours with
  | nil => cases found
  | cons n neighbours ih =>
      unfold scanNeighbours at found
      split at found
      · exact ih found
      · split at found
        · cases found
        · split at found
          · cases found
          · split at found
            · exact ih found
            · cases found
              rfl

/-- An exact hit comes from the text index. -/
theorem exactMatch_of_query {embedding : Embedding} {threshold : F32} {text : String} {now : Nat}
    {hit : QueryHit} (found : ns.queryWithText embedding threshold (some text) now = .ok (some hit))
    (exact : hit.exactMatch = true) : ns.exactMatch text now = some hit := by
  unfold queryWithText at found
  rw [Option.bind_some] at found
  cases matched : ns.exactMatch text now with
  | some other =>
      rw [matched] at found
      cases found
      rfl
  | none =>
      rw [matched] at found
      dsimp only at found
      unfold queryAnn at found
      split at found
      · cases found
      · split at found
        · cases found
        · rw [exactMatch_of_scanNeighbours found] at exact
          cases exact

/-- What answers by the text is the owner, while it is not expired. -/
theorem WellFormed.owner_of_exactMatch (wf : ns.WellFormed) {text : String} {now : Nat}
    {hit : QueryHit} (nonempty : normalizeQueryText text ≠ "")
    (found : ns.exactMatch text now = some hit) :
    ∃ f, ns.Stored f ∧ ns.exactMatchIndex.lookup (normalizeQueryText text) = some f.uuid ∧
      f.liveAt now = true := by
  cases owner : ns.exactMatchIndex.lookup (normalizeQueryText text) with
  | none =>
      unfold exactMatch at found
      simp [owner] at found
  | some uuid =>
      obtain ⟨-, i, f, here, rfl, -⟩ := wf.text _ _ owner
      refine ⟨f, ⟨i, here⟩, rfl, ?_⟩
      rw [wf.exactMatch_of_owner nonempty ⟨i, here⟩ owner] at found
      by_contra expired
      rw [if_neg expired] at found
      cases found

theorem WellFormed.exactComplete_iff (wf : ns.WellFormed) : ns.ExactComplete ↔ ns.Owned := by
  constructor
  · intro complete e stored nonempty
    -- at any time the entry is live, its owner answers for it
    have answers : ∀ now, e.liveAt now = true → ∃ f, ns.Stored f ∧
        ns.exactMatchIndex.lookup (textKey e) = some f.uuid ∧ f.liveAt now = true := by
      intro now live
      obtain ⟨hit, answered, exact⟩ :=
        complete e.queryText now nonempty ⟨e, stored, live, rfl⟩ [] Platform.one
      exact wf.owner_of_exactMatch nonempty (exactMatch_of_query answered exact)
    obtain ⟨f, ⟨j, here⟩, owner, -⟩ := answers 0 e.liveAt_zero
    refine ⟨f, ⟨j, here⟩, owner, CacheEntry.outlives_iff.mpr fun now live => ?_⟩
    obtain ⟨g, ⟨k, there⟩, owner', alive⟩ := answers now live
    have same : f.uuid = g.uuid := Option.some.inj (owner.symm.trans owner')
    have place := wf.id_unique here there same
    rw [place, there] at here
    exact Option.some.inj here ▸ alive
  · rintro owned text now nonempty ⟨e, stored, live, key⟩ embedding threshold
    obtain ⟨f, ⟨j, here⟩, owner, outlives⟩ := owned e stored (key ▸ nonempty)
    have alive := CacheEntry.outlives_iff.mp outlives now live
    rw [key] at owner
    have known := (wf.inverse f.uuid j).mpr ⟨f, here, rfl⟩
    have matched : ns.exactMatch text now = _ := wf.exactMatch_of_owner nonempty ⟨j, here⟩ owner
    rw [if_pos alive, known, Option.map_some] at matched
    refine ⟨⟨f.uuid, f.response, Platform.one, j, true⟩, ?_, rfl⟩
    rw [queryWithText, Option.bind_some, matched]

/-! ## Calls that keep the owners -/

/-- The insertion stores a new entry. -/
def Adds (ns : NamespacedIndex) (entry : CacheEntry) : Prop :=
  Accepts ns.dimension entry.embedding.length ∧ entry.uuid ∉ ns.uuidToInternal

/-- Removing the entry under this id leaves no live entry with its text behind,
if it is the owner of the text. -/
def Removable (ns : NamespacedIndex) (id : Nat) : Prop :=
  ∀ e, ns.entries.lookup id = some e → ns.exactMatchIndex.lookup (textKey e) = some e.uuid →
    ∀ j f, ns.entries.lookup j = some f → textKey f = textKey e → j = id

/-- The call keeps an owner for every text of a live entry. -/
def KeepsOwners (ns : NamespacedIndex) : Op → Prop
  | .insertWithUuid entry => ns.Adds entry → textKey entry ≠ "" →
      ∀ i e, ns.entries.lookup i = some e → textKey e = textKey entry → entry.outlives e = true
  | .evictLru _ => ∀ id, ns.lruId = some id → ns.Removable id
  | .removeByUuid uuid => ∀ id, ns.uuidToInternal.lookup uuid = some id → ns.Removable id
  | .removeInternal internalId => ns.Removable internalId
  | .collectExpiredWithin _ _ => True
  | .recordAccess _ _ => True
  | .rebuild _ => True

/-! ### Insertions -/

/-- An insertion that stores fixes the dimension and adds the entry. -/
theorem insertWithUuid_eq_addEntry {entry : CacheEntry} (adds : ns.Adds entry) :
    (ns.insertWithUuid entry).1 =
      { ns with dimension := some entry.embedding.length }.addEntry entry := by
  unfold NamespacedIndex.insertWithUuid
  rcases adds.1 with unset | set
  · rw [unset]
    dsimp only
    rw [if_neg adds.2]
  · rw [set]
    dsimp only
    rw [if_neg (not_not_intro rfl), if_neg adds.2, ← set]

theorem insertWithUuid_of_adds {entry : CacheEntry} (adds : ns.Adds entry) :
    (ns.insertWithUuid entry).1.entries = ns.entries.insert ns.nextId entry ∧
      (ns.insertWithUuid entry).1.exactMatchIndex =
        registerText ns.exactMatchIndex entry.queryText entry.uuid := by
  rw [insertWithUuid_eq_addEntry adds]
  exact ⟨rfl, rfl⟩

theorem insertWithUuid_of_not_adds {entry : CacheEntry} (idle : ¬ ns.Adds entry) :
    (ns.insertWithUuid entry).1.entries = ns.entries ∧
      (ns.insertWithUuid entry).1.exactMatchIndex = ns.exactMatchIndex := by
  by_cases accepted : Accepts ns.dimension entry.embedding.length
  · have known : entry.uuid ∈ ns.uuidToInternal := by
      by_contra fresh
      exact idle ⟨accepted, fresh⟩
    unfold NamespacedIndex.insertWithUuid
    rcases accepted with unset | set
    · rw [unset]
      dsimp only
      rw [if_pos known]
      exact ⟨rfl, rfl⟩
    · rw [set]
      dsimp only
      rw [if_neg (not_not_intro rfl), if_pos known]
      exact ⟨rfl, rfl⟩
  · rw [(WellFormed.insertWithUuid_of_not_accepts accepted).1]
    exact ⟨rfl, rfl⟩

theorem Owned.congr {ns' : NamespacedIndex} (entries : ns'.entries = ns.entries)
    (texts : ns'.exactMatchIndex = ns.exactMatchIndex) : ns'.Owned ↔ ns.Owned := by
  unfold Owned Stored
  rw [entries, texts]

theorem lookup_registerText_eq (index : HashMap String String) (queryText uuid k : String) :
    (registerText index queryText uuid).lookup k =
      if normalizeQueryText queryText ≠ "" ∧ k = normalizeQueryText queryText then some uuid
      else index.lookup k := by
  unfold registerText
  by_cases blank : normalizeQueryText queryText = ""
  · rw [if_pos blank, if_neg fun both => both.1 blank]
  · rw [if_neg blank, HashMap.lookup_insert_eq]
    simp only [ne_eq, blank, not_false_iff, true_and]

theorem WellFormed.stored_insertWithUuid (wf : ns.WellFormed) {entry : CacheEntry}
    (adds : ns.Adds entry) (e : CacheEntry) :
    (ns.insertWithUuid entry).1.Stored e ↔ ns.Stored e ∨ e = entry := by
  unfold Stored
  rw [(insertWithUuid_of_adds adds).1]
  simp only [HashMap.lookup_insert_eq]
  constructor
  · rintro ⟨i, found⟩
    split at found
    · exact Or.inr (Option.some.inj found).symm
    · exact Or.inl ⟨i, found⟩
  · rintro (⟨i, found⟩ | rfl)
    · have other : i ≠ ns.nextId := (wf.lt_nextId found).ne
      exact ⟨i, by rw [if_neg other]; exact found⟩
    · exact ⟨ns.nextId, if_pos rfl⟩

/-- After an insertion, the owners outlive the entries they answer for if and
only if the new entry outlives those whose text it takes over. -/
theorem Owned.insertWithUuid_iff (owned : ns.Owned) (wf : ns.WellFormed) (entry : CacheEntry) :
    (ns.insertWithUuid entry).1.Owned ↔ ns.KeepsOwners (.insertWithUuid entry) := by
  by_cases adds : ns.Adds entry
  · have texts := (insertWithUuid_of_adds adds).2
    have stored := wf.stored_insertWithUuid adds
    constructor
    · intro owned' _ nonempty i e found key
      obtain ⟨f, stored', owner, outlives⟩ :=
        owned' e ((stored e).mpr (Or.inl ⟨i, found⟩)) (key ▸ nonempty)
      rw [texts, lookup_registerText_eq, if_pos ⟨nonempty, key⟩] at owner
      have named : entry.uuid = f.uuid := Option.some.inj owner
      rcases (stored f).mp stored' with ⟨j, old⟩ | rfl
      · have known := (wf.inverse f.uuid j).mpr ⟨f, old, rfl⟩
        rw [← named] at known
        exact absurd (Finmap.mem_of_lookup_eq_some known) adds.2
      · exact outlives
    · intro keeps e inNew nonempty
      rw [texts, lookup_registerText_eq]
      by_cases taken : normalizeQueryText entry.queryText ≠ "" ∧
          textKey e = normalizeQueryText entry.queryText
      · rw [if_pos taken]
        refine ⟨entry, (stored entry).mpr (Or.inr rfl), rfl, ?_⟩
        rcases (stored e).mp inNew with ⟨i, found⟩ | rfl
        · exact keeps adds taken.1 i e found taken.2
        · exact e.outlives_refl
      · rw [if_neg taken]
        rcases (stored e).mp inNew with old | rfl
        · obtain ⟨f, stored', owner, outlives⟩ := owned e old nonempty
          exact ⟨f, (stored f).mpr (Or.inl stored'), owner, outlives⟩
        · exact absurd ⟨nonempty, rfl⟩ taken
  · obtain ⟨entries, texts⟩ := insertWithUuid_of_not_adds adds
    rw [Owned.congr entries texts]
    exact iff_of_true owned fun added => absurd added adds

/-! ### Removals -/

theorem lookup_unregisterText_eq (index : HashMap String String) (queryText uuid k : String) :
    (unregisterText index queryText uuid).lookup k =
      if (normalizeQueryText queryText ≠ "" ∧
        index.lookup (normalizeQueryText queryText) = some uuid) ∧
          k = normalizeQueryText queryText then none else index.lookup k := by
  unfold unregisterText
  split
  · next owner =>
      rw [HashMap.lookup_erase_eq]
      simp only [owner, ne_eq, not_false_iff, true_and]
  · next kept => rw [if_neg fun both => kept both.1]

theorem dropEntry_texts {id : Nat} {entry : CacheEntry}
    (found : ns.entries.lookup id = some entry) : (ns.dropEntry id).1.exactMatchIndex =
      unregisterText ns.exactMatchIndex entry.queryText entry.uuid := by
  unfold NamespacedIndex.dropEntry
  rw [found]

/-- The owner of a text has the text. -/
theorem WellFormed.key_of_owner (wf : ns.WellFormed) {k : String} {i : Nat} {f : CacheEntry}
    (found : ns.entries.lookup i = some f)
    (owner : ns.exactMatchIndex.lookup k = some f.uuid) : k ≠ "" ∧ textKey f = k := by
  obtain ⟨nonempty, j, g, there, named, key⟩ := wf.text k f.uuid owner
  have place := wf.id_unique there found named
  rw [place, found] at there
  cases Option.some.inj there
  exact ⟨nonempty, key.symm⟩

/-- After a removal, every text still has its owner if and only if the removed
entry was not the owner, or no live entry shares its text. -/
theorem Owned.dropEntry_iff (owned : ns.Owned) (wf : ns.WellFormed) (id : Nat) :
    (ns.dropEntry id).1.Owned ↔ ns.Removable id := by
  cases found : ns.entries.lookup id with
  | none =>
      rw [WellFormed.dropEntry_of_absent found]
      refine iff_of_true owned fun e there => ?_
      rw [found] at there
      cases there
  | some entry =>
      have texts := dropEntry_texts found
      constructor
      · intro owned' e here owner j f there shared
        cases Option.some.inj (found.symm.trans here)
        by_contra other
        obtain ⟨nonempty, -⟩ := wf.key_of_owner found owner
        have stored : (ns.dropEntry id).1.Stored f := ⟨j, by
          rw [lookup_dropEntry, if_neg other]
          exact there⟩
        obtain ⟨g, -, orphan, -⟩ := owned' f stored (shared ▸ nonempty)
        rw [texts, lookup_unregisterText_eq, if_pos ⟨⟨nonempty, owner⟩, shared⟩] at orphan
        cases orphan
      · rintro removable e ⟨j, kept⟩ nonempty
        rw [lookup_dropEntry] at kept
        split at kept
        · cases kept
        · next other =>
            obtain ⟨f, ⟨k, here⟩, owner, outlives⟩ := owned e ⟨j, kept⟩ nonempty
            obtain ⟨-, key⟩ := wf.key_of_owner here owner
            have apart : k ≠ id := fun same => by
              rw [same, found] at here
              cases Option.some.inj here
              exact other (removable entry found (key ▸ owner) j e kept key.symm)
            refine ⟨f, ⟨k, ?_⟩, ?_, outlives⟩
            · rw [lookup_dropEntry, if_neg apart]
              exact here
            · rw [texts, lookup_unregisterText_eq, if_neg]
              · exact owner
              · rintro ⟨⟨-, named⟩, same⟩
                rw [← same, owner] at named
                exact apart (wf.id_unique here found (Option.some.inj named))

theorem Owned.evictLru_iff (owned : ns.Owned) (wf : ns.WellFormed) (modelId : String) :
    (ns.evictLru modelId).1.Owned ↔ ns.KeepsOwners (.evictLru modelId) := by
  rw [evictLru_fst]
  cases chosen : ns.lruId with
  | none =>
      refine iff_of_true owned fun id there => ?_
      rw [chosen] at there
      cases there
  | some evictId =>
      simp only [KeepsOwners, chosen, Option.some.injEq, forall_eq']
      exact owned.dropEntry_iff wf evictId

theorem Owned.removeByUuid_iff (owned : ns.Owned) (wf : ns.WellFormed) (uuid : String) :
    (ns.removeByUuid uuid).1.Owned ↔ ns.KeepsOwners (.removeByUuid uuid) := by
  unfold NamespacedIndex.removeByUuid
  cases known : ns.uuidToInternal.lookup uuid with
  | none =>
      refine iff_of_true owned fun id there => ?_
      rw [known] at there
      cases there
  | some id =>
      simp only [KeepsOwners, known, Option.some.injEq, forall_eq']
      exact owned.dropEntry_iff wf id

/-! ### Expiry, access bookkeeping and rebuilds -/

/-- A run of removals keeps the slot of a UUID it does not remove. -/
theorem lookup_texts_dropAll {ids : List Nat} {k u : String}
    (spared : ∀ id ∈ ids, ∀ e, ns.entries.lookup id = some e → e.uuid ≠ u)
    (owner : ns.exactMatchIndex.lookup k = some u) :
    (ns.dropAll ids).1.exactMatchIndex.lookup k = some u := by
  induction ids generalizing ns with
  | nil => exact owner
  | cons id ids ih =>
      rw [dropAll_cons]
      refine ih (fun j mem e kept => ?_) ?_
      · rw [lookup_dropEntry] at kept
        split at kept
        · cases kept
        · exact spared j (List.mem_cons_of_mem _ mem) e kept
      · cases found : ns.entries.lookup id with
        | none =>
            rw [WellFormed.dropEntry_of_absent found]
            exact owner
        | some entry =>
            rw [dropEntry_texts found, lookup_unregisterText_eq, if_neg]
            · exact owner
            · rintro ⟨⟨-, named⟩, key⟩
              rw [← key, owner] at named
              exact spared id List.mem_cons_self entry found (Option.some.inj named).symm

/-- An owner outlives the entries it answers for, so an expiry pass that keeps
one of them keeps the owner. -/
theorem Owned.collectExpiredWithin (owned : ns.Owned) (wf : ns.WellFormed) {order : List Nat}
    (iter : HashMap.IterOrder ns.entries order) (now : Nat) :
    (ns.collectExpiredWithin order now).1.Owned := by
  rintro e ⟨i, kept⟩ nonempty
  obtain ⟨found, live⟩ := (lookup_collectExpiredWithin iter).mp kept
  obtain ⟨f, ⟨j, here⟩, owner, outlives⟩ := owned e ⟨i, found⟩ nonempty
  have alive := CacheEntry.outlives_iff.mp outlives now live
  refine ⟨f, ⟨j, (lookup_collectExpiredWithin iter).mpr ⟨here, alive⟩⟩, ?_, outlives⟩
  refine lookup_texts_dropAll (fun id listed g there named => ?_) owner
  have expired := (List.mem_filter.mp listed).2
  rw [there] at expired
  have place := wf.id_unique there here named
  rw [place, here] at there
  cases Option.some.inj there
  dsimp only at expired
  rw [alive] at expired
  cases expired

omit [Platform] in
theorem lookup_recordAccess (internalId now i : Nat) :
    (ns.recordAccess internalId now).entries.lookup i =
      (ns.entries.lookup i).map fun e => if i = internalId then e.accessed now else e := by
  unfold NamespacedIndex.recordAccess
  cases found : ns.entries.lookup internalId with
  | none =>
      dsimp only
      by_cases same : i = internalId
      · rw [same, found]
        rfl
      · simp only [same, if_false, Option.map_id']
  | some entry =>
      dsimp only
      rw [HashMap.lookup_insert_eq]
      by_cases same : i = internalId
      · rw [if_pos same, same, found, Option.map_some, if_pos rfl]
        rfl
      · simp only [same, if_false, Option.map_id']

theorem Owned.recordAccess (owned : ns.Owned) (internalId now : Nat) :
    (ns.recordAccess internalId now).Owned := by
  have texts : (ns.recordAccess internalId now).exactMatchIndex = ns.exactMatchIndex := by
    unfold NamespacedIndex.recordAccess
    cases ns.entries.lookup internalId with
    | none => rfl
    | some entry => rfl
  rintro e ⟨i, touched⟩ nonempty
  rw [lookup_recordAccess] at touched
  obtain ⟨e₀, found, rfl⟩ := Option.map_eq_some_iff.mp touched
  -- the text, the UUID and the deadline of an entry are not touched
  have key : textKey (if i = internalId then e₀.accessed now else e₀) = textKey e₀ := by
    split <;> rfl
  rw [key] at nonempty ⊢
  obtain ⟨f, ⟨j, here⟩, owner, outlives⟩ := owned e₀ ⟨i, found⟩ nonempty
  refine ⟨_, ⟨j, (lookup_recordAccess internalId now j).trans (by rw [here]; rfl)⟩, ?_, ?_⟩
  · rw [texts, owner]
    split <;> rfl
  · rw [← outlives]
    split <;> split <;> rfl

theorem Owned.rebuild (owned : ns.Owned) (wf : ns.WellFormed) {order : List Nat}
    (iter : HashMap.IterOrder ns.entries order) : (ns.rebuild order).Owned := by
  have stored : ∀ e, (ns.rebuild order).Stored e ↔ ns.Stored e := (wf.rebuild_spec iter).2
  have texts : (ns.rebuild order).exactMatchIndex = ns.exactMatchIndex :=
    (WellFormed.refill_frame ns.drained _).1
  intro e inNew nonempty
  obtain ⟨f, here, owner, outlives⟩ := owned e ((stored e).mp inNew) nonempty
  exact ⟨f, (stored f).mpr here, texts ▸ owner, outlives⟩

/-! ## Runs -/

theorem Owned.apply_iff (owned : ns.Owned) (wf : ns.WellFormed) {op : Op}
    (admissible : ns.Admissible op) : (ns.apply op).Owned ↔ ns.KeepsOwners op := by
  cases op with
  | insertWithUuid entry => exact owned.insertWithUuid_iff wf entry
  | evictLru modelId => exact owned.evictLru_iff wf modelId
  | removeByUuid uuid => exact owned.removeByUuid_iff wf uuid
  | removeInternal internalId => exact owned.dropEntry_iff wf internalId
  | collectExpiredWithin order now =>
      exact iff_of_true (owned.collectExpiredWithin wf admissible now) trivial
  | recordAccess internalId now => exact iff_of_true (owned.recordAccess internalId now) trivial
  | rebuild order => exact iff_of_true (owned.rebuild wf admissible) trivial

/-- The states after any sequence of calls that all keep the owners. -/
inductive OwnerRun (cfg : HnswConfig) : NamespacedIndex → Prop
  | new : OwnerRun cfg (new cfg)
  | call {ns : NamespacedIndex} (op : Op) : OwnerRun cfg ns → ns.Admissible op →
    ns.KeepsOwners op → OwnerRun cfg (ns.apply op)

theorem OwnerRun.reachable {cfg : HnswConfig} (run : OwnerRun cfg ns) : Reachable cfg ns := by
  induction run with
  | new => exact .new
  | call op _ admissible _ ih => exact .call op ih admissible

theorem OwnerRun.owned {cfg : HnswConfig} (run : OwnerRun cfg ns) : ns.Owned := by
  induction run with
  | new =>
      rintro e ⟨i, found⟩
      simp [NamespacedIndex.new] at found
  | call op before admissible keeps ih =>
      exact (ih.apply_iff (representation_invariant before.reachable) admissible).mpr keeps

/-- In every run whose calls keep the owners, the text of a live entry finds an
exact match in every state reached; and from any such state, a call leaves it so
only if it keeps the owners. -/
theorem exactComplete_iff_keepsOwners {cfg : HnswConfig} (run : OwnerRun cfg ns) :
    ns.ExactComplete ∧
      ∀ op, ns.Admissible op → ((ns.apply op).ExactComplete ↔ ns.KeepsOwners op) := by
  have wf := representation_invariant run.reachable
  refine ⟨wf.exactComplete_iff.mpr run.owned, fun op admissible => ?_⟩
  rw [(wf.apply admissible).exactComplete_iff]
  exact run.owned.apply_iff wf admissible

end Owner

section Example

local instance ownerExamplePlatform : Platform := Platform.sample

/-- Two live entries with one text; the second one owns it. -/
def shared : NamespacedIndex :=
  [Op.insertWithUuid (sampleEntry "a" "Hi"), .insertWithUuid (sampleEntry "b" "hi")].foldl
    apply (new ⟨0, none⟩)

theorem shared_entries {i : Nat} {e : CacheEntry} (found : shared.entries.lookup i = some e) :
    (i = 0 ∧ e = sampleEntry "a" "Hi") ∨ (i = 1 ∧ e = sampleEntry "b" "hi") := by
  have table : shared.entries =
      (Finmap.insert 0 (sampleEntry "a" "Hi") ∅).insert 1 (sampleEntry "b" "hi") := rfl
  rw [table, HashMap.lookup_insert_eq, HashMap.lookup_insert_eq, Finmap.lookup_empty] at found
  split at found
  · next second => exact .inr ⟨second, (Option.some.inj found).symm⟩
  · split at found
    · next first => exact .inl ⟨first, (Option.some.inj found).symm⟩
    · cases found

/-- The text is found, also after the entry that does not own it is deleted. -/
theorem exactComplete_iff_keepsOwners_sample :
    shared.ExactComplete ∧ (shared.apply (.removeByUuid "a")).ExactComplete := by
  have first : OwnerRun ⟨0, none⟩
      ((new ⟨0, none⟩).apply (.insertWithUuid (sampleEntry "a" "Hi"))) := by
    refine .call _ .new trivial fun _ _ i e found => ?_
    simp [new] at found
  have run : OwnerRun ⟨0, none⟩ shared :=
    .call (.insertWithUuid (sampleEntry "b" "hi")) first trivial fun _ _ _ _ _ _ => rfl
  obtain ⟨complete, step⟩ := exactComplete_iff_keepsOwners run
  refine ⟨complete, (step (.removeByUuid "a") trivial).mpr fun id known e here owner => ?_⟩
  have place : shared.uuidToInternal.lookup "a" = some 0 := by decide +kernel
  cases Option.some.inj (place.symm.trans known)
  rcases shared_entries here with ⟨-, rfl⟩ | ⟨wrong, -⟩
  · have other : shared.exactMatchIndex.lookup (textKey (sampleEntry "a" "Hi")) = some "b" := by
      decide +kernel
    rw [other] at owner
    exact absurd owner (by decide)
  · cases wrong

/-- The same namespace with the owner deleted: the first entry is live and never
expires, but its text is no longer found. -/
theorem deleted_owner_orphans_text :
    Reachable ⟨0, none⟩ (shared.apply (.removeByUuid "b")) ∧
      (shared.apply (.removeByUuid "b")).Stored (sampleEntry "a" "Hi") ∧
        (shared.apply (.removeByUuid "b")).exactMatch "Hi" 0 = none ∧
          ¬ (shared.apply (.removeByUuid "b")).ExactComplete := by
  have reached : Reachable ⟨0, none⟩ (shared.apply (.removeByUuid "b")) :=
    .call (.removeByUuid "b")
      (.call (.insertWithUuid (sampleEntry "b" "hi"))
        (.call (.insertWithUuid (sampleEntry "a" "Hi")) .new trivial) trivial) trivial
  have stored : (shared.apply (.removeByUuid "b")).Stored (sampleEntry "a" "Hi") :=
    ⟨0, by decide +kernel⟩
  have missed : (shared.apply (.removeByUuid "b")).exactMatch "Hi" 0 = none := by
    decide +kernel
  refine ⟨reached, stored, missed, fun complete => ?_⟩
  obtain ⟨hit, found, exact⟩ := complete "Hi" 0 (by decide +kernel)
    ⟨sampleEntry "a" "Hi", stored, rfl, rfl⟩ [1#32] Platform.one
  rw [exactMatch_of_query found exact] at missed
  cases missed

end Example

end NamespacedIndex

end Ferrocache
