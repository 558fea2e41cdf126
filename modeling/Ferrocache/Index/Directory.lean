import Ferrocache.Index.View

/-!
# The UUID directory

`uuid_to_namespace` is kept beside the namespaces by every operation of the
index.  It is exact (a UUID maps to a namespace exactly when it is live there)
as long as no accepted insertion stores a UUID that is live in another
namespace: insertion de-duplicates within one namespace only and always
overwrites the directory slot.  The two facts together say exactly when the
directory is exact along a run (`exactDirectory_iff_singleHome`).
-/

namespace Ferrocache.SemanticIndex

/-! ## Runs of the index -/

/-- One call of an operation that changes the index. -/
inductive Op : Type
  | replayEntry (entry : WalEntry)
  | replaySnapshotEntry (entry : SnapshotEntry)
  | removeByUuid (uuid : String)
  | evictToCap (order : List String) (maxEntries : Nat)
  | collectExpired (order : PassOrder) (now : Nat)
  | invalidateSimilar (order : List Nat) (embedding : Embedding) (threshold : F32)
      (modelId : String) (now : Nat)
  | rebuildDirtyNamespaces (order : PassOrder)
  | pruneEmptyNamespaces (order : List String)

section Directory

variable [Platform]

def apply (idx : SemanticIndex) : Op → SemanticIndex
  | .replayEntry entry => (idx.replayEntry entry).1
  | .replaySnapshotEntry entry => (idx.replaySnapshotEntry entry).1
  | .removeByUuid uuid => (idx.removeByUuid uuid).1
  | .evictToCap order maxEntries => (idx.evictToCap order maxEntries).1
  | .collectExpired order now => (idx.collectExpired order now).1
  | .invalidateSimilar order embedding threshold modelId now =>
      (idx.invalidateSimilar order embedding threshold modelId now).1
  | .rebuildDirtyNamespaces order => (idx.rebuildDirtyNamespaces order).1
  | .pruneEmptyNamespaces order => (idx.pruneEmptyNamespaces order).1

omit [Platform] in
/-- The visiting orders of a call are orders of the tables it visits. -/
def Admissible (idx : SemanticIndex) : Op → Prop
  | .evictToCap order _ => HashMap.IterOrder idx.namespaces order
  | .collectExpired order _ => Visits order idx
  | .invalidateSimilar order _ _ modelId _ => ∀ ns, idx.namespaces.lookup modelId = some ns →
      HashMap.IterOrder ns.entries order
  | .rebuildDirtyNamespaces order => Visits order idx
  | .pruneEmptyNamespaces order => HashMap.IterOrder idx.namespaces order
  | _ => True

/-- The states after any sequence of calls that all meet `guard`. -/
inductive Reachable (cfg : HnswConfig) (guard : SemanticIndex → Op → Prop) :
    SemanticIndex → Prop
  | new : Reachable cfg guard (new cfg)
  | call {idx : SemanticIndex} (op : Op) : Reachable cfg guard idx → idx.Admissible op →
    guard idx op → Reachable cfg guard (idx.apply op)

theorem WellFormed.apply {idx : SemanticIndex} (wf : idx.WellFormed) {op : Op}
    (admissible : idx.Admissible op) : (idx.apply op).WellFormed := by
  cases op with
  | replayEntry entry => exact wf.replayEntry entry
  | replaySnapshotEntry entry => exact wf.insertInto _ _
  | removeByUuid uuid => exact (removeByUuid_spec wf uuid).wellFormed
  | evictToCap order maxEntries => exact (Removed.evictToCap wf admissible maxEntries).wellFormed
  | collectExpired order now => exact (Removed.collectExpired wf admissible.1 now).wellFormed
  | invalidateSimilar order embedding threshold modelId now =>
      exact (Removed.invalidateSimilar wf order embedding threshold modelId now).wellFormed
  | rebuildDirtyNamespaces order => exact (rebuildDirtyNamespaces_spec wf admissible).1.wellFormed
  | pruneEmptyNamespaces order => exact (pruneEmptyNamespaces_spec wf order).1.wellFormed

theorem Reachable.wellFormed {cfg : HnswConfig} {guard : SemanticIndex → Op → Prop}
    {idx : SemanticIndex} (reached : Reachable cfg guard idx) : idx.WellFormed := by
  induction reached with
  | new => exact wellFormed_new cfg
  | call op _ admissible _ ih => exact ih.apply admissible

/-! ## Exactness -/

omit [Platform] in
/-- A UUID maps to a namespace exactly when it is live there. -/
def Exact (idx : SemanticIndex) : Prop :=
  ∀ u m, idx.uuidToNamespace.lookup u = some m ↔ idx.entryAt m u ≠ none

omit [Platform] in
/-- A live entry is found by its UUID when the directory names its namespace. -/
theorem getEntryByUuid_of_slot {idx : SemanticIndex} {u m : String} {e : CacheEntry}
    (slot : idx.uuidToNamespace.lookup u = some m) (live : idx.entryAt m u = some e) :
    idx.getEntryByUuid u = some ⟨e.uuid, e.embedding, e.response, e.queryText, m, e.insertedAt,
      e.lastAccessedAt, e.accessCount, e.expiresAt⟩ := by
  obtain ⟨ns, known, found⟩ := Option.bind_eq_some_iff.mp live
  unfold getEntryByUuid
  rw [slot]
  simp only [Option.bind_eq_bind, Option.bind_some, known, found]
  rfl

/-- The directory is exact, so a live entry is found by its UUID and a removal
by UUID leaves it in no namespace. -/
structure ExactDirectory (idx : SemanticIndex) : Prop where
  exact : idx.Exact
  found : ∀ m u e, idx.entryAt m u = some e →
    idx.getEntryByUuid u = some ⟨e.uuid, e.embedding, e.response, e.queryText, m,
      e.insertedAt, e.lastAccessedAt, e.accessCount, e.expiresAt⟩
  deleted : ∀ u m, (idx.removeByUuid u).1.entryAt m u = none

theorem Exact.exactDirectory {idx : SemanticIndex} (exact : idx.Exact) (wf : idx.WellFormed) :
    idx.ExactDirectory where
  exact := exact
  found := by
    intro m u e live
    refine getEntryByUuid_of_slot ((exact u m).mpr ?_) live
    rw [live]
    exact Option.some_ne_none e
  deleted := by
    intro u m
    rw [(removeByUuid_spec wf u).live]
    by_cases home : idx.uuidToNamespace.lookup u = some m
    · rw [if_pos ⟨rfl, home⟩]
    · rw [if_neg fun hit => home hit.2]
      exact not_not.mp fun live => home ((exact u m).mpr live)

omit [Platform] in
/-- A UUID lives in at most one namespace. -/
theorem Exact.unique {idx : SemanticIndex} (exact : idx.Exact) {u m m' : String}
    (here : idx.entryAt m u ≠ none) (there : idx.entryAt m' u ≠ none) : m = m' :=
  Option.some.inj (((exact u m).mpr here).symm.trans ((exact u m').mpr there))

theorem Exact.of_removed {idx idx' : SemanticIndex} {gone : List (String × String)}
    (exact : idx.Exact) (removed : Removed idx idx' gone) : idx'.Exact := by
  intro u m
  rw [removed.directory, removed.live]
  by_cases away : u ∈ gone.map Prod.fst
  · obtain ⟨⟨u', home⟩, mem, rfl⟩ := List.mem_map.mp away
    rw [if_pos away]
    simp only [reduceCtorEq, ne_eq, ite_eq_left_iff, Classical.not_imp, false_iff, not_and,
      not_not]
    intro kept
    by_contra live
    -- the entry removed under this UUID lived in the only namespace that has it
    have same : home = m := exact.unique (removed.present u' home mem) live
    exact kept (same ▸ mem)
  · have kept : (u, m) ∉ gone := fun mem => away (List.mem_map.mpr ⟨(u, m), mem, rfl⟩)
    rw [if_neg away, if_neg kept]
    exact exact u m

theorem Exact.of_removedUuid {idx idx' : SemanticIndex} {uuid : String}
    (exact : idx.Exact) (removed : RemovedUuid idx idx' uuid) : idx'.Exact := by
  intro u m
  rw [removed.directory, removed.live]
  by_cases same : u = uuid
  · subst same
    rw [if_pos rfl]
    simp only [reduceCtorEq, true_and, ne_eq, ite_eq_left_iff, Classical.not_imp, false_iff,
      not_and, not_not]
    intro elsewhere
    exact not_not.mp fun live => elsewhere ((exact u m).mpr live)
  · rw [if_neg same, if_neg fun hit => same hit.1]
    exact exact u m

theorem Exact.of_sameLive {idx idx' : SemanticIndex} (exact : idx.Exact)
    (same : SameLive idx idx') : idx'.Exact := by
  intro u m
  rw [same.directory, same.live]
  exact exact u m

/-- An accepted insertion keeps the directory exact precisely when its UUID is
live in no other namespace. -/
theorem Exact.of_inserted_iff {idx idx' : SemanticIndex} {modelId : String} {entry : CacheEntry}
    (exact : idx.Exact) (inserted : Inserted idx idx' modelId entry) :
    idx'.Exact ↔ ∀ m, m ≠ modelId → idx.entryAt m entry.uuid = none := by
  constructor
  · intro exact' m elsewhere
    by_contra live
    have here : idx'.entryAt modelId entry.uuid ≠ none := by
      rw [inserted.live, if_pos ⟨rfl, rfl⟩]
      exact Option.some_ne_none _
    have there : idx'.entryAt m entry.uuid ≠ none := by
      rw [inserted.live, if_neg fun hit => elsewhere hit.1]
      exact live
    exact elsewhere (exact'.unique there here)
  · intro free u m
    rw [inserted.directory, HashMap.lookup_insert_eq, inserted.live]
    by_cases same : u = entry.uuid
    · subst same
      rw [if_pos rfl]
      by_cases here : m = modelId
      · subst here
        simp
      · have absent := free m here
        rw [if_neg fun hit => here hit.1, absent]
        simp only [Option.some.injEq, ne_eq, not_true_eq_false, iff_false]
        exact fun back => here back.symm
    · rw [if_neg same, if_neg fun hit => same hit.2]
      exact exact u m

/-! ## When a call keeps the directory exact -/

omit [Platform] in
/-- An insertion of `uuid` into `modelId` is refused for its dimension, or the
UUID is live in no other namespace. -/
def FreeElsewhere (idx : SemanticIndex) (modelId uuid : String) (length : Nat) : Prop :=
  NamespacedIndex.Accepts (idx.dimensionOf modelId) length →
    ∀ m, m ≠ modelId → idx.entryAt m uuid = none

omit [Platform] in
/-- No accepted insertion stores a UUID that is live in another namespace. -/
def SingleHome (idx : SemanticIndex) : Op → Prop
  | .replayEntry entry => entry.tombstone = false →
      idx.FreeElsewhere entry.modelId entry.uuid entry.embedding.length
  | .replaySnapshotEntry entry =>
      idx.FreeElsewhere entry.modelId entry.uuid entry.embedding.length
  | _ => True

theorem Exact.insertInto_iff {idx : SemanticIndex} (exact : idx.Exact) (wf : idx.WellFormed)
    (modelId : String) (entry : CacheEntry) :
    (idx.insertInto modelId entry).1.Exact ↔
      idx.FreeElsewhere modelId entry.uuid entry.embedding.length := by
  by_cases accepted : NamespacedIndex.Accepts (idx.dimensionOf modelId) entry.embedding.length
  · rw [exact.of_inserted_iff (insertInto_of_accepts wf accepted).1]
    exact ⟨fun free _ => free, fun free => free accepted⟩
  · obtain ⟨msg, rejected⟩ := insertInto_of_not_accepts accepted
    rw [rejected]
    exact ⟨fun _ accepts => absurd accepts accepted, fun _ => exact⟩

theorem Exact.apply_iff {idx : SemanticIndex} (exact : idx.Exact) (wf : idx.WellFormed) {op : Op}
    (admissible : idx.Admissible op) : (idx.apply op).Exact ↔ idx.SingleHome op := by
  cases op with
  | replayEntry entry =>
      cases kind : entry.tombstone with
      | true =>
          have unconditional : idx.SingleHome (.replayEntry entry) := fun insert => by
            rw [kind] at insert
            cases insert
          refine iff_of_true ?_ unconditional
          simp only [apply, replayEntry_of_tombstone kind]
          exact exact.of_removedUuid (removeByUuid_spec wf entry.uuid)
      | false =>
          simp only [apply, replayEntry_of_insert kind, SingleHome, kind, forall_const]
          exact exact.insertInto_iff wf entry.modelId entry.cacheEntry
  | replaySnapshotEntry entry => exact exact.insertInto_iff wf entry.modelId entry.cacheEntry
  | removeByUuid uuid =>
      exact iff_of_true (exact.of_removedUuid (removeByUuid_spec wf uuid)) trivial
  | evictToCap order maxEntries =>
      exact iff_of_true (exact.of_removed (Removed.evictToCap wf admissible maxEntries)) trivial
  | collectExpired order now =>
      exact iff_of_true (exact.of_removed (Removed.collectExpired wf admissible.1 now)) trivial
  | invalidateSimilar order embedding threshold modelId now =>
      exact iff_of_true (exact.of_removed
        (Removed.invalidateSimilar wf order embedding threshold modelId now)) trivial
  | rebuildDirtyNamespaces order =>
      exact iff_of_true (exact.of_sameLive (rebuildDirtyNamespaces_spec wf admissible).1) trivial
  | pruneEmptyNamespaces order =>
      exact iff_of_true (exact.of_sameLive (pruneEmptyNamespaces_spec wf order).1) trivial

theorem Reachable.exact {cfg : HnswConfig} {idx : SemanticIndex}
    (reached : Reachable cfg SingleHome idx) : idx.Exact := by
  induction reached with
  | new =>
      intro u m
      simp [SemanticIndex.new, entryAt]
  | call op before admissible guarded ih =>
      exact (ih.apply_iff before.wellFormed admissible).mpr guarded

/-- In every run whose insertions never store a UUID that is live in another
namespace, the directory is exact in every state reached; and from any such
state, a call leaves the directory exact only if it keeps to that rule. -/
theorem exactDirectory_iff_singleHome {cfg : HnswConfig} {idx : SemanticIndex}
    (reached : Reachable cfg SingleHome idx) :
    idx.ExactDirectory ∧
      ∀ op, idx.Admissible op → ((idx.apply op).ExactDirectory ↔ idx.SingleHome op) := by
  have exact := reached.exact
  have wf := reached.wellFormed
  refine ⟨exact.exactDirectory wf, fun op admissible => ?_⟩
  rw [← exact.apply_iff wf admissible]
  exact ⟨fun directory => directory.exact, fun kept => kept.exactDirectory (wf.apply admissible)⟩

end Directory

/-! ## A UUID used in two namespaces -/

section Example

local instance : Platform := Platform.sample

/-- A log line that inserts a one-component embedding. -/
def sampleLine (uuid modelId : String) : WalEntry :=
  ⟨uuid, [1#32], "r", "q", modelId, 0, 0, false, none⟩

/-- The same UUID inserted into two namespaces. -/
def twoHomes : SemanticIndex :=
  ((new ⟨0, none⟩).apply (.replayEntry (sampleLine "u" "a"))).apply
    (.replayEntry (sampleLine "u" "b"))

/-- The UUID is removed from the first namespace before it is inserted into the
second. -/
def moved : SemanticIndex :=
  (((new ⟨0, none⟩).apply (.replayEntry (sampleLine "u" "a"))).apply (.removeByUuid "u")).apply
    (.replayEntry (sampleLine "u" "b"))

theorem exactDirectory_iff_singleHome_sample :
    moved.ExactDirectory ∧ ¬ (moved.apply (.replayEntry (sampleLine "u" "a"))).ExactDirectory := by
  have inserted : Reachable ⟨0, none⟩ SingleHome
      ((new ⟨0, none⟩).apply (.replayEntry (sampleLine "u" "a"))) :=
    .call _ .new trivial fun _ _ m _ => by simp [new, entryAt]
  have reached : Reachable ⟨0, none⟩ SingleHome moved :=
    .call _ (.call (.removeByUuid "u") inserted trivial trivial) trivial
      fun _ _ m _ => (exactDirectory_iff_singleHome inserted).1.deleted "u" m
  have both := exactDirectory_iff_singleHome reached
  refine ⟨both.1, fun kept => ?_⟩
  -- "u" lives in "b" when it is inserted into "a" again
  have free := (both.2 (.replayEntry (sampleLine "u" "a")) trivial).mp kept rfl (by decide +kernel)
    "b" (by decide)
  exact absurd free (by decide +kernel)

/-- A reused UUID is live in a namespace the directory does not name, and its
removal leaves it there. -/
theorem twoHomes_not_exactDirectory :
    Reachable ⟨0, none⟩ (fun _ _ => True) twoHomes ∧ ¬ twoHomes.ExactDirectory ∧
      (twoHomes.removeByUuid "u").1.entryAt "a" "u" ≠ none := by
  have survives : (twoHomes.removeByUuid "u").1.entryAt "a" "u" ≠ none := by
    decide +kernel
  refine ⟨?_, fun directory => survives (directory.deleted "u" "a"), survives⟩
  exact .call _ (.call _ .new trivial trivial) trivial trivial

end Example

end Ferrocache.SemanticIndex
