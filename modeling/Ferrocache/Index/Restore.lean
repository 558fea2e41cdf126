import Ferrocache.Index.Directory
import Ferrocache.Lib.Edits

/-!
# A snapshot restores the index

A snapshot lists the live entries of every namespace, in the iteration order of
two hash maps.  Replayed into an empty index, the list is accepted entry by
entry and gives back every entry whole, whatever the order and however UUIDs are
shared between namespaces: within a namespace all listed embeddings have its
dimension and no UUID is listed twice.
-/

namespace Ferrocache.SemanticIndex

section Restore

variable [Platform]

/-- `replay_snapshot_entry` over a list. -/
def load (idx : SemanticIndex) (entries : List SnapshotEntry) : SemanticIndex :=
  entries.foldl (fun idx s => (idx.replaySnapshotEntry s).1) idx

/-- The states after any sequence of calls and query hits. -/
inductive Used (cfg : HnswConfig) : SemanticIndex → Prop
  | new : Used cfg (new cfg)
  | call {idx : SemanticIndex} (op : Op) : Used cfg idx → idx.Admissible op →
    Used cfg (idx.apply op)
  | access {idx : SemanticIndex} (modelId : String) (internalId now : Nat) : Used cfg idx →
    Used cfg (idx.recordAccess modelId internalId now)

variable {cfg : HnswConfig} {idx : SemanticIndex}

theorem Used.wellFormed (used : Used cfg idx) : idx.WellFormed := by
  induction used with
  | new => exact wellFormed_new cfg
  | call op _ admissible ih => exact ih.apply admissible
  | access modelId internalId now _ ih => exact (recordAccess_spec ih modelId internalId now).1

omit [Platform] in
/-- Every entry under its namespace and UUID. -/
def view (idx : SemanticIndex) (key : String × String) : Option CacheEntry :=
  idx.entryAt key.1 key.2

omit [Platform] in
/-- No namespace has a dimension other than the given one. -/
def Sized (idx : SemanticIndex) (dim : String → Nat) : Prop :=
  ∀ m d, idx.dimensionOf m = some d → d = dim m

omit [Platform] in
theorem Sized.accepts {dim : String → Nat} (sized : idx.Sized dim) {m : String} {length : Nat}
    (fits : length = dim m) : NamespacedIndex.Accepts (idx.dimensionOf m) length := by
  cases known : idx.dimensionOf m with
  | none => exact .inl rfl
  | some d =>
      have same : d = length := (sized m d known).trans fits.symm
      exact .inr (by rw [same])

/-- One listed entry that fits its namespace. -/
theorem replaySnapshotEntry_spec (wf : idx.WellFormed) {dim : String → Nat}
    (sized : idx.Sized dim) {s : SnapshotEntry} (fits : s.embedding.length = dim s.modelId) :
    (idx.replaySnapshotEntry s).2 = .ok () ∧ (idx.replaySnapshotEntry s).1.WellFormed ∧
      (idx.replaySnapshotEntry s).1.Sized dim ∧
        (idx.replaySnapshotEntry s).1.view =
          Edit.apply idx.view (.put (s.modelId, s.uuid) s.cacheEntry) := by
  have accepted : NamespacedIndex.Accepts (idx.dimensionOf s.modelId)
      s.cacheEntry.embedding.length := sized.accepts fits
  obtain ⟨inserted, ok⟩ := insertInto_of_accepts wf accepted
  refine ⟨ok, inserted.wellFormed, fun m d known => ?_, ?_⟩
  · have dimension := inserted.dimension m
    split at dimension
    · next here =>
        subst here
        exact (Option.some.inj (known.symm.trans dimension)).trans fits
    · exact sized m d (dimension.symm.trans known)
  · funext key
    obtain ⟨m, u⟩ := key
    refine (inserted.live m u).trans ?_
    simp only [Edit.apply, view, Prod.mk.injEq]
    rfl

theorem load_spec (wf : idx.WellFormed) {dim : String → Nat} (sized : idx.Sized dim)
    {entries : List SnapshotEntry} (fits : ∀ s ∈ entries, s.embedding.length = dim s.modelId) :
    (idx.load entries).WellFormed ∧ (idx.load entries).Sized dim ∧
      (idx.load entries).view = Edit.replay idx.view
        ((entries.map fun s => ((s.modelId, s.uuid), s.cacheEntry)).map fun b => .put b.1 b.2) := by
  induction entries generalizing idx with
  | nil => exact ⟨wf, sized, rfl⟩
  | cons s entries ih =>
      obtain ⟨here, rest⟩ := List.forall_mem_cons.mp fits
      obtain ⟨-, good, still, viewed⟩ := replaySnapshotEntry_spec wf sized here
      obtain ⟨last, sizes, loaded⟩ := ih good still rest
      refine ⟨last, sizes, loaded.trans ?_⟩
      rw [viewed]
      rfl

/-- Replaying a snapshot of any index into an empty one accepts every entry and
restores every entry whole; a namespace with entries gets its dimension back. -/
theorem snapshot_restores (used : Used cfg idx) {order : PassOrder} (visits : Visits order idx)
    (fresh : HnswConfig) :
    (∀ before s after, idx.snapshotEntries order = before ++ s :: after →
      (((new fresh).load before).replaySnapshotEntry s).2 = .ok ()) ∧
    (∀ m u, ((new fresh).load (idx.snapshotEntries order)).entryAt m u = idx.entryAt m u) ∧
    (∀ m u, idx.entryAt m u ≠ none →
      ((new fresh).load (idx.snapshotEntries order)).dimensionOf m = idx.dimensionOf m) := by
  have wf := used.wellFormed
  have empty := wellFormed_new fresh
  have unsized : (new fresh).Sized fun m => (idx.dimensionOf m).getD 0 := by
    intro m d known
    cases known
  have fits : ∀ s ∈ idx.snapshotEntries order,
      s.embedding.length = (idx.dimensionOf s.modelId).getD 0 := by
    intro s mem
    obtain ⟨m, e, live, rfl⟩ := (mem_snapshotEntries wf visits).mp mem
    change e.embedding.length = (idx.dimensionOf m).getD 0
    rw [dimensionOf_of_entryAt wf live]
    rfl
  obtain ⟨good, -, loaded⟩ := load_spec empty unsized fits
  have restored : ∀ m u, ((new fresh).load (idx.snapshotEntries order)).entryAt m u =
      idx.entryAt m u := by
    have whole : ((new fresh).load (idx.snapshotEntries order)).view = idx.view := by
      refine loaded.trans (Edit.replay_bindings (fun b mem => ?_) fun key bound => ?_)
      · obtain ⟨s, listed, rfl⟩ := List.mem_map.mp mem
        obtain ⟨m, e, live, rfl⟩ := (mem_snapshotEntries wf visits).mp listed
        exact live
      · obtain ⟨e, live⟩ := Option.ne_none_iff_exists'.mp bound
        have named := uuid_of_entryAt wf live
        refine ⟨e, List.mem_map.mpr ⟨snapshotEntry key.1 e, ?_, ?_⟩⟩
        · exact (mem_snapshotEntries wf visits).mpr ⟨key.1, e, by rw [named]; exact live, rfl⟩
        · change ((key.1, e.uuid), e) = (key, e)
          rw [named]
    exact fun m u => congrFun whole (m, u)
  refine ⟨fun before s after listed => ?_, restored, fun m u live => ?_⟩
  · rw [listed] at fits
    obtain ⟨first, sized, -⟩ := load_spec empty unsized
      fun t mem => fits t (List.mem_append_left _ mem)
    exact (replaySnapshotEntry_spec first sized
      (fits s (List.mem_append_right _ List.mem_cons_self))).1
  · obtain ⟨e, found⟩ := Option.ne_none_iff_exists'.mp live
    rw [dimensionOf_of_entryAt wf found]
    exact dimensionOf_of_entryAt good ((restored m u).trans found)

end Restore

section Example

local instance restoreExamplePlatform : Platform := Platform.sample

/-- One UUID in two namespaces of different dimensions, one of them queried. -/
def sharedUuid : SemanticIndex :=
  ((((new ⟨0, none⟩).apply (.replayEntry ⟨"u", [1#32], "r", "q", "a", 1, 5, false, none⟩)).apply
    (.replayEntry ⟨"u", [1#32, 2#32], "s", "q", "b", 2, 6, false, some 9⟩))).recordAccess "a" 0 7

theorem snapshot_restores_sample :
    ((new ⟨0, none⟩).load (sharedUuid.snapshotEntries ⟨["b", "a"], fun _ => [0]⟩)).entryAt "a" "u" =
      some ⟨"u", [1#32], "r", "q", 5, 7, 1, none⟩ := by
  have used : Used ⟨0, none⟩ sharedUuid :=
    .access "a" 0 7 (.call _ (.call _ .new trivial) trivial)
  have visits : Visits ⟨["b", "a"], fun _ => [0]⟩ sharedUuid := by decide +kernel
  rw [(snapshot_restores used visits ⟨0, none⟩).2.1]
  decide +kernel

end Example

end Ferrocache.SemanticIndex
