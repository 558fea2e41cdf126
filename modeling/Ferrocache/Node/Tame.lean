import Ferrocache.Index.Loss
import Ferrocache.Lib.Edits
import Ferrocache.Wal.Log

/-!
# Indexes as maps of records

Under two rules on what clients insert (one length for every namespace, one
namespace for every UUID) the live records of an index are a partial map from
UUIDs, and a log line is an edit of that map.
-/

namespace Ferrocache

section Tame

variable [Platform] (home : String → String) (dim : String → Nat)

omit [Platform] in
/-- An insertion goes to the home of its UUID and has the length of the
namespace. -/
def WalEntry.Keeps (entry : WalEntry) : Prop :=
  entry.tombstone = false → entry.modelId = home entry.uuid ∧
    entry.embedding.length = dim entry.modelId

omit [Platform] in
instance (entry : WalEntry) : Decidable (entry.Keeps home dim) :=
  inferInstanceAs (Decidable (_ → _ ∧ _))

omit [Platform] in
/-- What a line does to the map of live records. -/
def WalEntry.edit (entry : WalEntry) : Edit String Record :=
  if entry.tombstone then .del entry.uuid else .put entry.uuid entry.cacheEntry.record

omit [Platform] in
/-- The live record of a UUID. -/
def recordOf (idx : SemanticIndex) (u : String) : Option Record :=
  (idx.entryAt (home u) u).map (·.record)

/-- An index in which every UUID lives in its home and every namespace has its
dimension. -/
structure Tame (idx : SemanticIndex) : Prop where
  wellFormed : idx.WellFormed
  exact : idx.Exact
  housed : ∀ m u, idx.entryAt m u ≠ none → m = home u
  sized : ∀ m d, idx.dimensionOf m = some d → d = dim m

variable {home dim} {idx : SemanticIndex}

theorem tame_new (cfg : HnswConfig) : Tame home dim (.new cfg) where
  wellFormed := SemanticIndex.wellFormed_new cfg
  exact u m := by simp [SemanticIndex.new, SemanticIndex.entryAt]
  housed m u live := absurd rfl live
  sized m d set := by simp [SemanticIndex.new, SemanticIndex.dimensionOf] at set

namespace Tame

/-- An insertion that keeps the rules is accepted and puts its record. -/
theorem insertInto (tame : Tame home dim idx) {m : String} {entry : CacheEntry}
    (housed : m = home entry.uuid) (sized : entry.embedding.length = dim m) :
    Tame home dim (idx.insertInto m entry).1 ∧
      recordOf home (idx.insertInto m entry).1 =
        Edit.apply (recordOf home idx) (.put entry.uuid entry.record) ∧
      (idx.insertInto m entry).2 = .ok () := by
  have accepted : NamespacedIndex.Accepts (idx.dimensionOf m) entry.embedding.length := by
    cases set : idx.dimensionOf m with
    | none => exact .inl rfl
    | some d => exact .inr (by rw [tame.sized m d set, sized])
  obtain ⟨inserted, ok⟩ := SemanticIndex.insertInto_of_accepts tame.wellFormed accepted
  have free : ∀ m', m' ≠ m → idx.entryAt m' entry.uuid = none := by
    intro m' other
    by_contra live
    exact other ((tame.housed m' entry.uuid live).trans housed.symm)
  refine ⟨⟨inserted.wellFormed, (tame.exact.of_inserted_iff inserted).mpr free, ?_, ?_⟩, ?_, ok⟩
  · intro m' u live
    rw [inserted.live] at live
    split at live
    · next here => rw [here.1, here.2, housed]
    · exact tame.housed m' u live
  · intro m' d set
    rw [inserted.dimension] at set
    split at set
    · next here => rw [here, ← Option.some.inj set, sized]
    · exact tame.sized m' d set
  · funext u
    unfold recordOf
    rw [inserted.live]
    by_cases same : u = entry.uuid
    · subst same
      rw [if_pos ⟨housed.symm, rfl⟩]
      cases live : idx.entryAt (home entry.uuid) entry.uuid with
      | none => simp [Edit.apply, live]
      | some old => simp [Edit.apply, live]
    · rw [if_neg fun hit => same hit.2]
      simp [Edit.apply, same]

/-- A line that keeps the rules edits the live records. -/
theorem replayEntry (tame : Tame home dim idx) {entry : WalEntry}
    (keeps : entry.Keeps home dim) :
    Tame home dim (idx.replayEntry entry).1 ∧
      recordOf home (idx.replayEntry entry).1 = Edit.apply (recordOf home idx) entry.edit ∧
      (idx.replayEntry entry).2 = .ok () := by
  unfold WalEntry.edit
  cases kind : entry.tombstone with
  | false =>
      obtain ⟨housed, sized⟩ := keeps kind
      rw [SemanticIndex.replayEntry_of_insert kind]
      exact tame.insertInto housed sized
  | true =>
      have spec := SemanticIndex.removeByUuid_spec tame.wellFormed entry.uuid
      have deleted := (tame.exact.exactDirectory tame.wellFormed).deleted
      rw [SemanticIndex.replayEntry_of_tombstone kind]
      refine ⟨⟨spec.wellFormed, tame.exact.of_removedUuid spec, ?_, ?_⟩, ?_, rfl⟩
      · intro m u live
        rw [spec.live] at live
        split at live
        · exact absurd rfl live
        · exact tame.housed m u live
      · intro m d set
        rw [spec.dimension] at set
        exact tame.sized m d set
      · funext u
        unfold recordOf
        by_cases same : u = entry.uuid
        · rw [same, deleted]
          simp [Edit.apply]
        · rw [spec.live, if_neg fun hit => same hit.1]
          simp [Edit.apply, same]

theorem loses (tame : Tame home dim idx) {idx' : SemanticIndex} {gone : List (String × String)}
    (lost : SemanticIndex.Loses idx idx' gone) :
    Tame home dim idx' ∧ (∀ u, u ∉ gone.map Prod.fst → recordOf home idx' u = recordOf home idx u) ∧
      ∀ u, recordOf home idx u = none → recordOf home idx' u = none := by
  refine ⟨⟨lost.wellFormed, lost.exact tame.exact, ?_, ?_⟩, ?_, ?_⟩
  · intro m u live
    refine tame.housed m u fun absent => live ?_
    have same := lost.live m u
    rw [absent, Option.map_none, ite_self] at same
    exact Option.map_eq_none_iff.mp same
  · intro m d set
    rcases lost.dimension m with forgotten | kept
    · rw [forgotten] at set
      cases set
    · rw [kept] at set
      exact tame.sized m d set
  · intro u kept
    unfold recordOf
    rw [lost.live, if_neg fun mem => kept (List.mem_map.mpr ⟨_, mem, rfl⟩)]
  · intro u absent
    unfold recordOf at absent ⊢
    rw [lost.live, absent, ite_self]

/-- A removed entry has no record left. -/
theorem recordOf_removed (tame : Tame home dim idx) {idx' : SemanticIndex}
    {gone : List (String × String)} (removed : SemanticIndex.Removed idx idx' gone) {u m : String}
    (mem : (u, m) ∈ gone) : recordOf home idx' u = none := by
  have here := tame.housed m u (removed.present u m mem)
  unfold recordOf
  rw [removed.live, ← here, if_pos mem]
  rfl

/-- Replaying lines that keep the rules. -/
theorem replayLines (tame : Tame home dim idx) {lines : List WalEntry}
    (keeps : ∀ line ∈ lines, line.Keeps home dim) :
    Tame home dim (lines.foldl (fun idx line => (idx.replayEntry line).1) idx) ∧
      recordOf home (lines.foldl (fun idx line => (idx.replayEntry line).1) idx) =
        Edit.replay (recordOf home idx) (lines.map WalEntry.edit) := by
  induction lines generalizing idx with
  | nil => exact ⟨tame, rfl⟩
  | cons line lines ih =>
      obtain ⟨next, edited, -⟩ := tame.replayEntry (keeps line List.mem_cons_self)
      obtain ⟨last, replayed⟩ := ih next fun l mem => keeps l (List.mem_cons_of_mem _ mem)
      refine ⟨last, ?_⟩
      rw [List.foldl_cons, replayed, edited]
      rfl

theorem loadEntries (tame : Tame home dim idx) {entries : List SnapshotEntry}
    (keeps : ∀ s ∈ entries, s.modelId = home s.uuid ∧ s.embedding.length = dim s.modelId) :
    Tame home dim (entries.foldl (fun idx s => (idx.replaySnapshotEntry s).1) idx) ∧
      recordOf home (entries.foldl (fun idx s => (idx.replaySnapshotEntry s).1) idx) =
        Edit.replay (recordOf home idx)
          ((entries.map fun s => (s.uuid, s.cacheEntry.record)).map fun b => .put b.1 b.2) := by
  induction entries generalizing idx with
  | nil => exact ⟨tame, rfl⟩
  | cons s entries ih =>
      obtain ⟨housed, sized⟩ := keeps s List.mem_cons_self
      obtain ⟨next, put, -⟩ :=
        tame.insertInto (show s.modelId = home s.cacheEntry.uuid from housed) sized
      obtain ⟨last, loaded⟩ := ih next fun t mem => keeps t (List.mem_cons_of_mem _ mem)
      refine ⟨last, ?_⟩
      rw [List.foldl_cons]
      refine loaded.trans ?_
      rw [put]
      rfl

/-- Loading the snapshot of a tame index gives its records back. -/
theorem loadSnapshot (tame : Tame home dim idx) (cfg : HnswConfig) {order : PassOrder}
    (visits : SemanticIndex.Visits order idx) (watermark : Nat) :
    Tame home dim (loadSnapshot cfg (some ⟨idx.snapshotEntries order, watermark⟩)) ∧
      recordOf home (Ferrocache.loadSnapshot cfg (some ⟨idx.snapshotEntries order, watermark⟩)) =
        recordOf home idx := by
  have live : ∀ s, s ∈ idx.snapshotEntries order → ∃ m e, idx.entryAt m e.uuid = some e ∧
      m = home e.uuid ∧ s = SemanticIndex.snapshotEntry m e := by
    intro s mem
    obtain ⟨m, e, found, rfl⟩ := (SemanticIndex.mem_snapshotEntries tame.wellFormed visits).mp mem
    exact ⟨m, e, found, tame.housed m e.uuid (by rw [found]; exact Option.some_ne_none e), rfl⟩
  have keeps : ∀ s ∈ idx.snapshotEntries order,
      s.modelId = home s.uuid ∧ s.embedding.length = dim s.modelId := by
    intro s mem
    obtain ⟨m, e, found, housed, rfl⟩ := live s mem
    exact ⟨housed, tame.sized m _ (SemanticIndex.dimensionOf_of_entryAt tame.wellFormed found)⟩
  obtain ⟨loaded, records⟩ := (tame_new cfg).loadEntries keeps
  refine ⟨loaded, records.trans ?_⟩
  have nothing : recordOf home (.new cfg) = fun _ => none := rfl
  rw [nothing]
  refine Edit.replay_bindings ?_ ?_
  · intro b mem
    obtain ⟨s, inSnapshot, rfl⟩ := List.mem_map.mp mem
    obtain ⟨m, e, found, housed, rfl⟩ := live s inSnapshot
    change (idx.entryAt (home e.uuid) e.uuid).map (·.record) = some e.record
    rw [← housed, found]
    rfl
  · intro u bound
    unfold recordOf at bound
    cases found : idx.entryAt (home u) u with
    | none =>
        rw [found] at bound
        exact absurd rfl bound
    | some e =>
        have named := SemanticIndex.uuid_of_entryAt tame.wellFormed found
        subst named
        refine ⟨e.record, List.mem_map.mpr ⟨SemanticIndex.snapshotEntry (home e.uuid) e, ?_, rfl⟩⟩
        exact (SemanticIndex.mem_snapshotEntries tame.wellFormed visits).mpr ⟨_, e, found, rfl⟩

end Tame

end Tame

end Ferrocache
