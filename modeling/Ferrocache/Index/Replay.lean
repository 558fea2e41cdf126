import Ferrocache.Index.View

/-!
# Replaying one entry

`replay_entry` and `replay_snapshot_entry` change the index or report an error,
never both, and a repeated entry changes nothing: the second insertion finds its
UUID under the dimension that the first one set, and writes the directory slot
that is there; the second removal finds no slot.  Nothing is assumed of the
index.
-/

namespace Ferrocache

namespace NamespacedIndex

variable [Platform] {self : NamespacedIndex} {entry : CacheEntry}

/-- What an accepted insertion leaves, whether the UUID is new or not. -/
theorem insertWithUuid_stored (accepted : Accepts self.dimension entry.embedding.length) :
    ∃ ns, self.insertWithUuid entry = (ns, .ok ()) ∧
      ns.dimension = some entry.embedding.length ∧ entry.uuid ∈ ns.uuidToInternal := by
  have stored : ∀ ns : NamespacedIndex, entry.uuid ∈ (ns.addEntry entry).uuidToInternal :=
    fun ns => Finmap.mem_insert.mpr (.inl rfl)
  unfold insertWithUuid
  rcases accepted with unsized | sized
  · rw [unsized]
    dsimp only
    split
    case isTrue known => exact ⟨_, rfl, rfl, known⟩
    case isFalse unknown => exact ⟨_, rfl, rfl, stored _⟩
  · rw [sized]
    simp only [ne_eq, not_true_eq_false, if_false]
    split
    case isTrue known => exact ⟨self, rfl, sized, known⟩
    case isFalse unknown => exact ⟨_, rfl, sized, stored self⟩

/-- A known UUID under the right dimension. -/
theorem insertWithUuid_of_mem
    (sized : self.dimension = some entry.embedding.length)
    (known : entry.uuid ∈ self.uuidToInternal) : self.insertWithUuid entry = (self, .ok ()) := by
  unfold insertWithUuid
  rw [sized]
  simp only [ne_eq, not_true_eq_false, if_false, known, if_true]

end NamespacedIndex

namespace SemanticIndex

section Once

variable [Platform] (idx : SemanticIndex)

/-- An insertion fails and leaves everything, or it succeeds for good. -/
theorem insertInto_cases (m : String) (entry : CacheEntry) :
    (∃ msg, idx.insertInto m entry = (idx, .error msg)) ∨
      (idx.insertInto m entry).2 = .ok () ∧
        (idx.insertInto m entry).1.insertInto m entry = idx.insertInto m entry := by
  by_cases accepted : NamespacedIndex.Accepts (idx.dimensionOf m) entry.embedding.length
  · right
    rw [← namespaceMut_dimension] at accepted
    obtain ⟨ns, ok, sized, known⟩ := NamespacedIndex.insertWithUuid_stored accepted
    have first : idx.insertInto m entry =
        (({ idx with namespaces := idx.namespaces.insert m ns }).recordUuid entry.uuid m,
          .ok ()) := by
      simp only [insertInto, ok]
    rw [first]
    refine ⟨rfl, ?_⟩
    have again : (({ idx with namespaces := idx.namespaces.insert m ns }).recordUuid entry.uuid
        m).namespaceMut m = ns := by
      simp [namespaceMut, recordUuid, Finmap.lookup_insert]
    simp only [insertInto, again, NamespacedIndex.insertWithUuid_of_mem sized known]
    simp only [recordUuid, Finmap.insert_insert]
  · exact .inl (insertInto_of_not_accepts accepted)

/-- A second removal finds no slot. -/
theorem removeByUuid_again (uuid : String) :
    ((idx.removeByUuid uuid).1.removeByUuid uuid).1 = (idx.removeByUuid uuid).1 := by
  have gone : (idx.removeByUuid uuid).1.uuidToNamespace.lookup uuid = none := by
    unfold removeByUuid
    split
    case h_1 none => exact none
    case h_2 m slot =>
      dsimp only
      split
      · exact Finmap.lookup_erase _ _
      · exact Finmap.lookup_erase _ _
  generalize (idx.removeByUuid uuid).1 = after at gone
  unfold removeByUuid
  rw [gone]

/-- One entry, whichever it is and whatever the index holds: an error leaves the
index as it was, and a second application the index that the first one left. -/
theorem replay_atomic_idempotent :
    (∀ entry : WalEntry,
      (∀ msg, (idx.replayEntry entry).2 = .error msg → (idx.replayEntry entry).1 = idx) ∧
      ((idx.replayEntry entry).1.replayEntry entry).1 = (idx.replayEntry entry).1) ∧
    ∀ entry : SnapshotEntry,
      (∀ msg, (idx.replaySnapshotEntry entry).2 = .error msg →
        (idx.replaySnapshotEntry entry).1 = idx) ∧
      ((idx.replaySnapshotEntry entry).1.replaySnapshotEntry entry).1 =
        (idx.replaySnapshotEntry entry).1 := by
  have inserts : ∀ m entry,
      (∀ msg, (idx.insertInto m entry).2 = .error msg → (idx.insertInto m entry).1 = idx) ∧
      ((idx.insertInto m entry).1.insertInto m entry).1 = (idx.insertInto m entry).1 := by
    intro m entry
    rcases idx.insertInto_cases m entry with ⟨msg, failed⟩ | ⟨ok, again⟩
    · refine ⟨fun _ _ => by rw [failed], ?_⟩
      rw [failed]
      exact congrArg Prod.fst failed
    · refine ⟨fun msg error => ?_, congrArg Prod.fst again⟩
      rw [ok] at error
      cases error
  refine ⟨fun entry => ?_, fun entry => inserts entry.modelId entry.cacheEntry⟩
  unfold replayEntry
  split
  case isTrue tombstone => exact ⟨nofun, idx.removeByUuid_again _⟩
  case isFalse insertion => exact inserts entry.modelId entry.cacheEntry

end Once

section Example

local instance replayExamplePlatform : Platform := Platform.sample

/-- A line with the given UUID and embedding. -/
def replayLine (uuid : String) (embedding : Embedding) : WalEntry :=
  ⟨uuid, embedding, "r", "q", "m::1", 1, 7, false, none⟩

/-- An index that holds an embedding of length 1. -/
def replaySample : SemanticIndex := ((new ⟨64, none⟩).replayEntry (replayLine "u" [0#32])).1

/-- It refuses one of length 2. -/
theorem replay_atomic_idempotent_sample :
    (replaySample.replayEntry (replayLine "v" [0#32, 0#32])).2 =
        .error "dimension mismatch: expected 1, got 2" ∧
      (replaySample.replayEntry (replayLine "v" [0#32, 0#32])).1 = replaySample := by
  have error : (replaySample.replayEntry (replayLine "v" [0#32, 0#32])).2 =
      .error "dimension mismatch: expected 1, got 2" := by decide +kernel
  exact ⟨error, ((replay_atomic_idempotent replaySample).1 _).1 _ error⟩

end Example

end SemanticIndex

end Ferrocache
