import Ferrocache.Index.Directory

/-!
# Operations that only lose entries

Every operation of the index except an insertion keeps the records it does not
drop, keeps or forgets dimensions, keeps an exact directory exact, never
leaves a UUID live outside the namespace its directory slot names if it was not
before, and never fills a directory slot.  `Loses` says this once for all of them.
-/

namespace Ferrocache.SemanticIndex

/-- The UUID is live at most in the namespace that the directory names. -/
def HousedAt (idx : SemanticIndex) (u : String) : Prop :=
  ∀ m, idx.entryAt m u ≠ none → idx.uuidToNamespace.lookup u = some m

variable [Platform]

/-- `idx'` has the records of `idx` except those of `gone` (pairs of UUID and
namespace). -/
structure Loses (idx idx' : SemanticIndex) (gone : List (String × String)) : Prop where
  wellFormed : idx'.WellFormed
  live : ∀ m u, (idx'.entryAt m u).map (·.record) =
    if (u, m) ∈ gone then none else (idx.entryAt m u).map (·.record)
  dimension : ∀ m, idx'.dimensionOf m = none ∨ idx'.dimensionOf m = idx.dimensionOf m
  exact : idx.Exact → idx'.Exact
  housed : ∀ u, idx.HousedAt u → idx'.HousedAt u
  directory : ∀ u m, idx'.uuidToNamespace.lookup u = some m →
    idx.uuidToNamespace.lookup u = some m

theorem RemovedUuid.directory_of_some {idx idx' : SemanticIndex} {uuid u m : String}
    (removed : RemovedUuid idx idx' uuid) (named : idx'.uuidToNamespace.lookup u = some m) :
    idx.uuidToNamespace.lookup u = some m := by
  rw [removed.directory] at named
  split at named
  · cases named
  · exact named

theorem HousedAt.of_removedUuid {idx idx' : SemanticIndex} {u uuid : String}
    (housed : idx.HousedAt u) (removed : RemovedUuid idx idx' uuid) : idx'.HousedAt u := by
  intro m live
  rw [removed.live] at live
  split at live
  · exact absurd rfl live
  · next kept =>
      have home := housed m live
      rw [removed.directory, if_neg fun same => kept ⟨same, same ▸ home⟩]
      exact home

namespace Loses

variable {idx idx' idx'' : SemanticIndex} {gone : List (String × String)}

theorem refl (wf : idx.WellFormed) : Loses idx idx [] :=
  ⟨wf, fun m u => by rw [if_neg List.not_mem_nil], fun _ => .inr rfl, id, fun _ => id,
    fun _ _ => id⟩

/-- An operation that loses nothing may follow. -/
theorem trans (first : Loses idx idx' gone) (second : Loses idx' idx'' []) :
    Loses idx idx'' gone where
  wellFormed := second.wellFormed
  live m u := by
    rw [second.live, if_neg List.not_mem_nil, first.live]
  dimension m := by
    rcases second.dimension m with forgotten | kept
    · exact .inl forgotten
    · rw [kept]
      exact first.dimension m
  exact known := second.exact (first.exact known)
  housed u housed := second.housed u (first.housed u housed)
  directory u m named := first.directory u m (second.directory u m named)

theorem of_removed (removed : Removed idx idx' gone) : Loses idx idx' gone where
  wellFormed := removed.wellFormed
  live m u := by
    rw [removed.live]
    split
    · rfl
    · rfl
  dimension m := .inr (removed.dimension m)
  exact known := known.of_removed removed
  housed u housed m live := by
    rw [removed.live] at live
    split at live
    · exact absurd rfl live
    · next kept =>
        have home := housed m live
        rw [removed.directory, if_neg fun away => ?_, home]
        -- an entry removed under this UUID would have lived in the same namespace
        obtain ⟨⟨u', m'⟩, mem, rfl⟩ := List.mem_map.mp away
        cases home.symm.trans (housed m' (removed.present u' m' mem))
        exact kept mem
  directory u m named := by
    rw [removed.directory] at named
    split at named
    · cases named
    · exact named

theorem of_sameLive (same : SameLive idx idx')
    (dimension : ∀ m, idx'.dimensionOf m = none ∨ idx'.dimensionOf m = idx.dimensionOf m) :
    Loses idx idx' [] where
  wellFormed := same.wellFormed
  live m u := by
    rw [same.live, if_neg List.not_mem_nil]
  dimension := dimension
  exact known := known.of_sameLive same
  housed u housed m live := by
    rw [same.live] at live
    rw [same.directory]
    exact housed m live
  directory u m named := by
    rw [same.directory] at named
    exact named

theorem rebuildDirtyNamespaces (wf : idx.WellFormed) {order : PassOrder}
    (visits : Visits order idx) : Loses idx (idx.rebuildDirtyNamespaces order).1 [] :=
  have spec := rebuildDirtyNamespaces_spec wf visits
  of_sameLive spec.1 fun m => .inr (spec.2 m)

theorem pruneEmptyNamespaces (wf : idx.WellFormed) (order : List String) :
    Loses idx (idx.pruneEmptyNamespaces order).1 [] := by
  obtain ⟨same, dimension⟩ := pruneEmptyNamespaces_spec wf order
  refine of_sameLive same fun m => ?_
  rw [dimension]
  split
  · exact .inl rfl
  · exact .inr rfl

theorem recordAccess (wf : idx.WellFormed) (modelId : String) (internalId now : Nat) :
    Loses idx (idx.recordAccess modelId internalId now) [] := by
  obtain ⟨kept, live, dimension, directory⟩ := recordAccess_spec wf modelId internalId now
  have present : ∀ m u, (idx.recordAccess modelId internalId now).entryAt m u ≠ none ↔
      idx.entryAt m u ≠ none := by
    intro m u
    rw [ne_eq, ne_eq, ← Option.map_eq_none_iff, live m u, Option.map_eq_none_iff]
  refine ⟨kept, fun m u => ?_, fun m => .inr (dimension m), fun known u m => ?_,
    fun u housed m here => ?_, fun u m named => ?_⟩
  · rw [live, if_neg List.not_mem_nil]
  · rw [directory, known u m, present]
  · rw [directory]
    exact housed m ((present m u).mp here)
  · rw [directory] at named
    exact named

/-- A removal by UUID loses what it removes. -/
theorem of_removedUuid {uuid : String} (spec : RemovedUuid idx idx' uuid)
    (same : ∀ m u, (if u = uuid ∧ idx.uuidToNamespace.lookup uuid = some m then none
      else idx.entryAt m u) = if (u, m) ∈ gone then none else idx.entryAt m u) :
    Loses idx idx' gone := by
  refine ⟨spec.wellFormed, fun m u => ?_, fun m => .inr (spec.dimension m),
    fun known => known.of_removedUuid spec, fun u housed => housed.of_removedUuid spec,
    fun _ _ => spec.directory_of_some⟩
  rw [spec.live, same]
  split
  · rfl
  · rfl

/-- It loses at most the entry in the namespace that the directory names. -/
theorem removeByUuid_home (wf : idx.WellFormed) (uuid : String) :
    Loses idx (idx.removeByUuid uuid).1
      ((idx.uuidToNamespace.lookup uuid).toList.map fun m => (uuid, m)) := by
  refine of_removedUuid (removeByUuid_spec wf uuid) fun m u => ?_
  cases idx.uuidToNamespace.lookup uuid with
  | none => simp
  | some modelId => simp [eq_comm]

/-- It loses the entry it reports. -/
theorem removeByUuid (wf : idx.WellFormed) (uuid : String) :
    ∃ gone, Loses idx (idx.removeByUuid uuid).1 gone ∧
      gone.map Prod.fst = if (idx.removeByUuid uuid).2 then [uuid] else [] := by
  have spec := removeByUuid_spec wf uuid
  cases home : idx.uuidToNamespace.lookup uuid with
  | none =>
      refine ⟨[], of_removedUuid spec fun m u => ?_, ?_⟩
      · rw [home, if_neg fun hit => Option.some_ne_none m hit.2.symm, if_neg List.not_mem_nil]
      · unfold SemanticIndex.removeByUuid
        rw [home]
        rfl
  | some modelId =>
      have found : (idx.removeByUuid uuid).2 = (idx.entryAt modelId uuid).isSome := by
        unfold SemanticIndex.removeByUuid entryAt
        rw [home]
        dsimp only
        cases known : idx.namespaces.lookup modelId with
        | none => rfl
        | some ns => exact (wf modelId ns known).removeByUuid_found uuid
      refine ⟨if (idx.removeByUuid uuid).2 then [(uuid, modelId)] else [],
        of_removedUuid spec fun m u => ?_, ?_⟩
      · rw [home, found]
        by_cases hit : u = uuid ∧ m = modelId
        · obtain ⟨rfl, rfl⟩ := hit
          cases live : idx.entryAt m u with
          | none => simp
          | some e => simp
        · have miss : ¬ (u = uuid ∧ some modelId = some m) := fun both =>
            hit ⟨both.1, (Option.some.inj both.2).symm⟩
          have notGone : (u, m) ∉ if (idx.entryAt modelId uuid).isSome then [(uuid, modelId)]
              else [] := by
            split
            · simpa using hit
            · exact List.not_mem_nil
          rw [if_neg miss, if_neg notGone]
      · split
        · rfl
        · rfl

end Loses

end Ferrocache.SemanticIndex
