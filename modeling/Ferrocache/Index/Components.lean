import Ferrocache.Index.Restore

/-!
# The namespaces of a run

Every operation of the index acts on its namespaces by operations of a
namespace.  So each namespace of an index in use is itself in a state that a run
of one namespace reaches (`Used.reachable`), and what holds over the runs of a
namespace holds of the namespaces of the index.
-/

namespace Ferrocache

section Components

variable [Platform] {cfg : HnswConfig}

namespace NamespacedIndex

variable {ns : NamespacedIndex}

theorem Reachable.dropAll (reached : Reachable cfg ns) (ids : List Nat) :
    Reachable cfg (ns.dropAll ids).1 := by
  induction ids generalizing ns with
  | nil => exact reached
  | cons id ids ih =>
      rw [dropAll_cons]
      have dropped : Reachable cfg (ns.apply (.removeInternal id)) := reached.call _ trivial
      exact ih dropped

theorem Reachable.evictDownTo (reached : Reachable cfg ns) (modelId : String)
    (maxEntries fuel : Nat) : Reachable cfg (ns.evictDownTo modelId maxEntries fuel).1 := by
  induction fuel generalizing ns with
  | zero => exact reached
  | succ fuel ih =>
      have evicted : Reachable cfg (ns.evictLru modelId).1 := reached.call (.evictLru _) trivial
      unfold NamespacedIndex.evictDownTo
      split
      · rcases result : ns.evictLru modelId with ⟨next, _ | e⟩
        · rw [result] at evicted
          exact evicted
        · rw [result] at evicted
          exact ih evicted
      · exact reached

end NamespacedIndex

namespace SemanticIndex

variable {idx : SemanticIndex}

/-- Every namespace is in a state that a run of one namespace reaches. -/
def Component (cfg : HnswConfig) (idx : SemanticIndex) : Prop :=
  idx.hnswConfig = cfg ∧
    ∀ m ns, idx.namespaces.lookup m = some ns → NamespacedIndex.Reachable cfg ns

/-- One namespace is replaced. -/
theorem Component.insert (component : Component cfg idx) (m : String) {ns : NamespacedIndex}
    (reached : NamespacedIndex.Reachable cfg ns) (directory : HashMap String String) :
    Component cfg ⟨idx.namespaces.insert m ns, directory, idx.hnswConfig⟩ := by
  refine ⟨component.1, fun m' ns' known => ?_⟩
  rw [HashMap.lookup_insert_eq] at known
  split at known
  case isTrue here =>
    obtain rfl := Option.some.inj known
    exact reached
  case isFalse other => exact component.2 m' ns' known

/-- A loop over all namespaces. -/
theorem Component.forEach {O : Type} (component : Component cfg idx) {order : List String}
    (iter : HashMap.IterOrder idx.namespaces order)
    (f : String → NamespacedIndex → NamespacedIndex × List O)
    (reached : ∀ m ns, idx.namespaces.lookup m = some ns →
      NamespacedIndex.Reachable cfg (f m ns).1) (directory : HashMap String String) :
    Component cfg ⟨(HashMap.forEach f order idx.namespaces).1, directory, idx.hnswConfig⟩ := by
  refine ⟨component.1, fun m ns known => ?_⟩
  rw [HashMap.lookup_forEach _ iter] at known
  obtain ⟨before, found, rfl⟩ := Option.map_eq_some_iff.mp known
  exact reached m before found

theorem Component.insertInto (component : Component cfg idx) (m : String) (entry : CacheEntry) :
    Component cfg (idx.insertInto m entry).1 := by
  have start : NamespacedIndex.Reachable cfg (idx.namespaceMut m) := by
    unfold namespaceMut
    cases known : idx.namespaces.lookup m with
    | none =>
        rw [component.1]
        exact .new
    | some ns => exact component.2 m ns known
  have inserted : NamespacedIndex.Reachable cfg ((idx.namespaceMut m).insertWithUuid entry).1 :=
    start.call (.insertWithUuid entry) trivial
  unfold SemanticIndex.insertInto
  rcases result : (idx.namespaceMut m).insertWithUuid entry with ⟨ns, _ | _⟩
  · rw [result] at inserted
    exact component.insert m inserted _
  · rw [result] at inserted
    exact component.insert m inserted _

theorem Component.removeByUuid (component : Component cfg idx) (uuid : String) :
    Component cfg (idx.removeByUuid uuid).1 := by
  unfold SemanticIndex.removeByUuid
  split
  · exact component
  · dsimp only
    split
    · exact component
    · next ns known =>
        have removed := (component.2 _ ns known).call (.removeByUuid uuid) trivial
        exact component.insert _ removed _

theorem Component.apply (component : Component cfg idx) {op : Op}
    (admissible : idx.Admissible op) : Component cfg (idx.apply op) := by
  cases op with
  | replayEntry entry =>
      simp only [SemanticIndex.apply, replayEntry]
      split
      · exact component.removeByUuid entry.uuid
      · exact component.insertInto _ _
  | replaySnapshotEntry entry => exact component.insertInto _ _
  | removeByUuid uuid => exact component.removeByUuid uuid
  | evictToCap order maxEntries =>
      exact component.forEach admissible _
        (fun m ns known => (component.2 m ns known).evictDownTo m maxEntries _) _
  | collectExpired order now =>
      refine component.forEach admissible.1 _ (fun m ns known => ?_) _
      exact (component.2 m ns known).call (.collectExpiredWithin (order.entries m) now)
        (admissible.2 m ns known)
  | invalidateSimilar order embedding threshold modelId now =>
      simp only [SemanticIndex.apply, invalidateSimilar]
      split
      · exact component
      · next ns known => exact component.insert _ ((component.2 _ ns known).dropAll _) _
  | rebuildDirtyNamespaces order =>
      refine component.forEach admissible.1 _ (fun m ns known => ?_) _
      split
      · exact (component.2 m ns known).call (.rebuild (order.entries m)) (admissible.2 m ns known)
      · exact component.2 m ns known
  | pruneEmptyNamespaces order =>
      refine ⟨component.1, fun m ns known => component.2 m ns ?_⟩
      simp only [SemanticIndex.apply, pruneEmptyNamespaces] at known
      rw [HashMap.lookup_eraseAll] at known
      split at known
      · cases known
      · exact known

theorem Component.recordAccess (component : Component cfg idx) (modelId : String)
    (internalId now : Nat) : Component cfg (idx.recordAccess modelId internalId now) := by
  unfold SemanticIndex.recordAccess
  split
  · exact component
  · next ns known =>
      have reached := (component.2 _ ns known).call (.recordAccess internalId now) trivial
      exact component.insert _ reached _

theorem Used.component (used : Used cfg idx) : Component cfg idx := by
  induction used with
  | new =>
      refine ⟨rfl, fun m ns known => ?_⟩
      simp [SemanticIndex.new] at known
  | call op _ admissible ih => exact ih.apply admissible
  | access modelId internalId now _ ih => exact ih.recordAccess modelId internalId now

/-- A namespace of an index in use, as a state of its own runs. -/
theorem Used.reachable (used : Used cfg idx) {m : String} {ns : NamespacedIndex}
    (known : idx.namespaces.lookup m = some ns) : NamespacedIndex.Reachable cfg ns :=
  used.component.2 m ns known

end SemanticIndex

end Components

end Ferrocache
