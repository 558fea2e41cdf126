import Ferrocache.Index.Loss
import Ferrocache.Index.Owner
import Ferrocache.Index.Reaper

/-!
# Who answers for a text

The exact-match index of a namespace names, for every text, the entry inserted
last with it.  No operation other than an insertion hands a text on: removals
clear a text only together with its owner, and a rebuild, although it gives every
entry a new internal id, leaves the texts alone.  So an entry answers for its
text until it goes, or until another one with that text is added
(`KeepsTexts`, `ownerOf_insertInto`).
-/

namespace Ferrocache

namespace NamespacedIndex

section Texts

variable [Platform] {ns ns' ns'' : NamespacedIndex}

/-- Entries may go, and a text keeps its owner as long as the owner stays. -/
structure KeepsTexts (ns ns' : NamespacedIndex) : Prop where
  fewer : ∀ u, ns'.getByUuid u ≠ none → ns.getByUuid u ≠ none
  owner : ∀ k u, ns.exactMatchIndex.lookup k = some u → ns'.getByUuid u ≠ none →
    ns'.exactMatchIndex.lookup k = some u

namespace KeepsTexts

omit [Platform] in
theorem refl (ns : NamespacedIndex) : KeepsTexts ns ns :=
  ⟨fun _ live => live, fun _ _ owner _ => owner⟩

omit [Platform] in
theorem trans (first : KeepsTexts ns ns') (second : KeepsTexts ns' ns'') : KeepsTexts ns ns'' where
  fewer u live := first.fewer u (second.fewer u live)
  owner k u owner live := second.owner k u (first.owner k u owner (second.fewer u live)) live

omit [Platform] in
theorem of_same (texts : ns'.exactMatchIndex = ns.exactMatchIndex)
    (fewer : ∀ u, ns'.getByUuid u ≠ none → ns.getByUuid u ≠ none) : KeepsTexts ns ns' where
  fewer := fewer
  owner k u owner _ := by
    rw [texts]
    exact owner

theorem dropEntry (wf : ns.WellFormed) (id : Nat) : KeepsTexts ns (ns.dropEntry id).1 := by
  cases found : ns.entries.lookup id with
  | none =>
      rw [WellFormed.dropEntry_of_absent found]
      exact refl ns
  | some entry =>
      have live := wf.getByUuid_dropEntry found
      refine ⟨fun u there => ?_, fun k u owner there => ?_⟩
      · rw [live] at there
        split at there
        · exact absurd rfl there
        · exact there
      · rw [live] at there
        rw [dropEntry_texts found, lookup_unregisterText_eq, if_neg fun cleared => ?_]
        · exact owner
        · -- the text would be cleared with its owner
          obtain ⟨⟨-, dropped⟩, rfl⟩ := cleared
          rw [owner] at dropped
          exact there (if_pos (Option.some.inj dropped))

theorem dropAll (wf : ns.WellFormed) (ids : List Nat) : KeepsTexts ns (ns.dropAll ids).1 := by
  induction ids generalizing ns with
  | nil => exact refl ns
  | cons id ids ih =>
      have head := dropEntry wf id
      have next := wf.dropEntry id
      unfold NamespacedIndex.dropAll
      rcases dropped : ns.dropEntry id with ⟨rest, _ | entry⟩
      · rw [dropped] at head next
        exact head.trans (ih next)
      · rw [dropped] at head next
        exact head.trans (ih next)

theorem evictLru (wf : ns.WellFormed) (modelId : String) :
    KeepsTexts ns (ns.evictLru modelId).1 := by
  rw [evictLru_fst]
  cases ns.lruId with
  | none => exact refl ns
  | some id => exact dropEntry wf id

theorem evictDownTo (wf : ns.WellFormed) (modelId : String) (maxEntries fuel : Nat) :
    KeepsTexts ns (ns.evictDownTo modelId maxEntries fuel).1 := by
  induction fuel generalizing ns with
  | zero => exact refl ns
  | succ fuel ih =>
      have head := evictLru wf modelId
      have next := (Removed.evictLru wf modelId).wellFormed
      unfold NamespacedIndex.evictDownTo
      split
      · rcases evicted : ns.evictLru modelId with ⟨rest, _ | e⟩
        · rw [evicted] at head
          exact head
        · rw [evicted] at head next
          exact head.trans (ih next)
      · exact refl ns

theorem removeByUuid (wf : ns.WellFormed) (uuid : String) :
    KeepsTexts ns (ns.removeByUuid uuid).1 := by
  unfold NamespacedIndex.removeByUuid
  cases ns.uuidToInternal.lookup uuid with
  | none => exact refl ns
  | some id => exact dropEntry wf id

theorem recordAccess (wf : ns.WellFormed) (internalId now : Nat) :
    KeepsTexts ns (ns.recordAccess internalId now) := by
  refine of_same ?_ fun u live => ?_
  · unfold NamespacedIndex.recordAccess
    cases ns.entries.lookup internalId with
    | none => rfl
    | some entry => rfl
  · rw [ne_eq, ← Option.map_eq_none_iff, ← wf.record_recordAccess internalId now u,
      Option.map_eq_none_iff]
    exact live

theorem rebuild (wf : ns.WellFormed) {order : List Nat} (iter : HashMap.IterOrder ns.entries order) :
    KeepsTexts ns (ns.rebuild order) := by
  refine of_same (WellFormed.refill_frame ns.drained _).1 fun u live => ?_
  rw [wf.getByUuid_rebuild iter] at live
  exact live

end KeepsTexts

end Texts

end NamespacedIndex

namespace SemanticIndex

section Texts

variable [Platform] {idx idx' idx'' : SemanticIndex}

omit [Platform] in
/-- The UUID that answers for a text in a namespace. -/
def ownerOf (idx : SemanticIndex) (m k : String) : Option String :=
  (idx.namespaces.lookup m).bind fun ns => ns.exactMatchIndex.lookup k

omit [Platform] in
/-- The namespaces of `idx'` come from those of `idx`, and keep their texts. -/
def KeepsTexts (idx idx' : SemanticIndex) : Prop :=
  ∀ m ns', idx'.namespaces.lookup m = some ns' →
    ∃ ns, idx.namespaces.lookup m = some ns ∧ NamespacedIndex.KeepsTexts ns ns'

namespace KeepsTexts

omit [Platform] in
theorem ownerOf (keeps : KeepsTexts idx idx') {m k u : String} (owner : idx.ownerOf m k = some u)
    (live : idx'.entryAt m u ≠ none) : idx'.ownerOf m k = some u := by
  unfold SemanticIndex.ownerOf at owner ⊢
  unfold entryAt at live
  cases known : idx'.namespaces.lookup m with
  | none =>
      rw [known] at live
      exact absurd rfl live
  | some ns' =>
      obtain ⟨ns, before, texts⟩ := keeps m ns' known
      rw [before, Option.bind_some] at owner
      rw [known, Option.bind_some] at live
      exact texts.owner k u owner live

omit [Platform] in
theorem refl (idx : SemanticIndex) : KeepsTexts idx idx :=
  fun _ ns known => ⟨ns, known, .refl ns⟩

omit [Platform] in
theorem trans (first : KeepsTexts idx idx') (second : KeepsTexts idx' idx'') :
    KeepsTexts idx idx'' := by
  intro m ns'' known
  obtain ⟨ns', between, after⟩ := second m ns'' known
  obtain ⟨ns, before, kept⟩ := first m ns' between
  exact ⟨ns, before, kept.trans after⟩

omit [Platform] in
/-- One namespace changes. -/
theorem insert {m : String} {ns ns' : NamespacedIndex} (known : idx.namespaces.lookup m = some ns)
    (kept : NamespacedIndex.KeepsTexts ns ns')
    (same : idx'.namespaces = idx.namespaces.insert m ns') : KeepsTexts idx idx' := by
  intro m' found there
  rw [same, HashMap.lookup_insert_eq] at there
  split at there
  · next here =>
      cases there
      subst here
      exact ⟨ns, known, kept⟩
  · exact ⟨found, there, .refl found⟩

omit [Platform] in
/-- A sweep over all namespaces. -/
theorem sweep {O : Type} {order : List String} (iter : HashMap.IterOrder idx.namespaces order)
    (f : String → NamespacedIndex → NamespacedIndex × List O)
    (keeps : ∀ m ns, idx.namespaces.lookup m = some ns → NamespacedIndex.KeepsTexts ns (f m ns).1)
    (same : idx'.namespaces = (HashMap.forEach f order idx.namespaces).1) : KeepsTexts idx idx' := by
  intro m ns' known
  rw [same, HashMap.lookup_forEach f iter] at known
  obtain ⟨ns, before, rfl⟩ := Option.map_eq_some_iff.mp known
  exact ⟨ns, before, keeps m ns before⟩

theorem removeByUuid (wf : idx.WellFormed) (uuid : String) :
    KeepsTexts idx (idx.removeByUuid uuid).1 := by
  unfold SemanticIndex.removeByUuid
  cases idx.uuidToNamespace.lookup uuid with
  | none => exact refl idx
  | some modelId =>
      dsimp only
      cases known : idx.namespaces.lookup modelId with
      | none => exact refl idx
      | some ns => exact insert known (.removeByUuid (wf modelId ns known) uuid) rfl

theorem evictToCap (wf : idx.WellFormed) {order : List String}
    (iter : HashMap.IterOrder idx.namespaces order) (maxEntries : Nat) :
    KeepsTexts idx (idx.evictToCap order maxEntries).1 :=
  sweep iter _ (fun m ns known => .evictDownTo (wf m ns known) m maxEntries ns.entryCount) rfl

theorem collectExpired (wf : idx.WellFormed) {order : PassOrder}
    (iter : HashMap.IterOrder idx.namespaces order.namespaces) (now : Nat) :
    KeepsTexts idx (idx.collectExpired order now).1 :=
  sweep iter
    (fun modelId ns =>
      ((ns.collectExpiredWithin (order.entries modelId) now).1,
        (ns.collectExpiredWithin (order.entries modelId) now).2.map fun e => (e.1, modelId)))
    (fun m ns known => .dropAll (wf m ns known) (ns.expiredIds (order.entries m) now)) rfl

theorem rebuildDirtyNamespaces (wf : idx.WellFormed) {order : PassOrder}
    (visits : Visits order idx) : KeepsTexts idx (idx.rebuildDirtyNamespaces order).1 := by
  refine sweep visits.1
    (fun modelId ns =>
      if ns.needsRebuild then (ns.rebuild (order.entries modelId), [modelId]) else (ns, []))
    (fun m ns known => ?_) rfl
  split
  · exact .rebuild (wf m ns known) (visits.2 m ns known)
  · exact .refl ns

omit [Platform] in
theorem pruneEmptyNamespaces {order : List String}
    (iter : HashMap.IterOrder idx.namespaces order) :
    KeepsTexts idx (idx.pruneEmptyNamespaces order).1 :=
  fun _ ns known => ⟨ns, ((lookup_pruneEmpty iter).mp known).1, .refl ns⟩

theorem invalidateSimilar (wf : idx.WellFormed) (order : List Nat) (embedding : Embedding)
    (threshold : F32) (modelId : String) (now : Nat) :
    KeepsTexts idx (idx.invalidateSimilar order embedding threshold modelId now).1 := by
  unfold SemanticIndex.invalidateSimilar
  cases known : idx.namespaces.lookup modelId with
  | none => exact refl idx
  | some ns => exact insert known (.dropAll (wf modelId ns known) _) rfl

theorem recordAccess (wf : idx.WellFormed) (modelId : String) (internalId now : Nat) :
    KeepsTexts idx (idx.recordAccess modelId internalId now) := by
  unfold SemanticIndex.recordAccess
  cases known : idx.namespaces.lookup modelId with
  | none => exact refl idx
  | some ns => exact insert known (.recordAccess (wf modelId ns known) internalId now) rfl

end KeepsTexts

/-! ## Insertions -/

theorem namespaces_insertInto (m : String) (entry : CacheEntry) :
    (idx.insertInto m entry).1.namespaces =
      idx.namespaces.insert m ((idx.namespaceMut m).insertWithUuid entry).1 := by
  unfold insertInto
  rcases (idx.namespaceMut m).insertWithUuid entry with ⟨ns, _ | _⟩
  · rfl
  · rfl

omit [Platform] in
theorem ownerOf_namespaceMut (m k : String) :
    (idx.namespaceMut m).exactMatchIndex.lookup k = idx.ownerOf m k := by
  unfold ownerOf
  cases known : idx.namespaces.lookup m with
  | none =>
      rw [namespaceMut_of_absent known]
      exact Finmap.lookup_empty k
  | some ns =>
      rw [namespaceMut_of_lookup known]
      rfl

/-- Another insertion leaves the owner of a text, unless it adds an entry with that
text to that namespace. -/
theorem ownerOf_insertInto {m k u : String} (owner : idx.ownerOf m k = some u) {m' : String}
    {entry : CacheEntry} (apart : m' = m → NamespacedIndex.textKey entry = k → entry.uuid = u) :
    (idx.insertInto m' entry).1.ownerOf m k = some u := by
  unfold ownerOf
  rw [namespaces_insertInto, HashMap.lookup_insert_eq]
  split
  · next here =>
      subst here
      rw [← ownerOf_namespaceMut] at owner
      rw [Option.bind_some]
      by_cases adds : (idx.namespaceMut m).Adds entry
      · rw [(NamespacedIndex.insertWithUuid_of_adds adds).2, NamespacedIndex.lookup_registerText_eq]
        split
        · next same => rw [apart rfl same.2.symm]
        · exact owner
      · rw [(NamespacedIndex.insertWithUuid_of_not_adds adds).2]
        exact owner
  · exact owner

/-! ## Answers -/

end Texts

end SemanticIndex

end Ferrocache
