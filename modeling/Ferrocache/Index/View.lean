import Ferrocache.Index.Live
import Ferrocache.Index.Semantic

/-!
# What each operation of the index does to its contents

The contents of an index are, for every namespace key, the live entries by UUID
(`entryAt`) and the dimension (`dimensionOf`), and beside them the directory.
For every operation this module says what it does to the three.  All removals
share one relation, `SemanticIndex.Removed`.
-/

namespace Ferrocache.SemanticIndex

/-- The live entry with UUID `u` in namespace `m`. -/
def entryAt (idx : SemanticIndex) (m u : String) : Option CacheEntry :=
  (idx.namespaces.lookup m).bind (·.getByUuid u)

/-- The dimension of namespace `m`, if it exists and has one. -/
def dimensionOf (idx : SemanticIndex) (m : String) : Option Nat :=
  (idx.namespaces.lookup m).bind (·.dimension)

variable [Platform]

/-- Every namespace satisfies its representation invariant. -/
def WellFormed (idx : SemanticIndex) : Prop :=
  ∀ m ns, idx.namespaces.lookup m = some ns → ns.WellFormed

theorem wellFormed_new (cfg : HnswConfig) : (new cfg).WellFormed := by
  intro m ns found
  simp [new] at found

variable {idx : SemanticIndex}

omit [Platform] in
theorem entryAt_of_lookup {m : String} {ns : NamespacedIndex}
    (found : idx.namespaces.lookup m = some ns) (u : String) :
    idx.entryAt m u = ns.getByUuid u := by
  unfold entryAt
  rw [found]
  rfl

omit [Platform] in
theorem entryAt_of_absent {m : String} (absent : idx.namespaces.lookup m = none) (u : String) :
    idx.entryAt m u = none := by
  unfold entryAt
  rw [absent]
  rfl

theorem uuid_of_entryAt (wf : idx.WellFormed) {m u : String} {e : CacheEntry}
    (found : idx.entryAt m u = some e) : e.uuid = u := by
  obtain ⟨ns, known, live⟩ := Option.bind_eq_some_iff.mp found
  exact (wf m ns known).uuid_of_getByUuid live

/-- A namespace with a live entry has the dimension of its embedding. -/
theorem dimensionOf_of_entryAt (wf : idx.WellFormed) {m u : String} {e : CacheEntry}
    (found : idx.entryAt m u = some e) : idx.dimensionOf m = some e.embedding.length := by
  obtain ⟨ns, known, live⟩ := Option.bind_eq_some_iff.mp found
  unfold dimensionOf
  rw [known]
  exact (wf m ns known).sized_of_getByUuid live

omit [Platform] in
theorem namespaceMut_of_lookup {m : String} {ns : NamespacedIndex}
    (known : idx.namespaces.lookup m = some ns) : idx.namespaceMut m = ns := by
  unfold SemanticIndex.namespaceMut
  rw [known]
  rfl

omit [Platform] in
theorem namespaceMut_of_absent {m : String} (absent : idx.namespaces.lookup m = none) :
    idx.namespaceMut m = NamespacedIndex.new idx.hnswConfig := by
  unfold SemanticIndex.namespaceMut
  rw [absent]
  rfl

theorem WellFormed.namespaceMut (wf : idx.WellFormed) (m : String) :
    (idx.namespaceMut m).WellFormed := by
  unfold SemanticIndex.namespaceMut
  cases found : idx.namespaces.lookup m with
  | none => exact NamespacedIndex.wellFormed_new _
  | some ns => exact wf m ns found

omit [Platform] in
theorem namespaceMut_dimension (m : String) :
    (idx.namespaceMut m).dimension = idx.dimensionOf m := by
  unfold SemanticIndex.namespaceMut dimensionOf
  cases idx.namespaces.lookup m with
  | none => rfl
  | some ns => rfl

omit [Platform] in
theorem namespaceMut_getByUuid (m u : String) :
    (idx.namespaceMut m).getByUuid u = idx.entryAt m u := by
  unfold SemanticIndex.namespaceMut entryAt
  cases idx.namespaces.lookup m with
  | none => rfl
  | some ns => rfl

/-- Replacing one namespace by a well-formed one. -/
theorem WellFormed.insert (wf : idx.WellFormed) {m : String} {ns : NamespacedIndex}
    (good : ns.WellFormed) {d : HashMap String String} :
    WellFormed ⟨idx.namespaces.insert m ns, d, idx.hnswConfig⟩ := by
  intro m' ns' found
  dsimp only at found
  rw [HashMap.lookup_insert_eq] at found
  split at found
  · cases Option.some.inj found
    exact good
  · exact wf m' ns' found

omit [Platform] in
theorem entryAt_insert (m : String) (ns : NamespacedIndex) (d : HashMap String String)
    (m' u : String) :
    entryAt ⟨idx.namespaces.insert m ns, d, idx.hnswConfig⟩ m' u =
      if m' = m then ns.getByUuid u else idx.entryAt m' u := by
  unfold entryAt
  dsimp only
  rw [HashMap.lookup_insert_eq]
  split
  · rfl
  · rfl

omit [Platform] in
theorem dimensionOf_insert (m : String) (ns : NamespacedIndex) (d : HashMap String String)
    (m' : String) :
    dimensionOf ⟨idx.namespaces.insert m ns, d, idx.hnswConfig⟩ m' =
      if m' = m then ns.dimension else idx.dimensionOf m' := by
  unfold dimensionOf
  dsimp only
  rw [HashMap.lookup_insert_eq]
  split
  · rfl
  · rfl

/-! ## Insertion -/

/-- What an accepted insertion of `entry` into namespace `m` leaves behind. -/
structure Inserted (idx idx' : SemanticIndex) (m : String) (entry : CacheEntry) : Prop where
  wellFormed : idx'.WellFormed
  live : ∀ m' u, idx'.entryAt m' u =
    if m' = m ∧ u = entry.uuid then some ((idx.entryAt m' u).getD entry) else idx.entryAt m' u
  dimension : ∀ m', idx'.dimensionOf m' =
    if m' = m then some entry.embedding.length else idx.dimensionOf m'
  directory : idx'.uuidToNamespace = idx.uuidToNamespace.insert entry.uuid m

theorem insertInto_of_accepts (wf : idx.WellFormed) {m : String} {entry : CacheEntry}
    (accepted : NamespacedIndex.Accepts (idx.dimensionOf m) entry.embedding.length) :
    Inserted idx (idx.insertInto m entry).1 m entry ∧
      (idx.insertInto m entry).2 = .ok () := by
  have good := wf.namespaceMut m
  rw [← namespaceMut_dimension] at accepted
  obtain ⟨ok, dimension, live⟩ := good.insertWithUuid_of_accepts accepted
  have kept := good.insertWithUuid entry
  unfold insertInto
  rcases ins : (idx.namespaceMut m).insertWithUuid entry with ⟨ns, result⟩
  rw [ins] at ok dimension live kept
  dsimp only at ok dimension live kept
  subst ok
  refine ⟨⟨wf.insert kept, fun m' u => ?_, fun m' => ?_, rfl⟩, rfl⟩
  · refine (entryAt_insert m ns _ m' u).trans ?_
    by_cases here : m' = m
    · subst here
      rw [if_pos rfl, live, namespaceMut_getByUuid]
      simp
    · simp [here]
  · refine (dimensionOf_insert m ns _ m').trans ?_
    rw [dimension]

theorem insertInto_of_not_accepts {m : String} {entry : CacheEntry}
    (rejected : ¬ NamespacedIndex.Accepts (idx.dimensionOf m) entry.embedding.length) :
    ∃ msg, idx.insertInto m entry = (idx, .error msg) := by
  have refused : ¬ NamespacedIndex.Accepts (idx.namespaceMut m).dimension
      entry.embedding.length := by
    rw [namespaceMut_dimension]
    exact rejected
  obtain ⟨same, msg, error⟩ :=
    NamespacedIndex.WellFormed.insertWithUuid_of_not_accepts refused
  -- a namespace created on demand has no dimension, so the rejected one existed
  obtain ⟨ns, known⟩ : ∃ ns, idx.namespaces.lookup m = some ns := by
    cases found : idx.namespaces.lookup m with
    | some ns => exact ⟨ns, rfl⟩
    | none =>
        refine absurd (Or.inl ?_) rejected
        unfold dimensionOf
        rw [found]
        rfl
  have stored : idx.namespaces.insert m (idx.namespaceMut m) = idx.namespaces := by
    refine Finmap.ext_lookup fun m' => ?_
    rw [HashMap.lookup_insert_eq]
    split
    · next here =>
        subst here
        unfold SemanticIndex.namespaceMut
        rw [known]
        rfl
    · rfl
  refine ⟨msg, ?_⟩
  unfold insertInto
  rcases ins : (idx.namespaceMut m).insertWithUuid entry with ⟨ns', result⟩
  rw [ins] at same error
  dsimp only at same error
  subst same error
  dsimp only
  rw [stored]

/-! ## Removal -/

/-- `idx'` is `idx` without the live entries `gone` (pairs of UUID and namespace),
with their UUIDs erased from the directory. -/
structure Removed (idx idx' : SemanticIndex) (gone : List (String × String)) : Prop where
  wellFormed : idx'.WellFormed
  live : ∀ m u, idx'.entryAt m u = if (u, m) ∈ gone then none else idx.entryAt m u
  present : ∀ u m, (u, m) ∈ gone → idx.entryAt m u ≠ none
  dimension : ∀ m, idx'.dimensionOf m = idx.dimensionOf m
  directory : ∀ u, idx'.uuidToNamespace.lookup u =
    if u ∈ gone.map Prod.fst then none else idx.uuidToNamespace.lookup u

/-- A sweep over all namespaces that only removes. -/
theorem Removed.sweep {O : Type} {order : List String}
    (iter : HashMap.IterOrder idx.namespaces order)
    (f : String → NamespacedIndex → NamespacedIndex × List O) (pair : O → String × String)
    (removes : ∀ m ns, idx.namespaces.lookup m = some ns →
      NamespacedIndex.Removed ns (f m ns).1 ((f m ns).2.map fun o => (pair o).1))
    (home : ∀ m ns o, o ∈ (f m ns).2 → (pair o).2 = m) :
    Removed idx
      { idx with
        namespaces := (HashMap.forEach f order idx.namespaces).1
        uuidToNamespace := HashMap.eraseAll idx.uuidToNamespace
          (((HashMap.forEach f order idx.namespaces).2.map pair).map Prod.fst) }
      ((HashMap.forEach f order idx.namespaces).2.map pair) := by
  have after : ∀ m, (HashMap.forEach f order idx.namespaces).1.lookup m =
      (idx.namespaces.lookup m).map fun ns => (f m ns).1 := HashMap.lookup_forEach f iter
  have outputs : ∀ u m, (u, m) ∈ (HashMap.forEach f order idx.namespaces).2.map pair ↔
      ∃ ns, idx.namespaces.lookup m = some ns ∧ u ∈ (f m ns).2.map fun o => (pair o).1 := by
    intro u m
    simp only [List.mem_map, HashMap.mem_forEach_out f iter.1]
    constructor
    · rintro ⟨o, ⟨m', -, ns, known, mem⟩, eq⟩
      have here : m' = m := by
        rw [← home m' ns o mem, eq]
      subst here
      exact ⟨ns, known, o, mem, by rw [eq]⟩
    · rintro ⟨ns, known, o, mem, rfl⟩
      have visited : m ∈ order := (iter.2 m).mpr (Finmap.mem_of_lookup_eq_some known)
      exact ⟨o, ⟨m, visited, ns, known, mem⟩, Prod.ext rfl (home m ns o mem)⟩
  constructor
  case wellFormed =>
    intro m ns' found
    dsimp only at found
    rw [after] at found
    obtain ⟨ns, known, rfl⟩ := Option.map_eq_some_iff.mp found
    exact (removes m ns known).wellFormed
  case live =>
    intro m u
    unfold entryAt
    dsimp only
    rw [after]
    cases known : idx.namespaces.lookup m with
    | none =>
        simp
    | some ns =>
        simp only [Option.map_some, Option.bind_some]
        rw [(removes m ns known).live u]
        refine if_congr ?_ rfl rfl
        rw [outputs]
        simp [known]
  case present =>
    intro u m mem
    obtain ⟨ns, known, gone⟩ := (outputs u m).mp mem
    rw [entryAt_of_lookup known]
    exact (removes m ns known).present u gone
  case dimension =>
    intro m
    unfold dimensionOf
    dsimp only
    rw [after]
    cases known : idx.namespaces.lookup m with
    | none => rfl
    | some ns => exact (removes m ns known).dimension
  case directory =>
    intro u
    exact HashMap.lookup_eraseAll _ _ u

theorem Removed.evictToCap (wf : idx.WellFormed) {order : List String}
    (iter : HashMap.IterOrder idx.namespaces order) (maxEntries : Nat) :
    Removed idx (idx.evictToCap order maxEntries).1
      ((idx.evictToCap order maxEntries).2.map fun e => (e.uuid, e.modelId)) := by
  have swept := Removed.sweep iter
    (fun modelId ns => ns.evictDownTo modelId maxEntries ns.entryCount)
    (fun e => (e.uuid, e.modelId))
    (fun m ns known => NamespacedIndex.Removed.evictDownTo (wf m ns known) m maxEntries _)
    (fun m ns e mem => NamespacedIndex.modelId_of_mem_evictDownTo mem)
  simp only [List.map_map, Function.comp_def] at swept
  exact swept

theorem Removed.collectExpired (wf : idx.WellFormed) {order : PassOrder}
    (iter : HashMap.IterOrder idx.namespaces order.namespaces) (now : Nat) :
    Removed idx (idx.collectExpired order now).1 (idx.collectExpired order now).2 := by
  have swept := Removed.sweep iter
    (fun modelId ns =>
      ((ns.collectExpiredWithin (order.entries modelId) now).1,
        (ns.collectExpiredWithin (order.entries modelId) now).2.map fun e => (e.1, modelId)))
    id
    (fun m ns known => by
      have dropped := NamespacedIndex.Removed.dropAll (wf m ns known)
        (ns.expiredIds (order.entries m) now)
      simp only [List.map_map, Function.comp_def, id_eq]
      exact dropped)
    (fun m ns o mem => by
      obtain ⟨e, -, rfl⟩ := List.mem_map.mp mem
      rfl)
  simp only [List.map_id] at swept
  exact swept

/-- The pass drops entries past their deadline only. -/
theorem expired_of_mem_collectExpired (wf : idx.WellFormed) {order : PassOrder}
    (visits : Visits order idx) {now : Nat} {u m : String}
    (mem : (u, m) ∈ (idx.collectExpired order now).2) :
    ∃ e, idx.entryAt m u = some e ∧ e.liveAt now = false := by
  unfold SemanticIndex.collectExpired at mem
  dsimp only at mem
  rw [HashMap.mem_forEach_out _ visits.1.1] at mem
  obtain ⟨m', -, ns, known, out⟩ := mem
  obtain ⟨pair, dropped, same⟩ := List.mem_map.mp out
  obtain ⟨rfl, rfl⟩ := Prod.mk.inj same
  rw [entryAt_of_lookup known]
  exact ((wf m' ns known).mem_collectExpiredWithin (visits.2 m' ns known) pair.1).mp
    (List.mem_map_of_mem dropped)

theorem Removed.invalidateSimilar (wf : idx.WellFormed) (order : List Nat)
    (embedding : Embedding) (threshold : F32) (modelId : String) (now : Nat) :
    Removed idx (idx.invalidateSimilar order embedding threshold modelId now).1
      ((idx.invalidateSimilar order embedding threshold modelId now).2.map
        fun u => (u, modelId)) := by
  unfold SemanticIndex.invalidateSimilar
  cases known : idx.namespaces.lookup modelId with
  | none =>
      refine ⟨wf, fun m u => ?_, ?_, fun _ => rfl, fun u => ?_⟩
      · simp
      · simp
      · simp
  | some ns =>
      have dropped := NamespacedIndex.Removed.dropAll (wf modelId ns known)
        ((ns.findSimilar order embedding threshold now).map Prod.fst)
      dsimp only
      rcases result : ns.dropAll
        ((ns.findSimilar order embedding threshold now).map Prod.fst) with ⟨ns', removed⟩
      rw [result] at dropped
      dsimp only at dropped ⊢
      have pairs : ∀ u m, (u, m) ∈ (removed.map Prod.fst).map (fun u => (u, modelId)) ↔
          m = modelId ∧ u ∈ removed.map Prod.fst := by
        intro u m
        simp only [List.mem_map, Prod.mk.injEq]
        constructor
        · rintro ⟨u', mem, rfl, rfl⟩
          exact ⟨rfl, mem⟩
        · rintro ⟨rfl, mem⟩
          exact ⟨u, mem, rfl, rfl⟩
      constructor
      case wellFormed => exact wf.insert dropped.wellFormed
      case live =>
        intro m u
        refine (entryAt_insert modelId ns' _ m u).trans ?_
        rw [dropped.live]
        by_cases here : m = modelId
        · subst here
          rw [if_pos rfl, entryAt_of_lookup known]
          exact if_congr ((pairs u m).trans (and_iff_right rfl)).symm rfl rfl
        · rw [if_neg here, if_neg fun mem => here ((pairs u m).mp mem).1]
      case present =>
        intro u m mem
        obtain ⟨rfl, gone⟩ := (pairs u m).mp mem
        rw [entryAt_of_lookup known]
        exact dropped.present u gone
      case dimension =>
        intro m
        refine (dimensionOf_insert modelId ns' _ m).trans ?_
        split
        · next here =>
            subst here
            rw [dropped.dimension]
            unfold dimensionOf
            rw [known]
            rfl
        · rfl
      case directory =>
        intro u
        refine (HashMap.lookup_eraseAll _ _ u).trans ?_
        simp only [List.map_map, Function.comp_def]

/-- What `remove_by_uuid` does: the directory loses the UUID, and the namespace
the directory named loses the entry.  Other namespaces are not visited. -/
structure RemovedUuid (idx idx' : SemanticIndex) (uuid : String) : Prop where
  wellFormed : idx'.WellFormed
  live : ∀ m u, idx'.entryAt m u =
    if u = uuid ∧ idx.uuidToNamespace.lookup uuid = some m then none else idx.entryAt m u
  dimension : ∀ m, idx'.dimensionOf m = idx.dimensionOf m
  directory : ∀ u, idx'.uuidToNamespace.lookup u =
    if u = uuid then none else idx.uuidToNamespace.lookup u

theorem removeByUuid_spec (wf : idx.WellFormed) (uuid : String) :
    RemovedUuid idx (idx.removeByUuid uuid).1 uuid := by
  unfold removeByUuid
  cases home : idx.uuidToNamespace.lookup uuid with
  | none =>
      dsimp only
      refine ⟨wf, fun m u => by simp [home], fun _ => rfl, fun u => ?_⟩
      by_cases same : u = uuid
      · rw [if_pos same, same]
        exact home
      · rw [if_neg same]
  | some modelId =>
      dsimp only
      cases known : idx.namespaces.lookup modelId with
      | none =>
          dsimp only
          refine ⟨wf, fun m u => ?_, fun _ => rfl, fun u => HashMap.lookup_erase_eq _ _ _⟩
          by_cases hit : u = uuid ∧ idx.uuidToNamespace.lookup uuid = some m
          · have here := hit.2
            rw [home] at here
            cases Option.some.inj here
            rw [if_pos hit]
            exact entryAt_of_absent known u
          · rw [if_neg hit]
            rfl
      | some ns =>
          have good := wf modelId ns known
          refine ⟨wf.insert (good.removeByUuid uuid), fun m u => ?_, fun m => ?_,
            fun u => HashMap.lookup_erase_eq _ _ _⟩
          · refine (entryAt_insert modelId _ _ m u).trans ?_
            rw [good.getByUuid_removeByUuid, home]
            by_cases here : m = modelId
            · subst here
              rw [if_pos rfl, entryAt_of_lookup known]
              simp
            · have elsewhere : ¬ (u = uuid ∧ some modelId = some m) := fun hit =>
                here (Option.some.inj hit.2).symm
              rw [if_neg here, if_neg elsewhere]
          · refine (dimensionOf_insert modelId _ _ m).trans ?_
            split
            · next here =>
                subst here
                rw [NamespacedIndex.WellFormed.removeByUuid_dimension]
                unfold dimensionOf
                rw [known]
                rfl
            · rfl

/-! ## Log lines -/

theorem replayEntry_of_tombstone {entry : WalEntry} (tomb : entry.tombstone = true) :
    idx.replayEntry entry = ((idx.removeByUuid entry.uuid).1, .ok ()) := by
  unfold replayEntry
  rw [if_pos tomb]

theorem replayEntry_of_insert {entry : WalEntry} (insert : entry.tombstone = false) :
    idx.replayEntry entry = idx.insertInto entry.modelId entry.cacheEntry := by
  unfold replayEntry
  rw [insert]
  rfl

/-- Every line keeps the index well formed. -/
theorem WellFormed.insertInto (wf : idx.WellFormed) (m : String) (entry : CacheEntry) :
    (idx.insertInto m entry).1.WellFormed := by
  by_cases accepted : NamespacedIndex.Accepts (idx.dimensionOf m) entry.embedding.length
  · exact (insertInto_of_accepts wf accepted).1.wellFormed
  · obtain ⟨msg, rejected⟩ := insertInto_of_not_accepts accepted
    rw [rejected]
    exact wf

theorem WellFormed.replayEntry (wf : idx.WellFormed) (entry : WalEntry) :
    (idx.replayEntry entry).1.WellFormed := by
  cases kind : entry.tombstone with
  | true =>
      rw [replayEntry_of_tombstone kind]
      exact (removeByUuid_spec wf entry.uuid).wellFormed
  | false =>
      rw [replayEntry_of_insert kind]
      exact wf.insertInto _ _

/-! ## Operations that keep the live entries -/

/-- `idx'` has the live entries and the directory of `idx`. -/
structure SameLive (idx idx' : SemanticIndex) : Prop where
  wellFormed : idx'.WellFormed
  live : ∀ m u, idx'.entryAt m u = idx.entryAt m u
  directory : idx'.uuidToNamespace = idx.uuidToNamespace

/-- A rebuild pass keeps entries and dimensions. -/
theorem rebuildDirtyNamespaces_spec (wf : idx.WellFormed) {order : PassOrder}
    (visits : Visits order idx) :
    SameLive idx (idx.rebuildDirtyNamespaces order).1 ∧
      ∀ m, (idx.rebuildDirtyNamespaces order).1.dimensionOf m = idx.dimensionOf m := by
  unfold rebuildDirtyNamespaces
  dsimp only
  have after := HashMap.lookup_forEach (fun modelId (ns : NamespacedIndex) =>
    if ns.needsRebuild then (ns.rebuild (order.entries modelId), [modelId]) else (ns, []))
    visits.1
  have each : ∀ m ns, idx.namespaces.lookup m = some ns →
      let ns' := (if ns.needsRebuild then (ns.rebuild (order.entries m), [m]) else (ns, [])).1
      ns'.WellFormed ∧ (∀ u, ns'.getByUuid u = ns.getByUuid u) ∧
        ns'.dimension = ns.dimension := by
    intro m ns known
    have good := wf m ns known
    have iter := visits.2 m ns known
    dsimp only
    split
    · exact ⟨good.rebuild iter, good.getByUuid_rebuild iter,
        NamespacedIndex.WellFormed.rebuild_dimension _⟩
    · exact ⟨good, fun _ => rfl, rfl⟩
  refine ⟨⟨fun m ns' found => ?_, fun m u => ?_, rfl⟩, fun m => ?_⟩
  · dsimp only at found
    rw [after] at found
    obtain ⟨ns, known, rfl⟩ := Option.map_eq_some_iff.mp found
    exact (each m ns known).1
  · unfold entryAt
    dsimp only
    rw [after]
    cases known : idx.namespaces.lookup m with
    | none => rfl
    | some ns => exact (each m ns known).2.1 u
  · unfold dimensionOf
    dsimp only
    rw [after]
    cases known : idx.namespaces.lookup m with
    | none => rfl
    | some ns => exact (each m ns known).2.2

omit [Platform] in
/-- A pruned namespace has no live entry. -/
theorem entryAt_of_mem_prunable {order : List String} {m : String}
    (pruned : m ∈ idx.prunable order) (u : String) : idx.entryAt m u = none := by
  have empty := (List.mem_filter.mp pruned).2
  cases known : idx.namespaces.lookup m with
  | none => exact entryAt_of_absent known u
  | some ns =>
      simp only [known, Bool.and_eq_true, decide_eq_true_eq] at empty
      have none := HashMap.len_eq_zero.mp empty.2.1
      rw [entryAt_of_lookup known]
      unfold NamespacedIndex.getByUuid
      cases ns.uuidToInternal.lookup u with
      | none => rfl
      | some i => exact none i

/-- Pruning drops no live entry; the pruned namespaces forget their dimension. -/
theorem pruneEmptyNamespaces_spec (wf : idx.WellFormed) (order : List String) :
    SameLive idx (idx.pruneEmptyNamespaces order).1 ∧
      ∀ m, (idx.pruneEmptyNamespaces order).1.dimensionOf m =
        if m ∈ idx.prunable order then none else idx.dimensionOf m := by
  unfold pruneEmptyNamespaces
  have after := HashMap.lookup_eraseAll idx.namespaces (idx.prunable order)
  refine ⟨⟨fun m ns found => ?_, fun m u => ?_, rfl⟩, fun m => ?_⟩
  · dsimp only at found
    rw [after] at found
    split at found
    · cases found
    · exact wf m ns found
  · by_cases pruned : m ∈ idx.prunable order
    · rw [entryAt_of_mem_prunable pruned]
      unfold entryAt
      dsimp only
      rw [after, if_pos pruned]
      rfl
    · unfold entryAt
      dsimp only
      rw [after, if_neg pruned]
  · unfold dimensionOf
    dsimp only
    rw [after]
    split
    · rfl
    · rfl

/-- Access bookkeeping keeps records, dimensions and the directory. -/
theorem recordAccess_spec (wf : idx.WellFormed) (modelId : String) (internalId now : Nat) :
    (idx.recordAccess modelId internalId now).WellFormed ∧
      (∀ m u, ((idx.recordAccess modelId internalId now).entryAt m u).map (·.record) =
        (idx.entryAt m u).map (·.record)) ∧
      (∀ m, (idx.recordAccess modelId internalId now).dimensionOf m = idx.dimensionOf m) ∧
        (idx.recordAccess modelId internalId now).uuidToNamespace = idx.uuidToNamespace := by
  unfold recordAccess
  cases known : idx.namespaces.lookup modelId with
  | none => exact ⟨wf, fun _ _ => rfl, fun _ => rfl, rfl⟩
  | some ns =>
      have good := wf modelId ns known
      refine ⟨wf.insert (good.recordAccess internalId now), fun m u => ?_, fun m => ?_, rfl⟩
      · have moved := @entryAt_insert idx modelId (ns.recordAccess internalId now)
          idx.uuidToNamespace m u
        rw [moved]
        split
        · next here =>
            subst here
            rw [entryAt_of_lookup known]
            exact good.record_recordAccess internalId now u
        · rfl
      · refine (dimensionOf_insert modelId _ _ m).trans ?_
        split
        · next here =>
            subst here
            rw [NamespacedIndex.WellFormed.recordAccess_dimension]
            unfold dimensionOf
            rw [known]
            rfl
        · rfl

/-- A snapshot has the live entries, each once per namespace. -/
theorem mem_snapshotEntries (wf : idx.WellFormed) {order : PassOrder} (visits : Visits order idx)
    {s : SnapshotEntry} : s ∈ idx.snapshotEntries order ↔
      ∃ m e, idx.entryAt m e.uuid = some e ∧ s = snapshotEntry m e := by
  unfold snapshotEntries
  simp only [List.mem_flatMap]
  constructor
  · rintro ⟨m, -, mem⟩
    cases known : idx.namespaces.lookup m with
    | none =>
        rw [known] at mem
        cases mem
    | some ns =>
        rw [known] at mem
        obtain ⟨e, inOrder, rfl⟩ := List.mem_map.mp mem
        obtain ⟨i, -, found⟩ := List.mem_filterMap.mp inOrder
        refine ⟨m, e, ?_, rfl⟩
        rw [entryAt_of_lookup known]
        exact (wf m ns known).getByUuid_of_entry found
  · rintro ⟨m, e, live, rfl⟩
    obtain ⟨ns, known, found⟩ := Option.bind_eq_some_iff.mp live
    obtain ⟨-, i, stored⟩ := (wf m ns known).getByUuid_eq_some.mp found
    refine ⟨m, (visits.1.2 m).mpr (Finmap.mem_of_lookup_eq_some known), ?_⟩
    rw [known]
    refine List.mem_map.mpr ⟨e, List.mem_filterMap.mpr ⟨i, ?_, stored⟩, rfl⟩
    exact ((visits.2 m ns known).2 i).mpr (Finmap.mem_of_lookup_eq_some stored)

end Ferrocache.SemanticIndex
