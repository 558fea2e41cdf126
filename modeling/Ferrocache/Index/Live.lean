import Ferrocache.Index.Invariant

/-!
# What each mutator does to the live entries

The observable content of a well-formed namespace is the partial map from UUIDs
to entries (`getByUuid`) and its dimension.  For every mutator this module says
what it does to these two, so that the layers above never open the side tables.
-/

namespace Ferrocache.NamespacedIndex

/-- A namespace accepts an embedding length when it has no dimension yet or the
same one. -/
def Accepts (dimension : Option Nat) (length : Nat) : Prop :=
  dimension = none ∨ dimension = some length

instance (dimension : Option Nat) (length : Nat) : Decidable (Accepts dimension length) :=
  inferInstanceAs (Decidable (_ ∨ _))

variable [Platform]

namespace WellFormed

variable {ns : NamespacedIndex}

omit [Platform] in
theorem getByUuid_isSome {u : String} {e : CacheEntry} (found : ns.getByUuid u = some e) :
    u ∈ ns.uuidToInternal := by
  obtain ⟨i, known, -⟩ := Option.bind_eq_some_iff.mp found
  exact Finmap.mem_of_lookup_eq_some known

theorem mem_uuidToInternal (wf : ns.WellFormed) {u : String} :
    u ∈ ns.uuidToInternal ↔ ns.getByUuid u ≠ none := by
  constructor
  · intro mem
    obtain ⟨i, known⟩ := Finmap.mem_iff.mp mem
    obtain ⟨e, found, named⟩ := (wf.inverse u i).mp known
    rw [wf.getByUuid_eq_some.mpr ⟨named, i, found⟩]
    exact Option.some_ne_none e
  · intro present
    obtain ⟨e, found⟩ := Option.ne_none_iff_exists'.mp present
    exact getByUuid_isSome found

theorem uuid_of_getByUuid (wf : ns.WellFormed) {u : String} {e : CacheEntry}
    (found : ns.getByUuid u = some e) : e.uuid = u :=
  (wf.getByUuid_eq_some.mp found).1

theorem getByUuid_of_entry (wf : ns.WellFormed) {i : Nat} {e : CacheEntry}
    (found : ns.entries.lookup i = some e) : ns.getByUuid e.uuid = some e :=
  wf.getByUuid_eq_some.mpr ⟨rfl, i, found⟩

theorem sized_of_getByUuid (wf : ns.WellFormed) {u : String} {e : CacheEntry}
    (found : ns.getByUuid u = some e) : ns.dimension = some e.embedding.length := by
  obtain ⟨-, i, live⟩ := wf.getByUuid_eq_some.mp found
  exact wf.sized i e live

/-- Two well-formed namespaces with the same entries answer every lookup by
UUID alike. -/
theorem getByUuid_congr {ns' : NamespacedIndex} (wf : ns.WellFormed) (wf' : ns'.WellFormed)
    (same : ∀ e, (∃ i, ns'.entries.lookup i = some e) ↔ ∃ i, ns.entries.lookup i = some e)
    (u : String) : ns'.getByUuid u = ns.getByUuid u := by
  refine Option.ext fun e => ?_
  rw [wf'.getByUuid_eq_some, wf.getByUuid_eq_some, same e]

/-! ## Insertion -/

theorem getByUuid_addEntry (wf : ns.WellFormed) {entry : CacheEntry}
    (fits : ns.dimension = some entry.embedding.length)
    (fresh : entry.uuid ∉ ns.uuidToInternal) (u : String) :
    (ns.addEntry entry).getByUuid u = if u = entry.uuid then some entry else ns.getByUuid u := by
  have added := wf.addEntry fits fresh
  split
  · next same =>
      subst same
      refine added.getByUuid_eq_some.mpr ⟨rfl, ns.nextId, ?_⟩
      simp only [NamespacedIndex.addEntry, HashMap.lookup_insert_eq, if_pos]
  · next other =>
      refine Option.ext fun e => ?_
      rw [added.getByUuid_eq_some, wf.getByUuid_eq_some]
      refine and_congr_right fun named => exists_congr fun i => ?_
      simp only [NamespacedIndex.addEntry, HashMap.lookup_insert_eq]
      split
      · next new =>
          subst new
          rw [wf.nextId_fresh.1]
          simp only [Option.some.injEq, reduceCtorEq, iff_false]
          intro same
          exact other (named.symm.trans (congrArg CacheEntry.uuid same.symm))
      · rfl

omit [Platform] in
theorem getByUuid_setDimension (d : Option Nat) (u : String) :
    getByUuid { ns with dimension := d } u = ns.getByUuid u := rfl

/-- An accepted insertion fixes the dimension and stores the entry unless the
UUID is live already. -/
theorem insertWithUuid_of_accepts (wf : ns.WellFormed) {entry : CacheEntry}
    (accepted : Accepts ns.dimension entry.embedding.length) :
    (ns.insertWithUuid entry).2 = .ok () ∧
      (ns.insertWithUuid entry).1.dimension = some entry.embedding.length ∧
        ∀ u, (ns.insertWithUuid entry).1.getByUuid u =
          if u = entry.uuid then some ((ns.getByUuid u).getD entry) else ns.getByUuid u := by
  -- both branches end in the duplicate check on a namespace of the right dimension
  have store : ∀ sized : NamespacedIndex, sized.WellFormed →
      sized.dimension = some entry.embedding.length →
      (∀ u, sized.getByUuid u = ns.getByUuid u) → sized.uuidToInternal = ns.uuidToInternal →
      ∀ u, (if entry.uuid ∈ ns.uuidToInternal then sized else sized.addEntry entry).getByUuid u =
        if u = entry.uuid then some ((ns.getByUuid u).getD entry) else ns.getByUuid u := by
    intro sized sizedWf fits same table u
    split
    · next known =>
        rw [same]
        split
        · next named =>
            subst named
            obtain ⟨e, found⟩ :=
              Option.ne_none_iff_exists'.mp (wf.mem_uuidToInternal.mp known)
            rw [found]
            rfl
        · rfl
    · next fresh =>
        rw [sizedWf.getByUuid_addEntry fits (by rw [table]; exact fresh) u, same]
        split
        · next named =>
            subst named
            have absent : ns.getByUuid entry.uuid = none := by
              by_contra present
              exact fresh (wf.mem_uuidToInternal.mpr present)
            rw [absent]
            rfl
        · rfl
  unfold NamespacedIndex.insertWithUuid
  rcases accepted with unset | set
  · rw [unset]
    have stored := store _ (wf.setDimension unset entry.embedding.length) rfl
      (getByUuid_setDimension _) rfl
    dsimp only
    split
    · next known =>
        refine ⟨rfl, rfl, ?_⟩
        simpa only [if_pos known] using stored
    · next fresh =>
        refine ⟨rfl, rfl, ?_⟩
        simpa only [if_neg fresh] using stored
  · rw [set]
    have stored := store ns wf set (fun _ => rfl) rfl
    dsimp only
    rw [if_neg (not_not.mpr rfl)]
    split
    · next known =>
        refine ⟨rfl, set, ?_⟩
        simpa only [if_pos known] using stored
    · next fresh =>
        refine ⟨rfl, set, ?_⟩
        simpa only [if_neg fresh] using stored

theorem insertWithUuid_of_not_accepts {entry : CacheEntry}
    (rejected : ¬ Accepts ns.dimension entry.embedding.length) :
    (ns.insertWithUuid entry).1 = ns ∧ ∃ msg, (ns.insertWithUuid entry).2 = .error msg := by
  unfold NamespacedIndex.insertWithUuid
  cases set : ns.dimension with
  | none => exact absurd (Or.inl set) rejected
  | some d =>
      have mismatch : d ≠ entry.embedding.length := fun same => rejected (Or.inr (same ▸ set))
      dsimp only
      rw [if_pos mismatch]
      exact ⟨rfl, _, rfl⟩

/-! ## Removal -/

theorem dropEntry_entries {id : Nat} {entry : CacheEntry}
    (found : ns.entries.lookup id = some entry) :
    (ns.dropEntry id).1.entries = ns.entries.erase id := by
  unfold NamespacedIndex.dropEntry
  rw [found]

theorem getByUuid_dropEntry (wf : ns.WellFormed) {id : Nat} {entry : CacheEntry}
    (found : ns.entries.lookup id = some entry) (u : String) :
    (ns.dropEntry id).1.getByUuid u = if u = entry.uuid then none else ns.getByUuid u := by
  have dropped := wf.dropEntry id
  have tables := dropEntry_entries found
  refine Option.ext fun e => ?_
  rw [dropped.getByUuid_eq_some, tables]
  split
  · next same =>
      subst same
      simp only [reduceCtorEq, iff_false]
      rintro ⟨named, i, live⟩
      rw [HashMap.lookup_erase_eq] at live
      split at live
      · cases live
      · next apart => exact apart (wf.id_unique live found named)
  · next other =>
      rw [wf.getByUuid_eq_some]
      refine and_congr_right fun named => exists_congr fun i => ?_
      rw [HashMap.lookup_erase_eq]
      split
      · next same =>
          subst same
          rw [found]
          simp only [reduceCtorEq, Option.some.injEq, false_iff]
          intro same
          exact other (named.symm.trans (congrArg CacheEntry.uuid same.symm))
      · rfl

theorem dropEntry_of_found {id : Nat} {entry : CacheEntry}
    (found : ns.entries.lookup id = some entry) : (ns.dropEntry id).2 = some entry := by
  unfold NamespacedIndex.dropEntry
  rw [found]

theorem dropEntry_of_absent {id : Nat} (absent : ns.entries.lookup id = none) :
    ns.dropEntry id = (ns, none) := by
  unfold NamespacedIndex.dropEntry
  rw [absent]

theorem dropEntry_dimension (id : Nat) : (ns.dropEntry id).1.dimension = ns.dimension := by
  unfold NamespacedIndex.dropEntry
  cases ns.entries.lookup id with
  | none => rfl
  | some entry => rfl

theorem getByUuid_removeByUuid (wf : ns.WellFormed) (uuid u : String) :
    (ns.removeByUuid uuid).1.getByUuid u = if u = uuid then none else ns.getByUuid u := by
  unfold NamespacedIndex.removeByUuid
  cases known : ns.uuidToInternal.lookup uuid with
  | none =>
      dsimp only
      split
      · next same =>
          subst same
          unfold getByUuid
          rw [known]
          rfl
      · rfl
  | some id =>
      obtain ⟨entry, found, rfl⟩ := (wf.inverse uuid id).mp known
      exact wf.getByUuid_dropEntry found u

/-- `remove_by_uuid` reports whether the UUID was live. -/
theorem removeByUuid_found (wf : ns.WellFormed) (uuid : String) :
    (ns.removeByUuid uuid).2 = (ns.getByUuid uuid).isSome := by
  unfold NamespacedIndex.removeByUuid getByUuid
  cases known : ns.uuidToInternal.lookup uuid with
  | none => rfl
  | some id =>
      obtain ⟨entry, found, -⟩ := (wf.inverse uuid id).mp known
      simp only [Option.bind_some, found, NamespacedIndex.dropEntry]

theorem removeByUuid_dimension (uuid : String) :
    (ns.removeByUuid uuid).1.dimension = ns.dimension := by
  unfold NamespacedIndex.removeByUuid
  cases ns.uuidToInternal.lookup uuid with
  | none => rfl
  | some id => exact dropEntry_dimension id

end WellFormed

/-! ## Bulk removal

Every bulk removal is a sequence of `dropEntry` calls, so one relation covers
them: the state after, and the UUIDs that went. -/

/-- `ns'` is `ns` without the entries of `us`, which were all live. -/
structure Removed (ns ns' : NamespacedIndex) (us : List String) : Prop where
  wellFormed : ns'.WellFormed
  dimension : ns'.dimension = ns.dimension
  live : ∀ u, ns'.getByUuid u = if u ∈ us then none else ns.getByUuid u
  present : ∀ u ∈ us, ns.getByUuid u ≠ none
  nodup : us.Nodup

namespace Removed

variable {ns ns' ns'' : NamespacedIndex} {us us' : List String}

theorem refl (wf : ns.WellFormed) : Removed ns ns [] :=
  ⟨wf, rfl, fun u => by simp, by simp, List.nodup_nil⟩

theorem trans (first : Removed ns ns' us) (second : Removed ns' ns'' us') :
    Removed ns ns'' (us ++ us') where
  wellFormed := second.wellFormed
  dimension := second.dimension.trans first.dimension
  live u := by
    rw [second.live, first.live]
    by_cases early : u ∈ us <;> by_cases late : u ∈ us' <;> simp [early, late]
  present u mem := by
    rcases List.mem_append.mp mem with early | late
    · exact first.present u early
    · have live := second.present u late
      rw [first.live] at live
      split at live
      · exact absurd rfl live
      · exact live
  nodup := by
    refine List.nodup_append.mpr ⟨first.nodup, second.nodup, fun u early v late same => ?_⟩
    subst same
    have live := second.present u late
    rw [first.live, if_pos early] at live
    exact live rfl

/-- One `dropEntry` removes the UUID it returns. -/
theorem dropEntry (wf : ns.WellFormed) (id : Nat) :
    Removed ns (ns.dropEntry id).1 ((ns.dropEntry id).2.toList.map (·.uuid)) := by
  cases found : ns.entries.lookup id with
  | none =>
      rw [WellFormed.dropEntry_of_absent found]
      exact refl wf
  | some entry =>
      rw [WellFormed.dropEntry_of_found found]
      refine ⟨wf.dropEntry id, WellFormed.dropEntry_dimension id, fun u => ?_, ?_, ?_⟩
      · rw [wf.getByUuid_dropEntry found]
        simp
      · have live := wf.getByUuid_of_entry found
        simp [live]
      · simp

theorem dropAll (wf : ns.WellFormed) (ids : List Nat) :
    Removed ns (ns.dropAll ids).1 ((ns.dropAll ids).2.map Prod.fst) := by
  induction ids generalizing ns with
  | nil => exact refl wf
  | cons id ids ih =>
      have head := dropEntry wf id
      unfold NamespacedIndex.dropAll
      rcases dropped : ns.dropEntry id with ⟨next, _ | entry⟩
      · rw [dropped] at head
        exact head.trans (ih head.wellFormed)
      · rw [dropped] at head
        exact head.trans (ih head.wellFormed)

theorem evictLru (wf : ns.WellFormed) (modelId : String) :
    Removed ns (ns.evictLru modelId).1 ((ns.evictLru modelId).2.toList.map (·.uuid)) := by
  unfold NamespacedIndex.evictLru
  cases ns.lruId with
  | none => exact refl wf
  | some evictId =>
      have head := dropEntry wf evictId
      rcases dropped : ns.dropEntry evictId with ⟨next, _ | entry⟩
      · rw [dropped] at head
        simp only [dropped]
        exact head
      · rw [dropped] at head
        simp only [dropped]
        exact head

theorem evictDownTo (wf : ns.WellFormed) (modelId : String) (maxEntries fuel : Nat) :
    Removed ns (ns.evictDownTo modelId maxEntries fuel).1
      ((ns.evictDownTo modelId maxEntries fuel).2.map (·.uuid)) := by
  induction fuel generalizing ns with
  | zero => exact refl wf
  | succ fuel ih =>
      have head := evictLru wf modelId
      unfold NamespacedIndex.evictDownTo
      split
      · rcases evicted : ns.evictLru modelId with ⟨next, _ | e⟩
        · rw [evicted] at head
          exact head
        · rw [evicted] at head
          exact head.trans (ih head.wellFormed)
      · exact refl wf

end Removed

/-- Every entry that `evictDownTo` returns carries the namespace it was given. -/
theorem modelId_of_mem_evictDownTo {ns : NamespacedIndex} {modelId : String}
    {maxEntries fuel : Nat} {e : EvictedEntry}
    (mem : e ∈ (ns.evictDownTo modelId maxEntries fuel).2) : e.modelId = modelId := by
  induction fuel generalizing ns with
  | zero => cases mem
  | succ fuel ih =>
      unfold NamespacedIndex.evictDownTo at mem
      split at mem
      · rcases evicted : ns.evictLru modelId with ⟨next, _ | e'⟩
        · rw [evicted] at mem
          cases mem
        · rw [evicted] at mem
          rcases List.mem_cons.mp mem with rfl | later
          · unfold NamespacedIndex.evictLru at evicted
            split at evicted
            · cases evicted
            · split at evicted
              · cases evicted
              · cases evicted
                rfl
          · exact ih later
      · cases mem

namespace WellFormed

variable {ns : NamespacedIndex}

/-- The entries that `dropAll` returns are those of the listed ids. -/
theorem mem_dropAll (wf : ns.WellFormed) {ids : List Nat} (u : String) :
    u ∈ (ns.dropAll ids).2.map Prod.fst ↔
      ∃ id ∈ ids, ∃ e, ns.entries.lookup id = some e ∧ e.uuid = u := by
  induction ids generalizing ns with
  | nil => simp [NamespacedIndex.dropAll]
  | cons id ids ih =>
      have next := ih (wf.dropEntry id)
      unfold NamespacedIndex.dropAll
      cases found : ns.entries.lookup id with
      | none =>
          rw [dropEntry_of_absent found] at next ⊢
          simp only [next, List.mem_cons, exists_eq_or_imp, found, reduceCtorEq, false_and,
            exists_false, false_or]
      | some entry =>
          have value : ns.dropEntry id = ((ns.dropEntry id).1, some entry) :=
            Prod.ext rfl (dropEntry_of_found found)
          have tables := dropEntry_entries found
          rw [value]
          simp only [List.map_cons, List.mem_cons, next, exists_eq_or_imp, found,
            Option.some.injEq, exists_eq_left', tables, HashMap.lookup_erase_eq]
          constructor
          · rintro (same | ⟨id', mem, e, live, named⟩)
            · exact Or.inl same.symm
            · split at live
              · cases live
              · exact Or.inr ⟨id', mem, e, live, named⟩
          · rintro (same | ⟨id', mem, e, live, named⟩)
            · exact Or.inl same.symm
            · by_cases again : id' = id
              · subst again
                cases Option.some.inj (found.symm.trans live)
                exact Or.inl named.symm
              · exact Or.inr ⟨id', mem, e, by rw [if_neg again]; exact live, named⟩

/-- An expiry pass removes exactly the entries past their deadline. -/
theorem mem_collectExpiredWithin (wf : ns.WellFormed) {order : List Nat} {now : Nat}
    (iter : HashMap.IterOrder ns.entries order) (u : String) :
    u ∈ (ns.collectExpiredWithin order now).2.map Prod.fst ↔
      ∃ e, ns.getByUuid u = some e ∧ e.liveAt now = false := by
  unfold NamespacedIndex.collectExpiredWithin
  rw [wf.mem_dropAll]
  constructor
  · rintro ⟨id, mem, e, found, rfl⟩
    refine ⟨e, wf.getByUuid_of_entry found, ?_⟩
    have expired := (List.mem_filter.mp mem).2
    simpa only [found, Bool.not_eq_true'] using expired
  · rintro ⟨e, live, expired⟩
    obtain ⟨named, i, found⟩ := wf.getByUuid_eq_some.mp live
    refine ⟨i, List.mem_filter.mpr ⟨?_, ?_⟩, e, found, named⟩
    · exact (iter.2 i).mpr (Finmap.mem_of_lookup_eq_some found)
    · simp only [found, expired, Bool.not_false]

/-! ## Bookkeeping and rebuild -/

/-- Access bookkeeping keeps every record. -/
theorem record_recordAccess (wf : ns.WellFormed) (internalId now : Nat) (u : String) :
    ((ns.recordAccess internalId now).getByUuid u).map (·.record) =
      (ns.getByUuid u).map (·.record) := by
  have table : (ns.recordAccess internalId now).uuidToInternal = ns.uuidToInternal := by
    unfold NamespacedIndex.recordAccess
    cases ns.entries.lookup internalId with
    | none => rfl
    | some entry => rfl
  unfold getByUuid
  rw [table]
  cases known : ns.uuidToInternal.lookup u with
  | none => rfl
  | some i =>
      obtain ⟨e, found, -⟩ := (wf.inverse u i).mp known
      unfold NamespacedIndex.recordAccess
      cases touched : ns.entries.lookup internalId with
      | none => rfl
      | some entry =>
          simp only [Option.bind_some, HashMap.lookup_insert_eq]
          split
          · next same =>
              subst same
              rw [touched]
              rfl
          · rfl

omit [Platform] in
theorem recordAccess_dimension (internalId now : Nat) :
    (ns.recordAccess internalId now).dimension = ns.dimension := by
  unfold NamespacedIndex.recordAccess
  cases ns.entries.lookup internalId with
  | none => rfl
  | some entry => rfl

/-- A rebuild is invisible to lookups by UUID. -/
theorem getByUuid_rebuild (wf : ns.WellFormed) {order : List Nat}
    (iter : HashMap.IterOrder ns.entries order) (u : String) :
    (ns.rebuild order).getByUuid u = ns.getByUuid u :=
  getByUuid_congr wf (wf.rebuild iter) (wf.rebuild_spec iter).2 u

omit [Platform] in
theorem rebuild_dimension (order : List Nat) : (ns.rebuild order).dimension = ns.dimension :=
  (refill_frame ns.drained _).2.1

end WellFormed

end Ferrocache.NamespacedIndex
