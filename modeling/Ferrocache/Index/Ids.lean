import Ferrocache.Index.Directory
import Ferrocache.Server.Request

/-!
# Internal ids

An internal id stands for an entry of one namespace.  Insertions hand out new
ids and removals retire old ones; nothing but a rebuild gives an id a second
meaning.
-/

namespace Ferrocache

/-- The entry after the bookkeeping of a hit. -/
def CacheEntry.accessed (entry : CacheEntry) (now : Nat) : CacheEntry :=
  { entry with
    lastAccessedAt := now
    accessCount := saturatingAdd entry.accessCount 1 }

namespace NamespacedIndex

/-- The UUID that an internal id stands for. -/
def nameAt (ns : NamespacedIndex) (i : Nat) : Option String :=
  (ns.entries.lookup i).map (·.uuid)

/-- Ids are only retired. -/
def Retires (ns ns' : NamespacedIndex) : Prop :=
  ns'.nextId = ns.nextId ∧ ∀ i, ns'.nameAt i = ns.nameAt i ∨ ns'.nameAt i = none

/-- Ids are only handed out. -/
def Extends (ns ns' : NamespacedIndex) : Prop :=
  ns.nextId ≤ ns'.nextId ∧ ∀ i < ns.nextId, ns'.nameAt i = ns.nameAt i

/-- No id is given a second meaning. -/
def KeepsIds (ns ns' : NamespacedIndex) : Prop := Retires ns ns' ∨ Extends ns ns'

theorem Retires.refl (ns : NamespacedIndex) : Retires ns ns := ⟨rfl, fun _ => .inl rfl⟩

theorem Retires.trans {ns ns' ns'' : NamespacedIndex} (first : Retires ns ns')
    (second : Retires ns' ns'') : Retires ns ns'' := by
  refine ⟨second.1.trans first.1, fun i => ?_⟩
  rcases second.2 i with same | gone
  · rcases first.2 i with same' | gone'
    · exact .inl (same.trans same')
    · exact .inr (same.trans gone')
  · exact .inr gone

section Operations

variable [Platform] (ns : NamespacedIndex)

theorem Retires.dropEntry (i : Nat) : Retires ns (ns.dropEntry i).1 := by
  unfold NamespacedIndex.dropEntry
  split
  · exact .refl ns
  · refine ⟨rfl, fun j => ?_⟩
    unfold nameAt
    dsimp only
    rw [HashMap.lookup_erase_eq]
    split
    · exact .inr rfl
    · exact .inl rfl

theorem Retires.dropAll (ids : List Nat) : Retires ns (ns.dropAll ids).1 := by
  induction ids generalizing ns with
  | nil => exact .refl ns
  | cons id ids ih =>
      rw [dropAll_cons]
      exact (Retires.dropEntry ns id).trans (ih _)

theorem Retires.evictLru (modelId : String) : Retires ns (ns.evictLru modelId).1 := by
  rw [evictLru_fst]
  cases ns.lruId with
  | none => exact .refl ns
  | some evictId => exact .dropEntry ns evictId

theorem Retires.evictDownTo (modelId : String) (maxEntries fuel : Nat) :
    Retires ns (ns.evictDownTo modelId maxEntries fuel).1 := by
  induction fuel generalizing ns with
  | zero => exact .refl ns
  | succ fuel ih =>
      have first := Retires.evictLru ns modelId
      unfold NamespacedIndex.evictDownTo
      split
      · rcases evicted : ns.evictLru modelId with ⟨next, _ | e⟩
        · rw [evicted] at first
          exact first
        · rw [evicted] at first
          exact first.trans (ih next)
      · exact .refl ns

theorem Retires.removeByUuid (uuid : String) : Retires ns (ns.removeByUuid uuid).1 := by
  unfold NamespacedIndex.removeByUuid
  split
  · exact .refl ns
  · exact .dropEntry ns _

omit [Platform] in
theorem nameAt_recordAccess (internalId now i : Nat) :
    (ns.recordAccess internalId now).nameAt i = ns.nameAt i := by
  unfold NamespacedIndex.recordAccess
  split
  · rfl
  · next entry found =>
      unfold nameAt
      dsimp only
      rw [HashMap.lookup_insert_eq]
      split
      · next same =>
          rw [same, found]
          rfl
      · rfl

omit [Platform] in
theorem nextId_recordAccess (internalId now : Nat) :
    (ns.recordAccess internalId now).nextId = ns.nextId := by
  unfold NamespacedIndex.recordAccess
  split
  · rfl
  · rfl

theorem Extends.insertWithUuid (entry : CacheEntry) : Extends ns (ns.insertWithUuid entry).1 := by
  have added : ∀ d, Extends ns (NamespacedIndex.addEntry { ns with dimension := d } entry) := by
    intro d
    refine ⟨Nat.le_succ _, fun i below => ?_⟩
    unfold nameAt NamespacedIndex.addEntry
    dsimp only
    rw [HashMap.lookup_insert_eq, if_neg (Nat.ne_of_lt below)]
  have same : ∀ d, Extends ns { ns with dimension := d } := fun d =>
    ⟨Nat.le_refl _, fun i _ => rfl⟩
  unfold NamespacedIndex.insertWithUuid
  split
  · split
    · exact same ns.dimension
    · split
      · exact same ns.dimension
      · exact added ns.dimension
  · split
    · exact same _
    · exact added _

variable {ns}

/-- The bookkeeping of a hit goes to the entry that the id stands for. -/
theorem getByUuid_recordAccess (wf : ns.WellFormed) (internalId now : Nat) (u : String) :
    (ns.recordAccess internalId now).getByUuid u =
      if ns.nameAt internalId = some u then (ns.getByUuid u).map (·.accessed now)
      else ns.getByUuid u := by
  cases touched : ns.entries.lookup internalId with
  | none =>
      have none : ns.nameAt internalId = none := by
        unfold nameAt
        rw [touched]
        rfl
      unfold NamespacedIndex.recordAccess
      rw [touched, none, if_neg (Option.some_ne_none u).symm]
  | some entry =>
      have named : ns.nameAt internalId = some entry.uuid := by
        unfold nameAt
        rw [touched]
        rfl
      have here := (wf.inverse entry.uuid internalId).mpr ⟨entry, touched, rfl⟩
      unfold NamespacedIndex.recordAccess getByUuid
      rw [touched, named]
      dsimp only
      by_cases same : u = entry.uuid
      · rw [same, if_pos rfl, here, Option.bind_some, Option.bind_some, touched,
          HashMap.lookup_insert_eq, if_pos rfl]
        rfl
      · rw [if_neg fun eq => same (Option.some.inj eq).symm]
        cases known : ns.uuidToInternal.lookup u with
        | none => rfl
        | some j =>
            have other : j ≠ internalId := by
              rintro rfl
              obtain ⟨e, found, uuid⟩ := (wf.inverse u j).mp known
              rw [touched] at found
              obtain rfl := Option.some.inj found
              exact same uuid.symm
            rw [Option.bind_some, Option.bind_some, HashMap.lookup_insert_eq, if_neg other]

/-- An id that lost its meaning was that of an entry that is gone. -/
theorem Retires.gone {ns' : NamespacedIndex} (retires : Retires ns ns') (wf : ns.WellFormed)
    (wf' : ns'.WellFormed) {i : Nat} {u : String} (named : ns.nameAt i = some u)
    (lost : ns'.nameAt i = none) : ns'.getByUuid u = none := by
  rw [Option.eq_none_iff_forall_ne_some]
  intro e found
  obtain ⟨same, j, here⟩ := wf'.getByUuid_eq_some.mp found
  have named' : ns'.nameAt j = some u := by
    unfold nameAt
    rw [here, ← same]
    rfl
  rcases retires.2 j with kept | gone
  · rw [named'] at kept
    obtain ⟨e₁, at₁, uuid₁⟩ := Option.map_eq_some_iff.mp named
    obtain ⟨e₂, at₂, uuid₂⟩ := Option.map_eq_some_iff.mp kept.symm
    have one := wf.id_unique at₁ at₂ (uuid₁.trans uuid₂.symm)
    rw [← one, lost] at named'
    cases named'
  · rw [named'] at gone
    cases gone

end Operations

end NamespacedIndex

namespace SemanticIndex

section Operations

variable [Platform] {idx : SemanticIndex} {m : String} {ns : NamespacedIndex}

theorem lookup_removeByUuid (known : idx.namespaces.lookup m = some ns) (uuid : String) :
    ∃ ns', (idx.removeByUuid uuid).1.namespaces.lookup m = some ns' ∧
      NamespacedIndex.Retires ns ns' := by
  unfold removeByUuid
  split
  · exact ⟨ns, known, .refl ns⟩
  · next modelId _ =>
      split
      · exact ⟨ns, known, .refl ns⟩
      · next other found =>
          dsimp only
          rw [HashMap.lookup_insert_eq]
          split
          · next same =>
              rw [← same, known] at found
              obtain rfl := Option.some.inj found
              exact ⟨_, rfl, .removeByUuid ns uuid⟩
          · exact ⟨ns, known, .refl ns⟩

theorem lookup_invalidateSimilar (known : idx.namespaces.lookup m = some ns) (order : List Nat)
    (embedding : Embedding) (threshold : F32) (modelId : String) (now : Nat) :
    ∃ ns', (idx.invalidateSimilar order embedding threshold modelId now).1.namespaces.lookup m =
      some ns' ∧ NamespacedIndex.Retires ns ns' := by
  unfold invalidateSimilar
  split
  · exact ⟨ns, known, .refl ns⟩
  · next other found =>
      dsimp only
      rw [HashMap.lookup_insert_eq]
      split
      · next same =>
          rw [← same, known] at found
          obtain rfl := Option.some.inj found
          exact ⟨_, rfl, .dropAll ns _⟩
      · exact ⟨ns, known, .refl ns⟩

theorem lookup_collectExpired (known : idx.namespaces.lookup m = some ns) {order : PassOrder}
    (iter : HashMap.IterOrder idx.namespaces order.namespaces) (now : Nat) :
    ∃ ns', (idx.collectExpired order now).1.namespaces.lookup m = some ns' ∧
      NamespacedIndex.Retires ns ns' := by
  unfold collectExpired
  dsimp only
  rw [HashMap.lookup_forEach _ iter, known]
  exact ⟨_, rfl, .dropAll ns _⟩

theorem lookup_evictToCap (known : idx.namespaces.lookup m = some ns) {order : List String}
    (iter : HashMap.IterOrder idx.namespaces order) (maxEntries : Nat) :
    ∃ ns', (idx.evictToCap order maxEntries).1.namespaces.lookup m = some ns' ∧
      NamespacedIndex.Retires ns ns' := by
  unfold evictToCap
  dsimp only
  rw [HashMap.lookup_forEach _ iter, known]
  exact ⟨_, rfl, .evictDownTo ns _ _ _⟩

omit [Platform] in
/-- A namespace that needs no rebuild is left alone. -/
theorem lookup_rebuildDirtyNamespaces (known : idx.namespaces.lookup m = some ns)
    (clean : ns.needsRebuild = false) {order : PassOrder}
    (iter : HashMap.IterOrder idx.namespaces order.namespaces) :
    (idx.rebuildDirtyNamespaces order).1.namespaces.lookup m = some ns := by
  unfold rebuildDirtyNamespaces
  dsimp only
  rw [HashMap.lookup_forEach _ iter, known, Option.map_some, clean]
  rfl

/-- A namespace that ever handed out an id is not pruned: live or retired, the id
is still on record. -/
theorem lookup_pruneEmptyNamespaces (known : idx.namespaces.lookup m = some ns)
    (wf : ns.WellFormed) (issued : 0 < ns.nextId) (order : List String) :
    (idx.pruneEmptyNamespaces order).1.namespaces.lookup m = some ns := by
  unfold pruneEmptyNamespaces
  dsimp only
  rw [HashMap.lookup_eraseAll, if_neg, known]
  intro pruned
  unfold prunable at pruned
  obtain ⟨-, both⟩ := List.mem_filter.mp pruned
  rw [known] at both
  simp only [Bool.and_eq_true, decide_eq_true_eq] at both
  obtain ⟨-, empty, noGhosts⟩ := both
  rcases (wf.ids 0).mpr issued with live | ghost
  · obtain ⟨e, found⟩ := Finmap.mem_iff.mp live
    rw [HashMap.len_eq_zero.mp empty 0] at found
    cases found
  · rw [noGhosts] at ghost
    cases ghost

theorem lookup_insertInto (known : idx.namespaces.lookup m = some ns) (modelId : String)
    (entry : CacheEntry) :
    ∃ ns', (idx.insertInto modelId entry).1.namespaces.lookup m = some ns' ∧
      NamespacedIndex.Extends ns ns' := by
  have stored : ∃ ns', (idx.namespaces.insert modelId
      ((idx.namespaceMut modelId).insertWithUuid entry).1).lookup m = some ns' ∧
      NamespacedIndex.Extends ns ns' := by
    rw [HashMap.lookup_insert_eq]
    split
    · next same =>
        rw [← same, namespaceMut_of_lookup known]
        exact ⟨_, rfl, .insertWithUuid ns entry⟩
    · exact ⟨ns, known, Nat.le_refl _, fun _ _ => rfl⟩
  unfold insertInto
  rcases inserted : (idx.namespaceMut modelId).insertWithUuid entry with ⟨ns', _ | _⟩
  · rw [inserted] at stored
    exact stored
  · rw [inserted] at stored
    exact stored

theorem lookup_replayEntry (known : idx.namespaces.lookup m = some ns) (line : WalEntry) :
    ∃ ns', (idx.replayEntry line).1.namespaces.lookup m = some ns' ∧
      NamespacedIndex.KeepsIds ns ns' := by
  unfold replayEntry
  split
  · obtain ⟨ns', found, retires⟩ := lookup_removeByUuid known line.uuid
    exact ⟨ns', found, .inl retires⟩
  · obtain ⟨ns', found, extends'⟩ := lookup_insertInto known line.modelId line.cacheEntry
    exact ⟨ns', found, .inr extends'⟩

omit [Platform] in
/-- Bookkeeping leaves every id as it is. -/
theorem lookup_recordAccess (known : idx.namespaces.lookup m = some ns) (modelId : String)
    (internalId now : Nat) :
    ∃ ns', (idx.recordAccess modelId internalId now).namespaces.lookup m = some ns' ∧
      ns'.nextId = ns.nextId ∧ ∀ i, ns'.nameAt i = ns.nameAt i := by
  unfold recordAccess
  split
  · exact ⟨ns, known, rfl, fun _ => rfl⟩
  · next other found =>
      dsimp only
      rw [HashMap.lookup_insert_eq]
      split
      · next here =>
          rw [← here, known] at found
          obtain rfl := Option.some.inj found
          exact ⟨_, rfl, NamespacedIndex.nextId_recordAccess ns internalId now,
            NamespacedIndex.nameAt_recordAccess ns internalId now⟩
      · exact ⟨ns, known, rfl, fun _ => rfl⟩

/-! ## Hits -/

/-- The UUID that an internal id of a namespace stands for. -/
def nameAt (idx : SemanticIndex) (m : String) (i : Nat) : Option String :=
  (idx.namespaces.lookup m).bind (·.nameAt i)

theorem entryAt_recordAccess (wf : idx.WellFormed) (modelId : String) (internalId now : Nat)
    (m u : String) :
    (idx.recordAccess modelId internalId now).entryAt m u =
      if m = modelId ∧ idx.nameAt modelId internalId = some u then
        (idx.entryAt m u).map (·.accessed now)
      else idx.entryAt m u := by
  unfold recordAccess
  cases known : idx.namespaces.lookup modelId with
  | none =>
      have none : idx.nameAt modelId internalId = none := by
        unfold nameAt
        rw [known]
        rfl
      rw [none, if_neg fun both => (Option.some_ne_none u).symm both.2]
  | some ns =>
      refine (entryAt_insert modelId _ _ m u).trans ?_
      rw [NamespacedIndex.getByUuid_recordAccess (wf modelId ns known)]
      have named : idx.nameAt modelId internalId = ns.nameAt internalId := by
        unfold nameAt
        rw [known]
        rfl
      rw [named]
      by_cases here : m = modelId
      · subst here
        rw [if_pos rfl, entryAt_of_lookup known]
        simp
      · simp [here]

omit [Platform] in
theorem nameAt_of_lookup (known : idx.namespaces.lookup m = some ns) (i : Nat) :
    idx.nameAt m i = ns.nameAt i := by
  unfold nameAt
  rw [known]
  rfl

end Operations

end SemanticIndex

/-! ## Hits -/

section Hits

variable [Platform]

namespace NamespacedIndex

variable {ns : NamespacedIndex} {hit : QueryHit}

theorem nameAt_of_exactMatch {text : String} {now : Nat}
    (found : ns.exactMatch text now = some hit) : ns.nameAt hit.internalId = some hit.id := by
  unfold exactMatch at found
  simp only [Option.bind_eq_bind, Option.bind_eq_some_iff] at found
  obtain ⟨-, -, uuid, -, internalId, -, -, -, entry, here, -, -, same⟩ := found
  obtain rfl := Option.some.inj same
  unfold nameAt
  rw [here]
  rfl

theorem nameAt_of_scanNeighbours {threshold : F32} {now : Nat} {neighbours : List Neighbour}
    (found : ns.scanNeighbours threshold now neighbours = .ok (some hit)) :
    ns.nameAt hit.internalId = some hit.id := by
  induction neighbours with
  | nil => cases found
  | cons n neighbours ih =>
      unfold scanNeighbours at found
      split at found
      · exact ih found
      · split at found
        · cases found
        · split at found
          · cases found
          · next entry here =>
              split at found
              · exact ih found
              · cases found
                unfold nameAt
                rw [here]
                rfl

theorem nameAt_of_query {embedding : Embedding} {threshold : F32} {text : Option String} {now : Nat}
    (found : ns.queryWithText embedding threshold text now = .ok (some hit)) :
    ns.nameAt hit.internalId = some hit.id := by
  unfold queryWithText at found
  split at found
  · next exact' matched =>
      cases found
      obtain ⟨t, -, here⟩ := Option.bind_eq_some_iff.mp matched
      exact nameAt_of_exactMatch here
  · unfold queryAnn at found
    split at found
    · cases found
    · split at found
      · cases found
      · exact nameAt_of_scanNeighbours found

end NamespacedIndex

namespace SemanticIndex

variable {idx : SemanticIndex} {hit : QueryHit} {embedding : Embedding} {threshold : F32}
  {text : Option String} {now : Nat}

theorem nameAt_of_query {m : String}
    (found : idx.queryWithText embedding threshold m text now = .ok (some hit)) :
    idx.nameAt m hit.internalId = some hit.id := by
  unfold queryWithText at found
  split at found
  · next ns known =>
      rw [nameAt_of_lookup known]
      exact NamespacedIndex.nameAt_of_query found
  · cases found

theorem nameAt_of_fallback {baseNs ns : String} {scope : Option Scope}
    (found : queryTwoLevel.fallback idx embedding threshold baseNs text now =
      .ok (some hit, ns, scope)) : idx.nameAt ns hit.internalId = some hit.id := by
  unfold queryTwoLevel.fallback at found
  cases known : idx.namespaces.lookup baseNs with
  | none =>
      rw [known] at found
      cases found
  | some base =>
      rw [known] at found
      dsimp only at found
      cases answer : base.queryWithText embedding threshold text now with
      | error msg =>
          rw [answer] at found
          cases found
      | ok result =>
          rw [answer] at found
          cases found
          rw [nameAt_of_lookup known]
          exact NamespacedIndex.nameAt_of_query answer

theorem nameAt_of_twoLevel {convNs baseNs ns : String} {scope : Option Scope}
    (found : idx.queryTwoLevel embedding threshold convNs baseNs text now =
      .ok (some hit, ns, scope)) : idx.nameAt ns hit.internalId = some hit.id := by
  unfold queryTwoLevel at found
  cases known : idx.namespaces.lookup convNs with
  | none =>
      rw [known] at found
      exact nameAt_of_fallback found
  | some conv =>
      rw [known] at found
      dsimp only at found
      cases answer : conv.queryWithText embedding threshold text now with
      | error msg =>
          rw [answer] at found
          cases found
      | ok result =>
          rw [answer] at found
          cases result with
          | none => exact nameAt_of_fallback found
          | some first =>
              cases found
              rw [nameAt_of_lookup known]
              exact NamespacedIndex.nameAt_of_query answer

end SemanticIndex

/-- A hit names an entry of the namespace that it is charged to. -/
theorem nameAt_of_queryLocally {idx : SemanticIndex} {req : QueryRequest} {modelId ns : String}
    {now : Nat} {hit : QueryHit} {scope : Option SemanticIndex.Scope}
    (found : queryLocally idx req modelId now = (.ok (some hit), ns, scope)) :
    idx.nameAt ns hit.internalId = some hit.id := by
  unfold queryLocally at found
  dsimp only at found
  split at found
  · split at found
    · next answer =>
        cases found
        exact SemanticIndex.nameAt_of_twoLevel answer
    · cases found
  · obtain ⟨answer, rest⟩ := Prod.mk.inj found
    obtain ⟨rfl, -⟩ := Prod.mk.inj rest
    exact SemanticIndex.nameAt_of_query answer

end Hits

end Ferrocache
