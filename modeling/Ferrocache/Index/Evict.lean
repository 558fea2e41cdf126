import Ferrocache.Index.Ids
import Ferrocache.Index.Restore
import Ferrocache.Index.Search

/-!
# Eviction keeps the most recent entries

`evict_to_cap` evicts the least recently used entry of a namespace over and over
until the namespace is at the cap.  The ranks of two entries never tie, since the
internal id decides last, so what is left are the entries of the largest ranks,
as many as the cap allows (`HashMap.Largest`), each as it was.  The evicted
entries are all reported, and neither the directory nor a query finds them.
-/

namespace Ferrocache

namespace NamespacedIndex

section Evict

variable [Platform] {ns : NamespacedIndex}

/-! ## One namespace -/

omit [Platform] in
/-- The internal id can be read off the rank. -/
theorem lruRank_injective {i j : Nat} {e f : CacheEntry} (same : lruRank i e = lruRank j f) :
    i = j :=
  congrArg (fun r : Nat ×ₗ Nat ×ₗ Nat => (ofLex (ofLex r).2).2) same

omit [Platform] in
/-- A namespace with entries has one of least rank. -/
theorem exists_lruId (nonempty : 0 < ns.entryCount) :
    ∃ id e, ns.lruId = some id ∧ ns.entries.lookup id = some e ∧
      ∀ j f, ns.entries.lookup j = some f → j ≠ id → lruRank id e < lruRank j f := by
  cases least : HashMap.minRank lruRank ns.entries with
  | none =>
      have empty : ns.entryCount = 0 :=
        HashMap.len_eq_zero.mpr ((HashMap.minRank_eq_none lruRank ns.entries).mp least)
      exact absurd nonempty (by rw [empty]; exact lt_irrefl 0)
  | some r =>
      obtain ⟨id, e, found, rank⟩ := HashMap.exists_of_minRank least
      refine ⟨id, e, ?_, found, fun j f there other => ?_⟩
      · unfold lruId
        rw [least, ← rank]
        rfl
      · refine lt_of_le_of_ne ?_ fun same => other (lruRank_injective same).symm
        rw [rank]
        exact HashMap.minRank_le least there

/-- One turn of the loop drops the entry of least rank. -/
theorem evictLru_spec (nonempty : 0 < ns.entryCount) (modelId : String) :
    ∃ id e, ns.entries.lookup id = some e ∧
      (∀ j f, ns.entries.lookup j = some f → j ≠ id → lruRank id e < lruRank j f) ∧
        ns.evictLru modelId = ((ns.dropEntry id).1, some ⟨e.uuid, modelId⟩) := by
  obtain ⟨id, e, chosen, found, least⟩ := exists_lruId nonempty
  refine ⟨id, e, found, least, ?_⟩
  unfold NamespacedIndex.evictLru
  simp only [chosen, NamespacedIndex.dropEntry, found]

theorem evictDownTo_of_le {maxEntries : Nat} (within : ns.entryCount ≤ maxEntries)
    (modelId : String) (fuel : Nat) : ns.evictDownTo modelId maxEntries fuel = (ns, []) := by
  cases fuel with
  | zero => rfl
  | succ fuel => exact if_neg (Nat.not_lt.mpr within)

/-- The loop stops with the entries of the largest ranks.  What bounds the fuel
is the number of entries above the cap. -/
theorem largest_evictDownTo (modelId : String) {maxEntries fuel : Nat}
    (enough : ns.entryCount ≤ maxEntries + fuel) :
    HashMap.Largest lruRank maxEntries ns.entries
      (ns.evictDownTo modelId maxEntries fuel).1.entries := by
  induction fuel generalizing ns with
  | zero =>
      have within : ns.entryCount ≤ maxEntries := enough
      rw [evictDownTo_of_le within]
      exact .refl within
  | succ fuel ih =>
      by_cases within : ns.entryCount ≤ maxEntries
      · rw [evictDownTo_of_le within]
        exact .refl within
      · have more : maxEntries < ns.entryCount := Nat.lt_of_not_le within
        have nonempty : 0 < ns.entryCount := by omega
        obtain ⟨id, e, found, least, turn⟩ := evictLru_spec nonempty modelId
        have entries := WellFormed.dropEntry_entries found
        have fewer : (ns.dropEntry id).1.entryCount + 1 = ns.entryCount := by
          unfold entryCount
          rw [entries]
          exact HashMap.len_erase (Finmap.mem_of_lookup_eq_some found)
        have fuelled : (ns.dropEntry id).1.entryCount ≤ maxEntries + fuel := by omega
        have rest := ih fuelled
        rw [entries] at rest
        unfold NamespacedIndex.evictDownTo
        rw [if_pos more, turn]
        exact .of_erase found least more rest

end Evict

end NamespacedIndex

namespace SemanticIndex

section Evict

variable [Platform] {idx : SemanticIndex}

/-! ## A UUID that is live nowhere -/

/-- A hit has the UUID of a live entry. -/
theorem WellFormed.entryAt_of_nameAt (wf : idx.WellFormed) {m u : String} {i : Nat}
    (named : idx.nameAt m i = some u) : idx.entryAt m u ≠ none := by
  obtain ⟨ns, known, there⟩ := Option.bind_eq_some_iff.mp named
  obtain ⟨e, found, rfl⟩ := Option.map_eq_some_iff.mp there
  rw [entryAt_of_lookup known, (wf m ns known).getByUuid_of_entry found]
  exact Option.some_ne_none e

/-- Neither the lookup by UUID nor a query, of one namespace or of two levels,
returns the UUID. -/
structure Forgets (idx : SemanticIndex) (u : String) : Prop where
  lookup : idx.getEntryByUuid u = none
  query : ∀ embedding threshold m text now hit,
    idx.queryWithText embedding threshold m text now = .ok (some hit) → hit.id ≠ u
  twoLevel : ∀ embedding threshold convNs baseNs text now hit ns scope,
    idx.queryTwoLevel embedding threshold convNs baseNs text now = .ok (some hit, ns, scope) →
      hit.id ≠ u

theorem WellFormed.forgets (wf : idx.WellFormed) {u : String}
    (nowhere : ∀ m, idx.entryAt m u = none) : idx.Forgets u := by
  constructor
  case lookup =>
    unfold getEntryByUuid
    cases idx.uuidToNamespace.lookup u with
    | none => rfl
    | some m =>
        have absent := nowhere m
        unfold entryAt at absent
        cases known : idx.namespaces.lookup m with
        | none => simp [known]
        | some ns =>
            rw [known, Option.bind_some] at absent
            simp [known, absent]
  case query =>
    rintro embedding threshold m text now hit found rfl
    exact wf.entryAt_of_nameAt (nameAt_of_query found) (nowhere m)
  case twoLevel =>
    rintro embedding threshold convNs baseNs text now hit ns scope found rfl
    exact wf.entryAt_of_nameAt (nameAt_of_twoLevel found) (nowhere ns)

/-! ## The whole index -/

/-- `after` is `idx` with every namespace cut down to its most recent entries,
and `evicted` reports what is gone. -/
structure CutToCap (idx : SemanticIndex) (maxEntries : Nat) (after : SemanticIndex)
    (evicted : List EvictedEntry) : Prop where
  largest : ∀ m ns, idx.namespaces.lookup m = some ns → ∃ ns',
    after.namespaces.lookup m = some ns' ∧
      HashMap.Largest NamespacedIndex.lruRank maxEntries ns.entries ns'.entries
  untouched : ∀ m ns, idx.namespaces.lookup m = some ns → ns.entryCount ≤ maxEntries →
    after.namespaces.lookup m = some ns
  absent : ∀ m, idx.namespaces.lookup m = none → after.namespaces.lookup m = none
  once : evicted.Nodup
  reported : ∀ u m, ⟨u, m⟩ ∈ evicted ↔ idx.entryAt m u ≠ none ∧ after.entryAt m u = none
  forgotten : ∀ u m, ⟨u, m⟩ ∈ evicted → (∀ m', idx.entryAt m' u ≠ none → m' = m) →
    after.Forgets u

theorem namespaces_evictToCap {order : List String}
    (iter : HashMap.IterOrder idx.namespaces order) (maxEntries : Nat) (m : String) :
    (idx.evictToCap order maxEntries).1.namespaces.lookup m =
      (idx.namespaces.lookup m).map fun ns =>
        (ns.evictDownTo m maxEntries ns.entryCount).1 :=
  HashMap.lookup_forEach _ iter m

/-- What is reported is what was live before and is not after. -/
theorem mem_evictToCap (wf : idx.WellFormed) {order : List String}
    (iter : HashMap.IterOrder idx.namespaces order) (maxEntries : Nat) (u m : String) :
    ⟨u, m⟩ ∈ (idx.evictToCap order maxEntries).2 ↔
      idx.entryAt m u ≠ none ∧ (idx.evictToCap order maxEntries).1.entryAt m u = none := by
  have removed := Removed.evictToCap wf iter maxEntries
  have listed : (u, m) ∈ (idx.evictToCap order maxEntries).2.map
      (fun e => (e.uuid, e.modelId)) ↔ ⟨u, m⟩ ∈ (idx.evictToCap order maxEntries).2 := by
    constructor
    · intro mem
      obtain ⟨e, there, same⟩ := List.mem_map.mp mem
      obtain ⟨rfl, rfl⟩ := Prod.mk.inj same
      exact there
    · intro mem
      exact List.mem_map.mpr ⟨⟨u, m⟩, mem, rfl⟩
  rw [← listed, removed.live]
  constructor
  · intro mem
    exact ⟨removed.present u m mem, if_pos mem⟩
  · rintro ⟨live, gone⟩
    by_contra kept
    rw [if_neg kept] at gone
    exact live gone

/-- The pass over any index, in any visiting order and with any cap. -/
theorem evictToCap_spec {cfg : HnswConfig} (used : Used cfg idx) {order : List String}
    (iter : HashMap.IterOrder idx.namespaces order) (maxEntries : Nat) :
    idx.CutToCap maxEntries (idx.evictToCap order maxEntries).1
      (idx.evictToCap order maxEntries).2 := by
  have wf := used.wellFormed
  have removed := Removed.evictToCap wf iter maxEntries
  constructor
  case largest =>
    intro m ns known
    refine ⟨_, by rw [namespaces_evictToCap iter, known]; rfl, ?_⟩
    exact NamespacedIndex.largest_evictDownTo m (Nat.le_add_left _ _)
  case untouched =>
    intro m ns known within
    rw [namespaces_evictToCap iter, known, Option.map_some,
      NamespacedIndex.evictDownTo_of_le within]
  case absent =>
    intro m unknown
    rw [namespaces_evictToCap iter, unknown]
    rfl
  case once =>
    refine HashMap.nodup_forEach_out
      (fun m ns e mem => NamespacedIndex.modelId_of_mem_evictDownTo mem) iter.1
      fun m _ ns known => ?_
    have cut := NamespacedIndex.Removed.evictDownTo (wf m ns known) m maxEntries ns.entryCount
    exact cut.nodup.of_map _
  case reported => exact mem_evictToCap wf iter maxEntries
  case forgotten =>
    intro u m mem single
    obtain ⟨-, gone⟩ := (mem_evictToCap wf iter maxEntries u m).mp mem
    refine removed.wellFormed.forgets fun m' => ?_
    by_contra live
    have before : idx.entryAt m' u ≠ none := by
      rw [removed.live] at live
      split at live
      · exact absurd rfl live
      · exact live
    rw [single m' before] at live
    exact live gone

end Evict

section Example

local instance evictExamplePlatform : Platform := Platform.sample

/-- Two entries of one namespace, of which the first was queried last, and one
entry of another namespace. -/
def crowded : SemanticIndex :=
  ((((new ⟨0, none⟩).apply (.replayEntry (sampleLine "u" "a"))).apply
    (.replayEntry (sampleLine "v" "a"))).apply
      (.replayEntry (sampleLine "w" "b"))).recordAccess "a" 0 7

/-- A cap of one evicts the entry that was not queried. -/
theorem evictToCap_spec_sample :
    (crowded.evictToCap ["b", "a"] 1).2 = [⟨"v", "a"⟩] ∧
      (crowded.evictToCap ["b", "a"] 1).1.Forgets "v" := by
  have used : Used ⟨0, none⟩ crowded :=
    .access "a" 0 7 (.call _ (.call _ (.call _ .new trivial) trivial) trivial)
  have iter : HashMap.IterOrder crowded.namespaces ["b", "a"] := by decide +kernel
  have evicted : (crowded.evictToCap ["b", "a"] 1).2 = [⟨"v", "a"⟩] := by decide +kernel
  refine ⟨evicted, (evictToCap_spec used iter 1).forgotten "v" "a" ?_ fun m live => ?_⟩
  · rw [evicted]
    exact List.mem_cons_self
  · have known : m ∈ crowded.namespaces := by
      by_contra unknown
      exact live (entryAt_of_absent (Finmap.lookup_eq_none.mpr unknown) "v")
    have visited : m = "b" ∨ m = "a" := by
      simpa using (iter.2 m).mpr known
    rcases visited with rfl | rfl
    · exact absurd (by decide +kernel) live
    · rfl

end Example

end SemanticIndex

end Ferrocache
