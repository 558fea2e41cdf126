import Ferrocache.Index.Evict
import Ferrocache.Index.Reload
import Ferrocache.Lib.Top

/-!
# What an eviction leaves, as sets

The contents of a namespace as the set of its live entries (`held`).  While no
two of them agree in both timestamps, an eviction down to the cap keeps the most
recent ones (`Finset.Top`), whatever their internal ids.
-/

namespace Ferrocache

/-- The two timestamps that `evict_lru` compares first. -/
def CacheEntry.recency (e : CacheEntry) : Nat ×ₗ Nat := toLex (e.lastAccessedAt, e.insertedAt)

namespace NamespacedIndex

/-- Ids do not matter where the timestamps differ. -/
theorem recency_lt_of_lruRank_lt {i j : Nat} {e f : CacheEntry} (lower : lruRank i e < lruRank j f)
    (differ : e.recency ≠ f.recency) : e.recency < f.recency := by
  unfold lruRank at lower
  unfold CacheEntry.recency at differ ⊢
  simp only [Prod.Lex.toLex_lt_toLex] at lower ⊢
  rcases lower with accessed | ⟨accessed, inserted | ⟨inserted, -⟩⟩
  · exact .inl accessed
  · exact .inr ⟨accessed, inserted⟩
  · exact absurd (by rw [accessed, inserted]) differ

end NamespacedIndex

namespace SemanticIndex

section Survivors

variable [Platform] {idx idx' : SemanticIndex} {m : String}

/-- The live entries of a namespace. -/
def held (idx : SemanticIndex) (m : String) : Finset CacheEntry :=
  HashMap.values (idx.namespaceMut m).entries

theorem WellFormed.mem_held (wf : idx.WellFormed) {e : CacheEntry} :
    e ∈ idx.held m ↔ idx.entryAt m e.uuid = some e := by
  unfold held
  rw [HashMap.mem_values, ← namespaceMut_getByUuid, (wf.namespaceMut m).getByUuid_eq_some]
  simp only [true_and]

theorem WellFormed.entryAt_eq_some (wf : idx.WellFormed) {u : String} {e : CacheEntry} :
    idx.entryAt m u = some e ↔ e ∈ idx.held m ∧ e.uuid = u := by
  rw [wf.mem_held]
  constructor
  · intro found
    have named := uuid_of_entryAt wf found
    subst named
    exact ⟨found, rfl⟩
  · intro given
    rcases given with ⟨found, rfl⟩
    exact found

/-- A UUID is live exactly when an entry with it is held. -/
theorem WellFormed.entryAt_ne_none (wf : idx.WellFormed) {u : String} :
    idx.entryAt m u ≠ none ↔ ∃ e ∈ idx.held m, e.uuid = u := by
  rw [Option.ne_none_iff_exists']
  exact exists_congr fun e => wf.entryAt_eq_some

theorem WellFormed.entryAt_congr (wf : idx.WellFormed) (wf' : idx'.WellFormed)
    (same : idx'.held m = idx.held m) (u : String) : idx'.entryAt m u = idx.entryAt m u := by
  refine Option.ext fun e => ?_
  rw [wf'.entryAt_eq_some, wf.entryAt_eq_some, same]

theorem WellFormed.held_congr (wf : idx.WellFormed) (wf' : idx'.WellFormed)
    (same : ∀ u, idx'.entryAt m u = idx.entryAt m u) : idx'.held m = idx.held m := by
  ext e
  rw [wf'.mem_held, wf.mem_held, same]

theorem WellFormed.id_unique (wf : idx.WellFormed) (m : String) (i j : Nat) (e : CacheEntry)
    (found : (idx.namespaceMut m).entries.lookup i = some e)
    (found' : (idx.namespaceMut m).entries.lookup j = some e) : i = j :=
  (wf.namespaceMut m).id_unique found found' rfl

theorem WellFormed.card_held (wf : idx.WellFormed) (m : String) :
    (idx.held m).card = (idx.namespaceMut m).entryCount :=
  HashMap.card_values (wf.id_unique m)

/-- A new entry joins the others. -/
theorem Inserted.held (wf : idx.WellFormed) {home : String} {entry : CacheEntry}
    (inserted : Inserted idx idx' home entry) (unknown : idx.entryAt home entry.uuid = none) :
    idx'.held home = insert entry (idx.held home) := by
  ext e
  rw [inserted.wellFormed.mem_held, inserted.live, Finset.mem_insert, wf.mem_held]
  by_cases same : e.uuid = entry.uuid
  · rw [if_pos ⟨rfl, same⟩, same, unknown]
    simp [eq_comm]
  · have other : e ≠ entry := fun eq => same (congrArg CacheEntry.uuid eq)
    rw [if_neg fun both => same both.2]
    simp [other]

/-- The pass of `evict_to_cap` on each namespace. -/
theorem namespaceMut_evictToCap {order : List String}
    (iter : HashMap.IterOrder idx.namespaces order) (maxEntries : Nat) (m : String) :
    (idx.evictToCap order maxEntries).1.namespaceMut m =
      ((idx.namespaceMut m).evictDownTo m maxEntries (idx.namespaceMut m).entryCount).1 := by
  have each := namespaces_evictToCap iter maxEntries m
  cases known : idx.namespaces.lookup m with
  | none =>
      rw [known, Option.map_none] at each
      have empty : (NamespacedIndex.new idx.hnswConfig).entryCount = 0 := rfl
      rw [namespaceMut_of_absent known, namespaceMut_of_absent each,
        NamespacedIndex.evictDownTo_of_le (empty.le.trans (Nat.zero_le _))]
      rfl
  | some ns =>
      rw [known, Option.map_some] at each
      rw [namespaceMut_of_lookup known, namespaceMut_of_lookup each]

theorem largest_evictToCap {order : List String}
    (iter : HashMap.IterOrder idx.namespaces order) (maxEntries : Nat) (m : String) :
    HashMap.Largest NamespacedIndex.lruRank maxEntries (idx.namespaceMut m).entries
      ((idx.evictToCap order maxEntries).1.namespaceMut m).entries := by
  rw [namespaceMut_evictToCap iter]
  exact NamespacedIndex.largest_evictDownTo m (Nat.le_add_left _ _)

/-- With different timestamps throughout, the most recent entries stay. -/
theorem top_evictToCap (wf : idx.WellFormed) {order : List String}
    (iter : HashMap.IterOrder idx.namespaces order) (maxEntries : Nat)
    (differ : Set.InjOn CacheEntry.recency (idx.held m)) :
    Finset.Top CacheEntry.recency maxEntries (idx.held m)
      ((idx.evictToCap order maxEntries).1.held m) := by
  have largest := largest_evictToCap iter maxEntries m
  refine largest.top (wf.id_unique m) fun i j e f found found' lower => ?_
  refine NamespacedIndex.recency_lt_of_lruRank_lt lower fun same => ?_
  obtain rfl : e = f :=
    differ (HashMap.mem_values.mpr ⟨i, found⟩) (HashMap.mem_values.mpr ⟨j, found'⟩) same
  obtain rfl := wf.id_unique m i j e found found'
  exact lt_irrefl _ lower

/-- After the pass every namespace is within the cap. -/
theorem card_held_evictToCap (wf : idx.WellFormed) {order : List String}
    (iter : HashMap.IterOrder idx.namespaces order) (maxEntries : Nat) :
    ((idx.evictToCap order maxEntries).1.held m).card ≤ maxEntries := by
  have good := (Removed.evictToCap wf iter maxEntries).wellFormed
  rw [good.card_held]
  exact (largest_evictToCap iter maxEntries m).size.le.trans (min_le_left _ _)

end Survivors

end SemanticIndex

end Ferrocache
