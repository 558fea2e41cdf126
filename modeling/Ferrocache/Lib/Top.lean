import Ferrocache.Lib.HashMap

/-!
# The largest elements of a set

`Finset.Top key n A B` says that `B` are the `n` elements of `A` with the largest
keys, or all of them when there are no more than that.  There is at most one
such `B`, and elements that arrive later may as well be compared with the `B`
kept so far: what falls out of `B` would not have come back.

`HashMap.values` is the set of the values of a map, and the largest entries of a
map have the largest values.
-/

namespace Finset

variable {A K : Type} [DecidableEq A] [LinearOrder K]

/-- `t` are the `n` elements of `s` with the largest keys, or all of them when
there are no more than that. -/
structure Top (key : A → K) (n : Nat) (s t : Finset A) : Prop where
  subset : t ⊆ s
  card : t.card = min n s.card
  above : ∀ a ∈ s, a ∉ t → ∀ b ∈ t, key a < key b

namespace Top

variable {key : A → K} {n : Nat} {s t u p : Finset A}

omit [DecidableEq A] in
/-- Two such sets with an element in one and not in the other would each be
above the other. -/
theorem unique (first : Top key n s t) (second : Top key n s u) : t = u := by
  have same : t.card = u.card := first.card.trans second.card.symm
  refine eq_of_subset_of_card_le (fun a mem => ?_) same.ge
  by_contra missing
  obtain ⟨b, there, other⟩ : ∃ b ∈ u, b ∉ t := by
    refine not_subset.mp fun inside => missing ?_
    rw [eq_of_subset_of_card_le inside same.le]
    exact mem
  have below := first.above b (second.subset there) other a mem
  have above := second.above a (first.subset mem) missing b there
  exact absurd below above.asymm

omit [DecidableEq A] in
/-- Nothing is left out while there is room. -/
theorem full (top : Top key n s t) {a : A} (mem : a ∈ s) (missing : a ∉ t) : t.card = n := by
  have proper : t ⊂ s := ⟨top.subset, fun inside => missing (inside mem)⟩
  have fewer := card_lt_card proper
  have size := top.card
  omega

/-- Later elements can be compared with the largest ones alone. -/
theorem extend (first : Top key n s t) (apart : Disjoint s p) (second : Top key n (t ∪ p) u) :
    Top key n (s ∪ p) u := by
  have size : (t ∪ p).card = t.card + p.card :=
    card_union_of_disjoint (disjoint_of_subset_left first.subset apart)
  constructor
  case subset => exact second.subset.trans (union_subset_union_left first.subset)
  case card =>
    rw [second.card, size, first.card, card_union_of_disjoint apart]
    omega
  case above =>
    intro a mem missing c kept
    by_cases compared : a ∈ t ∪ p
    · exact second.above a compared missing c kept
    · have old : a ∈ s := (mem_union.mp mem).resolve_right fun new =>
        compared (mem_union_right _ new)
      have out : a ∉ t := fun inside => compared (mem_union_left _ inside)
      by_cases before : c ∈ t
      · exact first.above a old out c before
      · -- the new element c has pushed out some b of t, which was above a
        have many : u.card = t.card := by
          have filled := first.full old out
          have room := second.card
          omega
        obtain ⟨b, there, gone⟩ : ∃ b ∈ t, b ∉ u := by
          refine not_subset.mp fun inside => before ?_
          rw [eq_of_subset_of_card_le inside many.le]
          exact kept
        calc key a < key b := first.above a old out b there
          _ < key c := second.above b (mem_union_left _ there) gone c kept

end Top

end Finset

namespace HashMap

variable {K V R S : Type} [DecidableEq K] [DecidableEq V] [LinearOrder R] [LinearOrder S]

/-- The values of a map. -/
def values (m : HashMap K V) : Finset V := (m.entries.map Sigma.snd).toFinset

theorem mem_values {m : HashMap K V} {v : V} :
    v ∈ values m ↔ ∃ k, m.lookup k = some v := by
  unfold values
  rw [Multiset.mem_toFinset, Multiset.mem_map]
  constructor
  · intro given
    rcases given with ⟨⟨k, w⟩, mem, rfl⟩
    exact ⟨k, Finmap.mem_lookup_iff.mpr mem⟩
  · intro given
    rcases given with ⟨k, found⟩
    exact ⟨⟨k, v⟩, Finmap.mem_lookup_iff.mp found, rfl⟩

/-- As many values as entries, if no value is stored twice. -/
theorem card_values {m : HashMap K V}
    (once : ∀ k k' v, m.lookup k = some v → m.lookup k' = some v → k = k') :
    (values m).card = len m := by
  have distinct : (m.entries.map Sigma.snd).Nodup := by
    refine Multiset.Nodup.map_on (fun e mem e' mem' same => ?_) m.nodup_entries
    have found : m.lookup e.1 = some e.2 := Finmap.mem_lookup_iff.mpr mem
    have found' : m.lookup e'.1 = some e.2 := by
      rw [same]
      exact Finmap.mem_lookup_iff.mpr mem'
    exact Sigma.ext (once _ _ _ found found') (heq_of_eq same)
  unfold values len
  rw [Multiset.toFinset_card_of_nodup distinct, Multiset.card_map]
  exact (Multiset.card_map _ _).symm

/-- The largest entries have the values of the largest keys, if the ranks of
different values compare as their keys do. -/
theorem Largest.top {rank : K → V → R} {key : V → S} {n : Nat} {m m' : HashMap K V}
    (largest : Largest rank n m m')
    (once : ∀ k k' v, m.lookup k = some v → m.lookup k' = some v → k = k')
    (ranked : ∀ k k' v v', m.lookup k = some v → m.lookup k' = some v' → rank k v < rank k' v' →
      key v < key v') : Finset.Top key n (values m) (values m') := by
  have once' : ∀ k k' v, m'.lookup k = some v → m'.lookup k' = some v → k = k' :=
    fun k k' v stays stays' => once k k' v (largest.kept k v stays) (largest.kept k' v stays')
  constructor
  case subset =>
    intro v mem
    obtain ⟨k, stays⟩ := mem_values.mp mem
    exact mem_values.mpr ⟨k, largest.kept k v stays⟩
  case card => rw [card_values once', card_values once, largest.size]
  case above =>
    intro v mem gone v' mem'
    obtain ⟨k, found⟩ := mem_values.mp mem
    obtain ⟨k', stays⟩ := mem_values.mp mem'
    have dropped : m'.lookup k = none := by
      refine Option.eq_none_iff_forall_ne_some.mpr fun w there => gone ?_
      obtain rfl : w = v := Option.some.inj ((largest.kept k w there).symm.trans found)
      exact mem_values.mpr ⟨k, there⟩
    exact ranked k k' v v' found (largest.kept k' v' stays)
      (largest.above k' v' k v stays found dropped)

end HashMap
