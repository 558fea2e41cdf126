import Mathlib.Data.Finmap
import Mathlib.Data.Prod.Lex

/-!
# Unordered maps

A hash map is a finite map without an order: `Finmap` is exactly that.  What a
program sees beside the contents is the order in which one iteration visits
the keys, which is not specified.  Here such an order is an explicit list of
keys (`HashMap.IterOrder`), so a loop over a map is a loop over that list and a
statement about the loop quantifies over every admissible list.

* `HashMap.forEach`: a loop that replaces every visited value and collects
  outputs (`iter_mut` with a result vector).
* `HashMap.eraseAll`: removal of a list of keys.
* `HashMap.insertAll`: insertion of a list of entries.
* `HashMap.minRank`: the least rank of the entries, which needs no order because
  the minimum is commutative.
-/

/-- A hash map with keys in `K` and values in `V`, by its contents. -/
abbrev HashMap (K V : Type) := Finmap fun _ : K => V

namespace HashMap

variable {K V O : Type} [DecidableEq K]

theorem lookup_insert_eq (m : HashMap K V) (k k' : K) (v : V) :
    (m.insert k v).lookup k' = if k' = k then some v else m.lookup k' := by
  split
  · next same => subst same; exact Finmap.lookup_insert m
  · next other => exact Finmap.lookup_insert_of_ne m other

theorem lookup_erase_eq (m : HashMap K V) (k k' : K) :
    (m.erase k).lookup k' = if k' = k then none else m.lookup k' := by
  split
  · next same => subst same; exact Finmap.lookup_erase _ m
  · next other => exact Finmap.lookup_erase_ne other

/-- Two tables, from names to ids and from ids to what is named, stay inverse to
each other when a new name and a new id enter both. -/
theorem inverse_insert {N : Type} [DecidableEq N] {ids : HashMap N K} {table : HashMap K V}
    {name : V → N}
    (inverse : ∀ n i, ids.lookup n = some i ↔ ∃ v, table.lookup i = some v ∧ name v = n)
    {k : K} {new : V} (newId : ∀ i v, table.lookup i = some v → i ≠ k)
    (newName : ∀ i v, table.lookup i = some v → name v ≠ name new) (n : N) (i : K) :
    (ids.insert (name new) k).lookup n = some i ↔
      ∃ v, (table.insert k new).lookup i = some v ∧ name v = n := by
  simp only [lookup_insert_eq]
  constructor
  · intro known
    by_cases same : n = name new
    · rw [if_pos same] at known
      cases Option.some.inj known
      exact ⟨new, by rw [if_pos rfl], same.symm⟩
    · rw [if_neg same] at known
      obtain ⟨v, found, named⟩ := (inverse n i).mp known
      exact ⟨v, by rw [if_neg (newId i v found)]; exact found, named⟩
  · intro listed
    obtain ⟨v, found, named⟩ := listed
    subst named
    by_cases here : i = k
    · rw [if_pos here] at found
      cases Option.some.inj found
      rw [if_pos rfl, here]
    · rw [if_neg here] at found
      rw [if_neg (newName i v found)]
      exact (inverse (name v) i).mpr ⟨v, found, rfl⟩

/-- `order` visits every key of `m` exactly once. -/
def IterOrder (m : HashMap K V) (order : List K) : Prop :=
  order.Nodup ∧ ∀ k, k ∈ order ↔ k ∈ m

theorem iterOrder_iff {m : HashMap K V} {order : List K} :
    IterOrder m order ↔ order.Nodup ∧ order.toFinset = m.keys := by
  refine and_congr_right fun _ => ?_
  simp only [Finset.ext_iff, List.mem_toFinset, Finmap.mem_keys]

instance (m : HashMap K V) (order : List K) : Decidable (IterOrder m order) :=
  decidable_of_iff _ iterOrder_iff.symm

/-- The entries in the order of a visit. -/
def visited (m : HashMap K V) (order : List K) : List (Sigma fun _ : K => V) :=
  order.filterMap fun k => (m.lookup k).map fun v => ⟨k, v⟩

theorem entries_eq_visited {m : HashMap K V} {order : List K} (iter : IterOrder m order) :
    m.entries = (visited m order : Multiset _) := by
  have once : (visited m order).Nodup := by
    refine iter.1.filterMap fun k k' e found found' => ?_
    obtain ⟨v, -, rfl⟩ := Option.map_eq_some_iff.mp found
    obtain ⟨v', -, same⟩ := Option.map_eq_some_iff.mp found'
    exact (congrArg Sigma.fst same).symm
  refine (Multiset.Nodup.ext m.nodup_entries (Multiset.coe_nodup.mpr once)).mpr fun e => ?_
  rw [Multiset.mem_coe, visited, List.mem_filterMap]
  constructor
  · intro mem
    have found : m.lookup e.1 = some e.2 := Finmap.mem_lookup_iff.mpr mem
    refine ⟨e.1, (iter.2 e.1).mpr (Finmap.mem_of_lookup_eq_some found), ?_⟩
    rw [found]
    rfl
  · rintro ⟨k, -, found⟩
    obtain ⟨v, known, rfl⟩ := Option.map_eq_some_iff.mp found
    exact Finmap.mem_lookup_iff.mp known

/-- The part of a listing by keys that belongs to one key. -/
theorem filter_flatMap_of_key {f : K → List O} {key : O → K} (keyed : ∀ k, ∀ o ∈ f k, key o = k)
    {order : List K} (nodup : order.Nodup) (k : K) :
    (order.flatMap f).filter (fun o => key o = k) = if k ∈ order then f k else [] := by
  induction order with
  | nil => rfl
  | cons k' ks ih =>
      obtain ⟨fresh, nodup⟩ := List.nodup_cons.mp nodup
      rw [List.flatMap_cons, List.filter_append, ih nodup]
      by_cases same : k = k'
      · subst same
        have whole : (f k).filter (fun o => key o = k) = f k :=
          List.filter_eq_self.mpr fun o mem => decide_eq_true (keyed k o mem)
        rw [whole, if_neg fresh, if_pos List.mem_cons_self, List.append_nil]
      · have nothing : (f k').filter (fun o => key o = k) = [] :=
          List.filter_eq_nil_iff.mpr fun o mem here =>
            same ((of_decide_eq_true here).symm.trans (keyed k' o mem))
        rw [nothing, List.nil_append]
        simp only [List.mem_cons, same, false_or]

/-- The number of entries. -/
def len (m : HashMap K V) : Nat := m.keys.card

theorem len_eq_zero {m : HashMap K V} : len m = 0 ↔ ∀ k, m.lookup k = none := by
  simp only [len, Finset.card_eq_zero, Finset.eq_empty_iff_forall_notMem, Finmap.mem_keys,
    Finmap.lookup_eq_none]

/-! ## Loops that update every entry -/

/-- Visit the keys of `order` in turn, replace each value that is present by
the first component of `f`, and collect the second components. -/
def forEach (f : K → V → V × List O) : List K → HashMap K V → HashMap K V × List O
  | [], m => (m, [])
  | k :: ks, m =>
    match m.lookup k with
    | none => forEach f ks m
    | some v =>
      let rest := forEach f ks (m.insert k (f k v).1)
      (rest.1, (f k v).2 ++ rest.2)

theorem lookup_forEach_of_notMem (f : K → V → V × List O) {order : List K} {m : HashMap K V}
    {k : K} (absent : k ∉ order) : (forEach f order m).1.lookup k = m.lookup k := by
  induction order generalizing m with
  | nil => rfl
  | cons k' ks ih =>
      have other : k ≠ k' := fun same => absent (same ▸ List.mem_cons_self)
      have later : k ∉ ks := fun mem => absent (List.mem_cons_of_mem _ mem)
      simp only [forEach]
      cases m.lookup k' with
      | none => exact ih later
      | some v => rw [ih later, lookup_insert_eq, if_neg other]

/-- A visited key holds the updated value. -/
theorem lookup_forEach_of_mem (f : K → V → V × List O) {order : List K} {m : HashMap K V}
    {k : K} (nodup : order.Nodup) (visited : k ∈ order) :
    (forEach f order m).1.lookup k = (m.lookup k).map fun v => (f k v).1 := by
  induction order generalizing m with
  | nil => cases visited
  | cons k' ks ih =>
      obtain ⟨fresh, nodup⟩ := List.nodup_cons.mp nodup
      simp only [forEach]
      by_cases same : k = k'
      · subst same
        cases found : m.lookup k with
        | none => rw [lookup_forEach_of_notMem f fresh, found]; rfl
        | some v =>
            rw [lookup_forEach_of_notMem f fresh, lookup_insert_eq, if_pos rfl]
            rfl
      · have later : k ∈ ks := (List.mem_cons.mp visited).resolve_left same
        cases m.lookup k' with
        | none => exact ih nodup later
        | some v => rw [ih nodup later, lookup_insert_eq, if_neg same]

theorem lookup_forEach (f : K → V → V × List O) {order : List K} {m : HashMap K V}
    (iter : IterOrder m order) (k : K) :
    (forEach f order m).1.lookup k = (m.lookup k).map fun v => (f k v).1 := by
  by_cases visited : k ∈ order
  · exact lookup_forEach_of_mem f iter.1 visited
  · have absent : m.lookup k = none :=
      Finmap.lookup_eq_none.mpr fun mem => visited ((iter.2 k).mpr mem)
    rw [lookup_forEach_of_notMem f visited, absent]
    rfl

/-- The outputs of a loop are those of the visited entries. -/
theorem mem_forEach_out (f : K → V → V × List O) {order : List K} {m : HashMap K V}
    (nodup : order.Nodup) (o : O) :
    o ∈ (forEach f order m).2 ↔ ∃ k ∈ order, ∃ v, m.lookup k = some v ∧ o ∈ (f k v).2 := by
  induction order generalizing m with
  | nil => simp [forEach]
  | cons k ks ih =>
      obtain ⟨fresh, nodup⟩ := List.nodup_cons.mp nodup
      have other : ∀ k' ∈ ks, k' ≠ k := fun k' mem same => fresh (same ▸ mem)
      simp only [forEach]
      cases found : m.lookup k with
      | none => simp [ih nodup, found]
      | some v =>
          simp only [List.mem_append, ih nodup, List.mem_cons, exists_eq_or_imp, found,
            Option.some.injEq, exists_eq_left']
          refine or_congr_right (exists_congr fun k' => and_congr_right fun mem => ?_)
          rw [lookup_insert_eq, if_neg (other k' mem)]

/-- A loop whose outputs name the visited key repeats none of them if no visit
does. -/
theorem nodup_forEach_out {f : K → V → V × List O} {key : O → K}
    (keyed : ∀ k v, ∀ o ∈ (f k v).2, key o = k) {order : List K} {m : HashMap K V}
    (nodup : order.Nodup) (each : ∀ k ∈ order, ∀ v, m.lookup k = some v → (f k v).2.Nodup) :
    (forEach f order m).2.Nodup := by
  induction order generalizing m with
  | nil => exact List.nodup_nil
  | cons k ks ih =>
      obtain ⟨fresh, nodup⟩ := List.nodup_cons.mp nodup
      obtain ⟨here, later⟩ := List.forall_mem_cons.mp each
      simp only [forEach]
      cases found : m.lookup k with
      | none => exact ih nodup later
      | some v =>
          have rest := ih nodup (m := m.insert k (f k v).1) fun k' mem v' known => by
            have other : k' ≠ k := fun same => fresh (same ▸ mem)
            rw [lookup_insert_eq, if_neg other] at known
            exact later k' mem v' known
          refine List.nodup_append.mpr ⟨here v found, rest, fun o first o' second same => ?_⟩
          subst same
          obtain ⟨k', visited, v', -, out⟩ := (mem_forEach_out f nodup o).mp second
          have home : k' = k := (keyed k' v' o out).symm.trans (keyed k v o first)
          exact fresh (home ▸ visited)

/-! ## Removal of a list of keys -/

/-- Remove every key of the list. -/
def eraseAll (m : HashMap K V) (keys : List K) : HashMap K V :=
  keys.foldl (fun m k => m.erase k) m

theorem lookup_eraseAll (m : HashMap K V) (keys : List K) (k : K) :
    (eraseAll m keys).lookup k = if k ∈ keys then none else m.lookup k := by
  induction keys generalizing m with
  | nil => simp [eraseAll]
  | cons k' ks ih =>
      have unfolded : eraseAll m (k' :: ks) = eraseAll (m.erase k') ks := rfl
      rw [unfolded, ih, lookup_erase_eq]
      by_cases later : k ∈ ks <;> by_cases same : k = k' <;> simp [later, same]

/-! ## A map from a list of entries -/

/-- Insert the entries in turn. -/
def insertAll (m : HashMap K V) (entries : List (K × V)) : HashMap K V :=
  entries.foldl (fun m e => m.insert e.1 e.2) m

/-- A value of the map was there or is one of the entries. -/
theorem mem_of_lookup_insertAll {m : HashMap K V} {entries : List (K × V)} {k : K} {v : V}
    (found : (insertAll m entries).lookup k = some v) :
    (k, v) ∈ entries ∨ m.lookup k = some v := by
  induction entries generalizing m with
  | nil => exact .inr found
  | cons e entries ih =>
      have unfolded : insertAll m (e :: entries) = insertAll (m.insert e.1 e.2) entries := rfl
      rw [unfolded] at found
      rcases ih found with later | here
      · exact .inl (List.mem_cons_of_mem _ later)
      · rw [lookup_insert_eq] at here
        split at here
        · next same =>
            obtain rfl : e.2 = v := Option.some.inj here
            subst same
            exact .inl List.mem_cons_self
        · exact .inr here

theorem mem_insertAll {m : HashMap K V} {entries : List (K × V)} {k : K} :
    k ∈ insertAll m entries ↔ k ∈ entries.map Prod.fst ∨ k ∈ m := by
  induction entries generalizing m with
  | nil => simp [insertAll]
  | cons e entries ih =>
      have unfolded : insertAll m (e :: entries) = insertAll (m.insert e.1 e.2) entries := rfl
      rw [unfolded, ih, Finmap.mem_insert, List.map_cons, List.mem_cons]
      tauto

/-- A key that is not listed keeps its value. -/
theorem lookup_insertAll_of_notMem {m : HashMap K V} {entries : List (K × V)} {k : K}
    (absent : k ∉ entries.map Prod.fst) : (insertAll m entries).lookup k = m.lookup k := by
  induction entries generalizing m with
  | nil => rfl
  | cons e entries ih =>
      rw [List.map_cons, List.mem_cons, not_or] at absent
      obtain ⟨other, later⟩ := absent
      have rest : (insertAll (m.insert e.1 e.2) entries).lookup k = _ := ih later
      exact rest.trans (by rw [lookup_insert_eq, if_neg other])

omit [DecidableEq K] in
/-- The last element of a list with a property. -/
theorem exists_last {p : K → Prop} {l : List K} (some : ∃ x ∈ l, p x) :
    ∃ before x after, l = before ++ x :: after ∧ p x ∧ ∀ y ∈ after, ¬ p y := by
  induction l with
  | nil =>
      obtain ⟨x, mem, -⟩ := some
      cases mem
  | cons x l ih =>
      by_cases later : ∃ y ∈ l, p y
      · obtain ⟨before, y, after, rfl, holds, last⟩ := ih later
        exact ⟨x :: before, y, after, rfl, holds, last⟩
      · obtain ⟨y, mem, holds⟩ := some
        rcases List.mem_cons.mp mem with rfl | mem
        · exact ⟨[], y, l, rfl, holds, fun z there bad => later ⟨z, there, bad⟩⟩
        · exact absurd ⟨y, mem, holds⟩ later

/-- The last value listed under a key is the one that stays. -/
theorem lookup_insertAll_of_last {m : HashMap K V} (before : List (K × V)) {k : K} {v : V}
    {after : List (K × V)} (last : k ∉ after.map Prod.fst) :
    (insertAll m (before ++ (k, v) :: after)).lookup k = some v := by
  rw [insertAll, List.foldl_append, List.foldl_cons]
  have rest : (insertAll ((insertAll m before).insert k v) after).lookup k = _ :=
    lookup_insertAll_of_notMem last
  exact rest.trans (by rw [lookup_insert_eq, if_pos rfl])

/-! ## Least rank -/

section Min

variable {R : Type} [LinearOrder R]

/-- One step of a running minimum. -/
def stepMin (least : Option R) (r : R) : Option R :=
  some (match least with
    | none => r
    | some r' => min r' r)

theorem stepMin_comm (least : Option R) (r r' : R) :
    stepMin (stepMin least r) r' = stepMin (stepMin least r') r := by
  cases least with
  | none => simp only [stepMin, min_comm]
  | some r₀ => simp only [stepMin, min_right_comm]

/-- The least rank in the map; `none` when the map is empty. -/
def minRank (rank : K → V → R) (m : HashMap K V) : Option R :=
  m.foldl (fun least k v => stepMin least (rank k v)) (fun _ _ _ _ _ => stepMin_comm _ _ _) none

omit [DecidableEq K] in
/-- What a running minimum over a list of entries returns. -/
theorem foldl_stepMin_spec (rank : K → V → R) (l : List (Sigma fun _ : K => V)) (init : Option R) :
    let out := l.foldl (fun least s => stepMin least (rank s.1 s.2)) init
    (out = none ↔ init = none ∧ l = []) ∧
      ∀ r, out = some r →
        (init = some r ∨ ∃ s ∈ l, rank s.1 s.2 = r) ∧
          (∀ r₀, init = some r₀ → r ≤ r₀) ∧ ∀ s ∈ l, r ≤ rank s.1 s.2 := by
  induction l generalizing init with
  | nil =>
      refine ⟨by simp, fun r found => ⟨Or.inl found, fun r₀ start => ?_, by simp⟩⟩
      exact (Option.some.inj (found.symm.trans start)).le
  | cons s l ih =>
      obtain ⟨empty, least⟩ := ih (stepMin init (rank s.1 s.2))
      have started : stepMin init (rank s.1 s.2) ≠ none := Option.some_ne_none _
      refine ⟨by simp [empty, started], fun r found => ?_⟩
      obtain ⟨source, below, lower⟩ := least r found
      cases init with
      | none =>
          have head : r ≤ rank s.1 s.2 := below _ rfl
          refine ⟨Or.inr ?_, by simp, List.forall_mem_cons.mpr ⟨head, lower⟩⟩
          rcases source with start | ⟨s', mem, eq⟩
          · exact ⟨s, List.mem_cons_self, Option.some.inj start⟩
          · exact ⟨s', List.mem_cons_of_mem _ mem, eq⟩
      | some r₀ =>
          have both : r ≤ min r₀ (rank s.1 s.2) := below _ rfl
          refine ⟨?_, fun r₁ start => ?_, List.forall_mem_cons.mpr
            ⟨both.trans (min_le_right _ _), lower⟩⟩
          · rcases source with start | ⟨s', mem, eq⟩
            · have value : min r₀ (rank s.1 s.2) = r := Option.some.inj start
              rcases min_choice r₀ (rank s.1 s.2) with left | right
              · exact Or.inl (by rw [← value, left])
              · exact Or.inr ⟨s, List.mem_cons_self, by rw [← value, right]⟩
            · exact Or.inr ⟨s', List.mem_cons_of_mem _ mem, eq⟩
          · rw [← Option.some.inj start]
            exact both.trans (min_le_left _ _)

theorem minRank_eq_none (rank : K → V → R) (m : HashMap K V) :
    minRank rank m = none ↔ ∀ k, m.lookup k = none := by
  induction m using Finmap.induction_on with
  | _ a =>
    have spec := (foldl_stepMin_spec rank a.entries none).1
    have unfolded : minRank rank a.toFinmap =
        a.entries.foldl (fun least s => stepMin least (rank s.1 s.2)) none := rfl
    rw [unfolded, spec]
    constructor
    · rintro ⟨-, nil⟩ k
      rw [Finmap.lookup_toFinmap, AList.lookup, nil]
      rfl
    · intro empty
      refine ⟨rfl, List.eq_nil_iff_forall_not_mem.mpr fun s mem => ?_⟩
      have found : s.2 ∈ a.lookup s.1 := AList.mem_lookup_iff.mpr mem
      rw [← Finmap.lookup_toFinmap, empty] at found
      cases found

/-- The least rank is the rank of an entry. -/
theorem exists_of_minRank {rank : K → V → R} {m : HashMap K V} {r : R}
    (least : minRank rank m = some r) : ∃ k v, m.lookup k = some v ∧ rank k v = r := by
  induction m using Finmap.induction_on with
  | _ a =>
    rcases ((foldl_stepMin_spec rank a.entries none).2 r least).1 with start | ⟨s, mem, eq⟩
    · cases start
    · exact ⟨s.1, s.2, AList.mem_lookup_iff.mpr mem, eq⟩

/-- The least rank is below the rank of every entry. -/
theorem minRank_le {rank : K → V → R} {m : HashMap K V} {r : R}
    (least : minRank rank m = some r) {k : K} {v : V} (found : m.lookup k = some v) :
    r ≤ rank k v := by
  induction m using Finmap.induction_on with
  | _ a =>
    have mem : (⟨k, v⟩ : Sigma fun _ : K => V) ∈ a.entries := AList.mem_lookup_iff.mp found
    exact ((foldl_stepMin_spec rank a.entries none).2 r least).2.2 ⟨k, v⟩ mem

/-! ## The largest entries -/

theorem len_erase {m : HashMap K V} {k : K} (mem : k ∈ m) : len (m.erase k) + 1 = len m := by
  unfold len
  rw [Finmap.keys_erase]
  exact Finset.card_erase_add_one (Finmap.mem_keys.mpr mem)

/-- `m'` holds the `n` entries of `m` with the largest ranks, or all of them when
there are no more than that. -/
structure Largest (rank : K → V → R) (n : Nat) (m m' : HashMap K V) : Prop where
  kept : ∀ k v, m'.lookup k = some v → m.lookup k = some v
  size : len m' = min n (len m)
  above : ∀ k v k' v', m'.lookup k = some v → m.lookup k' = some v' → m'.lookup k' = none →
    rank k' v' < rank k v

theorem Largest.refl {rank : K → V → R} {n : Nat} {m : HashMap K V}
    (small : len m ≤ n) : Largest rank n m m where
  kept _ _ found := found
  size := (min_eq_right small).symm
  above _ _ k' _ _ found absent := by
    rw [found] at absent
    cases absent

/-- The largest entries are those left after the least one is erased, as long as
there are too many. -/
theorem Largest.of_erase {rank : K → V → R} {n : Nat} {m m' : HashMap K V} {k : K} {v : V}
    (found : m.lookup k = some v)
    (least : ∀ k' v', m.lookup k' = some v' → k' ≠ k → rank k v < rank k' v')
    (more : n < len m) (rest : Largest rank n (m.erase k) m') : Largest rank n m m' := by
  have inside : ∀ k' v', m'.lookup k' = some v' → k' ≠ k ∧ m.lookup k' = some v' := by
    intro k' v' stays
    have old := rest.kept k' v' stays
    rw [lookup_erase_eq] at old
    split at old
    · cases old
    · next other => exact ⟨other, old⟩
  constructor
  case kept => exact fun k' v' stays => (inside k' v' stays).2
  case size =>
    have smaller := len_erase (Finmap.mem_of_lookup_eq_some found)
    rw [rest.size]
    omega
  case above =>
    intro k₁ v₁ k₂ v₂ stays old gone
    obtain ⟨other, here⟩ := inside k₁ v₁ stays
    by_cases same : k₂ = k
    · subst same
      cases Option.some.inj (found.symm.trans old)
      exact least k₁ v₁ here other
    · refine rest.above k₁ v₁ k₂ v₂ stays ?_ gone
      rw [lookup_erase_eq, if_neg same]
      exact old

end Min

end HashMap
