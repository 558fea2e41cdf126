import Mathlib.Order.Lattice
import Mathlib.Data.List.Pairwise
import Mathlib.Data.List.Nodup

/-!
# Ordered maps

A map whose keys are visited in increasing order (a B-tree map), as the list of
its entries.  The order of the entries is part of the type.
-/

structure OrderedMap (K V : Type) [LinearOrder K] : Type where
  entries : List (K × V)
  sorted : entries.Pairwise (·.1 < ·.1)

namespace OrderedMap

variable {K V : Type} [LinearOrder K]

def empty : OrderedMap K V := ⟨[], .nil⟩

def insertEntry (k : K) (v : V) : List (K × V) → List (K × V)
  | [] => [(k, v)]
  | e :: rest =>
    if k < e.1 then (k, v) :: e :: rest
    else if k = e.1 then (k, v) :: rest
    else e :: insertEntry k v rest

theorem mem_insertEntry {k : K} {v : V} {l : List (K × V)} {e : K × V}
    (mem : e ∈ insertEntry k v l) : e = (k, v) ∨ e ∈ l := by
  induction l with
  | nil => exact .inl (List.mem_singleton.mp mem)
  | cons head rest ih =>
      unfold insertEntry at mem
      split at mem
      · exact List.mem_cons.mp mem
      · split at mem
        · exact (List.mem_cons.mp mem).imp_right (List.mem_cons_of_mem _)
        · rcases List.mem_cons.mp mem with here | later
          · exact .inr (here ▸ List.mem_cons_self)
          · exact (ih later).imp_right (List.mem_cons_of_mem _)

theorem insertEntry_sorted (k : K) (v : V) {l : List (K × V)} (sorted : l.Pairwise (·.1 < ·.1)) :
    (insertEntry k v l).Pairwise (·.1 < ·.1) := by
  induction l with
  | nil => exact List.pairwise_singleton _ _
  | cons head rest ih =>
      obtain ⟨first, tail⟩ := List.pairwise_cons.mp sorted
      unfold insertEntry
      split
      · next below =>
          refine List.pairwise_cons.mpr ⟨fun e mem => ?_, sorted⟩
          rcases List.mem_cons.mp mem with rfl | later
          · exact below
          · exact lt_trans below (first e later)
      · next notBelow =>
          split
          · next same =>
              subst same
              exact List.pairwise_cons.mpr ⟨first, tail⟩
          · next other =>
              refine List.pairwise_cons.mpr ⟨fun e mem => ?_, ih tail⟩
              rcases mem_insertEntry mem with rfl | old
              · exact lt_of_le_of_ne (not_lt.mp notBelow) (Ne.symm other)
              · exact first e old

/-- The entry replaces one with the same key. -/
def insert (m : OrderedMap K V) (k : K) (v : V) : OrderedMap K V :=
  ⟨insertEntry k v m.entries, insertEntry_sorted k v m.sorted⟩

theorem mem_insert {m : OrderedMap K V} {k : K} {v : V} {e : K × V} :
    e ∈ (m.insert k v).entries ↔ e = (k, v) ∨ e ∈ m.entries ∧ e.1 ≠ k := by
  obtain ⟨l, sorted⟩ := m
  change e ∈ insertEntry k v l ↔ e = (k, v) ∨ e ∈ l ∧ e.1 ≠ k
  induction l with
  | nil => simp [insertEntry]
  | cons head rest ih =>
      obtain ⟨first, tail⟩ := List.pairwise_cons.mp sorted
      have below : ∀ {j}, j ≤ head.1 → ∀ e ∈ rest, e.1 ≠ j := fun le e mem same =>
        absurd (same ▸ le) (not_le.mpr (first e mem))
      unfold insertEntry
      split
      · next before =>
          have other : ∀ e ∈ head :: rest, e.1 ≠ k := by
            intro e mem
            rcases List.mem_cons.mp mem with rfl | later
            · exact ne_of_gt before
            · exact below (le_of_lt before) e later
          rw [List.mem_cons]
          exact or_congr_right ⟨fun mem => ⟨mem, other e mem⟩, And.left⟩
      · split
        · next same =>
            rw [List.mem_cons, List.mem_cons]
            refine or_congr_right ⟨fun mem => ⟨.inr mem, below (le_of_eq same) e mem⟩, ?_⟩
            rintro ⟨rfl | later, other⟩
            · exact absurd same.symm other
            · exact later
        · next other =>
            rw [List.mem_cons, List.mem_cons, ih tail]
            constructor
            · rintro (rfl | new | ⟨old, apart⟩)
              · exact .inr ⟨.inl rfl, Ne.symm other⟩
              · exact .inl new
              · exact .inr ⟨.inr old, apart⟩
            · rintro (new | ⟨rfl | old, apart⟩)
              · exact .inr (.inl new)
              · exact .inl rfl
              · exact .inr (.inr ⟨old, apart⟩)

/-- The map without the key. -/
def erase (m : OrderedMap K V) (k : K) : OrderedMap K V :=
  ⟨m.entries.filter (·.1 ≠ k), m.sorted.filter _⟩

theorem nodup (m : OrderedMap K V) : m.entries.Nodup :=
  m.sorted.imp fun below same => absurd (congrArg Prod.fst same) (ne_of_lt below)

/-- A map is determined by its entries. -/
theorem ext_mem {m m' : OrderedMap K V} (same : ∀ e, e ∈ m.entries ↔ e ∈ m'.entries) : m = m' := by
  have equal : m.entries = m'.entries := by
    refine List.Perm.eq_of_pairwise (fun a b _ _ before after => ?_) m.sorted m'.sorted
      ((List.perm_ext_iff_of_nodup m.nodup m'.nodup).mpr same)
    exact absurd after (lt_asymm before)
  cases m
  cases m'
  cases equal
  rfl

def keys (m : OrderedMap K V) : List K := m.entries.map Prod.fst

theorem keys_sorted (m : OrderedMap K V) : m.keys.Pairwise (· < ·) :=
  List.pairwise_map.mpr m.sorted

/-- The values, from the key `k` upwards and then around to it. -/
def valuesFrom (m : OrderedMap K V) (k : K) : List V :=
  (m.entries.filter (k ≤ ·.1) ++ m.entries.filter (·.1 < k)).map Prod.snd

end OrderedMap
