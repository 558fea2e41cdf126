import Mathlib.Data.List.Nodup
import Mathlib.Data.List.Perm.Subperm

/-!
# First occurrences

`List.eraseDups` keeps the first occurrence of every element.  Leaving elements
out commutes with it, so the order of the others does not change; and the
elements that follow a few left-out ones were just behind them.
-/

namespace List

variable {A : Type} [DecidableEq A]

/-- What `eraseDups` goes on with is shorter. -/
theorem length_filter_ne_lt (a : A) (l : List A) :
    (l.filter fun b => !b == a).length < (a :: l).length :=
  Nat.lt_succ_of_le (length_filter_le _ _)

theorem eraseDups_filter (p : A → Bool) : ∀ l : List A,
    (l.filter p).eraseDups = l.eraseDups.filter p
  | [] => rfl
  | a :: l => by
      have rest := eraseDups_filter p (l.filter fun b => !b == a)
      have swapped : (l.filter fun b => !b == a).filter p =
          (l.filter p).filter fun b => !b == a := by
        rw [filter_filter, filter_filter]
        exact filter_congr fun b _ => Bool.and_comm _ _
      rw [swapped] at rest
      cases kept : p a with
      | true =>
          rw [filter_cons_of_pos kept, eraseDups_cons, eraseDups_cons, filter_cons_of_pos kept,
            rest]
      | false =>
          have gone : ¬ p a = true := by simp [kept]
          have other : (l.filter p).filter (fun b => !b == a) = l.filter p := by
            refine filter_eq_self.mpr fun b mem => ?_
            have different : b ≠ a := by
              intro same
              subst same
              exact gone (mem_filter.mp mem).2
            simpa using different
          rw [other] at rest
          rw [filter_cons_of_neg gone, eraseDups_cons, filter_cons_of_neg gone, rest]
termination_by l => l.length
decreasing_by exact length_filter_ne_lt a l

theorem nodup_eraseDups : ∀ l : List A, l.eraseDups.Nodup
  | [] => nodup_nil
  | a :: l => by
      rw [eraseDups_cons]
      refine nodup_cons.mpr ⟨fun mem => ?_, nodup_eraseDups (l.filter fun b => !b == a)⟩
      have different := (mem_filter.mp (mem_eraseDups.mp mem)).2
      simp at different
termination_by l => l.length
decreasing_by exact length_filter_ne_lt a l

theorem head?_eraseDups (l : List A) : l.eraseDups.head? = l.head? := by
  cases l with
  | nil => rfl
  | cons a l => rw [eraseDups_cons, head?_cons, head?_cons]

/-- Leaving out the elements of one key does not change the first one of another. -/
theorem find?_filter_ne {B : Type} (f : B → A) {a b : A} (other : a ≠ b) (l : List B) :
    (l.filter fun z => !f z == b).find? (fun z => f z == a) = l.find? fun z => f z == a := by
  rw [find?_filter]
  congr 1
  funext z
  by_cases same : f z = a
  · simp [same, other]
  · simp [same]

/-- The distinct keys of an ordered list stand in the order of the first elements
that have them. -/
theorem pairwise_eraseDups_map {B : Type} {R : B → B → Prop} (f : B → A) : ∀ l : List B,
    l.Pairwise R → (l.map f).eraseDups.Pairwise fun a b => ∃ x y,
      l.find? (fun z => f z == a) = some x ∧ l.find? (fun z => f z == b) = some y ∧ R x y
  | [], _ => .nil
  | x :: l, ordered => by
      obtain ⟨first, rest⟩ := pairwise_cons.mp ordered
      have ih := pairwise_eraseDups_map f (l.filter fun z => !f z == f x) (rest.filter _)
      have later : ∀ {a}, a ∈ ((l.filter fun z => !f z == f x).map f).eraseDups →
          (x :: l).find? (fun z => f z == a) =
            (l.filter fun z => !f z == f x).find? fun z => f z == a := by
        intro a mem
        obtain ⟨w, kept, rfl⟩ := mem_map.mp (mem_eraseDups.mp mem)
        have other : f w ≠ f x := by
          simpa using (mem_filter.mp kept).2
        rw [find?_filter_ne f other, find?_cons, beq_eq_false_iff_ne.mpr (Ne.symm other)]
      have tail : ((l.map f).filter fun b => !b == f x) =
          (l.filter fun z => !f z == f x).map f := by
        rw [filter_map]
        rfl
      rw [map_cons, eraseDups_cons, tail]
      refine pairwise_cons.mpr ⟨fun b mem => ?_, ?_⟩
      · obtain ⟨w, kept, rfl⟩ := mem_map.mp (mem_eraseDups.mp mem)
        obtain ⟨z, found⟩ : ∃ z,
            (l.filter fun z => !f z == f x).find? (fun z => f z == f w) = some z :=
          Option.isSome_iff_exists.mp (find?_isSome.mpr ⟨w, kept, beq_self_eq_true _⟩)
        refine ⟨x, z, ?_, (later mem).trans found, ?_⟩
        · rw [find?_cons, beq_self_eq_true]
        · exact first z (mem_of_mem_filter (mem_of_find?_eq_some found))
      · refine ih.imp_of_mem fun {a b} memA memB given => ?_
        obtain ⟨y, z, foundA, foundB, related⟩ := given
        exact ⟨y, z, (later memA).trans foundA, (later memB).trans foundB, related⟩
termination_by l => l.length
decreasing_by exact Nat.lt_succ_of_le (length_filter_le _ _)

/-- The first element outside a list of `f` elements is among the first `f + 1`
of a list without repetition. -/
theorem head?_filter_mem_take {l gone : List A} (nodup : l.Nodup) {a : A}
    (first : (l.filter fun b => decide (b ∉ gone)).head? = some a) {r : Nat}
    (few : gone.length < r) : a ∈ l.take r := by
  rw [head?_filter] at first
  obtain ⟨-, before, after, rfl, passed⟩ := find?_eq_some_iff_append.mp first
  have inside : before ⊆ gone := fun b mem => by simpa using passed b mem
  have short : before.length ≤ gone.length :=
    ((nodup.sublist (sublist_append_left _ _)).subperm inside).length_le
  rw [take_append, take_of_length_le (by omega)]
  refine mem_append_right _ ?_
  obtain ⟨k, more⟩ : ∃ k, r - before.length = k + 1 := ⟨r - before.length - 1, by omega⟩
  rw [more, take_succ_cons]
  exact mem_cons_self

end List
