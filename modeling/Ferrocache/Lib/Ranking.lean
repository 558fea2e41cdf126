import Mathlib.Data.List.Basic
import Mathlib.Data.List.TakeWhile

/-!
# Rankings

A list in strictly increasing order of an asymmetric relation is determined by
its elements.  A search that reports the points of a set in such an order can
therefore be compared with a search over another presentation of the same
points, or over a part of them.
-/

/-- `ranked` lists the points, each closer than all that follow it. -/
structure Ranking {P : Type*} (closer : P → P → Prop) (points ranked : List P) : Prop where
  perm : ranked.Perm points
  sorted : ranked.Pairwise closer

namespace Ranking

variable {P Q : Type*} {closer : P → P → Prop} {points ranked : List P}

/-- Ranking another presentation of some of the points. -/
theorem filterMap (ranking : Ranking closer points ranked) {closer' : Q → Q → Prop}
    {f : P → Option Q} (keeps : ∀ p q x y, p ∈ points → q ∈ points → f p = some x →
      f q = some y → closer p q → closer' x y) :
    Ranking closer' (points.filterMap f) (ranked.filterMap f) where
  perm := ranking.perm.filterMap f
  sorted := by
    rw [List.pairwise_filterMap]
    refine ranking.sorted.imp_of_mem ?_
    intro p q left right near x first y second
    exact keeps p q x y (ranking.perm.mem_iff.mp left) (ranking.perm.mem_iff.mp right) first
      second near

theorem filter (ranking : Ranking closer points ranked) (keep : P → Bool) :
    Ranking closer (points.filter keep) (ranked.filter keep) :=
  ⟨ranking.perm.filter keep, ranking.sorted.filter keep⟩

/-- The same points have one ranking. -/
theorem unique (asymm : ∀ p q, closer p q → ¬ closer q p) {points' ranked' : List P}
    (ranking : Ranking closer points ranked) (ranking' : Ranking closer points' ranked')
    (same : points.Perm points') : ranked = ranked' :=
  List.Perm.eq_of_pairwise (fun p q _ _ near far => absurd far (asymm p q near))
    ranking.sorted ranking'.sorted (ranking.perm.trans (same.trans ranking'.perm.symm))

/-- The first point is closer than all others. -/
theorem closer_of_head {first : P} {rest : List P} (ranking : Ranking closer points (first :: rest))
    {p : P} (mem : p ∈ points) : p = first ∨ closer first p := by
  rcases List.mem_cons.mp (ranking.perm.mem_iff.mpr mem) with same | later
  · exact Or.inl same
  · exact Or.inr (List.rel_of_pairwise_cons ranking.sorted later)

theorem mem_of_head {first : P} {rest : List P}
    (ranking : Ranking closer points (first :: rest)) : first ∈ points :=
  ranking.perm.mem_iff.mp List.mem_cons_self

theorem eq_nil (ranking : Ranking closer points []) : points = [] :=
  (List.nil_perm.mp ranking.perm)

/-! ## The points in front of the first one without a property -/

section Front

variable {near : P → P → Bool} {skip : P → Bool}

/-- Everything in front is closer than a point that is not skipped. -/
theorem length_takeWhile_le (ranking : Ranking (fun p q => near p q = true) points ranked) {p : P}
    (mem : p ∈ points) (kept : skip p = false) :
    (ranked.takeWhile skip).length ≤ (points.filter fun q => skip q && near q p).length := by
  have whole : ranked.takeWhile skip ++ ranked.dropWhile skip = ranked :=
    List.takeWhile_append_dropWhile
  have place : p ∈ ranked.takeWhile skip ++ ranked.dropWhile skip := by
    rw [whole]
    exact ranking.perm.mem_iff.mpr mem
  have sorted : (ranked.takeWhile skip ++ ranked.dropWhile skip).Pairwise
      fun p q => near p q = true := by
    rw [whole]
    exact ranking.sorted
  have behind : p ∈ ranked.dropWhile skip := by
    refine (List.mem_append.mp place).resolve_left fun front => ?_
    rw [List.mem_takeWhile_imp front] at kept
    cases kept
  have all : (ranked.takeWhile skip).filter (fun q => skip q && near q p) =
      ranked.takeWhile skip := by
    refine List.filter_eq_self.mpr fun q front => ?_
    rw [List.mem_takeWhile_imp front, (List.pairwise_append.mp sorted).2.2 q front p behind]
    rfl
  calc (ranked.takeWhile skip).length
      = ((ranked.takeWhile skip).filter fun q => skip q && near q p).length := by rw [all]
    _ ≤ (ranked.filter fun q => skip q && near q p).length :=
        ((List.takeWhile_sublist skip).filter _).length_le
    _ = (points.filter fun q => skip q && near q p).length := (ranking.perm.filter _).length_eq

/-- Nothing but what is in front is skipped and closer than the first point that
is not. -/
theorem exists_length_filter_le (ranking : Ranking (fun p q => near p q = true) points ranked)
    (asymm : ∀ p q, near p q = true → ¬ near q p = true) (any : ∃ p ∈ points, skip p = false) :
    ∃ p ∈ points, skip p = false ∧
      (points.filter fun q => skip q && near q p).length ≤ (ranked.takeWhile skip).length := by
  have whole : ranked.takeWhile skip ++ ranked.dropWhile skip = ranked :=
    List.takeWhile_append_dropWhile
  cases back : ranked.dropWhile skip with
  | nil =>
      obtain ⟨p, mem, kept⟩ := any
      have all := List.dropWhile_eq_nil_iff.mp back p (ranking.perm.mem_iff.mpr mem)
      rw [kept] at all
      cases all
  | cons p rest =>
      have kept : skip p = false := by
        have stopped := List.head?_dropWhile_not skip ranked
        rw [back] at stopped
        exact stopped
      rw [back] at whole
      have sorted : (ranked.takeWhile skip ++ p :: rest).Pairwise fun p q => near p q = true := by
        rw [whole]
        exact ranking.sorted
      have mem : p ∈ ranked := by
        rw [← whole]
        exact List.mem_append_right _ List.mem_cons_self
      refine ⟨p, ranking.perm.mem_iff.mp mem, kept, ?_⟩
      have none : (p :: rest).filter (fun q => skip q && near q p) = [] := by
        refine List.filter_eq_nil_iff.mpr fun q later => ?_
        rcases List.mem_cons.mp later with rfl | behind
        · simp [kept]
        · have closer := List.rel_of_pairwise_cons (List.pairwise_append.mp sorted).2.1 behind
          simp [asymm p q closer]
      calc (points.filter fun q => skip q && near q p).length
          = (ranked.filter fun q => skip q && near q p).length :=
            (ranking.perm.filter _).length_eq.symm
        _ = ((ranked.takeWhile skip ++ p :: rest).filter fun q => skip q && near q p).length := by
            rw [whole]
        _ = ((ranked.takeWhile skip).filter fun q => skip q && near q p).length := by
            rw [List.filter_append, none, List.append_nil]
        _ ≤ (ranked.takeWhile skip).length := List.length_filter_le _ _

end Front

end Ranking
