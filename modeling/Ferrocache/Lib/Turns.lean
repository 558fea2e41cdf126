import Mathlib.Order.Basic

/-!
# Progress by counting turns

A machine whose steps interleave those of one worker, its turns, with those of
everybody else.  If a measure falls at every turn and never grows, the work is
done after as many turns as the measure was at the start, whatever happens in
between and however long the others keep the worker waiting.
-/

namespace Ferrocache.Turns

variable {σ α : Type*} (step : σ → α → σ) (turn : σ → α → Bool) (ok : σ → α → Prop)

/-- The turns among the steps of a run. -/
def count : σ → List α → Nat
  | _, [] => 0
  | s, a :: actions => (if turn s a then 1 else 0) + count (step s a) actions

/-- Every step of the run may happen when it does. -/
def Runs : σ → List α → Prop
  | _, [] => True
  | s, a :: actions => ok s a ∧ Runs (step s a) actions

/-- A measure of the work that is left, under an invariant. -/
structure Progress (measure : σ → Nat) (inv done : σ → Prop) : Prop where
  stays : ∀ s a, done s → done (step s a)
  falls : ∀ s a, inv s → ok s a → ¬ done s →
    inv (step s a) ∧ measure (step s a) + (if turn s a then 1 else 0) ≤ measure s
  positive : ∀ s, inv s → ¬ done s → 0 < measure s

variable {step turn ok} {measure : σ → Nat} {inv done : σ → Prop}

/-- A projection that keeps steps and turns keeps their number. -/
theorem count_project {τ : Type*} (f : σ → τ) {step' : τ → α → τ} {turn' : τ → α → Bool}
    (steps : ∀ s a, f (step s a) = step' (f s) a) (turns : ∀ s a, turn s a = turn' (f s) a)
    (s : σ) (actions : List α) : count step turn s actions = count step' turn' (f s) actions := by
  induction actions generalizing s with
  | nil => rfl
  | cons a actions ih =>
      unfold count
      rw [ih, steps, turns]

namespace Progress

variable (progress : Progress step turn ok measure inv done)

include progress

/-- What is done stays done. -/
theorem done_foldl {s : σ} (now : done s) (actions : List α) : done (actions.foldl step s) := by
  induction actions generalizing s with
  | nil => exact now
  | cons a actions ih => exact ih (progress.stays s a now)

/-- The invariant holds until the work is done. -/
theorem done_or_inv {s : σ} (holds : inv s) {actions : List α} (runs : Runs step ok s actions) :
    done (actions.foldl step s) ∨ inv (actions.foldl step s) := by
  induction actions generalizing s with
  | nil => exact .inr holds
  | cons a actions ih =>
      obtain ⟨allowed, rest⟩ := runs
      by_cases already : done s
      · exact .inl (progress.done_foldl already (a :: actions))
      · exact ih (progress.falls s a holds allowed already).1 rest

/-- Enough turns finish the work. -/
theorem done_of_count {s : σ} (holds : inv s) {actions : List α} (runs : Runs step ok s actions)
    (enough : measure s ≤ count step turn s actions) : done (actions.foldl step s) := by
  induction actions generalizing s with
  | nil =>
      by_contra undone
      have left := progress.positive s holds undone
      unfold count at enough
      omega
  | cons a actions ih =>
      obtain ⟨allowed, rest⟩ := runs
      by_cases already : done s
      · exact progress.done_foldl already (a :: actions)
      · obtain ⟨next, less⟩ := progress.falls s a holds allowed already
        refine ih next rest ?_
        unfold count at enough
        omega

end Progress

end Ferrocache.Turns
