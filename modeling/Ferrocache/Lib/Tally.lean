import Mathlib.Data.Nat.ModEq

/-!
# Shared counters under interleaving

Threads that add to shared cells, one atomic step at a time.  A step adds the
amount of its task to the task's cell, or leaves all cells alone and is replaced
by another task for the same cell and amount.  Pending tasks run in any order,
those of one thread included, so no order of the memory accesses is relied on.
A cell and what is still owed to it add up to what was issued, modulo the size
of a cell.
-/

namespace Ferrocache

/-- Tasks `τ` on a memory `μ` with cells `κ`. -/
structure Tally (μ τ κ : Type*) where
  exec : μ → τ → μ × Option τ
  value : μ → κ → Nat
  cell : τ → κ
  amount : τ → Nat

namespace Tally

/-- A thread issues its tasks, or a pending task makes a step. -/
inductive Move (τ : Type*)
  | call (tasks : List τ)
  | run (i : Nat)

structure Pool (μ τ : Type*) where
  memory : μ
  pending : List τ

/-- The tasks that a move issues. -/
def Move.issued {τ : Type*} : Move τ → List τ
  | .call tasks => tasks
  | .run _ => []

section Conserved

variable {μ τ κ : Type*} [DecidableEq κ] (T : Tally μ τ κ) (W : Nat)

/-- Every step of a task is one of the two kinds. -/
structure Adds : Prop where
  done : ∀ m t m', T.exec m t = (m', none) → ∀ k,
    T.value m' k ≡ T.value m k + (if T.cell t = k then T.amount t else 0) [MOD W]
  again : ∀ m t m' t', T.exec m t = (m', some t') →
    (∀ k, T.value m' k = T.value m k) ∧ T.cell t' = T.cell t ∧ T.amount t' = T.amount t

def step (p : Pool μ τ) : Move τ → Pool μ τ
  | .call tasks => { p with pending := p.pending ++ tasks }
  | .run i => match p.pending[i]? with
      | none => p
      | some t => match T.exec p.memory t with
          | (m, none) => ⟨m, p.pending.eraseIdx i⟩
          | (m, some t') => ⟨m, p.pending.set i t'⟩

def steps (p : Pool μ τ) (moves : List (Move τ)) : Pool μ τ := moves.foldl T.step p

/-- What the tasks will add to a cell. -/
def owed (tasks : List τ) (k : κ) : Nat :=
  (tasks.map fun t => if T.cell t = k then T.amount t else 0).sum

variable {T}

theorem owed_append (first second : List τ) (k : κ) :
    T.owed (first ++ second) k = T.owed first k + T.owed second k := by
  unfold owed
  rw [List.map_append, List.sum_append]

theorem owed_cons (t : τ) (tasks : List τ) (k : κ) :
    T.owed (t :: tasks) k = (if T.cell t = k then T.amount t else 0) + T.owed tasks k := by
  unfold owed
  rw [List.map_cons, List.sum_cons]

theorem owed_nil (k : κ) : T.owed [] k = 0 := rfl

theorem owed_eq_zero {tasks : List τ} {k : κ} (other : ∀ t ∈ tasks, T.cell t ≠ k) :
    T.owed tasks k = 0 := by
  induction tasks with
  | nil => rfl
  | cons t tasks ih =>
      rw [owed_cons, if_neg (other t List.mem_cons_self), Nat.zero_add]
      exact ih fun t mem => other t (List.mem_cons_of_mem _ mem)

theorem owed_flatMap {ι : Type*} (calls : List ι) (tasks : ι → List τ) (k : κ) :
    T.owed (calls.flatMap tasks) k = (calls.map fun call => T.owed (tasks call) k).sum := by
  induction calls with
  | nil => rfl
  | cons call calls ih => rw [List.flatMap_cons, owed_append, ih, List.map_cons, List.sum_cons]

theorem owed_eraseIdx {tasks : List τ} {i : Nat} {t : τ} (found : tasks[i]? = some t) (k : κ) :
    T.owed tasks k =
      (if T.cell t = k then T.amount t else 0) + T.owed (tasks.eraseIdx i) k := by
  induction tasks generalizing i with
  | nil => cases found
  | cons head tasks ih =>
      cases i with
      | zero =>
          cases found
          exact owed_cons _ _ k
      | succ i =>
          rw [List.eraseIdx_cons_succ, owed_cons, owed_cons, ih found]
          exact Nat.add_left_comm _ _ _

theorem owed_set {tasks : List τ} {i : Nat} {t t' : τ} (found : tasks[i]? = some t)
    (cell : T.cell t' = T.cell t) (amount : T.amount t' = T.amount t) (k : κ) :
    T.owed (tasks.set i t') k = T.owed tasks k := by
  induction tasks generalizing i with
  | nil => cases found
  | cons head tasks ih =>
      cases i with
      | zero =>
          cases found
          rw [List.set_cons_zero, owed_cons, owed_cons, cell, amount]
      | succ i => rw [List.set_cons_succ, owed_cons, owed_cons, ih found]

omit [DecidableEq κ] in
/-- What no task breaks holds after any run. -/
theorem memory_steps {P : μ → Prop} (keeps : ∀ m t, P m → P (T.exec m t).1) {p : Pool μ τ}
    (holds : P p.memory) (moves : List (Move τ)) : P (T.steps p moves).memory := by
  have one : ∀ (p : Pool μ τ) (move : Move τ), P p.memory → P (T.step p move).memory := by
    intro p move holds
    cases move with
    | call tasks => exact holds
    | run i =>
        unfold Tally.step
        dsimp only
        cases p.pending[i]? with
        | none => exact holds
        | some t =>
            have kept := keeps p.memory t holds
            rcases ran : T.exec p.memory t with ⟨m, _ | t'⟩
            · rw [ran] at kept
              simp only [ran]
              exact kept
            · rw [ran] at kept
              simp only [ran]
              exact kept
  induction moves generalizing p with
  | nil => exact holds
  | cons move moves ih => exact ih (one p move holds)

variable {W}

/-- One move. -/
theorem Adds.step (adds : Adds T W) (p : Pool μ τ) (move : Move τ) (k : κ) :
    T.value (T.step p move).memory k + T.owed (T.step p move).pending k ≡
      T.value p.memory k + T.owed p.pending k + T.owed move.issued k [MOD W] := by
  cases move with
  | call tasks =>
      unfold Tally.step Move.issued
      rw [owed_append, Nat.add_assoc]
  | run i =>
      unfold Tally.step Move.issued
      dsimp only
      cases found : p.pending[i]? with
      | none => rfl
      | some t =>
          rcases ran : T.exec p.memory t with ⟨m, _ | t'⟩
          · have added := adds.done p.memory t m ran k
            simp only [ran]
            rw [owed_eraseIdx found, ← Nat.add_assoc]
            exact added.add_right _
          · obtain ⟨same, cell, amount⟩ := adds.again p.memory t m t' ran
            simp only [ran]
            rw [same, owed_set found cell amount]
            rfl

/-- Any run: nothing is lost and nothing is counted twice. -/
theorem Adds.steps (adds : Adds T W) (p : Pool μ τ) (moves : List (Move τ)) (k : κ) :
    T.value (T.steps p moves).memory k + T.owed (T.steps p moves).pending k ≡
      T.value p.memory k + T.owed p.pending k + T.owed (moves.flatMap Move.issued) k [MOD W] := by
  induction moves generalizing p with
  | nil => rfl
  | cons move moves ih =>
      have first := adds.step p move k
      have rest := ih (T.step p move)
      rw [List.flatMap_cons, owed_append, ← Nat.add_assoc]
      exact rest.trans (first.add_right _)

end Conserved

end Tally

end Ferrocache
