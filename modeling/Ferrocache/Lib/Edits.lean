import Mathlib.Data.Set.Function
import Mathlib.Data.Finset.Basic

/-!
# Logs of insertions and deletions

A log of edits over a partial map, where an insertion does nothing to a key that
is bound already.  Two maps that agree outside a set of keys still agree there
after the same edits, and a deletion makes them agree on its key as well: this
is what lets a copy run ahead of the log by deletions.
-/

namespace Ferrocache

/-- One edit of a partial map. -/
inductive Edit (K V : Type*)
  | put (key : K) (value : V)
  | del (key : K)

namespace Edit

variable {K V : Type*} [DecidableEq K]

def apply (map : K → Option V) : Edit K V → K → Option V
  | .put key value, k => if k = key then some ((map k).getD value) else map k
  | .del key, k => if k = key then none else map k

/-- The map after a log. -/
def replay (map : K → Option V) (edits : List (Edit K V)) : K → Option V :=
  edits.foldl apply map

theorem replay_append (map : K → Option V) (first second : List (Edit K V)) :
    replay map (first ++ second) = replay (replay map first) second :=
  List.foldl_append

variable {map map' : K → Option V} {off : Set K}

/-- Maps that agree outside `off` agree there after the same edit. -/
theorem apply_eqOn (agree : Set.EqOn map map' offᶜ) (edit : Edit K V) :
    Set.EqOn (apply map edit) (apply map' edit) offᶜ := by
  intro k outside
  cases edit with
  | put key value =>
      change (if k = key then some ((map k).getD value) else map k) =
        if k = key then some ((map' k).getD value) else map' k
      rw [agree outside]
  | del key =>
      change (if k = key then none else map k) = if k = key then none else map' k
      rw [agree outside]

/-- After a deletion the maps agree on the deleted key too. -/
theorem apply_del_eqOn (agree : Set.EqOn map map' offᶜ) (key : K) :
    Set.EqOn (apply map (.del key)) (apply map' (.del key)) (off \ {key})ᶜ := by
  intro k outside
  change (if k = key then none else map k) = if k = key then none else map' k
  split
  · rfl
  · next other => exact agree fun inside => outside ⟨inside, other⟩

omit [DecidableEq K] in
/-- The map may lose keys if they are added to the exceptions. -/
theorem eqOn_of_loss (agree : Set.EqOn map map' offᶜ) (lost : Set K)
    {less : K → Option V} (kept : ∀ k, k ∉ lost → less k = map k) :
    Set.EqOn less map' (off ∪ lost)ᶜ := by
  intro k outside
  rw [kept k fun inside => outside (.inr inside)]
  exact agree fun inside => outside (.inl inside)

/-- A log of deletions unbinds their keys. -/
theorem replay_del (map : K → Option V) (keys : List K) (k : K) :
    replay map (keys.map .del) k = if k ∈ keys then none else map k := by
  induction keys generalizing map with
  | nil => simp [replay]
  | cons key keys ih =>
      refine (ih (apply map (.del key))).trans ?_
      change (if k ∈ keys then none else if k = key then none else map k) = _
      by_cases later : k ∈ keys
      · simp [later]
      · simp [later]

/-- A log of insertions keeps what is bound and binds a new key to its first
value. -/
theorem replay_put (map : K → Option V) (bindings : List (K × V)) (k : K) :
    replay map (bindings.map fun b => .put b.1 b.2) k =
      (map k).or ((bindings.find? fun b => b.1 = k).map Prod.snd) := by
  induction bindings generalizing map with
  | nil => simp [replay]
  | cons b bindings ih =>
      refine (ih (apply map (.put b.1 b.2))).trans ?_
      by_cases same : k = b.1
      · subst same
        cases bound : map b.1 with
        | none => simp [apply, bound]
        | some v => simp [apply, bound]
      · simp [apply, same, Ne.symm same]

/-- Loading the bindings of a map, in any order, gives the map back. -/
theorem replay_bindings {bindings : List (K × V)} (sound : ∀ b ∈ bindings, map b.1 = some b.2)
    (complete : ∀ k, map k ≠ none → ∃ v, (k, v) ∈ bindings) :
    replay (fun _ => none) (bindings.map fun b => .put b.1 b.2) = map := by
  funext k
  rw [replay_put, Option.none_or]
  cases first : bindings.find? fun b => b.1 = k with
  | some b =>
      have named : b.1 = k := by simpa using List.find?_some first
      rw [← named, sound b (List.mem_of_find?_eq_some first)]
      rfl
  | none =>
      by_contra bound
      obtain ⟨v, mem⟩ := complete k fun absent => bound (by rw [absent]; rfl)
      have missing := List.find?_eq_none.mp first (k, v) mem
      simp at missing

end Edit

end Ferrocache
