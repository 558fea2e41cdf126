import Mathlib.Algebra.Ring.Parity
import Mathlib.Data.List.DropRight

/-!
# Escaped texts

An escape scheme replaces each of some characters by a marker and a letter.  The
marker itself is among them, so a text is read back by one scan from left to
right that knows whether the last character was a marker (`scan`).  The scan of
an escaped text goes through it without stopping, whatever follows
(`scan_encode`), which gives both that the text is decoded and that a quoted text
ends where it was closed.
-/

theorem List.length_rtakeWhile_append {A : Type} (p : A → Bool) (front back : List A) :
    ((front ++ back).rtakeWhile p).length =
      if (back.rtakeWhile p).length = back.length then back.length + (front.rtakeWhile p).length
      else (back.rtakeWhile p).length := by
  unfold List.rtakeWhile
  rw [List.reverse_append, List.takeWhile_append]
  simp only [List.length_reverse]
  split
  · rw [List.length_append, List.length_reverse]
  · rfl

/-- The characters to escape with their letters, and the way back. -/
structure Escape (A : Type) where
  marker : A
  /-- The letter that stands for an escaped character. -/
  code : A → Option A
  /-- The character a letter stands for. -/
  plain : A → Option A
  plain_of_code : ∀ {a d}, code a = some d → plain d = some a
  code_marker : code marker ≠ none

namespace Escape

variable {A : Type} (e : Escape A)

def encodeOne (a : A) : List A :=
  match e.code a with
  | some d => [e.marker, d]
  | none => [a]

def encode (s : List A) : List A := s.flatMap e.encodeOne

section

variable {e}

theorem encodeOne_of_code {a d : A} (coded : e.code a = some d) :
    e.encodeOne a = [e.marker, d] := by
  unfold encodeOne
  rw [coded]

theorem encodeOne_of_plain {a : A} (kept : e.code a = none) : e.encodeOne a = [a] := by
  unfold encodeOne
  rw [kept]

theorem ne_marker_of_plain {a : A} (kept : e.code a = none) : a ≠ e.marker := by
  intro marker
  subst marker
  exact e.code_marker kept

theorem encode_cons (a : A) (s : List A) : e.encode (a :: s) = e.encodeOne a ++ e.encode s :=
  List.flatMap_cons

/-- What is neither the marker nor a letter and is escaped does not occur. -/
theorem notMem_encode {a : A} (coded : e.code a ≠ none) (other : a ≠ e.marker)
    (letter : e.plain a = none) (s : List A) : a ∉ e.encode s := by
  intro mem
  obtain ⟨b, _, listed⟩ := List.mem_flatMap.mp mem
  cases found : e.code b with
  | some d =>
    rw [encodeOne_of_code found, List.mem_cons, List.mem_singleton] at listed
    rcases listed with marker | same
    · exact other marker
    · subst same
      rw [e.plain_of_code found] at letter
      cases letter
  | none =>
    rw [encodeOne_of_plain found, List.mem_singleton] at listed
    subst listed
    exact coded found

end

variable [DecidableEq A]

/-- Reads up to the end or to the first stop that is not escaped, and returns
what it has read with the rest.  The flag says that a marker was just read. -/
def scan (stop : A → Bool) : Bool → List A → Option (List A × List A)
  | false, [] => some ([], [])
  | true, [] => none
  | true, d :: rest => do
      let a ← e.plain d
      let (s, after) ← scan stop false rest
      return (a :: s, after)
  | false, a :: rest =>
      if a = e.marker then scan stop true rest
      else if stop a then some ([], a :: rest)
      else do
        let (s, after) ← scan stop false rest
        return (a :: s, after)

/-- The text whose encoding this is. -/
def decode (s : List A) : Option (List A) :=
  (e.scan (fun _ => false) false s).map Prod.fst

/-- Reads a quoted text after its opening quote. -/
def readQuoted (quote : A) (s : List A) : Option (List A × List A) :=
  match e.scan (· = quote) false s with
  | some (text, a :: after) => if a = quote then some (text, after) else none
  | _ => none

variable {e}

/-- A scan for escaped characters passes through an encoding. -/
theorem scan_encode {stop : A → Bool} (escaped : ∀ a, stop a = true → e.code a ≠ none)
    (s tail : List A) :
    e.scan stop false (e.encode s ++ tail) =
      (e.scan stop false tail).map fun r => (s ++ r.1, r.2) := by
  induction s with
  | nil => exact Option.map_id'.symm
  | cons a s ih =>
    rw [encode_cons, List.append_assoc]
    cases coded : e.code a with
    | some d =>
      rw [encodeOne_of_code coded]
      show (if e.marker = e.marker then e.scan stop true (d :: (e.encode s ++ tail)) else _) = _
      rw [if_pos rfl, scan, e.plain_of_code coded, ih]
      cases e.scan stop false tail with
      | none => rfl
      | some r => rfl
    | none =>
      have passes : ¬ stop a = true := fun stops => escaped a stops coded
      rw [encodeOne_of_plain coded]
      show e.scan stop false (a :: (e.encode s ++ tail)) = _
      rw [scan, if_neg (ne_marker_of_plain coded), if_neg passes, ih]
      cases e.scan stop false tail with
      | none => rfl
      | some r => rfl

theorem decode_encode (s : List A) : e.decode (e.encode s) = some s := by
  have through : e.scan (fun _ => false) false (e.encode s ++ []) =
      (e.scan (fun _ => false) false []).map fun r => (s ++ r.1, r.2) :=
    scan_encode (fun _ stops => by cases stops) s []
  rw [List.append_nil] at through
  unfold decode
  rw [through]
  show some (s ++ []) = some s
  rw [List.append_nil]

/-- A quoted text ends at the quote that closes it. -/
theorem readQuoted_encode {quote : A} (coded : e.code quote ≠ none) (other : quote ≠ e.marker)
    (s rest : List A) : e.readQuoted quote (e.encode s ++ quote :: rest) = some (s, rest) := by
  have escaped : ∀ a, decide (a = quote) = true → e.code a ≠ none := by
    intro a same
    rw [of_decide_eq_true same]
    exact coded
  have closed : e.scan (· = quote) false (quote :: rest) = some ([], quote :: rest) := by
    rw [scan, if_neg other, if_pos (decide_eq_true rfl)]
  unfold readQuoted
  rw [scan_encode escaped, closed, Option.map_some, List.append_nil]
  exact if_pos rfl

/-! ## Markers before an escaped character -/

variable (e) in
/-- The number of markers at the end of a text. -/
def trailing (s : List A) : Nat := (s.rtakeWhile (· = e.marker)).length

theorem even_trailing_encodeOne (a : A) : Even (e.trailing (e.encodeOne a)) := by
  unfold trailing
  cases coded : e.code a with
  | some d =>
    rw [encodeOne_of_code coded]
    by_cases marker : d = e.marker
    · simp [List.rtakeWhile, marker]
    · simp [List.rtakeWhile, marker]
  | none =>
    rw [encodeOne_of_plain coded]
    simp [List.rtakeWhile, ne_marker_of_plain coded]

theorem odd_trailing_append {front back : List A} (even : Even (e.trailing front))
    (odd : Odd (e.trailing back)) : Odd (e.trailing (front ++ back)) := by
  unfold trailing at *
  rw [List.length_rtakeWhile_append]
  split
  · next all =>
    rw [all] at odd
    exact odd.add_even even
  · exact odd

theorem odd_trailing_of_encodeOne {a c : A} (coded : e.code a ≠ none) (other : a ≠ e.marker)
    {before after : List A} (cut : e.encodeOne c = before ++ a :: after) :
    Odd (e.trailing before) := by
  cases found : e.code c with
  | some d =>
    rw [encodeOne_of_code found] at cut
    rcases before with _ | ⟨x, _ | ⟨y, before⟩⟩
    · exact absurd (List.cons.inj cut).1.symm other
    · have marker : e.marker = x := (List.cons.inj cut).1
      subst marker
      simp [trailing, List.rtakeWhile]
    · simp at cut
  | none =>
    rw [encodeOne_of_plain found] at cut
    rcases before with _ | ⟨x, before⟩
    · have same : c = a := (List.cons.inj cut).1
      subst same
      exact absurd found coded
    · simp at cut

/-- An escaped character stands after an odd number of markers. -/
theorem odd_trailing_of_encode {a : A} (coded : e.code a ≠ none) (other : a ≠ e.marker)
    {s before after : List A} (cut : e.encode s = before ++ a :: after) :
    Odd (e.trailing before) := by
  -- The induction is on the text; the cut falls into the encoding of the first
  -- character or after it.
  induction s generalizing before with
  | nil => exact absurd cut.symm (List.append_ne_nil_of_right_ne_nil _ (List.cons_ne_nil _ _))
  | cons c s ih =>
    rw [encode_cons] at cut
    rcases List.append_eq_append_iff.mp cut with ⟨mid, rfl, later⟩ | ⟨mid, inside, rest⟩
    · exact odd_trailing_append (even_trailing_encodeOne c) (ih later)
    · cases mid with
      | nil =>
        have first : Odd (e.trailing []) := ih rest.symm
        have zero : e.trailing [] = 0 := rfl
        rw [zero] at first
        exact absurd first (by decide)
      | cons b mid =>
        have same : a = b := (List.cons.inj rest).1
        subst same
        exact odd_trailing_of_encodeOne coded other inside

end Escape
