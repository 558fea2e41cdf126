import Mathlib.Data.List.Basic

/-!
# Words of a list

The words of a list are its longest runs without a separator: the pieces between
separators that are not empty.  A separator cuts the list into two
(`words_append_cons`), so the words of a list that was joined from words with a
separator in between are these words again (`words_intercalate`).
-/

namespace List

variable {A : Type} {p : A → Bool}

/-- Not empty, and without a separator. -/
def IsWord (p : A → Bool) (w : List A) : Prop := w ≠ [] ∧ ∀ a ∈ w, p a = false

/-- The non-empty pieces between separators. -/
def words [DecidableEq A] (p : A → Bool) (l : List A) : List (List A) :=
  (l.splitOnP p).filter (· ≠ [])

variable [DecidableEq A]

theorem words_append_cons (before after : List A) {a : A} (separates : p a = true) :
    words p (before ++ a :: after) = words p before ++ words p after := by
  unfold words
  rw [splitOnP_append_cons before after separates, filter_append]

theorem words_cons_of_separator {a : A} (separates : p a = true) (l : List A) :
    words p (a :: l) = words p l :=
  words_append_cons [] l separates

theorem words_of_isWord {w : List A} (word : IsWord p w) : words p w = [w] := by
  unfold words
  rw [splitOnP_eq_singleton word.2]
  exact filter_cons_of_pos (decide_eq_true word.1)

/-- An element that is no separator begins the first word or continues it. -/
theorem words_cons_ne_nil {a : A} (inside : p a = false) (l : List A) : words p (a :: l) ≠ [] := by
  obtain ⟨first, rest, pieces⟩ := exists_cons_of_ne_nil (splitOnP_ne_nil p l)
  unfold words
  rw [splitOnP_cons_eq_if_modifyHead, inside, if_neg Bool.false_ne_true, pieces, modifyHead_cons]
  simp

/-- A list has no words if it has separators only. -/
theorem words_eq_nil {l : List A} : words p l = [] ↔ ∀ a ∈ l, p a = true := by
  induction l with
  | nil => exact iff_of_true rfl fun a mem => absurd mem not_mem_nil
  | cons a l ih =>
      cases inside : p a with
      | true =>
          rw [words_cons_of_separator inside, ih, forall_mem_cons, inside]
          simp only [true_and]
      | false =>
          refine iff_of_false (words_cons_ne_nil inside l) fun separators => ?_
          rw [separators a mem_cons_self] at inside
          cases inside

omit [DecidableEq A] in
theorem notMem_separator_of_mem_splitOnP {l w : List A} (mem : w ∈ l.splitOnP p) :
    ∀ a ∈ w, p a = false := by
  induction l generalizing w with
  | nil =>
      rw [splitOnP_nil, mem_singleton] at mem
      subst mem
      exact fun a inside => absurd inside not_mem_nil
  | cons a l ih =>
      rw [splitOnP_cons_eq_if_modifyHead] at mem
      split at mem
      case isTrue separates =>
        rcases mem_cons.mp mem with rfl | later
        · exact fun b inside => absurd inside not_mem_nil
        · exact ih later
      case isFalse inside =>
        obtain ⟨first, rest, pieces⟩ := exists_cons_of_ne_nil (splitOnP_ne_nil p l)
        rw [pieces, modifyHead_cons] at mem
        rw [pieces] at ih
        rcases mem_cons.mp mem with rfl | later
        · exact forall_mem_cons.mpr ⟨Bool.eq_false_iff.mpr inside, ih mem_cons_self⟩
        · exact ih (mem_cons_of_mem first later)

theorem isWord_of_mem_words {l w : List A} (mem : w ∈ words p l) : IsWord p w := by
  obtain ⟨piece, kept⟩ := mem_filter.mp mem
  exact ⟨of_decide_eq_true kept, notMem_separator_of_mem_splitOnP piece⟩

/-- Words joined by a separator are read back. -/
theorem words_intercalate {a : A} (separates : p a = true) {ws : List (List A)}
    (all : ∀ w ∈ ws, IsWord p w) : words p ([a].intercalate ws) = ws := by
  induction ws with
  | nil => exact words_eq_nil.mpr fun b mem => absurd mem not_mem_nil
  | cons w ws ih =>
      obtain ⟨word, all⟩ := forall_mem_cons.mp all
      cases ws with
      | nil =>
          rw [intercalate_singleton]
          exact words_of_isWord word
      | cons w' ws =>
          rw [intercalate_cons_cons, append_assoc, singleton_append,
            words_append_cons w _ separates, words_of_isWord word, ih all, singleton_append]

end List
