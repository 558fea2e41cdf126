import Ferrocache.Lib.Words
import Ferrocache.Text

/-!
# The key of a text

`normalize_query_text` joins the lowercased words of a text with single spaces.
The index, the removal of an entry and the query path each compute this key
anew.  Two texts have the same key exactly when they have the same words up to
case, and the key of a key is the key itself.

Lowercasing is a parameter.  What is used of it is that it maps words to words
and that it does nothing to a word twice (`LowersWords`).
-/

namespace Ferrocache

/-- Not empty, and without whitespace. -/
def IsWord (w : String) : Prop := w.toList.IsWord isWhitespace

/-- Lowercasing as the key needs it. -/
structure LowersWords (lower : String → String) : Prop where
  idempotent : ∀ w, IsWord w → lower (lower w) = lower w
  word : ∀ w, IsWord w → IsWord (lower w)

/-- The formula of the documentation: lowercasing after joining. -/
def documentedKey [Platform] (text : String) : String :=
  Platform.toLowercase (" ".intercalate (splitWhitespace text))

/-! ## Splitting and joining -/

theorem isWord_of_mem_splitWhitespace {text w : String} (mem : w ∈ splitWhitespace text) :
    IsWord w := by
  obtain ⟨chars, listed, rfl⟩ := List.mem_map.mp mem
  unfold IsWord
  rw [String.toList_ofList]
  exact List.isWord_of_mem_words listed

/-- The words of a joined text are the words it was joined from. -/
theorem splitWhitespace_intercalate {words : List String} (all : ∀ w ∈ words, IsWord w) :
    splitWhitespace (" ".intercalate words) = words := by
  have chars : (List.words isWhitespace (" ".intercalate words).toList) =
      words.map String.toList := by
    rw [String.toList_intercalate]
    refine List.words_intercalate rfl fun w mem => ?_
    obtain ⟨word, listed, rfl⟩ := List.mem_map.mp mem
    exact all word listed
  have read : splitWhitespace (" ".intercalate words) =
      (List.words isWhitespace (" ".intercalate words).toList).map String.ofList := rfl
  rw [read, chars, List.map_map]
  have same : String.ofList ∘ String.toList = id := funext fun w => String.ofList_toList
  rw [same, List.map_id]

/-- A text without words is blank. -/
theorem splitWhitespace_eq_nil {text : String} : splitWhitespace text = [] ↔ isBlank text := by
  unfold splitWhitespace isBlank
  rw [List.map_eq_nil_iff, List.all_eq_true]
  exact List.words_eq_nil

/-! ## The key -/

section Key

variable [Platform]

theorem LowersWords.map (lowers : LowersWords Platform.toLowercase) (text : String) :
    ∀ w ∈ (splitWhitespace text).map Platform.toLowercase, IsWord w := by
  intro w mem
  obtain ⟨word, listed, rfl⟩ := List.mem_map.mp mem
  exact lowers.word word (isWord_of_mem_splitWhitespace listed)

/-- The words of a key are the lowercased words of the text. -/
theorem splitWhitespace_normalizeQueryText (lowers : LowersWords Platform.toLowercase)
    (text : String) : splitWhitespace (normalizeQueryText text) =
      (splitWhitespace text).map Platform.toLowercase :=
  splitWhitespace_intercalate (lowers.map text)

theorem normalizeQueryText_idempotent (lowers : LowersWords Platform.toLowercase)
    (text : String) : normalizeQueryText (normalizeQueryText text) = normalizeQueryText text := by
  have again : ((splitWhitespace text).map Platform.toLowercase).map Platform.toLowercase =
      (splitWhitespace text).map Platform.toLowercase := by
    rw [List.map_map]
    refine List.map_congr_left fun w mem => ?_
    exact lowers.idempotent w (isWord_of_mem_splitWhitespace mem)
  have key : normalizeQueryText (normalizeQueryText text) =
      " ".intercalate ((splitWhitespace (normalizeQueryText text)).map Platform.toLowercase) := rfl
  rw [key, splitWhitespace_normalizeQueryText lowers, again]
  rfl

theorem normalizeQueryText_eq_iff (lowers : LowersWords Platform.toLowercase) (a b : String) :
    normalizeQueryText a = normalizeQueryText b ↔
      (splitWhitespace a).map Platform.toLowercase =
        (splitWhitespace b).map Platform.toLowercase := by
  constructor
  · intro same
    rw [← splitWhitespace_normalizeQueryText lowers, same,
      splitWhitespace_normalizeQueryText lowers]
  · intro same
    unfold normalizeQueryText
    rw [same]

theorem normalizeQueryText_eq_empty (lowers : LowersWords Platform.toLowercase) (text : String) :
    normalizeQueryText text = "" ↔ isBlank text := by
  have empty : normalizeQueryText "" = "" := rfl
  rw [← empty, normalizeQueryText_eq_iff lowers, ← splitWhitespace_eq_nil]
  exact List.map_eq_nil_iff

/-- The key is canonical: equal keys are equal words, a key is its own key, only
blank texts have the empty key, and where lowercasing distributes over the joined
words the key is the documented one. -/
theorem normalization_canonical (lowers : LowersWords Platform.toLowercase) :
    (∀ a b, normalizeQueryText a = normalizeQueryText b ↔
      (splitWhitespace a).map Platform.toLowercase =
        (splitWhitespace b).map Platform.toLowercase) ∧
    (∀ a, normalizeQueryText (normalizeQueryText a) = normalizeQueryText a) ∧
    (∀ a, normalizeQueryText a = "" ↔ isBlank a) ∧
    ((∀ words : List String, (∀ w ∈ words, IsWord w) →
        Platform.toLowercase (" ".intercalate words) =
          " ".intercalate (words.map Platform.toLowercase)) →
      ∀ a, normalizeQueryText a = documentedKey a) := by
  refine ⟨normalizeQueryText_eq_iff lowers, normalizeQueryText_idempotent lowers,
    normalizeQueryText_eq_empty lowers, fun distributes a => ?_⟩
  exact (distributes _ fun w mem => isWord_of_mem_splitWhitespace mem).symm

end Key

section Example

/-! ASCII lowercasing maps words to words. -/

local instance canonicalExamplePlatform : Platform := Platform.sample

theorem isWhitespace_of_printable {c : Char} (low : 0x20 < c.toNat) (high : c.toNat < 0x85) :
    isWhitespace c = false := by
  unfold isWhitespace
  simp only [Bool.or_eq_false_iff, Bool.and_eq_false_iff, decide_eq_false_iff_not,
    beq_eq_false_iff_ne]
  omega

theorem toLower_cases (c : Char) :
    c.toLower = c ∨ (65 ≤ c.toNat ∧ c.toNat ≤ 90 ∧ c.toLower.toNat = c.toNat + 32) := by
  unfold Char.toLower
  by_cases upper : c.val ≥ 'A'.val ∧ c.val ≤ 'Z'.val
  · have low : 65 ≤ c.val.toNat := upper.1
    have high : c.val.toNat ≤ 90 := upper.2
    rw [dif_pos upper]
    refine .inr ⟨low, high, ?_⟩
    show (c.val + 32).toNat = c.val.toNat + 32
    rw [UInt32.toNat_add]
    refine Nat.mod_eq_of_lt ?_
    show c.val.toNat + 32 < 2 ^ 32
    omega
  · rw [dif_neg upper]
    exact .inl rfl

theorem isWhitespace_toLower (c : Char) : isWhitespace c.toLower = isWhitespace c := by
  rcases toLower_cases c with same | ⟨low, high, lower⟩
  · rw [same]
  · rw [isWhitespace_of_printable (by omega) (by omega),
      isWhitespace_of_printable (by omega) (by omega)]

theorem toLower_toLower (c : Char) : c.toLower.toLower = c.toLower := by
  rcases toLower_cases c with same | ⟨low, high, lower⟩
  · rw [same, same]
  · rcases toLower_cases c.toLower with again | ⟨_, above, _⟩
    · exact again
    · omega

theorem lowersWords_sample : LowersWords Platform.toLowercase where
  idempotent := by
    intro w _
    show String.ofList ((String.ofList (w.toList.map Char.toLower)).toList.map Char.toLower) =
      String.ofList (w.toList.map Char.toLower)
    rw [String.toList_ofList, List.map_map]
    congr 1
    exact List.map_congr_left fun c _ => toLower_toLower c
  word := by
    intro w word
    show (String.ofList (w.toList.map Char.toLower)).toList.IsWord isWhitespace
    rw [String.toList_ofList]
    refine ⟨?_, ?_⟩
    · exact fun empty => word.1 (List.map_eq_nil_iff.mp empty)
    · intro c mem
      obtain ⟨d, listed, rfl⟩ := List.mem_map.mp mem
      rw [isWhitespace_toLower]
      exact word.2 d listed

theorem toLowercase_append (a b : String) :
    Platform.toLowercase (a ++ b) = Platform.toLowercase a ++ Platform.toLowercase b := by
  show String.ofList ((a ++ b).toList.map Char.toLower) =
    String.ofList (a.toList.map Char.toLower) ++ String.ofList (b.toList.map Char.toLower)
  rw [String.toList_append, List.map_append, String.ofList_append]

theorem toLowercase_intercalate (words : List String) :
    Platform.toLowercase (" ".intercalate words) =
      " ".intercalate (words.map Platform.toLowercase) := by
  induction words with
  | nil => rfl
  | cons w rest ih =>
    cases rest with
    | nil => simp only [String.intercalate_singleton, List.map_cons, List.map_nil]
    | cons next rest =>
      have space : Platform.toLowercase " " = " " := rfl
      rw [String.intercalate_cons_cons, toLowercase_append, toLowercase_append, ih, space]
      simp only [List.map_cons, String.intercalate_cons_cons]

theorem normalization_canonical_sample :
    normalizeQueryText "  What is\tTHE " = normalizeQueryText "what  IS the" ∧
    normalizeQueryText (normalizeQueryText " What  IS") = normalizeQueryText " What  IS" ∧
    normalizeQueryText " \t\n" = "" ∧
    normalizeQueryText " What  IS" = documentedKey " What  IS" := by
  obtain ⟨same, idempotent, empty, documented⟩ := normalization_canonical lowersWords_sample
  refine ⟨(same _ _).mpr (by decide), idempotent _, (empty _).mpr (by decide), ?_⟩
  exact documented (fun words _ => toLowercase_intercalate words) _

end Example

end Ferrocache
