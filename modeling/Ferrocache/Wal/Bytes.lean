import Ferrocache.Text
import Mathlib.Data.List.TakeWhile

/-!
# The WAL file as bytes

The log is read back line by line (`Wal::replay`): the reader fails on a line
that is not valid UTF-8, a blank line is skipped, and a line that does not
decode is skipped with a warning.  The flush task appends a batch as one block
of newline-terminated lines without looking at what the file ends with.  A
batch therefore comes back whole exactly when the file it was appended to had
only readable lines and no text after its last newline
(`batch_survives_iff_appendable`).

`serde_json` is a parameter: `LineCodec` with the documented behaviour that the
log relies on, `LineCodec.Lawful`.
-/

namespace Ferrocache

abbrev Bytes := List UInt8

/-! ## UTF-8 -/

def isContinuation (b : UInt8) : Bool := 0x80 ≤ b && b ≤ 0xBF

/-- Well-formed three-byte sequences: no overlong forms, no surrogates. -/
def isThreeBytes (a b c : UInt8) : Bool :=
  isContinuation c &&
    ((a == 0xE0 && 0xA0 ≤ b && b ≤ 0xBF) || (0xE1 ≤ a && a ≤ 0xEC && isContinuation b) ||
      (a == 0xED && 0x80 ≤ b && b ≤ 0x9F) || (0xEE ≤ a && a ≤ 0xEF && isContinuation b))

/-- Well-formed four-byte sequences: no overlong forms, at most `U+10FFFF`. -/
def isFourBytes (a b c d : UInt8) : Bool :=
  isContinuation c && isContinuation d &&
    ((a == 0xF0 && 0x90 ≤ b && b ≤ 0xBF) || (0xF1 ≤ a && a ≤ 0xF3 && isContinuation b) ||
      (a == 0xF4 && 0x80 ≤ b && b ≤ 0x8F))

/-- The characters of a valid UTF-8 text; `none` on an invalid one. -/
def decodeUtf8 : Bytes → Option (List Char)
  | [] => some []
  | a :: s₁ =>
    if a < 0x80 then (decodeUtf8 s₁).map (Char.ofNat a.toNat :: ·)
    else
      match s₁ with
      | [] => none
      | b :: s₂ =>
        if 0xC2 ≤ a && a ≤ 0xDF && isContinuation b then
          (decodeUtf8 s₂).map (Char.ofNat (a.toNat % 32 * 64 + b.toNat % 64) :: ·)
        else
          match s₂ with
          | [] => none
          | c :: s₃ =>
            if isThreeBytes a b c then
              (decodeUtf8 s₃).map
                (Char.ofNat (a.toNat % 16 * 4096 + b.toNat % 64 * 64 + c.toNat % 64) :: ·)
            else
              match s₃ with
              | [] => none
              | d :: s₄ =>
                if isFourBytes a b c d then
                  (decodeUtf8 s₄).map (Char.ofNat (a.toNat % 8 * 262144 + b.toNat % 64 * 4096 +
                    c.toNat % 64 * 64 + d.toNat % 64) :: ·)
                else none

theorem decodeUtf8_ascii {a : UInt8} (ascii : a < 0x80) (s : Bytes) :
    decodeUtf8 (a :: s) = (decodeUtf8 s).map (Char.ofNat a.toNat :: ·) := by
  rw [decodeUtf8.eq_def]
  exact if_pos ascii

/-- Valid UTF-8 after an ASCII prefix is valid with that prefix. -/
theorem decodeUtf8_append_ascii {t s : Bytes} {text : List Char}
    (ascii : ∀ a ∈ t, a < 0x80) (valid : decodeUtf8 s = some text) :
    decodeUtf8 (t ++ s) = some (t.map (fun a => Char.ofNat a.toNat) ++ text) := by
  induction t with
  | nil => exact valid
  | cons a t ih =>
      have rest := ih fun b mem => ascii b (List.mem_cons_of_mem _ mem)
      rw [List.cons_append, decodeUtf8_ascii (ascii a List.mem_cons_self), rest]
      rfl

/-! ## Lines -/

def newline : UInt8 := 0x0A

/-- The complete lines of a file and the text after its last newline. -/
def splitLines : Bytes → List Bytes × Bytes
  | [] => ([], [])
  | b :: bs =>
    let (lines, rest) := splitLines bs
    if b = newline then ([] :: lines, rest)
    else
      match lines with
      | [] => ([], b :: rest)
      | l :: ls => ((b :: l) :: ls, rest)

/-- Newline-terminated lines, one after the other. -/
def joinLines (lines : List Bytes) : Bytes := lines.flatMap (· ++ [newline])

/-- A file is its complete lines followed by its unterminated rest. -/
theorem joinLines_splitLines (w : Bytes) :
    joinLines (splitLines w).1 ++ (splitLines w).2 = w := by
  induction w with
  | nil => rfl
  | cons b w ih =>
      unfold splitLines
      rcases cut : splitLines w with ⟨_ | ⟨l, ls⟩, rest⟩
      · rw [cut] at ih
        simp only [joinLines, List.flatMap_nil, List.nil_append] at ih
        by_cases eol : b = newline
        · simp [eol, joinLines, ih]
        · simp [eol, joinLines, ih]
      · rw [cut] at ih
        simp only [joinLines, List.flatMap_cons, List.append_assoc, List.cons_append,
          List.nil_append] at ih
        by_cases eol : b = newline
        · simp [eol, joinLines, ih]
        · simp [eol, joinLines, ih]

theorem newline_notMem_splitLines (w : Bytes) :
    (∀ l ∈ (splitLines w).1, newline ∉ l) ∧ newline ∉ (splitLines w).2 := by
  induction w with
  | nil => simp [splitLines]
  | cons b w ih =>
      unfold splitLines
      rcases cut : splitLines w with ⟨_ | ⟨l, ls⟩, rest⟩
      · rw [cut] at ih
        by_cases eol : b = newline
        · simpa [eol] using ih
        · simpa [eol, Ne.symm eol] using ih
      · rw [cut] at ih
        by_cases eol : b = newline
        · simpa [eol] using ih
        · simpa [eol, Ne.symm eol] using ih

theorem splitLines_of_notMem {t : Bytes} (plain : newline ∉ t) : splitLines t = ([], t) := by
  induction t with
  | nil => rfl
  | cons b t ih =>
      have other : b ≠ newline := fun same => plain (same ▸ List.mem_cons_self)
      unfold splitLines
      rw [ih fun mem => plain (List.mem_cons_of_mem _ mem)]
      simp [other]

theorem splitLines_line {l : Bytes} (plain : newline ∉ l) (s : Bytes) :
    splitLines (l ++ newline :: s) = (l :: (splitLines s).1, (splitLines s).2) := by
  induction l with
  | nil => simp [splitLines]
  | cons b l ih =>
      have other : b ≠ newline := fun same => plain (same ▸ List.mem_cons_self)
      rw [List.cons_append, splitLines, ih fun mem => plain (List.mem_cons_of_mem _ mem)]
      simp [other]

theorem splitLines_joinLines {lines : List Bytes} (plain : ∀ l ∈ lines, newline ∉ l)
    (s : Bytes) : splitLines (joinLines lines ++ s) =
      (lines ++ (splitLines s).1, (splitLines s).2) := by
  induction lines with
  | nil => simp [joinLines]
  | cons l ls ih =>
      have rest := ih fun k mem => plain k (List.mem_cons_of_mem _ mem)
      have unfolded : joinLines (l :: ls) ++ s = l ++ newline :: (joinLines ls ++ s) := by
        simp [joinLines]
      rw [unfolded, splitLines_line (plain l List.mem_cons_self), rest]
      rfl

/-- Appending lines to a file joins the first of them to its unterminated rest. -/
theorem splitLines_append_joinLines (w l : Bytes) (ls : List Bytes) (plain : newline ∉ l)
    (plains : ∀ k ∈ ls, newline ∉ k) :
    splitLines (w ++ joinLines (l :: ls)) =
      ((splitLines w).1 ++ ((splitLines w).2 ++ l) :: ls, []) := by
  obtain ⟨lines, rest⟩ := newline_notMem_splitLines w
  have merged : newline ∉ (splitLines w).2 ++ l := fun mem =>
    (List.mem_append.mp mem).elim rest plain
  have shape : w ++ joinLines (l :: ls) =
      joinLines ((splitLines w).1 ++ ((splitLines w).2 ++ l) :: ls) ++ [] := by
    conv_lhs => rw [← joinLines_splitLines w]
    simp [joinLines]
  rw [shape, splitLines_joinLines, splitLines_of_notMem (List.not_mem_nil)]
  · simp
  · intro k mem
    rcases List.mem_append.mp mem with old | new
    · exact lines k old
    · rcases List.mem_cons.mp new with rfl | later
      · exact merged
      · exact plains k later

/-! ## Reading the log back -/

/-- `serde_json` on log lines: `to_vec`, and `from_str` with its error
forgotten. -/
structure LineCodec : Type where
  encode : WalEntry → Bytes
  decode : Bytes → Option WalEntry

/-- The whitespace of JSON. -/
def isJsonSpace (b : UInt8) : Bool := b == 0x20 || b == 0x09 || b == 0x0A || b == 0x0D

/-- What the log relies on for one entry.  `serde_json` writes an object on one
line; it writes a float that is not finite as `null`, which is no `f32` when
read back; and no text but whitespace may stand before the object. -/
structure LineCodec.Lawful (codec : LineCodec) (entry : WalEntry) : Prop where
  oneLine : newline ∉ codec.encode entry
  utf8 : (decodeUtf8 (codec.encode entry)).isSome
  braces : ∃ body, codec.encode entry = 0x7B :: (body ++ [0x7D])
  decode_encode : codec.decode (codec.encode entry) = if entry.isFinite then some entry else none
  decode_append : ∀ before, newline ∉ before → codec.decode (before ++ codec.encode entry) =
    if before.all isJsonSpace then codec.decode (codec.encode entry) else none

/-- `String::from_utf8` on the bytes of a line. -/
def readLine (line : Bytes) : Except String Bytes :=
  if (decodeUtf8 line).isSome then .ok line else .error "WAL read failed"

/-- The carriage return that `next_line` drops with the newline. -/
def chomp (line : Bytes) : Bytes := if line.getLast? = some 0x0D then line.dropLast else line

/-- `next_line` until the end of the file: complete lines, then an unterminated
one if there is any. -/
def readLines (file : Bytes) : Except String (List Bytes) := do
  let lines ← (splitLines file).1.mapM readLine
  if (splitLines file).2 = [] then return lines.map chomp
  else return lines.map chomp ++ [← readLine (splitLines file).2]

/-- A blank line and a line that does not decode are both skipped. -/
def LineCodec.replayLine (codec : LineCodec) (line : Bytes) : Option WalEntry := do
  let text ← decodeUtf8 line
  if isBlank (String.ofList text) then none else codec.decode line

/-- `Wal::replay` on the bytes of an existing file. -/
def LineCodec.replay (codec : LineCodec) (file : Bytes) : Except String (List WalEntry) := do
  let lines ← readLines file
  return lines.filterMap codec.replayLine

/-- The block that the flush task hands to `write_batch_bytes`. -/
def LineCodec.batchBytes (codec : LineCodec) (batch : List WalEntry) : Bytes :=
  joinLines (batch.map codec.encode)

/-- Reading back the file returns every entry of the batch, in order. -/
def LineCodec.Survives (codec : LineCodec) (file : Bytes) (batch : List WalEntry) : Prop :=
  ∃ out, codec.replay (file ++ codec.batchBytes batch) = .ok out ∧ batch.Sublist out

/-- Every complete line is readable, and nothing but whitespace stands after the
last newline. -/
def Appendable (file : Bytes) : Prop :=
  (∀ line ∈ (splitLines file).1, (decodeUtf8 line).isSome) ∧
    (splitLines file).2.all isJsonSpace = true

instance (file : Bytes) : Decidable (Appendable file) :=
  inferInstanceAs (Decidable (_ ∧ _))

/-! ## When a batch survives -/

/-- The reader stops at the first line that is not valid UTF-8. -/
theorem mapM_readLine (lines : List Bytes) :
    lines.mapM readLine =
      if lines.any fun line => (decodeUtf8 line).isNone then .error "WAL read failed"
      else .ok lines := by
  induction lines with
  | nil => rfl
  | cons line lines ih =>
      rw [List.mapM_cons, ih, readLine, List.any_cons]
      cases decodeUtf8 line with
      | none => rfl
      | some text =>
          simp only [Option.isSome_some, if_true, Option.isNone_some, Bool.false_or]
          split
          · rfl
          · rfl

section Laws

variable {codec : LineCodec} {entry : WalEntry} (lawful : codec.Lawful entry)

include lawful

theorem LineCodec.Lawful.chomp_append (before : Bytes) :
    chomp (before ++ codec.encode entry) = before ++ codec.encode entry := by
  obtain ⟨body, shape⟩ := lawful.braces
  have last : (before ++ codec.encode entry).getLast? = some 0x7D := by
    rw [shape, ← List.cons_append, ← List.append_assoc]
    exact List.getLast?_concat
  rw [chomp, last]
  rfl

/-- Whitespace before an encoded entry leaves the line readable and not blank. -/
theorem LineCodec.Lawful.decodeUtf8_append {before : Bytes}
    (space : before.all isJsonSpace = true) :
    ∃ text, decodeUtf8 (before ++ codec.encode entry) = some text ∧
      isBlank (String.ofList text) = false := by
  obtain ⟨text, valid⟩ := Option.isSome_iff_exists.mp lawful.utf8
  have ascii : ∀ b ∈ before, b < 0x80 := by
    intro b mem
    have isSpace := List.all_eq_true.mp space b mem
    simp only [isJsonSpace, Bool.or_eq_true, beq_iff_eq] at isSpace
    rcases isSpace with ((rfl | rfl) | rfl) | rfl <;> decide
  refine ⟨_, decodeUtf8_append_ascii ascii valid, ?_⟩
  obtain ⟨body, shape⟩ := lawful.braces
  rw [shape, decodeUtf8_ascii (by decide)] at valid
  obtain ⟨inner, -, rfl⟩ := Option.map_eq_some_iff.mp valid
  rw [isBlank, String.toList_ofList, List.all_append, List.all_cons]
  simp [isWhitespace]

/-- What the replay makes of an encoded entry behind other text. -/
theorem LineCodec.Lawful.replayLine_append {before : Bytes} (plain : newline ∉ before) :
    codec.replayLine (before ++ codec.encode entry) =
      if before.all isJsonSpace = true ∧ entry.isFinite = true then some entry else none := by
  by_cases space : before.all isJsonSpace = true
  · obtain ⟨text, valid, notBlank⟩ := lawful.decodeUtf8_append space
    simp [replayLine, valid, notBlank, lawful.decode_append before plain, space,
      lawful.decode_encode]
  · rw [replayLine, lawful.decode_append before plain, if_neg space,
      if_neg fun both => space both.1]
    cases decodeUtf8 (before ++ codec.encode entry) <;> simp

theorem LineCodec.Lawful.replayLine_encode :
    codec.replayLine (codec.encode entry) = if entry.isFinite then some entry else none := by
  simpa using lawful.replayLine_append (List.not_mem_nil : newline ∉ [])

end Laws

/-- A sublist of an append that shares nothing with the first part lies in the
second. -/
theorem sublist_of_append_disjoint {batch old new : List WalEntry}
    (sub : batch.Sublist (old ++ new)) (disjoint : ∀ e ∈ batch, e ∉ old) :
    batch.Sublist new := by
  obtain ⟨first, second, rfl, inOld, inNew⟩ := List.sublist_append_iff.mp sub
  cases first with
  | nil => exact inNew
  | cons e first => exact absurd (inOld.subset List.mem_cons_self) (disjoint e (by simp))

section Batch

variable {codec : LineCodec} {file : Bytes} {e : WalEntry} {rest : List WalEntry}
  (lawful : ∀ entry ∈ e :: rest, codec.Lawful entry)

include lawful

/-- The lines of the file after the batch: its first entry shares a line with
the unterminated rest of the file. -/
theorem splitLines_append_batchBytes :
    splitLines (file ++ codec.batchBytes (e :: rest)) =
      ((splitLines file).1 ++ ((splitLines file).2 ++ codec.encode e) :: rest.map codec.encode,
        []) := by
  have head := (lawful e List.mem_cons_self).oneLine
  refine splitLines_append_joinLines file (codec.encode e) (rest.map codec.encode) head ?_
  intro line mem
  obtain ⟨entry, inRest, rfl⟩ := List.mem_map.mp mem
  exact (lawful entry (List.mem_cons_of_mem _ inRest)).oneLine

theorem filterMap_encoded : (rest.map (chomp ∘ codec.encode)).filterMap codec.replayLine =
    rest.filter (·.isFinite) := by
  have each : ∀ entry ∈ rest, codec.replayLine (chomp (codec.encode entry)) =
      if entry.isFinite then some entry else none := by
    intro entry mem
    have laws := lawful entry (List.mem_cons_of_mem _ mem)
    have bare := laws.chomp_append []
    rw [List.nil_append] at bare
    rw [bare, laws.replayLine_encode]
  rw [List.filterMap_map, ← List.filterMap_eq_filter]
  refine List.filterMap_congr fun entry mem => ?_
  rw [Function.comp_apply, Function.comp_apply, each entry mem, Option.guard]

/-- The outcome of reading back a file with a batch appended. -/
theorem replay_append_batchBytes {out : List WalEntry}
    (read : codec.replay (file ++ codec.batchBytes (e :: rest)) = .ok out) :
    (∀ line ∈ (splitLines file).1, (decodeUtf8 line).isSome) ∧
      out = ((splitLines file).1.map chomp).filterMap codec.replayLine ++
        ((if (splitLines file).2.all isJsonSpace = true ∧ e.isFinite = true then [e] else []) ++
          rest.filter (·.isFinite)) := by
  have plain := (newline_notMem_splitLines file).2
  have head := lawful e List.mem_cons_self
  rw [LineCodec.replay, readLines, splitLines_append_batchBytes lawful] at read
  rw [mapM_readLine] at read
  split at read
  · cases read
  · next valid =>
      cases read
      rw [List.any_eq_true] at valid
      refine ⟨fun line mem => ?_, ?_⟩
      · by_contra invalid
        exact valid ⟨line, List.mem_append_left _ mem, by simpa using invalid⟩
      · rw [List.map_append, List.map_cons, List.filterMap_append, List.filterMap_cons,
          head.chomp_append, head.replayLine_append plain, List.map_map, filterMap_encoded lawful]
        split <;> rename_i outcome <;> split at outcome <;> simp_all

/-- Reading back succeeds when the file had only readable lines and a blank rest. -/
theorem replay_of_appendable (appendable : Appendable file) :
    ∃ out, codec.replay (file ++ codec.batchBytes (e :: rest)) = .ok out := by
  have valid : ∀ line ∈ (splitLines file).1 ++
      ((splitLines file).2 ++ codec.encode e) :: rest.map codec.encode,
      (decodeUtf8 line).isSome := by
    intro line mem
    rcases List.mem_append.mp mem with old | new
    · exact appendable.1 line old
    · rcases List.mem_cons.mp new with rfl | later
      · obtain ⟨text, decoded, -⟩ :=
          (lawful e List.mem_cons_self).decodeUtf8_append appendable.2
        rw [decoded]
        rfl
      · obtain ⟨entry, inRest, rfl⟩ := List.mem_map.mp later
        exact (lawful entry (List.mem_cons_of_mem _ inRest)).utf8
  have readable : ¬ (((splitLines file).1 ++
      ((splitLines file).2 ++ codec.encode e) :: rest.map codec.encode).any
        fun line => (decodeUtf8 line).isNone) = true := by
    rw [List.any_eq_true]
    rintro ⟨line, mem, invalid⟩
    exact absurd (valid line mem) (by simpa using invalid)
  rw [LineCodec.replay, readLines, splitLines_append_batchBytes lawful, mapM_readLine,
    if_neg readable]
  exact ⟨_, rfl⟩

end Batch

/-- A batch that the flush task appends to a file comes back whole if and only
if the file had only readable lines, nothing but whitespace after its last
newline, and every float of the batch is finite.  The batch is `stamped`: its
sequence numbers are above those that can be read from the file. -/
theorem batch_survives_iff_appendable {codec : LineCodec} {file : Bytes}
    {batch : List WalEntry} (written : batch ≠ [])
    (lawful : ∀ entry ∈ batch, codec.Lawful entry)
    (stamped : ∀ line ∈ (splitLines file).1, ∀ old, codec.replayLine (chomp line) = some old →
      ∀ entry ∈ batch, old.sequence < entry.sequence) :
    codec.Survives file batch ↔ Appendable file ∧ ∀ entry ∈ batch, entry.isFinite := by
  obtain ⟨e, rest, rfl⟩ := List.exists_cons_of_ne_nil written
  constructor
  · rintro ⟨out, read, sub⟩
    obtain ⟨valid, rfl⟩ := replay_append_batchBytes lawful read
    -- no line already in the file stands in for an entry of the batch
    have fresh : ∀ entry ∈ e :: rest,
        entry ∉ ((splitLines file).1.map chomp).filterMap codec.replayLine := by
      intro entry mem inOld
      obtain ⟨line, lineMem, decoded⟩ := List.mem_filterMap.mp inOld
      obtain ⟨raw, rawMem, rfl⟩ := List.mem_map.mp lineMem
      exact lt_irrefl _ (stamped raw rawMem entry decoded entry mem)
    have inNew := sublist_of_append_disjoint sub fresh
    have bound := inNew.length_le
    have kept := List.length_filter_le (·.isFinite) rest
    by_cases head : (splitLines file).2.all isJsonSpace = true ∧ e.isFinite = true
    · rw [if_pos head] at bound
      simp only [List.length_cons, List.length_append, List.length_nil] at bound
      have full : (rest.filter (·.isFinite)).length = rest.length := by omega
      refine ⟨⟨valid, head.1⟩, List.forall_mem_cons.mpr ⟨head.2, ?_⟩⟩
      exact List.length_filter_eq_length_iff.mp full
    · rw [if_neg head] at bound
      simp only [List.length_cons, List.length_append, List.length_nil] at bound
      omega
  · rintro ⟨appendable, finite⟩
    obtain ⟨out, read⟩ := replay_of_appendable lawful appendable
    refine ⟨out, read, ?_⟩
    obtain ⟨-, rfl⟩ := replay_append_batchBytes lawful read
    have whole : rest.filter (·.isFinite) = rest :=
      List.filter_eq_self.mpr fun entry mem => finite entry (List.mem_cons_of_mem _ mem)
    rw [if_pos ⟨appendable.2, finite e List.mem_cons_self⟩, whole]
    exact List.sublist_append_right _ _

/-! ## A torn line before the batch -/

section Example

/-- The bytes of an ASCII text. -/
def asciiBytes (text : String) : Bytes := text.toList.map fun c => UInt8.ofNat c.toNat

def sampleEntry : WalEntry := ⟨"u", [0x3F800000#32], "r", "q", "m", 2, 0, false, none⟩

/-- The line that `serde_json` writes for `sampleEntry`. -/
def sampleText : Bytes := asciiBytes
  "\x7b\"uuid\":\"u\",\"embedding\":[1.0],\"response\":\"r\",\"query_text\":\"q\",\"model_id\":\"m\",\"sequence\":2,\"inserted_at\":0\x7d"

theorem dropWhile_append_brace {before cut rest : Bytes} (brace : cut = 0x7B :: rest) :
    (before ++ cut).dropWhile isJsonSpace = before.dropWhile isJsonSpace ++ cut := by
  have itself : cut.dropWhile isJsonSpace = cut := by
    rw [brace]
    exact List.dropWhile_cons_of_neg (by decide)
  rw [List.dropWhile_append]
  split
  · next empty => rw [itself, List.isEmpty_iff.mp empty, List.nil_append]
  · rfl

/-- A codec that knows one line. -/
def oneLineCodec (entry : WalEntry) (text : Bytes) : LineCodec where
  encode _ := text
  decode line := if line.dropWhile isJsonSpace = text then some entry else none

theorem oneLineCodec_lawful {entry : WalEntry} {text body : Bytes} (finite : entry.isFinite = true)
    (oneLine : newline ∉ text) (utf8 : (decodeUtf8 text).isSome)
    (braces : text = 0x7B :: (body ++ [0x7D])) : (oneLineCodec entry text).Lawful entry := by
  have itself : text.dropWhile isJsonSpace = text := by
    rw [braces]
    exact List.dropWhile_cons_of_neg (by decide)
  have decoded : (oneLineCodec entry text).decode text = some entry := if_pos itself
  refine ⟨oneLine, utf8, ⟨body, braces⟩, ?_, ?_⟩
  · rw [if_pos finite]
    exact decoded
  · intro before _
    change (oneLineCodec entry text).decode (before ++ text) = _
    by_cases space : before.all isJsonSpace = true
    · have gone : before.dropWhile isJsonSpace = [] :=
        List.dropWhile_eq_nil_iff.mpr (List.all_eq_true.mp space)
      rw [if_pos space]
      simp [oneLineCodec, List.dropWhile_append, gone]
    · have left : before.dropWhile isJsonSpace ≠ [] := fun gone =>
        space (List.all_eq_true.mpr (List.dropWhile_eq_nil_iff.mp gone))
      have longer : before.dropWhile isJsonSpace ++ text ≠ text := fun same =>
        left (List.append_left_eq_self.mp same)
      rw [if_neg space]
      simp [oneLineCodec, List.dropWhile_append, left, longer]

/-- A codec that knows the one line it is asked about. -/
def sampleCodec : LineCodec where
  encode _ := sampleText
  decode line := if line.dropWhile isJsonSpace = sampleText then some sampleEntry else none

/-- What the laws ask of the line, found in one evaluation of its bytes. -/
theorem sampleText_line : newline ∉ sampleText ∧ (decodeUtf8 sampleText).isSome ∧
    sampleText = 0x7B :: (sampleText.tail.dropLast ++ [0x7D]) := by
  decide +kernel

theorem sampleCodec_lawful : sampleCodec.Lawful sampleEntry :=
  oneLineCodec_lawful rfl sampleText_line.1 sampleText_line.2.1 sampleText_line.2.2

/-- The line of the same entry under an older number. -/
def olderText : Bytes := asciiBytes
  "\x7b\"uuid\":\"u\",\"embedding\":[1.0],\"response\":\"r\",\"query_text\":\"q\",\"model_id\":\"m\",\"sequence\":1,\"inserted_at\":0\x7d"

/-- A codec that knows both lines. -/
def twoLineCodec : LineCodec where
  encode entry := if entry.sequence = 1 then olderText else sampleText
  decode line :=
    if line.dropWhile isJsonSpace = olderText then some { sampleEntry with sequence := 1 }
    else sampleCodec.decode line

/-- The line behind other text is not the older one. -/
theorem twoLineCodec_decode_append (before : Bytes) :
    twoLineCodec.decode (before ++ sampleText) = sampleCodec.decode (before ++ sampleText) := by
  refine if_neg fun same => ?_
  rw [dropWhile_append_brace sampleText_line.2.2] at same
  have sizes := congrArg List.length same
  rw [List.length_append, show olderText.length = sampleText.length by decide +kernel] at sizes
  rw [List.eq_nil_of_length_eq_zero (by omega : (before.dropWhile isJsonSpace).length = 0)] at same
  exact absurd same (by decide +kernel)

theorem twoLineCodec_lawful : twoLineCodec.Lawful sampleEntry where
  oneLine := sampleCodec_lawful.oneLine
  utf8 := sampleCodec_lawful.utf8
  braces := sampleCodec_lawful.braces
  decode_encode := (twoLineCodec_decode_append []).trans sampleCodec_lawful.decode_encode
  decode_append before plain := by
    change twoLineCodec.decode (before ++ sampleText) =
      if before.all isJsonSpace then twoLineCodec.decode ([] ++ sampleText) else none
    rw [twoLineCodec_decode_append, twoLineCodec_decode_append]
    exact sampleCodec_lawful.decode_append before plain

/-- A batch behind an older line. -/
theorem batch_survives_iff_appendable_sample :
    twoLineCodec.Survives (joinLines [olderText]) [sampleEntry] := by
  have older : ∀ line ∈ (splitLines (joinLines [olderText])).1,
      ∀ old ∈ twoLineCodec.replayLine (chomp line), ∀ entry ∈ [sampleEntry],
        old.sequence < entry.sequence := by
    decide +kernel
  exact (batch_survives_iff_appendable (by decide)
    (fun _ mem => List.mem_singleton.mp mem ▸ twoLineCodec_lawful)
    fun line mem old found => older line mem old found).mpr ⟨by decide +kernel, by decide⟩

/-- The beginning of a line, as a crash in the middle of a write leaves it. -/
def tornFile : Bytes := asciiBytes "\x7b\"uuid\":\"t\",\"emb"

/-- A batch appended behind a torn line is lost: its first entry becomes part of
the torn line. -/
theorem torn_line_swallows_batch :
    sampleCodec.Lawful sampleEntry ∧ ¬ sampleCodec.Survives tornFile [sampleEntry] := by
  refine ⟨sampleCodec_lawful, ?_⟩
  rintro ⟨out, read, sub⟩
  have nothing : sampleCodec.replay (tornFile ++ sampleCodec.batchBytes [sampleEntry]) = .ok [] := by
    decide +kernel
  rw [nothing] at read
  cases read
  cases sub

end Example

end Ferrocache
