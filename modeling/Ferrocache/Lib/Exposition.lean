import Ferrocache.Lib.Escape

/-!
# The text exposition format of metrics

A document is a list of lines, each ended by a newline.  A line is blank, a
comment, or a sample with one label, whose value stands in double quotes with
backslash, double quote and newline escaped.  A label may have any value: a line
is read back from its text (`readLine_text`), and a document between two other
pieces of text is read as its own lines (`read_document`).
-/

namespace Exposition

/-- The escapes of a label value. -/
def labelEscape : Escape Char where
  marker := '\\'
  code c :=
    if c = '\\' then some '\\'
    else if c = '"' then some '"'
    else if c = '\n' then some 'n'
    else none
  plain d :=
    if d = '\\' then some '\\'
    else if d = '"' then some '"'
    else if d = 'n' then some '\n'
    else none
  plain_of_code := by
    intro c d coded
    by_cases backslash : c = '\\'
    · subst backslash
      cases coded
      rfl
    by_cases quote : c = '"'
    · subst quote
      cases coded
      rfl
    by_cases newline : c = '\n'
    · subst newline
      cases coded
      rfl
    · rw [if_neg backslash, if_neg quote, if_neg newline] at coded
      cases coded
  code_marker := by decide

theorem newline_notMem_encode (s : List Char) : '\n' ∉ labelEscape.encode s :=
  Escape.notMem_encode (by decide) (by decide) (by decide) s

/-! ## Lines -/

inductive Line where
  | blank
  | comment (text : List Char)
  | sample (name label value number : List Char)
  deriving DecidableEq

def Line.text : Line → List Char
  | blank => []
  | comment text => '#' :: text
  | sample name label value number =>
      name ++ '\x7b' :: (label ++ '=' :: '"' ::
        (labelEscape.encode value ++ '"' :: '\x7d' :: ' ' :: number))

/-- The parts of a line do not run into each other.  Nothing is asked of the
value of the label. -/
def Line.Plain : Line → Prop
  | blank => True
  | comment text => '\n' ∉ text
  | sample name label _ number =>
      ('\n' ∉ name ∧ '#' ∉ name ∧ '\x7b' ∉ name) ∧ ('\n' ∉ label ∧ '=' ∉ label) ∧ '\n' ∉ number

/-- The text before the first `c`, and the text after it. -/
def upTo (c : Char) : List Char → Option (List Char × List Char)
  | [] => none
  | d :: rest =>
      if d = c then some ([], rest)
      else (upTo c rest).map fun r => (d :: r.1, r.2)

def expect (c : Char) : List Char → Option (List Char)
  | [] => none
  | d :: rest => if d = c then some rest else none

def readSample (line : List Char) : Option Line := do
  let (name, rest) ← upTo '\x7b' line
  let (label, rest) ← upTo '=' rest
  let rest ← expect '"' rest
  let (value, rest) ← labelEscape.readQuoted '"' rest
  let rest ← expect '\x7d' rest
  let number ← expect ' ' rest
  return .sample name label value number

/-- Reads one line.  A sample without a label is not read. -/
def readLine : List Char → Option Line
  | [] => some .blank
  | c :: line => if c = '#' then some (.comment line) else readSample (c :: line)

theorem upTo_append {c : Char} {s : List Char} (absent : c ∉ s) (rest : List Char) :
    upTo c (s ++ c :: rest) = some (s, rest) := by
  induction s with
  | nil => exact if_pos rfl
  | cons d s ih =>
    rw [List.mem_cons, not_or] at absent
    rw [List.cons_append, upTo, if_neg (Ne.symm absent.1), ih absent.2]
    rfl

theorem expect_cons (c : Char) (rest : List Char) : expect c (c :: rest) = some rest :=
  if_pos rfl

theorem readSample_text {name label value number : List Char}
    (plain : (Line.sample name label value number).Plain) :
    readSample (Line.sample name label value number).text =
      some (.sample name label value number) := by
  obtain ⟨⟨_, _, brace⟩, ⟨_, equals⟩, _⟩ := plain
  have quoted : labelEscape.readQuoted '"'
      (labelEscape.encode value ++ '"' :: '\x7d' :: ' ' :: number) =
        some (value, '\x7d' :: ' ' :: number) :=
    Escape.readQuoted_encode (by decide) (by decide) value _
  unfold readSample Line.text
  simp only [upTo_append brace, upTo_append equals, expect_cons, quoted, Option.bind_eq_bind,
    Option.bind_some]
  rfl

theorem readLine_text {line : Line} (plain : line.Plain) : readLine line.text = some line := by
  cases line with
  | blank => rfl
  | comment text =>
    unfold Line.text readLine
    exact if_pos rfl
  | sample name label value number =>
    have read := readSample_text plain
    cases name with
    | nil => exact read
    | cons c name =>
      have other : c ≠ '#' := fun same => plain.1.2.1 (by rw [same]; exact List.mem_cons_self)
      show (if c = '#' then _ else _) = _
      rw [if_neg other]
      exact read

theorem newline_notMem_text {line : Line} (plain : line.Plain) : '\n' ∉ line.text := by
  cases line with
  | blank => exact List.not_mem_nil
  | comment text =>
    intro mem
    rcases List.mem_cons.mp mem with hash | inside
    · cases hash
    · exact plain inside
  | sample name label value number =>
    obtain ⟨⟨inName, _, _⟩, ⟨inLabel, _⟩, inNumber⟩ := plain
    have inValue := newline_notMem_encode value
    unfold Line.text
    simp only [List.mem_append, List.mem_cons, not_or]
    exact ⟨inName, by decide, inLabel, by decide, by decide, inValue, by decide, by decide,
      by decide, inNumber⟩

/-! ## Documents -/

def document (lines : List Line) : List Char := lines.flatMap fun line => line.text ++ ['\n']

/-- The lines of a text, each read by itself. -/
def read (text : List Char) : List (Option Line) := (text.splitOn '\n').map readLine

theorem read_append (before after : List Char) :
    read (before ++ '\n' :: after) = read before ++ read after := by
  unfold read
  rw [List.splitOn_append_cons_self, List.map_append]

theorem read_text {line : Line} (plain : line.Plain) : read line.text = [some line] := by
  unfold read
  rw [List.splitOn_eq_singleton (newline_notMem_text plain), List.map_singleton,
    readLine_text plain]

/-- A document is read as its lines, whatever follows it. -/
theorem read_document {lines : List Line} (plain : ∀ line ∈ lines, line.Plain)
    (after : List Char) : read (document lines ++ after) = lines.map some ++ read after := by
  induction lines with
  | nil => rfl
  | cons line lines ih =>
    rw [List.forall_mem_cons] at plain
    have first : document (line :: lines) ++ after =
        line.text ++ '\n' :: (document lines ++ after) := by
      simp only [document, List.flatMap_cons, List.append_assoc, List.cons_append,
        List.nil_append]
    rw [first, read_append, read_text plain.1, ih plain.2]
    rfl

end Exposition
