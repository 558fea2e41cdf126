import Ferrocache.Wal.Bytes

/-!
# Replay of a damaged file

`Wal::replay` has two ways to meet a bad line.  A line that does not decode is
skipped, and the entries of all the others are returned.  A line that is not
valid UTF-8 makes the reader fail, and with it the whole replay: no entry comes
back, and the node does not start.  The intact lines are therefore returned
exactly when every line of the file is valid UTF-8
(`replay_skips_damage_iff_utf8`), which a crash that cuts a line inside a
multi-byte character already breaks.
-/

namespace Ferrocache

/-! ## The lines of a file -/

/-- The newline-delimited lines of a file, an unterminated last one included. -/
def rawLines (file : Bytes) : List Bytes :=
  if (splitLines file).2 = [] then (splitLines file).1
  else (splitLines file).1 ++ [(splitLines file).2]

/-- The lines as `next_line` hands them out. -/
def fileLines (file : Bytes) : List Bytes :=
  if (splitLines file).2 = [] then (splitLines file).1.map chomp
  else (splitLines file).1.map chomp ++ [(splitLines file).2]

/-- Every line is valid UTF-8. -/
def LinesUtf8 (file : Bytes) : Prop := ∀ line ∈ rawLines file, (decodeUtf8 line).isSome

instance (file : Bytes) : Decidable (LinesUtf8 file) :=
  inferInstanceAs (Decidable (∀ line ∈ rawLines file, (decodeUtf8 line).isSome))

/-- The entry of a line that decodes as one; text is valid UTF-8. -/
def LineCodec.decodeLine (codec : LineCodec) (line : Bytes) : Option WalEntry :=
  if (decodeUtf8 line).isSome then codec.decode line else none

/-- The entries of the lines that decode, in the order of the file. -/
def LineCodec.entriesOf (codec : LineCodec) (file : Bytes) : List WalEntry :=
  (fileLines file).filterMap codec.decodeLine

theorem fileLines_line {line : Bytes} (plain : newline ∉ line) (file : Bytes) :
    fileLines (line ++ newline :: file) = chomp line :: fileLines file := by
  rw [fileLines, splitLines_line plain, fileLines]
  split <;> rfl

/-- An unterminated line on its own. -/
theorem fileLines_rest {line : Bytes} (plain : newline ∉ line) (filled : line ≠ []) :
    fileLines line = [line] := by
  rw [fileLines, splitLines_of_notMem plain]
  exact if_neg filled

/-- The reader of the complete lines, by what they all have to be. -/
theorem mapM_readLine_eq (lines : List Bytes) :
    lines.mapM readLine = if ∀ line ∈ lines, (decodeUtf8 line).isSome then .ok lines
      else .error "WAL read failed" := by
  have same : (lines.any fun line => (decodeUtf8 line).isNone) = true ↔
      ¬ ∀ line ∈ lines, (decodeUtf8 line).isSome := by
    simp
  rw [mapM_readLine]
  by_cases valid : ∀ line ∈ lines, (decodeUtf8 line).isSome
  · rw [if_pos valid, if_neg fun invalid => same.mp invalid valid]
  · rw [if_neg valid, if_pos (same.mpr valid)]

/-- The reader hands out all lines, or fails at one that is not valid UTF-8. -/
theorem readLines_eq (file : Bytes) :
    readLines file =
      if LinesUtf8 file then .ok (fileLines file) else .error "WAL read failed" := by
  rw [readLines, mapM_readLine_eq]
  by_cases ended : (splitLines file).2 = []
  · have lines : rawLines file = (splitLines file).1 := if_pos ended
    by_cases valid : LinesUtf8 file
    · rw [if_pos valid, fileLines, if_pos ended, if_pos (lines ▸ valid)]
      exact if_pos ended
    · have broken : ¬ ∀ line ∈ (splitLines file).1, (decodeUtf8 line).isSome := fun all =>
        valid fun line mem => all line (lines ▸ mem)
      rw [if_neg valid, if_neg broken]
      rfl
  · have lines : rawLines file = (splitLines file).1 ++ [(splitLines file).2] := if_neg ended
    by_cases complete : ∀ line ∈ (splitLines file).1, (decodeUtf8 line).isSome
    · rw [if_pos complete]
      by_cases last : (decodeUtf8 (splitLines file).2).isSome
      · have valid : LinesUtf8 file := by
          rw [LinesUtf8, lines]
          exact List.forall_mem_append.mpr ⟨complete, List.forall_mem_singleton.mpr last⟩
        rw [if_pos valid, fileLines, if_neg ended, readLine, if_pos last]
        exact if_neg ended
      · have broken : ¬ LinesUtf8 file := fun all =>
          last (all _ (lines ▸ List.mem_append_right _ List.mem_cons_self))
        rw [if_neg broken, readLine, if_neg last]
        exact if_neg ended
    · have broken : ¬ LinesUtf8 file := fun all =>
        complete fun line mem => all line (lines ▸ List.mem_append_left _ mem)
      rw [if_neg complete, if_neg broken]
      rfl

/-- The replay keeps what the lines are read as, unless some line is not valid
UTF-8. -/
theorem LineCodec.replay_eq (codec : LineCodec) (file : Bytes) :
    codec.replay file = if LinesUtf8 file then .ok ((fileLines file).filterMap codec.replayLine)
      else .error "WAL read failed" := by
  rw [replay, readLines_eq]
  split <;> rfl

/-- Whitespace is no JSON text. -/
def LineCodec.NoBlank (codec : LineCodec) : Prop :=
  ∀ line text, decodeUtf8 line = some text → isBlank (String.ofList text) = true →
    codec.decode line = none

/-- Skipping the blank lines first loses nothing. -/
theorem LineCodec.NoBlank.replayLine {codec : LineCodec} (noBlank : codec.NoBlank)
    (line : Bytes) : codec.replayLine line = codec.decodeLine line := by
  rw [LineCodec.replayLine, decodeLine]
  cases valid : decodeUtf8 line with
  | none => rfl
  | some text =>
      rw [Option.bind_eq_bind, Option.bind_some, Option.isSome_some, if_pos rfl]
      split
      · next blank => exact (noBlank line text valid blank).symm
      · rfl

/-- The replay returns the entries of the lines that decode if and only if every
line is valid UTF-8. -/
theorem LineCodec.NoBlank.replay_iff {codec : LineCodec} (noBlank : codec.NoBlank)
    (file : Bytes) : codec.replay file = .ok (codec.entriesOf file) ↔ LinesUtf8 file := by
  have same : (fileLines file).filterMap codec.replayLine = codec.entriesOf file :=
    List.filterMap_congr fun line _ => noBlank.replayLine line
  rw [codec.replay_eq, same]
  constructor
  · intro read
    by_contra invalid
    rw [if_neg invalid] at read
    cases read
  · intro valid
    exact if_pos valid

/-! ## Files cut at any byte -/

/-- The entries whose text lies within the first `size` bytes of the lines. -/
def LineCodec.within (codec : LineCodec) : List WalEntry → Nat → List WalEntry
  | [], _ => []
  | entry :: entries, size =>
    if (codec.encode entry).length ≤ size then
      entry :: codec.within entries (size - (codec.encode entry).length - 1)
    else []

/-- A JSON object that misses bytes at its end is no JSON text. -/
def LineCodec.Delimited (codec : LineCodec) (entry : WalEntry) : Prop :=
  ∀ cut missing, codec.encode entry = cut ++ missing → missing ≠ [] → codec.decode cut = none

section Cut

variable {codec : LineCodec} {entry : WalEntry} {entries : List WalEntry}

theorem LineCodec.batchBytes_cons :
    codec.batchBytes (entry :: entries) =
      codec.encode entry ++ newline :: codec.batchBytes entries := by
  simp [batchBytes, joinLines]

theorem LineCodec.Lawful.length_encode (lawful : codec.Lawful entry) :
    0 < (codec.encode entry).length := by
  obtain ⟨body, shape⟩ := lawful.braces
  rw [shape, List.length_cons]
  omega

/-- A cut inside the first line leaves nothing but the beginning of its text. -/
theorem LineCodec.Lawful.filterMap_torn (lawful : codec.Lawful entry)
    (delimited : codec.Delimited entry) {size : Nat} (torn : size < (codec.encode entry).length) :
    (fileLines ((codec.encode entry).take size)).filterMap codec.replayLine = [] := by
  by_cases empty : (codec.encode entry).take size = []
  · rw [empty]
    rfl
  · have plain : newline ∉ (codec.encode entry).take size := fun mem =>
      lawful.oneLine (List.mem_of_mem_take mem)
    have missing : (codec.encode entry).drop size ≠ [] := by
      intro nothing
      have covered := List.drop_eq_nil_iff.mp nothing
      omega
    have undecoded : codec.decode ((codec.encode entry).take size) = none :=
      delimited _ _ (List.take_append_drop size (codec.encode entry)).symm missing
    have skipped : codec.replayLine ((codec.encode entry).take size) = none := by
      rw [LineCodec.replayLine, undecoded]
      cases decodeUtf8 ((codec.encode entry).take size) with
      | none => rfl
      | some text => exact ite_self none
    rw [fileLines_rest plain empty, List.filterMap_cons, skipped]
    rfl

theorem LineCodec.within_zero (lawful : ∀ entry ∈ entries, codec.Lawful entry) :
    codec.within entries 0 = [] := by
  cases entries with
  | nil => rfl
  | cons entry entries =>
      have filled := (lawful entry List.mem_cons_self).length_encode
      rw [within]
      exact if_neg (by omega)

theorem LineCodec.Lawful.filterMap_cons (lawful : codec.Lawful entry) (lines : List Bytes) :
    (codec.encode entry :: lines).filterMap codec.replayLine =
      [entry].filter (·.isFinite) ++ lines.filterMap codec.replayLine := by
  rw [List.filterMap_cons, lawful.replayLine_encode]
  by_cases finite : entry.isFinite = true
  · simp [finite]
  · simp [finite]

/-- What the lines of a cut file are read as: the entries whose text is complete,
as far as their floats are finite. -/
theorem LineCodec.filterMap_take (lawful : ∀ entry ∈ entries, codec.Lawful entry)
    (delimited : ∀ entry ∈ entries, codec.Delimited entry) (size : Nat) :
    (fileLines ((codec.batchBytes entries).take size)).filterMap codec.replayLine =
      (codec.within entries size).filter (·.isFinite) := by
  induction entries generalizing size with
  | nil =>
      rw [show codec.batchBytes [] = [] from rfl, List.take_nil]
      rfl
  | cons entry entries ih =>
      have head := lawful entry List.mem_cons_self
      have later : ∀ entry ∈ entries, codec.Lawful entry := fun other mem =>
        lawful other (List.mem_cons_of_mem _ mem)
      have rest := ih later fun other mem => delimited other (List.mem_cons_of_mem _ mem)
      have whole : chomp (codec.encode entry) = codec.encode entry := by
        simpa using head.chomp_append []
      rw [batchBytes_cons, within]
      by_cases torn : size < (codec.encode entry).length
      · rw [if_neg (by omega), List.take_append_of_le_length torn.le,
          head.filterMap_torn (delimited entry List.mem_cons_self) torn]
        rfl
      · rw [if_pos (by omega)]
        by_cases exact : size = (codec.encode entry).length
        · -- the text is complete and only its newline is missing
          have filled : codec.encode entry ≠ [] := List.ne_nil_of_length_pos head.length_encode
          have none : size - (codec.encode entry).length - 1 = 0 := by omega
          rw [none, within_zero later, List.take_left' exact.symm,
            fileLines_rest head.oneLine filled, head.filterMap_cons]
          exact List.append_nil _
        · obtain ⟨more, rfl⟩ : ∃ more, size = (codec.encode entry).length + (more + 1) :=
            ⟨size - (codec.encode entry).length - 1, by omega⟩
          have left : (codec.encode entry).length + (more + 1) - (codec.encode entry).length - 1 =
            more := by omega
          rw [left, List.take_length_add_append, List.take_succ_cons, fileLines_line head.oneLine,
            whole, head.filterMap_cons, rest, ← List.filter_append]
          rfl

end Cut

/-- The intact lines of a file come back, whatever the others hold, if and only
if every line is valid UTF-8.  A file of written entries, cut at any byte, gives
back the entries whose text is complete if and only if moreover their floats are
finite. -/
theorem replay_skips_damage_iff_utf8 (codec : LineCodec) (noBlank : codec.NoBlank) :
    (∀ file, codec.replay file = .ok (codec.entriesOf file) ↔ LinesUtf8 file) ∧
      ∀ entries, (∀ entry ∈ entries, codec.Lawful entry ∧ codec.Delimited entry) → ∀ size,
        (codec.replay ((codec.batchBytes entries).take size) = .ok (codec.within entries size) ↔
          LinesUtf8 ((codec.batchBytes entries).take size) ∧
            ∀ entry ∈ codec.within entries size, entry.isFinite = true) := by
  refine ⟨noBlank.replay_iff, ?_⟩
  intro entries laws size
  have lines := LineCodec.filterMap_take (fun entry mem => (laws entry mem).1)
    (fun entry mem => (laws entry mem).2) size
  rw [codec.replay_eq, lines]
  constructor
  · intro read
    by_cases valid : LinesUtf8 ((codec.batchBytes entries).take size)
    · rw [if_pos valid] at read
      exact ⟨valid, List.filter_eq_self.mp (Except.ok.inj read)⟩
    · rw [if_neg valid] at read
      cases read
  · intro both
    rw [if_pos both.1, List.filter_eq_self.mpr both.2]

section Example

variable {entry : WalEntry} {text : Bytes}

theorem oneLineCodec_delimited : (oneLineCodec entry text).Delimited entry := by
  intro cut missing split strict
  have whole : text = cut ++ missing := split
  refine if_neg fun same => ?_
  have shorter : (cut.dropWhile isJsonSpace).length ≤ cut.length :=
    (List.dropWhile_suffix isJsonSpace).length_le
  have positive := List.length_pos_of_ne_nil strict
  have total := congrArg List.length whole
  rw [List.length_append] at total
  rw [same] at shorter
  omega

theorem oneLineCodec_noBlank (lawful : (oneLineCodec entry text).Lawful entry) :
    (oneLineCodec entry text).NoBlank := by
  intro line chars valid blank
  refine if_neg fun same => ?_
  have front : line = line.takeWhile isJsonSpace ++ text := by
    rw [← same, List.takeWhile_append_dropWhile]
  have space : (line.takeWhile isJsonSpace).all isJsonSpace = true := List.all_takeWhile
  obtain ⟨read, decoded, notBlank⟩ := lawful.decodeUtf8_append space
  rw [front] at valid
  rw [Option.some.inj (valid.symm.trans decoded), notBlank] at blank
  cases blank

def accentEntry : WalEntry := ⟨"u", [0x3F800000#32], "é", "q", "m", 1, 0, false, none⟩

/-- The line that `serde_json` writes for `accentEntry`; the letter takes two
bytes. -/
def accentText : Bytes :=
  asciiBytes "\x7b\"uuid\":\"u\",\"embedding\":[1.0],\"response\":\"" ++ [0xC3, 0xA9] ++
    asciiBytes
      "\",\"query_text\":\"q\",\"model_id\":\"m\",\"sequence\":1,\"inserted_at\":0\x7d"

def accentCodec : LineCodec := oneLineCodec accentEntry accentText

theorem accentText_line : newline ∉ accentText ∧ (decodeUtf8 accentText).isSome ∧
    accentText = 0x7B :: (accentText.tail.dropLast ++ [0x7D]) := by
  decide +kernel

theorem accentCodec_lawful : accentCodec.Lawful accentEntry :=
  oneLineCodec_lawful rfl accentText_line.1 accentText_line.2.1 accentText_line.2.2

theorem accentCodec_laws :
    ∀ entry ∈ [accentEntry, accentEntry],
      accentCodec.Lawful entry ∧ accentCodec.Delimited entry := by
  intro entry mem
  have same : entry = accentEntry := by simpa using mem
  rw [same]
  exact ⟨accentCodec_lawful, oneLineCodec_delimited⟩

/-- Two lines, of which the second is cut after the first byte of its letter. -/
def tornCharacter : Bytes := (accentCodec.batchBytes [accentEntry, accentEntry]).take 151

theorem replay_skips_damage_iff_utf8_sample :
    (accentCodec.replay tornFile = .ok (accentCodec.entriesOf tornFile) ↔ LinesUtf8 tornFile) ∧
      (accentCodec.replay tornCharacter = .ok (accentCodec.within [accentEntry, accentEntry] 151) ↔
        LinesUtf8 tornCharacter ∧
          ∀ entry ∈ accentCodec.within [accentEntry, accentEntry] 151, entry.isFinite = true) := by
  obtain ⟨anyFile, cutFile⟩ :=
    replay_skips_damage_iff_utf8 accentCodec (oneLineCodec_noBlank accentCodec_lawful)
  exact ⟨anyFile tornFile, cutFile _ accentCodec_laws 151⟩

/-- A crash that cuts the last line inside a character costs the line before it:
the replay fails although the text of the first entry is complete. -/
theorem torn_character_fails_replay :
    accentCodec.NoBlank ∧
      (∀ entry ∈ [accentEntry, accentEntry],
        accentCodec.Lawful entry ∧ accentCodec.Delimited entry) ∧
      accentCodec.replay tornCharacter = .error "WAL read failed" ∧
      accentCodec.entriesOf tornCharacter = [accentEntry] ∧
      accentCodec.within [accentEntry, accentEntry] 151 = [accentEntry] := by
  refine ⟨oneLineCodec_noBlank accentCodec_lawful, accentCodec_laws, ?_⟩
  decide +kernel

end Example

end Ferrocache
