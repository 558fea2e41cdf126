import Ferrocache.Wal.Bytes

/-!
# The WAL file as lines

The state machine of the node sees the log file as the lines written to it, what
stands after the last newline, and whether some line cannot be read at all.  A
line with a float that is not finite is written but does not decode:
`File.decoded` is the file without these lines, as `Wal::replay` reads it.
`LineCodec.file` reads a file of bytes in this way; the replay and a successful
append of the two levels agree (`replay_eq_file_replay`,
`file_append_batchBytes`).
-/

namespace Ferrocache

/-- What stands after the last newline. -/
inductive Tail : Type
  /-- nothing, or whitespace -/
  | whole
  /-- text that does not decode -/
  | torn
  /-- a complete entry without its newline -/
  | bare (entry : WalEntry)
  /-- text cut inside a character, which is not valid UTF-8 -/
  | cut
  deriving DecidableEq

structure File : Type where
  lines : List WalEntry
  tail : Tail
  unreadable : Bool
  deriving DecidableEq

def File.empty : File := ⟨[], .whole, false⟩

/-- `Wal::replay` when every line decodes. -/
def File.replay (file : File) : Except String (List WalEntry) :=
  if file.unreadable then .error "WAL read failed"
  else
    match file.tail with
    | .cut => .error "WAL read failed"
    | .bare entry => .ok (file.lines ++ [entry])
    | _ => .ok file.lines

/-- A successful `write_batch_bytes`: the first line of the batch continues what
stands after the last newline. -/
def File.append (file : File) (batch : List WalEntry) : File :=
  match batch with
  | [] => file
  | _ :: rest =>
    match file.tail with
    | .whole => { file with lines := file.lines ++ batch }
    | .cut => ⟨file.lines ++ rest, .whole, true⟩
    | _ => ⟨file.lines ++ rest, .whole, file.unreadable⟩

/-- How a write that is cut short ends. -/
inductive Fragment : Type
  | none
  | torn
  | noNewline
  | cut
  deriving DecidableEq

def Tail.extend : Tail → Tail → Tail
  | t, .whole => t
  | .whole, t => t
  | .cut, _ => .cut
  | _, .cut => .cut
  | _, _ => .torn

/-- A write that stops after `kept` whole lines of the batch and a fragment of
the next one. -/
def File.appendPart (file : File) (batch : List WalEntry) (kept : Nat) (fragment : Fragment) :
    File :=
  let written := file.append (batch.take kept)
  let left : Tail :=
    match batch[kept]?, fragment with
    | some _, .torn => .torn
    | some entry, .noNewline => .bare entry
    | some _, .cut => .cut
    | _, _ => .whole
  { written with tail := written.tail.extend left }

@[simp]
theorem File.append_whole {file : File} (whole : file.tail = .whole) (batch : List WalEntry) :
    file.append batch = { file with lines := file.lines ++ batch } := by
  cases batch with
  | nil => simp [File.append]
  | cons e rest => simp [File.append, whole]

/-- A write that stops between two lines. -/
theorem File.appendPart_none {file : File} (whole : file.tail = .whole) (batch : List WalEntry)
    (kept : Nat) :
    file.appendPart batch kept .none = { file with lines := file.lines ++ batch.take kept } := by
  unfold File.appendPart
  rw [File.append_whole whole]
  cases batch[kept]? <;> simp [Tail.extend]

theorem File.replay_whole {file : File} (whole : file.tail = .whole)
    (readable : file.unreadable = false) : file.replay = .ok file.lines := by
  unfold File.replay
  rw [whole, readable]
  rfl

/-- A file cut inside a line reads as one cut between two lines, if it reads at
all. -/
theorem File.replay_appendPart {file : File} (whole : file.tail = .whole) (batch : List WalEntry)
    (kept : Nat) (fragment : Fragment) {lines : List WalEntry}
    (read : (file.appendPart batch kept fragment).replay = .ok lines) :
    ∃ kept', (file.appendPart batch kept' .none).replay = .ok lines := by
  have between : ∀ k, (file.appendPart batch k .none).replay =
      if file.unreadable then .error "WAL read failed" else .ok (file.lines ++ batch.take k) := by
    intro k
    rw [File.appendPart_none whole]
    unfold File.replay
    rw [whole]
  unfold File.appendPart at read
  rw [File.append_whole whole, whole] at read
  cases next : batch[kept]? with
  | none =>
      refine ⟨kept, ?_⟩
      rw [next] at read
      rw [between]
      simpa [Tail.extend, File.replay] using read
  | some entry =>
      rw [next] at read
      cases fragment with
      | none =>
          refine ⟨kept, ?_⟩
          rw [between]
          simpa [Tail.extend, File.replay] using read
      | torn =>
          refine ⟨kept, ?_⟩
          rw [between]
          simpa [Tail.extend, File.replay] using read
      | noNewline =>
          refine ⟨kept + 1, ?_⟩
          rw [between, List.take_add_one, next]
          simpa [Tail.extend, File.replay] using read
      | cut => simp [Tail.extend, File.replay] at read

/-! ## Every line of a file -/

/-- What holds of every line of the file, and of the last one if it has no
newline. -/
structure File.All (Q : WalEntry → Prop) (file : File) : Prop where
  lines : ∀ line ∈ file.lines, Q line
  bare : ∀ entry, file.tail = .bare entry → Q entry

theorem Tail.bare_of_extend {tail left : Tail} {entry : WalEntry}
    (bare : tail.extend left = .bare entry) : tail = .bare entry ∨ left = .bare entry := by
  cases tail <;> cases left <;> first | exact .inl bare | exact .inr bare | cases bare

namespace File.All

variable {Q : WalEntry → Prop} {file : File} {batch : List WalEntry}

theorem empty : File.empty.All Q :=
  ⟨fun _ mem => absurd mem List.not_mem_nil, fun _ bare => by cases bare⟩

theorem append (all : file.All Q) (each : ∀ entry ∈ batch, Q entry) : (file.append batch).All Q := by
  have more : ∀ new : List WalEntry, (∀ entry ∈ new, Q entry) →
      ∀ line ∈ file.lines ++ new, Q line := fun new meets line mem =>
    (List.mem_append.mp mem).elim (all.lines line) (meets line)
  cases batch with
  | nil => exact all
  | cons e rest =>
      have later : ∀ entry ∈ rest, Q entry := fun entry mem =>
        each entry (List.mem_cons_of_mem _ mem)
      unfold File.append
      cases tail : file.tail with
      | whole => exact ⟨more _ each, fun _ bare => by cases bare⟩
      | cut => exact ⟨more _ later, fun _ bare => by cases bare⟩
      | torn => exact ⟨more _ later, fun _ bare => by cases bare⟩
      | bare entry => exact ⟨more _ later, fun _ bare => by cases bare⟩

theorem appendPart (all : file.All Q) (each : ∀ entry ∈ batch, Q entry) (kept : Nat)
    (fragment : Fragment) : (file.appendPart batch kept fragment).All Q := by
  have written : (file.append (batch.take kept)).All Q :=
    all.append fun entry mem => each entry (List.mem_of_mem_take mem)
  refine ⟨written.lines, fun entry bare => ?_⟩
  rcases Tail.bare_of_extend bare with old | new
  · exact written.bare entry old
  · -- only a line that lacks its newline is left as an entry
    split at new
    · cases new
    · next _ _ last found =>
        cases new
        exact each entry (List.mem_of_getElem? found)
    · cases new
    · cases new

theorem replay (all : file.All Q) {lines : List WalEntry} (read : file.replay = .ok lines) :
    ∀ line ∈ lines, Q line := by
  unfold File.replay at read
  split at read
  · cases read
  · split at read
    · cases read
    · next entry bare =>
        cases read
        intro line mem
        rcases List.mem_append.mp mem with old | last
        · exact all.lines line old
        · rw [List.mem_singleton.mp last]
          exact all.bare entry bare
    · cases read
      exact all.lines

end File.All

/-! ## Lines that do not decode -/

/-- Behind the last newline an entry that does not decode is torn text. -/
def Tail.decoded : Tail → Tail
  | .bare entry => if entry.isFinite then .bare entry else .torn
  | tail => tail

/-- The file without the lines that `Wal::replay` skips as corrupt: those with a
float that is not finite, which is written as `null`. -/
def File.decoded (file : File) : File where
  lines := file.lines.filter (·.isFinite)
  tail := file.tail.decoded
  unreadable := file.unreadable

@[simp]
theorem Tail.decoded_eq_whole {tail : Tail} : tail.decoded = .whole ↔ tail = .whole := by
  cases tail with
  | bare entry => cases finite : entry.isFinite <;> simp [decoded, finite]
  | _ => simp [decoded]

@[simp]
theorem Tail.decoded_eq_cut {tail : Tail} : tail.decoded = .cut ↔ tail = .cut := by
  cases tail with
  | bare entry => cases finite : entry.isFinite <;> simp [decoded, finite]
  | _ => simp [decoded]

/-- A file with finite floats is read as it was written. -/
theorem File.decoded_eq_self {file : File} (finite : file.All (·.isFinite = true)) :
    file.decoded = file := by
  unfold File.decoded
  rw [List.filter_eq_self.mpr finite.lines]
  cases tail : file.tail with
  | bare entry => rw [Tail.decoded, if_pos (finite.bare entry tail), ← tail]
  | _ => rw [Tail.decoded, ← tail]; simp

theorem File.All.decoded {Q : WalEntry → Prop} {file : File} (all : file.All Q) :
    file.decoded.All Q where
  lines line mem := all.lines line (List.mem_filter.mp mem).1
  bare entry bare := by
    change file.tail.decoded = .bare entry at bare
    cases tail : file.tail with
    | bare old =>
        rw [tail, Tail.decoded] at bare
        split at bare
        · cases bare
          exact all.bare _ tail
        · cases bare
    | _ =>
        rw [tail] at bare
        cases bare

/-! ## Bytes and lines -/

section Codec

variable (codec : LineCodec)

/-- What the replay sees after the last newline. -/
def LineCodec.tail (rest : Bytes) : Tail :=
  if rest.all isJsonSpace then .whole
  else if (decodeUtf8 rest).isNone then .cut
  else
    match codec.replayLine rest with
    | some entry => .bare entry
    | none => .torn

def LineCodec.file (bytes : Bytes) : File where
  lines := ((splitLines bytes).1.map chomp).filterMap codec.replayLine
  tail := codec.tail (splitLines bytes).2
  unreadable := (splitLines bytes).1.any fun line => (decodeUtf8 line).isNone

/-- A blank line decodes to nothing. -/
theorem LineCodec.replayLine_space {rest : Bytes} (space : rest.all isJsonSpace = true) :
    (decodeUtf8 rest).isSome ∧ codec.replayLine rest = none := by
  have each : ∀ b ∈ rest, b < 0x80 ∧ isWhitespace (Char.ofNat b.toNat) := by
    intro b mem
    have isSpace := List.all_eq_true.mp space b mem
    simp only [isJsonSpace, Bool.or_eq_true, beq_iff_eq] at isSpace
    rcases isSpace with ((rfl | rfl) | rfl) | rfl <;> decide
  have decoded := decodeUtf8_append_ascii (fun b mem => (each b mem).1)
    (show decodeUtf8 [] = some [] from rfl)
  rw [List.append_nil, List.append_nil] at decoded
  have blank : isBlank (String.ofList (rest.map fun b => Char.ofNat b.toNat)) = true := by
    rw [isBlank, String.toList_ofList, List.all_map, List.all_eq_true]
    exact fun b mem => (each b mem).2
  rw [LineCodec.replayLine, decoded]
  simp [blank]

/-- The replay of the bytes is the replay of the lines. -/
theorem replay_eq_file_replay (bytes : Bytes) :
    codec.replay bytes = (codec.file bytes).replay := by
  unfold LineCodec.replay readLines File.replay LineCodec.file
  rw [mapM_readLine]
  dsimp only
  generalize (splitLines bytes).2 = rest
  split
  · rfl
  · by_cases empty : rest = []
    · subst empty
      rfl
    · unfold LineCodec.tail readLine
      by_cases space : rest.all isJsonSpace = true
      · obtain ⟨valid, skipped⟩ := codec.replayLine_space space
        simp [empty, space, valid, skipped, bind, Except.bind, pure, Except.pure]
      · cases decoded : decodeUtf8 rest with
        | none => simp [empty, space, bind, Except.bind]
        | some text =>
            cases replayed : codec.replayLine rest with
            | none => simp [empty, space, replayed, bind, Except.bind, pure, Except.pure]
            | some entry => simp [empty, space, replayed, bind, Except.bind, pure, Except.pure]

/-! ### Appending -/

section Ascii

variable {a : UInt8} (ascii : a < 0x80)

include ascii

theorem isContinuation_ascii : isContinuation a = false := by
  simp [isContinuation, UInt8.not_le.mpr ascii]

theorem not_le_ascii {b : UInt8} (high : 0x80 ≤ b) : ¬ b ≤ a := fun le =>
  absurd (UInt8.le_trans high le) (UInt8.not_le.mpr ascii)

theorem isThreeBytes_ascii (x y : UInt8) :
    isThreeBytes x a y = false ∧ isThreeBytes x y a = false := by
  have ends := isContinuation_ascii ascii
  have second := not_le_ascii ascii (show (0x80 : UInt8) ≤ 0xA0 by decide)
  have first := not_le_ascii ascii (show (0x80 : UInt8) ≤ 0x80 by decide)
  simp [isThreeBytes, ends, second, first]

theorem isFourBytes_ascii (x y z : UInt8) :
    isFourBytes x a y z = false ∧ isFourBytes x y a z = false ∧ isFourBytes x y z a = false := by
  have ends := isContinuation_ascii ascii
  have second := not_le_ascii ascii (show (0x80 : UInt8) ≤ 0x90 by decide)
  have first := not_le_ascii ascii (show (0x80 : UInt8) ≤ 0x80 by decide)
  simp [isFourBytes, ends, second, first]

/-- An ASCII byte ends the character before it. -/
theorem decodeUtf8_append_isSome (s t : Bytes) :
    (decodeUtf8 (s ++ a :: t)).isSome =
      ((decodeUtf8 s).isSome && (decodeUtf8 (a :: t)).isSome) := by
  have ends := isContinuation_ascii ascii
  have three := isThreeBytes_ascii ascii
  have four := isFourBytes_ascii ascii
  fun_induction decodeUtf8 s with
  | case1 => rfl
  | case2 lead s low ih =>
      rw [List.cons_append, decodeUtf8_ascii low, Option.isSome_map, Option.isSome_map, ih]
  | case3 lead high =>
      rw [List.singleton_append, decodeUtf8.eq_def]
      cases t with
      | nil => simp [high, ends]
      | cons b t =>
          cases t with
          | nil => simp [high, ends, three]
          | cons c t => simp [high, ends, three, four]
  | case4 lead high b s two ih =>
      rw [List.cons_append, List.cons_append, decodeUtf8.eq_def, Option.isSome_map, ← ih]
      simp only [if_neg high, if_pos two, Option.isSome_map]
  | case5 lead high b two =>
      rw [List.cons_append, List.singleton_append, decodeUtf8.eq_def]
      simp only [if_neg high, if_neg two]
      cases t with
      | nil => simp [three]
      | cons c t => simp [three, four]
  | case6 lead high b two c s triple ih =>
      rw [List.cons_append, List.cons_append, List.cons_append, decodeUtf8.eq_def,
        Option.isSome_map, ← ih]
      simp only [if_neg high, if_neg two, if_pos triple, Option.isSome_map]
  | case7 lead high b two c triple =>
      rw [List.cons_append, List.cons_append, List.singleton_append, decodeUtf8.eq_def]
      simp only [if_neg high, if_neg two, if_neg triple]
      simp [four]
  | case8 lead high b two c triple d s quad ih =>
      rw [List.cons_append, List.cons_append, List.cons_append, List.cons_append,
        decodeUtf8.eq_def, Option.isSome_map, ← ih]
      simp only [if_neg high, if_neg two, if_neg triple, if_pos quad, Option.isSome_map]
  | case9 lead high b two c triple d s quad =>
      rw [List.cons_append, List.cons_append, List.cons_append, List.cons_append,
        decodeUtf8.eq_def]
      simp only [if_neg high, if_neg two, if_neg triple, if_neg quad]
      rfl

end Ascii

/-- An entry appended to what stands after the last newline. -/
theorem LineCodec.Lawful.line {codec : LineCodec} {entry : WalEntry}
    (lawful : codec.Lawful entry) {rest : Bytes} (plain : newline ∉ rest) :
    codec.replayLine (chomp (rest ++ codec.encode entry)) =
        (if codec.tail rest = .whole ∧ entry.isFinite = true then some entry else none) ∧
      (decodeUtf8 (rest ++ codec.encode entry)).isNone = decide (codec.tail rest = .cut) := by
  have valid : (decodeUtf8 (rest ++ codec.encode entry)).isSome = (decodeUtf8 rest).isSome := by
    have encoded := lawful.utf8
    obtain ⟨body, shape⟩ := lawful.braces
    rw [shape] at encoded ⊢
    rw [decodeUtf8_append_isSome (by decide), encoded, Bool.and_true]
  rw [lawful.chomp_append, lawful.replayLine_append plain, ← Option.not_isSome, valid,
    Option.not_isSome]
  unfold LineCodec.tail
  by_cases space : rest.all isJsonSpace = true
  · have readable := (codec.replayLine_space space).1
    simp [space, readable]
  · cases decodeUtf8 rest with
    | none => simp [space]
    | some text =>
        cases codec.replayLine rest with
        | none => simp [space]
        | some bare => simp [space]

/-- Encoded lines are valid UTF-8, and those with finite floats come back. -/
theorem filterMap_map_encoded {batch : List WalEntry}
    (lawful : ∀ entry ∈ batch, codec.Lawful entry) :
    ((batch.map codec.encode).map chomp).filterMap codec.replayLine = batch.filter (·.isFinite) ∧
      ((batch.map codec.encode).any fun line => (decodeUtf8 line).isNone) = false := by
  have each : ∀ entry ∈ batch, codec.replayLine (chomp (codec.encode entry)) =
        (if entry.isFinite then some entry else none) ∧
      (decodeUtf8 (codec.encode entry)).isNone = false := fun entry mem => by
    simpa [LineCodec.tail] using (lawful entry mem).line (List.not_mem_nil : newline ∉ [])
  constructor
  · rw [List.map_map, List.filterMap_map, ← List.filterMap_eq_filter]
    refine List.filterMap_congr fun entry mem => ?_
    rw [Function.comp_apply, Function.comp_apply, (each entry mem).1, Option.guard]
  · rw [List.any_map, List.any_eq_false]
    intro entry mem
    simp [(each entry mem).2]

/-- A successful append of the bytes is an append of the lines, of which those that
decode are read. -/
theorem file_append_batchBytes {batch : List WalEntry}
    (lawful : ∀ entry ∈ batch, codec.Lawful entry) {bytes : Bytes} {file : File}
    (reads : codec.file bytes = file.decoded) :
    codec.file (bytes ++ codec.batchBytes batch) = (file.append batch).decoded := by
  cases batch with
  | nil => simp [LineCodec.batchBytes, joinLines, File.append, reads]
  | cons e rest =>
      have plain := (newline_notMem_splitLines bytes).2
      obtain ⟨first, readable⟩ := (lawful e List.mem_cons_self).line plain
      obtain ⟨others, allReadable⟩ := filterMap_map_encoded codec
        (fun x mem => lawful x (List.mem_cons_of_mem _ mem))
      -- what is behind the last newline decides whether the first line stands alone
      have tail : codec.tail (splitLines bytes).2 = file.tail.decoded := congrArg File.tail reads
      have lines : ((splitLines bytes).1.map chomp).filterMap codec.replayLine =
          file.lines.filter (·.isFinite) := congrArg File.lines reads
      have bad : ((splitLines bytes).1.any fun line => (decodeUtf8 line).isNone) =
          file.unreadable := congrArg File.unreadable reads
      unfold LineCodec.file
      rw [splitLines_append_batchBytes lawful]
      simp only [List.map_append, List.map_cons, List.filterMap_append, List.filterMap_cons,
        first, others, List.any_append, List.any_cons, readable, allReadable, Bool.or_false,
        tail, lines, bad, Tail.decoded_eq_whole, Tail.decoded_eq_cut]
      have nothing : codec.tail [] = .whole := rfl
      rw [nothing]
      unfold File.append File.decoded
      cases file.tail with
      | whole => cases finite : e.isFinite <;> simp [finite, Tail.decoded]
      | torn => simp [Tail.decoded]
      | bare entry => simp [Tail.decoded]
      | cut => simp [Tail.decoded]

end Codec

end Ferrocache
