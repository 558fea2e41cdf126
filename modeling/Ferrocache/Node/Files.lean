import Ferrocache.Node.GroupCommit
import Ferrocache.Node.Provenance
import Ferrocache.Wal.Damage
import Ferrocache.Wal.Snapshot
import Ferrocache.Wal.Watermark

/-!
# The files of a node

The log of the node's machine is about lines and a snapshot; what is on disk are
bytes.  Here are the three files with the writes of `wal.rs` and `snapshot.rs`
to them: a batch may be cut at any byte, and a snapshot is written to a file of
its own, which may be cut at any byte too, and then renamed.  Every run of the
files is a run of the log with the startup that skips what does not decode
(`files_refine_log`), so what was proved of the log holds of the bytes: the
startup reads from the files what the log says, and the snapshot file is never a
partial one.
-/

namespace Ferrocache

/-! ## A batch cut at any byte -/

/-- The beginning of an encoded entry, behind any text, is no JSON text: the
object is not closed, or text stands before it. -/
def LineCodec.Unclosed (codec : LineCodec) (entry : WalEntry) : Prop :=
  ∀ before cut missing, newline ∉ before → codec.encode entry = cut ++ missing → cut ≠ [] →
    missing ≠ [] → codec.decode (before ++ cut) = none

/-- What the log relies on for an entry that it writes: `serde_json` behaves as
documented. -/
structure LineCodec.Writes (codec : LineCodec) (entry : WalEntry) : Prop where
  lawful : codec.Lawful entry
  unclosed : codec.Unclosed entry

section Cut

variable {codec : LineCodec} {entry : WalEntry}

/-- An entry begins with a brace. -/
theorem LineCodec.Lawful.cons_of_cut (lawful : codec.Lawful entry) {cut missing : Bytes}
    (split : codec.encode entry = cut ++ missing) (some : cut ≠ []) : ∃ rest, cut = 0x7B :: rest := by
  obtain ⟨body, shape⟩ := lawful.braces
  cases cut with
  | nil => exact absurd rfl some
  | cons b rest =>
      rw [shape, List.cons_append] at split
      obtain ⟨rfl, -⟩ := List.cons.inj split
      exact ⟨rest, rfl⟩

/-- What stands after the last newline, when a beginning of an entry is added. -/
def fragmentOf (cut missing : Bytes) : Fragment :=
  if cut = [] then .none
  else if missing = [] then .noNewline
  else if (decodeUtf8 cut).isNone then .cut
  else .torn

def Fragment.tail (entry : WalEntry) : Fragment → Tail
  | .torn => .torn
  | .noNewline => .bare entry
  | .cut => .cut
  | .none => .whole

theorem Tail.decoded_extend (tail left : Tail) :
    (tail.extend left).decoded = tail.decoded.extend left.decoded := by
  cases tail with
  | bare old =>
      cases left with
      | bare entry =>
          cases finite : old.isFinite <;> cases finite' : entry.isFinite <;>
            simp [extend, decoded, finite, finite']
      | _ => cases finite : old.isFinite <;> simp [extend, decoded, finite]
  | _ =>
      cases left with
      | bare entry => cases finite : entry.isFinite <;> simp [extend, decoded, finite]
      | _ => rfl

/-- Text that begins with a brace and does not decode there. -/
theorem LineCodec.tail_of_brace {rest cut : Bytes} {b : Bytes} (brace : cut = 0x7B :: b) :
    codec.tail (rest ++ cut) =
      if (decodeUtf8 rest).isNone || (decodeUtf8 cut).isNone then .cut
      else ((codec.replayLine (rest ++ cut)).map Tail.bare).getD .torn := by
  subst brace
  have filled : ¬ (rest ++ 0x7B :: b).all isJsonSpace = true := by
    rw [List.all_append, List.all_cons]
    simp [isJsonSpace]
  have valid := decodeUtf8_append_isSome (a := 0x7B) (by decide) rest b
  have invalid : (decodeUtf8 (rest ++ 0x7B :: b)).isNone =
      ((decodeUtf8 rest).isNone || (decodeUtf8 (0x7B :: b)).isNone) := by
    rw [← Option.not_isSome, valid, Bool.not_and, Option.not_isSome, Option.not_isSome]
  unfold LineCodec.tail
  rw [if_neg filled, invalid]
  cases codec.replayLine (rest ++ 0x7B :: b) with
  | none => rfl
  | some entry => rfl

/-- What stands after the last newline, by whether it can be read. -/
theorem LineCodec.tail_cases (codec : LineCodec) (rest : Bytes) :
    (rest.all isJsonSpace = true ∧ (decodeUtf8 rest).isNone = false ∧ codec.tail rest = .whole) ∨
      (rest.all isJsonSpace = false ∧ (decodeUtf8 rest).isNone = true ∧ codec.tail rest = .cut) ∨
      rest.all isJsonSpace = false ∧ (decodeUtf8 rest).isNone = false ∧
        (codec.tail rest = .torn ∨ ∃ entry, codec.tail rest = .bare entry) := by
  unfold LineCodec.tail
  cases space : rest.all isJsonSpace with
  | true =>
      have valid := (codec.replayLine_space space).1
      exact .inl ⟨rfl, by rw [← Option.not_isSome, valid]; rfl, rfl⟩
  | false =>
      cases (decodeUtf8 rest).isNone with
      | true => exact .inr (.inl ⟨rfl, rfl, rfl⟩)
      | false =>
          refine .inr (.inr ⟨rfl, rfl, ?_⟩)
          cases codec.replayLine rest with
          | none => exact .inl rfl
          | some entry => exact .inr ⟨entry, rfl⟩

/-- The beginning of an entry behind what stands after the last newline. -/
theorem LineCodec.Writes.tail_append (writes : codec.Writes entry) {cut missing rest : Bytes}
    (split : codec.encode entry = cut ++ missing) (plain : newline ∉ rest) :
    codec.tail (rest ++ cut) =
      (codec.tail rest).extend ((fragmentOf cut missing).tail entry).decoded := by
  unfold fragmentOf
  by_cases empty : cut = []
  · subst empty
    rw [if_pos rfl, List.append_nil]
    cases codec.tail rest with
    | _ => rfl
  · obtain ⟨b, brace⟩ := writes.lawful.cons_of_cut split empty
    rw [if_neg empty, LineCodec.tail_of_brace brace]
    by_cases complete : missing = []
    · -- the entry is complete but for its newline
      subst complete
      rw [List.append_nil] at split
      have valid : (decodeUtf8 cut).isNone = false := by
        rw [← Option.not_isSome, ← split, writes.lawful.utf8]
        rfl
      rw [if_pos rfl, valid, Bool.or_false, ← split, writes.lawful.replayLine_append plain]
      rcases codec.tail_cases rest with ⟨space, readable, tail⟩ | ⟨space, readable, tail⟩ |
        ⟨space, readable, tail | ⟨old, tail⟩⟩
      · cases finite : entry.isFinite <;>
          simp [space, readable, tail, finite, Fragment.tail, Tail.decoded, Tail.extend]
      · cases finite : entry.isFinite <;>
          simp [readable, tail, finite, Fragment.tail, Tail.decoded, Tail.extend]
      · cases finite : entry.isFinite <;>
          simp [space, readable, tail, finite, Fragment.tail, Tail.decoded, Tail.extend]
      · cases finite : entry.isFinite <;>
          simp [space, readable, tail, finite, Fragment.tail, Tail.decoded, Tail.extend]
    · have undecoded := writes.unclosed rest cut missing plain split empty complete
      have skipped : codec.replayLine (rest ++ cut) = none := by
        rw [LineCodec.replayLine, undecoded]
        cases decodeUtf8 (rest ++ cut) with
        | none => rfl
        | some text => exact ite_self none
      rw [if_neg complete, skipped]
      cases valid : (decodeUtf8 cut).isNone with
      | true =>
          rcases codec.tail_cases rest with ⟨space, readable, tail⟩ | ⟨space, readable, tail⟩ |
            ⟨space, readable, tail | ⟨old, tail⟩⟩
          · simp [tail, Fragment.tail, Tail.decoded, Tail.extend]
          · simp [tail, Fragment.tail, Tail.decoded, Tail.extend]
          · simp [tail, Fragment.tail, Tail.decoded, Tail.extend]
          · simp [tail, Fragment.tail, Tail.decoded, Tail.extend]
      | false =>
          rcases codec.tail_cases rest with ⟨space, readable, tail⟩ | ⟨space, readable, tail⟩ |
            ⟨space, readable, tail | ⟨old, tail⟩⟩
          · simp [readable, tail, Fragment.tail, Tail.decoded, Tail.extend]
          · simp [readable, tail, Fragment.tail, Tail.decoded, Tail.extend]
          · simp [readable, tail, Fragment.tail, Tail.decoded, Tail.extend]
          · simp [readable, tail, Fragment.tail, Tail.decoded, Tail.extend]

theorem splitLines_append_plain (w : Bytes) {cut : Bytes} (plain : newline ∉ cut) :
    splitLines (w ++ cut) = ((splitLines w).1, (splitLines w).2 ++ cut) := by
  obtain ⟨lines, rest⟩ := newline_notMem_splitLines w
  have unbroken : newline ∉ (splitLines w).2 ++ cut := fun mem =>
    (List.mem_append.mp mem).elim rest plain
  have shape : w ++ cut = joinLines (splitLines w).1 ++ ((splitLines w).2 ++ cut) := by
    rw [← List.append_assoc, joinLines_splitLines]
  rw [shape, splitLines_joinLines lines, splitLines_of_notMem unbroken, List.append_nil]

/-- The file with the beginning of an entry at its end. -/
theorem LineCodec.Writes.file_append (writes : codec.Writes entry) {bytes : Bytes} {file : File}
    (reads : codec.file bytes = file.decoded) {cut missing : Bytes}
    (split : codec.encode entry = cut ++ missing) (batch : List WalEntry) :
    codec.file (bytes ++ cut) =
      (file.appendPart (entry :: batch) 0 (fragmentOf cut missing)).decoded := by
  have plain : newline ∉ cut := fun mem => writes.lawful.oneLine (by
    rw [split]
    exact List.mem_append_left _ mem)
  have tail := writes.tail_append split (newline_notMem_splitLines bytes).2
  rw [show codec.tail (splitLines bytes).2 = file.tail.decoded from congrArg File.tail reads,
    ← Tail.decoded_extend] at tail
  have lines : ((splitLines bytes).1.map chomp).filterMap codec.replayLine =
      file.lines.filter (·.isFinite) := congrArg File.lines reads
  have bad : ((splitLines bytes).1.any fun line => (decodeUtf8 line).isNone) =
      file.unreadable := congrArg File.unreadable reads
  unfold LineCodec.file File.appendPart
  rw [splitLines_append_plain bytes plain]
  simp only [tail, lines, bad, List.take_zero, File.append, List.getElem?_cons_zero]
  cases fragmentOf cut missing with
  | _ => rfl

/-- A line before a write that is cut short. -/
theorem File.appendPart_cons (file : File) (line : WalEntry) (batch : List WalEntry) (kept : Nat)
    (fragment : Fragment) :
    (file.append [line]).appendPart batch kept fragment =
      file.appendPart (line :: batch) (kept + 1) fragment := by
  unfold File.appendPart
  rw [List.take_succ_cons, File.append_cons file line (batch.take kept), List.getElem?_cons_succ]

/-- The block of a batch, cut at any byte: whole lines and a fragment of the
next. -/
theorem file_append_cut {batch : List WalEntry} (writes : ∀ entry ∈ batch, codec.Writes entry)
    {bytes : Bytes} {file : File} (reads : codec.file bytes = file.decoded) (size : Nat) :
    ∃ kept fragment, codec.file (bytes ++ (codec.batchBytes batch).take size) =
      (file.appendPart batch kept fragment).decoded := by
  induction batch generalizing bytes file size with
  | nil =>
      refine ⟨0, .none, ?_⟩
      rw [show codec.batchBytes [] = [] from rfl, List.take_nil, List.append_nil, reads]
      unfold File.appendPart
      simp only [List.take_zero, File.append, List.getElem?_nil]
      rcases file with ⟨lines, tail, unreadable⟩
      cases tail with
      | _ => rfl
  | cons entry batch ih =>
      have head := writes entry List.mem_cons_self
      rw [LineCodec.batchBytes_cons]
      by_cases inside : size ≤ (codec.encode entry).length
      · refine ⟨0, fragmentOf ((codec.encode entry).take size) ((codec.encode entry).drop size), ?_⟩
        rw [List.take_append_of_le_length inside]
        exact head.file_append reads (List.take_append_drop size _).symm batch
      · obtain ⟨more, rfl⟩ : ∃ more, size = (codec.encode entry).length + (more + 1) :=
          ⟨size - (codec.encode entry).length - 1, by omega⟩
        have one : codec.batchBytes [entry] = codec.encode entry ++ [newline] := by
          rw [LineCodec.batchBytes_cons]
          rfl
        have lawful : ∀ e ∈ [entry], codec.Lawful e := fun e mem =>
          List.mem_singleton.mp mem ▸ head.lawful
        obtain ⟨kept, fragment, cut⟩ := ih (fun other mem => writes other (List.mem_cons_of_mem _ mem))
          (file_append_batchBytes codec lawful reads) more
        refine ⟨kept + 1, fragment, ?_⟩
        rw [File.appendPart_cons] at cut
        rw [← cut, one, List.take_length_add_append, List.take_succ_cons]
        simp only [List.append_assoc, List.singleton_append]

end Cut

/-! ## Sequence numbers are 64-bit words -/

theorem stampBatch_le {sequence : Nat} (word : sequence ≤ u64Max) (batch : List WalEntry) :
    (stampBatch sequence batch).1 ≤ u64Max := by
  induction batch generalizing sequence with
  | nil => exact word
  | cons entry batch ih =>
      unfold stampBatch
      cases found : nextSequence sequence with
      | error msg => exact word
      | ok next =>
          have bound : next ≤ u64Max := by
            unfold nextSequence at found
            split at found
            · cases found
              assumption
            · cases found
          exact ih bound

/-- The counters of a log. -/
structure Log.Below (log : Log) : Prop where
  file : log.disk.file.All (·.sequence ≤ u64Max)
  sequence : log.sequence ≤ u64Max
  watermark : watermark log.disk.snapshot ≤ u64Max

namespace Log.Below

variable {log : Log}

theorem fresh : Log.fresh.Below :=
  ⟨.empty, Nat.zero_le _, Nat.zero_le _⟩

theorem flush (below : log.Below) (batch : List WalEntry) (outcome : WriteOutcome) :
    (log.flush batch outcome).1.Below := by
  have last := stampBatch_le below.sequence batch
  obtain ⟨file, snapshot⟩ := Log.all_flush below.file (fun top lines stamped eq line mem =>
    (stamped.bounded line mem).trans (eq ▸ last)) outcome
  refine ⟨file, ?_, ?_⟩
  · unfold Log.flush
    rcases run : stampBatch log.sequence batch with ⟨sequence, _ | lines⟩
    · rw [run] at last
      exact last
    · rw [run] at last
      cases outcome with
      | synced => exact last
      | failed kept fragment => exact last
  · rw [snapshot]
    exact below.watermark

theorem compact (below : log.Below) (entries : List SnapshotEntry) (outcome : Log.CompactOutcome) :
    (log.compact entries outcome).Below := by
  have file := Log.all_compact below.file entries outcome
  cases outcome with
  | unwritten => exact below
  | compacted => exact ⟨file, below.sequence, below.sequence⟩
  | untruncated emptied => exact ⟨file, below.sequence, below.sequence⟩

theorem reopen [Platform] (below : log.Below) {cfg : HnswConfig} {r : Recovery} {log' : Log}
    (started : log.reopen cfg = .ok (r, log')) : log'.Below := by
  unfold Log.reopen recover at started
  cases lines : log.disk.decoded.file.replay with
  | error msg =>
      rw [lines] at started
      cases started
  | ok replayed =>
      rw [lines] at started
      cases started
      refine ⟨below.file, ?_, below.watermark⟩
      refine List.foldlRecOn (motive := fun r : Recovery => r.maxSeq ≤ u64Max) replayed _
        below.watermark fun r kept line mem => ?_
      split
      · exact kept
      · rw [Recovery.replay_maxSeq]
        exact max_le kept (below.file.decoded.replay lines line mem)

end Log.Below

/-! ## The files -/

/-- The log, the snapshot and the temporary file of `write_snapshot`.  A log that
does not exist is read as an empty one. -/
structure Files : Type where
  wal : Bytes
  snapshot : Option Bytes
  temp : Option Bytes

/-- The files, with the counter in memory. -/
structure FileLog : Type where
  files : Files
  sequence : Nat

/-- How far a compaction comes: some bytes of the temporary file, the rename, the
truncation, or to its end. -/
inductive CompactStop : Type
  | temp (size : Nat)
  | renamed
  | emptied
  | done

/-- The same compaction of the log. -/
def CompactStop.outcome : CompactStop → Log.CompactOutcome
  | .temp _ => .unwritten
  | .renamed => .untruncated false
  | .emptied => .untruncated true
  | .done => .compacted

namespace FileLog

def fresh : FileLog := ⟨⟨[], none, none⟩, 0⟩

section Writes

variable (codec : LineCodec) (log : FileLog)

/-- `write_batch_bytes`, which may stop after any number of bytes. -/
def writeBatchBytes (data : Bytes) : Option Nat → FileLog × Except String Unit
  | none => ({ log with files := { log.files with wal := log.files.wal ++ data } }, .ok ())
  | some size =>
      ({ log with files := { log.files with wal := log.files.wal ++ data.take size } },
        .error "WAL batch write_all failed")

/-- Stamp a batch and write its lines as one block. -/
def flush (batch : List WalEntry) (stop : Option Nat) :
    FileLog × Except String (List WalEntry) :=
  let stamped := stampBatch log.sequence batch
  let log := { log with sequence := stamped.1 }
  match stamped.2 with
  | .error msg => (log, .error msg)
  | .ok lines =>
      let written := log.writeBatchBytes (codec.batchBytes lines) stop
      (written.1, written.2.map fun _ => lines)

/-- `snapshot::compact`: the snapshot goes to the temporary file, which replaces
the snapshot file, and the log is emptied. -/
def compact (entries : List SnapshotEntry) : CompactStop → FileLog
  | .temp size =>
      let bytes := (writeSnapshot entries log.sequence).take size
      { log with files := { log.files with temp := some bytes } }
  | .renamed =>
      { log with files := ⟨log.files.wal, some (writeSnapshot entries log.sequence), none⟩ }
  | .emptied => { log with files := ⟨[], some (writeSnapshot entries log.sequence), none⟩ }
  | .done => { log with files := ⟨[], some (writeSnapshot entries log.sequence), none⟩ }

/-- The snapshot of the startup; one that cannot be read counts as missing. -/
def readBack (bytes : Bytes) : Option Snapshot :=
  match readSnapshot bytes with
  | .ok read => some ⟨read.1, read.2⟩
  | .error _ => none

/-- The startup of `main` on the files. -/
def start [Platform] (cfg : HnswConfig) : Except String (Recovery × FileLog) := do
  let lines ← codec.replay log.files.wal
  let snapshot := log.files.snapshot.bind readBack
  let r := lines.foldl (fun r entry => if skips snapshot entry then r else r.replay entry)
    ⟨loadSnapshot cfg snapshot, watermark snapshot, []⟩
  return (r, { log with sequence := r.maxSeq })

end Writes

end FileLog

/-! ## Refinement -/

/-- The files hold what the log says, and the log file reads as those of its lines
that decode. -/
structure Represents (codec : LineCodec) (files : FileLog) (log : Log) : Prop where
  wal : codec.file files.files.wal = log.disk.file.decoded
  snapshot : files.files.snapshot.map readSnapshot =
    log.disk.snapshot.map fun s => .ok (s.entries, s.walSequence)
  sequence : files.sequence = log.sequence
  below : log.Below

namespace Represents

variable {codec : LineCodec} {files : FileLog} {log : Log}

theorem fresh : Represents codec .fresh .fresh :=
  ⟨rfl, rfl, rfl, .fresh⟩

/-- The snapshot file is missing or complete. -/
theorem readBack (rep : Represents codec files log) :
    files.files.snapshot.bind FileLog.readBack = log.disk.snapshot := by
  have same := rep.snapshot
  cases file : files.files.snapshot with
  | none =>
      rw [file] at same
      cases stored : log.disk.snapshot with
      | none => rfl
      | some s =>
          rw [stored] at same
          cases same
  | some bytes =>
      rw [file] at same
      cases stored : log.disk.snapshot with
      | none =>
          rw [stored] at same
          cases same
      | some s =>
          rw [stored] at same
          have read : readSnapshot bytes = .ok (s.entries, s.walSequence) := Option.some.inj same
          change FileLog.readBack bytes = some s
          unfold FileLog.readBack
          rw [read]

/-- A batch, cut at any byte or not. -/
theorem flush (rep : Represents codec files log) {batch : List WalEntry}
    (writes : ∀ entry ∈ batch, ∀ sequence ≤ u64Max, codec.Writes { entry with sequence := sequence })
    (stop : Option Nat) :
    ∃ outcome : WriteOutcome, (stop = none ↔ outcome = .synced) ∧
      Represents codec (files.flush codec batch stop).1 (log.flush batch outcome).1 ∧
      (files.flush codec batch stop).2 = (log.flush batch outcome).2 := by
  have stamped := (stampBatch_spec log.sequence batch).2
  have last := stampBatch_le rep.below.sequence batch
  have below := fun outcome => rep.below.flush batch outcome
  unfold FileLog.flush Log.flush at *
  rw [rep.sequence]
  rcases run : stampBatch log.sequence batch with ⟨sequence, msg | lines⟩
  · rw [run] at below
    cases stop with
    | none => exact ⟨.synced, by simp, ⟨rep.wal, rep.snapshot, rfl, below .synced⟩, rfl⟩
    | some size =>
        exact ⟨.failed 0 .none, by simp, ⟨rep.wal, rep.snapshot, rfl, below (.failed 0 .none)⟩, rfl⟩
  · rw [run] at stamped last below
    have all : ∀ line ∈ lines, codec.Writes line := by
      intro line mem
      obtain ⟨entry, inBatch, same⟩ := (stamped lines rfl).origin mem
      rw [same]
      exact writes entry inBatch _ (((stamped lines rfl).bounded line mem).trans last)
    cases stop with
    | none =>
        refine ⟨.synced, by simp, ⟨?_, rep.snapshot, rfl, below .synced⟩, rfl⟩
        exact file_append_batchBytes codec (fun line mem => (all line mem).lawful) rep.wal
    | some size =>
        obtain ⟨kept, fragment, cut⟩ := file_append_cut all rep.wal size
        exact ⟨.failed kept fragment, by simp, ⟨cut, rep.snapshot, rfl, below (.failed kept fragment)⟩,
          rfl⟩

/-- A compaction that stops anywhere: the temporary file is never read. -/
theorem compact (rep : Represents codec files log) {entries : List SnapshotEntry}
    (fits : ∀ entry ∈ entries, entry.Fits) (count : entries.length < 2 ^ 64) (stop : CompactStop) :
    Represents codec (files.compact entries stop) (log.compact entries stop.outcome) := by
  have word : log.sequence < 2 ^ 64 := Nat.lt_succ_of_le rep.below.sequence
  have bodyFits : (bodyOf SnapshotEntry.codec).Fits entries :=
    ⟨count, fun entry mem => (fits entry mem).codec⟩
  have read : readSnapshot (writeSnapshot entries files.sequence) = .ok (entries, log.sequence) := by
    rw [rep.sequence, writeSnapshot, readSnapshot_append word count, Codec.decode_encode _ bodyFits]
    exact if_neg (not_not_intro rfl)
  have renamed : (some (writeSnapshot entries files.sequence)).map readSnapshot =
      (some (⟨entries, log.sequence⟩ : Snapshot)).map fun s => .ok (s.entries, s.walSequence) :=
    congrArg some read
  have below := rep.below.compact entries stop.outcome
  cases stop with
  | temp size => exact ⟨rep.wal, rep.snapshot, rep.sequence, below⟩
  | renamed => exact ⟨rep.wal, renamed, rep.sequence, below⟩
  | emptied => exact ⟨rfl, renamed, rep.sequence, below⟩
  | done => exact ⟨rfl, renamed, rep.sequence, below⟩

/-- The startup on the files. -/
theorem start_eq [Platform] (rep : Represents codec files log) (cfg : HnswConfig) :
    (files.start codec cfg).map Prod.fst = (log.reopen cfg).map Prod.fst ∧
      ∀ r files' log', files.start codec cfg = .ok (r, files') → log.reopen cfg = .ok (r, log') →
        Represents codec files' log' := by
  have read : codec.replay files.files.wal = log.disk.decoded.file.replay := by
    rw [replay_eq_file_replay, rep.wal]
    rfl
  unfold FileLog.start Log.reopen recover
  rw [read, rep.readBack]
  cases lines : log.disk.decoded.file.replay with
  | error msg =>
      refine ⟨rfl, fun r files' log' started => ?_⟩
      cases started
  | ok replayed =>
      refine ⟨rfl, fun r files' log' started reopened => ?_⟩
      have again : log.reopen cfg = .ok (r, log') := by
        unfold Log.reopen recover
        rw [lines]
        exact reopened
      have below := rep.below.reopen again
      cases started
      cases reopened
      exact ⟨rep.wal, rep.snapshot, rfl, below⟩

end Represents

/-! ## Runs -/

section Runs

variable [Platform]

/-- What happens to the files. -/
inductive FileOp : Type
  | flush (batch : List WalEntry) (stop : Option Nat)
  | compact (entries : List SnapshotEntry) (stop : CompactStop)
  | start

/-- What happens to the log. -/
inductive LogOp : Type
  | flush (batch : List WalEntry) (outcome : WriteOutcome)
  | compact (entries : List SnapshotEntry) (outcome : Log.CompactOutcome)
  | reopen

/-- What the operation gives back: the stamped lines, or the recovered index. -/
inductive LogReply : Type
  | written (result : Except String (List WalEntry))
  | compacted
  | started (result : Except String Recovery)

/-- The process that owns the files; a startup that fails leaves them alone. -/
def FileLog.step (codec : LineCodec) (cfg : HnswConfig) (files : FileLog) : FileOp → FileLog × LogReply
  | .flush batch stop =>
      let flushed := files.flush codec batch stop
      (flushed.1, .written flushed.2)
  | .compact entries stop => (files.compact entries stop, .compacted)
  | .start =>
      let started := files.start codec cfg
      ((started.map Prod.snd).toOption.getD files, .started (started.map Prod.fst))

def Log.step (cfg : HnswConfig) (log : Log) : LogOp → Log × LogReply
  | .flush batch outcome =>
      let flushed := log.flush batch outcome
      (flushed.1, .written flushed.2)
  | .compact entries outcome => (log.compact entries outcome, .compacted)
  | .reopen =>
      let reopened := log.reopen cfg
      ((reopened.map Prod.snd).toOption.getD log, .started (reopened.map Prod.fst))

def FileLog.run (codec : LineCodec) (cfg : HnswConfig) : FileLog → List FileOp → FileLog × List LogReply
  | files, [] => (files, [])
  | files, op :: ops =>
      let next := files.step codec cfg op
      let rest := FileLog.run codec cfg next.1 ops
      (rest.1, next.2 :: rest.2)

def Log.run (cfg : HnswConfig) : Log → List LogOp → Log × List LogReply
  | log, [] => (log, [])
  | log, op :: ops =>
      let next := log.step cfg op
      let rest := Log.run cfg next.1 ops
      (rest.1, next.2 :: rest.2)

omit [Platform] in
/-- The operation of the log that stands for one of the files: the same batch or
the same entries, and a failure for a failure. -/
inductive FileOp.Matches : FileOp → LogOp → Prop
  | flush {batch stop outcome} : (stop = none ↔ outcome = .synced) →
    Matches (.flush batch stop) (.flush batch outcome)
  | compact {entries stop} : Matches (.compact entries stop) (.compact entries stop.outcome)
  | start : Matches .start .reopen

omit [Platform] in
/-- The values are those of the Rust types, and the codec is `serde_json` on
them. -/
def FileOp.Fits (codec : LineCodec) : FileOp → Prop
  | .flush batch _ =>
      ∀ entry ∈ batch, ∀ sequence ≤ u64Max, codec.Writes { entry with sequence := sequence }
  | .compact entries _ => (∀ entry ∈ entries, entry.Fits) ∧ entries.length < 2 ^ 64
  | .start => True

variable {codec : LineCodec} {cfg : HnswConfig} {files : FileLog} {log : Log}

/-- One operation of the files is one of the log. -/
theorem Represents.step (rep : Represents codec files log) {op : FileOp} (fits : op.Fits codec) :
    ∃ logOp, op.Matches logOp ∧
      Represents codec (files.step codec cfg op).1 (log.step cfg logOp).1 ∧
      (files.step codec cfg op).2 = (log.step cfg logOp).2 := by
  cases op with
  | flush batch stop =>
      obtain ⟨outcome, same, next, reply⟩ := rep.flush fits stop
      exact ⟨.flush batch outcome, .flush same, next, congrArg LogReply.written reply⟩
  | compact entries stop =>
      exact ⟨.compact entries stop.outcome, .compact, rep.compact fits.1 fits.2 stop, rfl⟩
  | start =>
      obtain ⟨reply, next⟩ := rep.start_eq cfg
      refine ⟨.reopen, .start, ?_, congrArg LogReply.started reply⟩
      unfold FileLog.step Log.step
      cases started : files.start codec cfg with
      | error msg =>
          rw [started] at reply
          cases reopened : log.reopen cfg with
          | error other => exact rep
          | ok pair =>
              rw [reopened] at reply
              cases reply
      | ok pair =>
          rw [started] at reply
          cases reopened : log.reopen cfg with
          | error other =>
              rw [reopened] at reply
              cases reply
          | ok other =>
              rw [reopened] at reply
              have same : pair.1 = other.1 := Except.ok.inj reply
              exact next pair.1 pair.2 other.2 started (same ▸ reopened)

/-- Every run of the files is a run of the log, with the same replies and the
same recovered index at every startup: batches cut at any byte, snapshots cut at
any byte of the temporary file or stopped before the log is emptied, in any
order.  At its end the files hold what the log says.  A batch may hold floats that
are not finite: both startups skip its lines. -/
theorem files_refine_log (cfg : HnswConfig) (rep : Represents codec files log) {ops : List FileOp}
    (fits : ∀ op ∈ ops, op.Fits codec) :
    ∃ logOps, List.Forall₂ FileOp.Matches ops logOps ∧
      Represents codec (files.run codec cfg ops).1 (log.run cfg logOps).1 ∧
      (files.run codec cfg ops).2 = (log.run cfg logOps).2 := by
  induction ops generalizing files log with
  | nil => exact ⟨[], .nil, rep, rfl⟩
  | cons op ops ih =>
      obtain ⟨logOp, same, next, reply⟩ := rep.step (fits op List.mem_cons_self)
      obtain ⟨logOps, rest, last, replies⟩ :=
        ih next fun later mem => fits later (List.mem_cons_of_mem _ mem)
      refine ⟨logOp :: logOps, .cons same rest, last, ?_⟩
      change _ :: _ = _ :: _
      rw [reply, replies]

end Runs

section Example

/-- A sequence number in decimal. -/
def decimalBytes (n : Nat) : Bytes := (Nat.toDigits 10 n).map fun c => UInt8.ofNat c.toNat

/-- `sampleEntry`, or the same with an infinite float. -/
def numberedEntry (finite : Bool) (n : Nat) : WalEntry :=
  { sampleEntry with
    embedding := if finite then sampleEntry.embedding else [0x7F800000#32]
    sequence := n }

def numberedFront (finite : Bool) : Bytes :=
  asciiBytes "\x7b\"uuid\":\"u\",\"embedding\":[" ++
    (asciiBytes (if finite then "1.0" else "null") ++ asciiBytes
      "],\"response\":\"r\",\"query_text\":\"q\",\"model_id\":\"m\",\"sequence\":")

def numberedBack : Bytes := asciiBytes ",\"inserted_at\":0\x7d"

/-- The line that `serde_json` writes for it. -/
def numberedText (finite : Bool) (n : Nat) : Bytes :=
  numberedFront finite ++ (decimalBytes n ++ numberedBack)

/-- A codec that knows these lines. -/
def numberedCodec : LineCodec where
  encode entry := numberedText entry.isFinite entry.sequence
  decode line :=
    let body := line.dropWhile isJsonSpace
    let digits := (body.drop (numberedFront true).length).takeWhile (· != 0x2C)
    let n := Nat.ofDigitChars 10 (digits.map fun b => Char.ofNat b.toNat) 0
    if body = numberedText true n then some (numberedEntry true n) else none

theorem numberedEntry_isFinite (finite : Bool) (n : Nat) :
    (numberedEntry finite n).isFinite = finite := by
  cases finite with
  | true => rfl
  | false => rfl

theorem numberedCodec_encode (finite : Bool) (n : Nat) :
    numberedCodec.encode (numberedEntry finite n) = numberedText finite n := by
  change numberedText (numberedEntry finite n).isFinite n = _
  rw [numberedEntry_isFinite]

theorem digit_of_mem_decimalBytes {n : Nat} {b : UInt8} (mem : b ∈ decimalBytes n) :
    0x30 ≤ b ∧ b ≤ 0x39 := by
  obtain ⟨c, inDigits, rfl⟩ := List.mem_map.mp mem
  have digit := Nat.isDigit_of_mem_toDigits (by decide) (by decide) inDigits
  simp only [Char.isDigit, Bool.and_eq_true, decide_eq_true_eq, ge_iff_le, UInt32.le_iff_toNat_le,
    UInt8.le_iff_toNat_le] at digit ⊢
  have value : c.toNat = c.val.toNat := rfl
  have small : (UInt8.ofNat c.toNat).toNat = c.val.toNat := by
    rw [UInt8.toNat_ofNat', value]
    have upper : c.val.toNat ≤ 57 := digit.2
    omega
  rw [small]
  exact digit

theorem ofDigitChars_decimalBytes (n : Nat) :
    Nat.ofDigitChars 10 ((decimalBytes n).map fun b => Char.ofNat b.toNat) 0 = n := by
  have same : (decimalBytes n).map (fun b => Char.ofNat b.toNat) = Nat.toDigits 10 n := by
    unfold decimalBytes
    rw [List.map_map]
    refine (List.map_congr_left fun c inDigits => ?_).trans (List.map_id _)
    have digit := Nat.isDigit_of_mem_toDigits (by decide) (by decide) inDigits
    simp only [Char.isDigit, Bool.and_eq_true, decide_eq_true_eq, ge_iff_le,
      UInt32.le_iff_toNat_le] at digit
    have upper : c.toNat ≤ 57 := digit.2
    change Char.ofNat (UInt8.ofNat c.toNat).toNat = c
    rw [UInt8.toNat_ofNat', Nat.mod_eq_of_lt (by omega), Char.ofNat_toNat]
  rw [same, Nat.ofDigitChars_ten_toDigits]

/-- The braces of a line. -/
theorem count_numberedText (finite : Bool) (n : Nat) :
    (numberedText finite n).count 0x7B = 1 ∧ (numberedText finite n).count 0x7D = 1 := by
  have none : ∀ b : UInt8, 0x39 < b → (decimalBytes n).count b = 0 := by
    intro b above
    refine List.count_eq_zero_of_not_mem fun mem => ?_
    exact absurd (digit_of_mem_decimalBytes mem).2 (UInt8.not_le.mpr above)
  have parts : ∀ finite, (numberedFront finite).count 0x7B = 1 ∧
      (numberedFront finite).count 0x7D = 0 ∧
      numberedBack.count 0x7B = 0 ∧ numberedBack.count 0x7D = 1 := by decide +kernel
  unfold numberedText
  simp only [List.count_append, none 0x7B (by decide), none 0x7D (by decide), parts finite]
  exact ⟨trivial, trivial⟩

theorem numberedText_shape (finite : Bool) (n : Nat) :
    ∃ body, numberedText finite n = 0x7B :: (body ++ [0x7D]) := by
  have front : ∀ finite, numberedFront finite = 0x7B :: (numberedFront finite).tail := by
    decide +kernel
  have back : numberedBack = numberedBack.dropLast ++ [0x7D] := by decide +kernel
  refine ⟨(numberedFront finite).tail ++ (decimalBytes n ++ numberedBack.dropLast), ?_⟩
  unfold numberedText
  rw [front, back]
  simp

/-- The two texts part at the embedding. -/
theorem numberedText_ne (n m : Nat) : numberedText false n ≠ numberedText true m := by
  intro same
  unfold numberedText numberedFront at same
  rw [List.append_assoc, List.append_assoc] at same
  cases List.append_cancel_left same

theorem ascii_numberedText {finite : Bool} {n : Nat} {b : UInt8}
    (mem : b ∈ numberedText finite n) : b < 0x80 ∧ b ≠ newline := by
  have fixed : ∀ finite, ∀ b ∈ numberedFront finite ++ numberedBack, b < 0x80 ∧ b ≠ newline := by
    decide +kernel
  rcases List.mem_append.mp mem with front | rest
  · exact fixed finite b (List.mem_append_left _ front)
  · rcases List.mem_append.mp rest with digits | back
    · obtain ⟨lower, upper⟩ := digit_of_mem_decimalBytes digits
      have below : (0x39 : UInt8) < 0x80 := by decide
      refine ⟨UInt8.lt_of_le_of_lt upper below, ?_⟩
      rintro rfl
      exact absurd lower (by decide)
    · exact fixed finite b (List.mem_append_right _ back)

theorem numberedCodec_decode {line : Bytes} {n : Nat}
    (body : line.dropWhile isJsonSpace = numberedText true n) :
    numberedCodec.decode line = some (numberedEntry true n) := by
  have comma : numberedBack = 0x2C :: numberedBack.tail := by decide +kernel
  have digits : (decimalBytes n ++ numberedBack).takeWhile (· != 0x2C) = decimalBytes n := by
    have plain : ∀ b ∈ decimalBytes n, (b != 0x2C) = true := by
      intro b mem
      refine bne_iff_ne.mpr ?_
      rintro rfl
      exact absurd (digit_of_mem_decimalBytes mem).1 (by decide)
    rw [List.takeWhile_append_of_pos plain, comma, List.takeWhile_cons_of_neg (by decide),
      List.append_nil]
  simp only [numberedCodec, body]
  rw [numberedText, List.drop_left, digits, ofDigitChars_decimalBytes]
  exact if_pos rfl

/-- What is decoded ends with a line of the codec. -/
theorem numberedCodec_decode_none {line : Bytes}
    (other : ∀ n, line.dropWhile isJsonSpace ≠ numberedText true n) : numberedCodec.decode line = none :=
  if_neg (other _)

theorem numberedCodec_decode_encode (finite : Bool) (n : Nat) :
    numberedCodec.decode (numberedText finite n) =
      if finite then some (numberedEntry true n) else none := by
  have itself : (numberedText finite n).dropWhile isJsonSpace = numberedText finite n := by
    obtain ⟨body, shape⟩ := numberedText_shape finite n
    rw [shape]
    exact List.dropWhile_cons_of_neg (by decide)
  cases finite with
  | true => exact numberedCodec_decode itself
  | false =>
      refine numberedCodec_decode_none fun m same => ?_
      rw [itself] at same
      exact numberedText_ne n m same

theorem numberedCodec_lawful (finite : Bool) (n : Nat) :
    numberedCodec.Lawful (numberedEntry finite n) := by
  obtain ⟨body, shape⟩ := numberedText_shape finite n
  have encoded := numberedCodec_encode finite n
  refine ⟨fun mem => ?_, ?_, ⟨body, encoded.trans shape⟩, ?_, ?_⟩
  · rw [encoded] at mem
    exact (ascii_numberedText mem).2 rfl
  · rw [encoded]
    have ascii : ∀ b ∈ numberedText finite n, b < 0x80 := fun b mem => (ascii_numberedText mem).1
    have valid := decodeUtf8_append_ascii ascii (show decodeUtf8 [] = some [] by rw [decodeUtf8])
    rw [List.append_nil] at valid
    exact Option.isSome_iff_exists.mpr ⟨_, valid⟩
  · rw [encoded, numberedCodec_decode_encode, numberedEntry_isFinite]
    cases finite with
    | true => rfl
    | false => rfl
  · intro before _
    rw [encoded]
    by_cases space : before.all isJsonSpace = true
    · have gone : before.dropWhile isJsonSpace = [] :=
        List.dropWhile_eq_nil_iff.mpr (List.all_eq_true.mp space)
      have alone : (before ++ numberedText finite n).dropWhile isJsonSpace =
          (numberedText finite n).dropWhile isJsonSpace := by
        rw [dropWhile_append_brace shape, gone, List.nil_append, shape]
        exact (List.dropWhile_cons_of_neg (by decide)).symm
      rw [if_pos space]
      simp only [numberedCodec, alone]
    · rw [if_neg space]
      refine numberedCodec_decode_none fun m same => ?_
      rw [dropWhile_append_brace shape] at same
      obtain ⟨other, otherShape⟩ := numberedText_shape true m
      cases left : before.dropWhile isJsonSpace with
      | nil => exact space (List.all_eq_true.mpr (List.dropWhile_eq_nil_iff.mp left))
      | cons b rest =>
          rw [left, otherShape, List.cons_append] at same
          obtain ⟨rfl, -⟩ := List.cons.inj same
          -- two opening braces
          have twice := (count_numberedText true m).1
          rw [otherShape, ← same, List.count_cons, List.count_append,
            (count_numberedText finite n).1] at twice
          simp at twice

/-- A line is not closed before its end. -/
theorem numberedCodec_unclosed (finite : Bool) (n : Nat) :
    numberedCodec.Unclosed (numberedEntry finite n) := by
  intro before cut missing plain split some strict
  have whole : numberedText finite n = cut ++ missing :=
    (numberedCodec_encode finite n).symm.trans split
  obtain ⟨body, shape⟩ := numberedText_shape finite n
  obtain ⟨rest, brace⟩ := (numberedCodec_lawful finite n).cons_of_cut split some
  refine numberedCodec_decode_none fun m same => ?_
  rw [dropWhile_append_brace brace] at same
  obtain ⟨other, otherShape⟩ := numberedText_shape true m
  have closed : 0x7D ∈ cut := by
    have last := congrArg List.getLast? same
    rw [List.getLast?_append_of_ne_nil _ some, otherShape, ← List.cons_append,
      List.getLast?_concat] at last
    exact List.mem_of_getLast? last
  have again : 0x7D ∈ missing := by
    have last := congrArg List.getLast? whole
    rw [List.getLast?_append_of_ne_nil _ strict, shape, ← List.cons_append,
      List.getLast?_concat] at last
    exact List.mem_of_getLast? last.symm
  -- two closing braces
  have twice := (count_numberedText finite n).2
  have first := List.count_pos_iff.mpr closed
  have second := List.count_pos_iff.mpr again
  rw [whole, List.count_append] at twice
  omega

local instance filesExamplePlatform : Platform := Platform.sample

/-- A batch cut after 20 bytes, a snapshot cut after 40, a startup, a batch behind
the torn line that ends with an infinite float, a snapshot without a truncation,
and a startup. -/
def cutRun : List FileOp :=
  [.flush [numberedEntry true 0, numberedEntry true 0] (some 20),
    .compact [sampleSnapshotEntry] (.temp 40), .start,
    .flush [numberedEntry true 0, numberedEntry true 0, numberedEntry false 0] none,
    .compact [sampleSnapshotEntry] .renamed, .start]

theorem files_refine_log_sample :
    ∃ logOps, List.Forall₂ FileOp.Matches cutRun logOps ∧
      Represents numberedCodec (FileLog.fresh.run numberedCodec ⟨50, none⟩ cutRun).1
        (Log.fresh.run ⟨50, none⟩ logOps).1 ∧
      (FileLog.fresh.run numberedCodec ⟨50, none⟩ cutRun).2 =
        (Log.fresh.run ⟨50, none⟩ logOps).2 := by
  have writes : ∀ batch stop, (∀ entry ∈ batch, ∃ finite, entry = numberedEntry finite 0) →
      FileOp.Fits numberedCodec (.flush batch stop) := by
    intro batch stop numbered entry mem sequence _
    obtain ⟨finite, rfl⟩ := numbered entry mem
    exact ⟨numberedCodec_lawful finite sequence, numberedCodec_unclosed finite sequence⟩
  have fits : ∀ stop, FileOp.Fits numberedCodec (.compact [sampleSnapshotEntry] stop) := by
    refine fun stop => ⟨fun entry mem => ?_, by decide⟩
    rw [List.mem_singleton.mp mem]
    exact sampleSnapshotEntry_fits
  refine files_refine_log _ .fresh fun op mem => ?_
  simp only [cutRun, List.mem_cons, List.not_mem_nil, or_false] at mem
  rcases mem with rfl | rfl | rfl | rfl | rfl | rfl
  · exact writes _ _ (by simp)
  · exact fits _
  · exact trivial
  · exact writes _ _ (by simp)
  · exact fits _
  · exact trivial

end Example

end Ferrocache
