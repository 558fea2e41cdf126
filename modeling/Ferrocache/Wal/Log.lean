import Ferrocache.Index.View
import Ferrocache.Wal.File

/-!
# The log, its snapshots and the recovery

`Wal` with its file and the snapshot file beside it (`wal.rs`, `snapshot.rs`),
and the startup procedure of `main.rs` that reads the two back.  A write may
fail or be cut by a crash after any number of whole lines, and a compaction may
stop before the rename, between the rename and the truncation, or in the
truncation.

`Log.WellCut` is what these operations keep: the sequence numbers increase along
the file, and the watermark separates the lines appended before the snapshot was
taken from those appended since.  Here every line of the file is taken to decode;
`Ferrocache.Wal.Watermark` is about the startup that skips those that do not.
-/

namespace Ferrocache

structure Snapshot : Type where
  entries : List SnapshotEntry
  walSequence : Nat
  deriving DecidableEq

/-- The two files of a node. -/
structure Disk : Type where
  file : File
  snapshot : Option Snapshot
  deriving DecidableEq

/-- `Wal`: the files, and the counter in memory.  `sinceSnapshot` is not in the
code: the lines appended since the snapshot on disk was taken. -/
structure Log : Type where
  disk : Disk
  sequence : Nat
  sinceSnapshot : List WalEntry
  deriving DecidableEq

/-- No files yet. -/
def Log.fresh : Log := ⟨⟨File.empty, none⟩, 0, []⟩

/-! ## Writing -/

def nextSequence (sequence : Nat) : Except String Nat :=
  if sequence + 1 ≤ u64Max then .ok (sequence + 1) else .error "WAL sequence overflow"

/-- The stamping loop of a batch: the counter it leaves, and the stamped lines
unless the counter overflows. -/
def stampBatch (sequence : Nat) : List WalEntry → Nat × Except String (List WalEntry)
  | [] => (sequence, .ok [])
  | entry :: batch =>
    match nextSequence sequence with
    | .error msg => (sequence, .error msg)
    | .ok next =>
      let (last, rest) := stampBatch next batch
      (last, rest.map ({ entry with sequence := next } :: ·))

/-- How `write_batch_bytes` ends. -/
inductive WriteOutcome : Type
  | synced
  /-- an error (or a crash) after `kept` whole lines and a fragment -/
  | failed (kept : Nat) (fragment : Fragment)
  deriving DecidableEq

namespace Log

/-- A write that returns `Ok` has its lines in the file: an error of an earlier
write that tokio reports on the next operation only is not modelled.  The lines
stand as they were written; which of them a startup reads is `File.decoded`. -/
def writeBatchBytes (log : Log) (lines : List WalEntry) :
    WriteOutcome → Log × Except String Unit
  | .synced =>
    ({ log with
        disk := { log.disk with file := log.disk.file.append lines }
        sinceSnapshot := log.sinceSnapshot ++ lines }, .ok ())
  | .failed kept fragment =>
    ({ log with
        disk := { log.disk with file := log.disk.file.appendPart lines kept fragment }
        sinceSnapshot := log.sinceSnapshot ++ lines.take kept }, .error "WAL batch write_all failed")

/-- Stamp a batch and write it as one block. -/
def flush (log : Log) (batch : List WalEntry) (outcome : WriteOutcome) :
    Log × Except String (List WalEntry) :=
  let (sequence, stamped) := stampBatch log.sequence batch
  let log := { log with sequence := sequence }
  match stamped with
  | .error msg => (log, .error msg)
  | .ok lines =>
    let (log, result) := log.writeBatchBytes lines outcome
    (log, result.map fun _ => lines)

/-- How a compaction ends. -/
inductive CompactOutcome : Type
  | compacted
  /-- the snapshot was not renamed into place -/
  | unwritten
  /-- renamed, then the truncation failed before or after it emptied the file -/
  | untruncated (emptied : Bool)
  deriving DecidableEq

/-- `snapshot::compact`, with the entries of the index. -/
def compact (log : Log) (entries : List SnapshotEntry) : CompactOutcome → Log
  | .unwritten => log
  | .compacted => ⟨⟨File.empty, some ⟨entries, log.sequence⟩⟩, log.sequence, []⟩
  | .untruncated emptied =>
    ⟨⟨if emptied then File.empty else log.disk.file, some ⟨entries, log.sequence⟩⟩,
      log.sequence, []⟩

end Log

/-! ## Recovery -/

section Recovery

variable [Platform]

/-- What the startup of `main` has read so far: the index, the highest sequence
number, and the lines the index rejected. -/
structure Recovery : Type where
  index : SemanticIndex
  maxSeq : Nat
  rejected : List WalEntry

def loadSnapshot (cfg : HnswConfig) (snapshot : Option Snapshot) : SemanticIndex :=
  ((snapshot.map (·.entries)).getD []).foldl (fun idx entry => (idx.replaySnapshotEntry entry).1)
    (SemanticIndex.new cfg)

def watermark (snapshot : Option Snapshot) : Nat := (snapshot.map (·.walSequence)).getD 0

/-- One replayed line. -/
def Recovery.replay (r : Recovery) (entry : WalEntry) : Recovery :=
  let maxSeq := if r.maxSeq < entry.sequence then entry.sequence else r.maxSeq
  if entry.tombstone then
    { r with index := (r.index.removeByUuid entry.uuid).1, maxSeq := maxSeq }
  else
    match r.index.replayEntry entry with
    | (index, .ok ()) => { r with index := index, maxSeq := maxSeq }
    | (index, .error _) => ⟨index, maxSeq, r.rejected ++ [entry]⟩

omit [Platform] in
/-- The watermark filter; without a snapshot no line is skipped. -/
def skips (snapshot : Option Snapshot) (entry : WalEntry) : Bool :=
  snapshot.isSome && decide (entry.sequence ≤ watermark snapshot)

def recover (cfg : HnswConfig) (disk : Disk) : Except String Recovery := do
  let lines ← disk.file.replay
  return lines.foldl (fun r entry => if skips disk.snapshot entry then r else r.replay entry)
    ⟨loadSnapshot cfg disk.snapshot, watermark disk.snapshot, []⟩

/-- A startup when every line decodes: recover, then open the log with the highest
sequence number. -/
def Log.restart (cfg : HnswConfig) (log : Log) : Except String (Recovery × Log) := do
  let r ← recover cfg log.disk
  return (r, { log with sequence := r.maxSeq })

omit [Platform] in
/-- The file is left with whole lines. -/
def WriteOutcome.Whole : WriteOutcome → Prop
  | .synced => True
  | .failed _ fragment => fragment = .none

/-! ## Stamping -/

/-- `lines` are the entries of `batch` under increasing sequence numbers above
`first` and up to `last`. -/
structure Stamped (first last : Nat) (batch lines : List WalEntry) : Prop where
  same : List.Forall₂ (fun entry line => line = { entry with sequence := line.sequence }) batch lines
  increasing : lines.Pairwise (·.sequence < ·.sequence)
  above : ∀ line ∈ lines, first < line.sequence
  bounded : ∀ line ∈ lines, line.sequence ≤ last

omit [Platform] in
theorem Stamped.nil (first last : Nat) : Stamped first last [] [] :=
  ⟨.nil, .nil, by simp, by simp⟩

omit [Platform] in
theorem nextSequence_eq_ok {sequence next : Nat} (ok : nextSequence sequence = .ok next) :
    next = sequence + 1 := by
  unfold nextSequence at ok
  split at ok
  · exact (Except.ok.inj ok).symm
  · cases ok

omit [Platform] in
theorem stampBatch_spec (sequence : Nat) (batch : List WalEntry) :
    sequence ≤ (stampBatch sequence batch).1 ∧
      ∀ lines, (stampBatch sequence batch).2 = .ok lines →
        Stamped sequence (stampBatch sequence batch).1 batch lines := by
  induction batch generalizing sequence with
  | nil =>
      refine ⟨Nat.le_refl _, fun lines ok => ?_⟩
      cases ok
      exact .nil _ _
  | cons entry batch ih =>
      unfold stampBatch
      cases found : nextSequence sequence with
      | error msg => exact ⟨Nat.le_refl _, fun lines ok => by cases ok⟩
      | ok next =>
          have step := nextSequence_eq_ok found
          obtain ⟨grows, stamped⟩ := ih next
          dsimp only
          refine ⟨by omega, fun lines ok => ?_⟩
          cases rest : (stampBatch next batch).2 with
          | error msg =>
              rw [rest] at ok
              cases ok
          | ok tail =>
              rw [rest] at ok
              cases ok
              have later := stamped tail rest
              constructor
              · exact .cons rfl later.same
              · exact List.pairwise_cons.mpr ⟨later.above, later.increasing⟩
              · refine List.forall_mem_cons.mpr ⟨by dsimp only; omega, fun line mem => ?_⟩
                have := later.above line mem
                omega
              · exact List.forall_mem_cons.mpr ⟨grows, later.bounded⟩

/-- The batch under consecutive sequence numbers. -/
def stampFrom : Nat → List WalEntry → List WalEntry
  | _, [] => []
  | sequence, entry :: batch =>
    { entry with sequence := sequence + 1 } :: stampFrom (sequence + 1) batch

omit [Platform] in
theorem stampBatch_eq {sequence : Nat} {batch : List WalEntry}
    (room : sequence + batch.length ≤ u64Max) :
    stampBatch sequence batch = (sequence + batch.length, .ok (stampFrom sequence batch)) := by
  induction batch generalizing sequence with
  | nil => rfl
  | cons entry batch ih =>
      rw [List.length_cons] at room
      have next : nextSequence sequence = .ok (sequence + 1) := if_pos (by omega)
      have rest := @ih (sequence + 1) (by omega)
      unfold stampBatch
      rw [next]
      dsimp only
      rw [rest]
      simp only [List.length_cons, Prod.mk.injEq]
      exact ⟨by omega, rfl⟩

omit [Platform] in
/-- A written batch. -/
theorem Log.flush_synced {log : Log} {batch : List WalEntry}
    (room : log.sequence + batch.length ≤ u64Max) :
    log.flush batch .synced =
      (⟨⟨log.disk.file.append (stampFrom log.sequence batch), log.disk.snapshot⟩,
        log.sequence + batch.length, log.sinceSnapshot ++ stampFrom log.sequence batch⟩,
        .ok (stampFrom log.sequence batch)) := by
  unfold Log.flush
  rw [stampBatch_eq room]
  rfl

omit [Platform] in
/-- A stamped line is an entry of the batch but for its sequence number. -/
theorem Stamped.origin {first last : Nat} {batch lines : List WalEntry}
    (stamped : Stamped first last batch lines) {line : WalEntry} (mem : line ∈ lines) :
    ∃ entry ∈ batch, line = { entry with sequence := line.sequence } := by
  have same := stamped.same
  clear stamped
  induction same with
  | nil => cases mem
  | cons head _ ih =>
      rcases List.mem_cons.mp mem with rfl | later
      · exact ⟨_, List.mem_cons_self, head⟩
      · obtain ⟨entry, inBatch, eq⟩ := ih later
        exact ⟨entry, List.mem_cons_of_mem _ inBatch, eq⟩

omit [Platform] in
/-- Stamping changes no embedding. -/
theorem Stamped.forall_isFinite {first last : Nat} {batch lines : List WalEntry}
    (stamped : Stamped first last batch lines) :
    (∀ line ∈ lines, line.isFinite = true) ↔ ∀ entry ∈ batch, entry.isFinite = true := by
  have same := stamped.same
  clear stamped
  induction same with
  | nil => simp
  | @cons entry line _ _ head _ ih =>
      have floats : line.isFinite = entry.isFinite := by
        rw [head]
        rfl
      rw [List.forall_mem_cons, List.forall_mem_cons, floats]
      exact and_congr_right fun _ => ih

omit [Platform] in
theorem Stamped.take {first last : Nat} {batch lines : List WalEntry}
    (stamped : Stamped first last batch lines) (kept : Nat) :
    Stamped first last (batch.take kept) (lines.take kept) where
  same := List.forall₂_take kept stamped.same
  increasing := stamped.increasing.sublist (List.take_sublist _ _)
  above line mem := stamped.above line (List.mem_of_mem_take mem)
  bounded line mem := stamped.bounded line (List.mem_of_mem_take mem)

/-! ## Batches -/

omit [Platform] in
/-- The log with lines appended and the counter advanced. -/
def Log.extend (log : Log) (lines : List WalEntry) (last : Nat) : Log :=
  ⟨⟨{ log.disk.file with lines := log.disk.file.lines ++ lines }, log.disk.snapshot⟩, last,
    log.sinceSnapshot ++ lines⟩

omit [Platform] in
/-- What writing a batch can do to a log of whole lines: the counter overflows,
the batch is written, or the write fails after some of its lines. -/
theorem Log.flush_cases {log : Log} (whole : log.disk.file.tail = .whole)
    (batch : List WalEntry) {outcome : WriteOutcome} (noFragment : outcome.Whole) :
    ∃ last, log.sequence ≤ last ∧
      ((∃ msg, log.flush batch outcome = (log.extend [] last, .error msg)) ∨
        ∃ lines, Stamped log.sequence last batch lines ∧
          stampBatch log.sequence batch = (last, .ok lines) ∧
          ((outcome = .synced ∧ log.flush batch outcome = (log.extend lines last, .ok lines)) ∨
            ∃ kept msg, outcome = .failed kept .none ∧
              log.flush batch outcome = (log.extend (lines.take kept) last, .error msg))) := by
  obtain ⟨grows, stamped⟩ := stampBatch_spec log.sequence batch
  refine ⟨_, grows, ?_⟩
  unfold Log.flush
  rcases run : stampBatch log.sequence batch with ⟨last, result⟩
  rw [run] at grows stamped
  dsimp only at grows stamped ⊢
  cases result with
  | error msg =>
      refine .inl ⟨msg, ?_⟩
      simp [Log.extend]
  | ok lines =>
      refine .inr ⟨lines, stamped lines rfl, rfl, ?_⟩
      cases outcome with
      | synced =>
          refine .inl ⟨rfl, ?_⟩
          simp only [Log.writeBatchBytes, File.append_whole whole]
          rfl
      | failed kept fragment =>
          cases noFragment
          refine .inr ⟨kept, "WAL batch write_all failed", rfl, ?_⟩
          simp only [Log.writeBatchBytes, File.appendPart_none whole]
          rfl

omit [Platform] in
/-- A flush that succeeds has stamped its batch and appended it. -/
theorem Log.flush_ok {log log' : Log} {batch lines : List WalEntry} {outcome : WriteOutcome}
    (flushed : log.flush batch outcome = (log', .ok lines)) :
    Stamped log.sequence log'.sequence batch lines ∧
      log'.sinceSnapshot = log.sinceSnapshot ++ lines := by
  obtain ⟨-, stamped⟩ := stampBatch_spec log.sequence batch
  unfold Log.flush at flushed
  rcases run : stampBatch log.sequence batch with ⟨last, _ | written⟩
  · rw [run] at flushed
    cases flushed
  · rw [run] at flushed stamped
    cases outcome with
    | synced =>
        cases flushed
        exact ⟨stamped written rfl, rfl⟩
    | failed kept fragment => cases flushed

omit [Platform] in
/-- What holds of every line of the file and of the stamped batch. -/
theorem Log.all_flush {Q : WalEntry → Prop} {log : Log} (all : log.disk.file.All Q)
    {batch : List WalEntry} (each : ∀ last lines, Stamped log.sequence last batch lines →
      last = (stampBatch log.sequence batch).1 → ∀ line ∈ lines, Q line) (outcome : WriteOutcome) :
    (log.flush batch outcome).1.disk.file.All Q ∧
      (log.flush batch outcome).1.disk.snapshot = log.disk.snapshot := by
  obtain ⟨-, stamped⟩ := stampBatch_spec log.sequence batch
  unfold Log.flush
  rcases run : stampBatch log.sequence batch with ⟨last, _ | lines⟩
  · exact ⟨all, rfl⟩
  · rw [run] at stamped each
    have new := each last lines (stamped lines rfl) rfl
    cases outcome with
    | synced => exact ⟨all.append new, rfl⟩
    | failed kept fragment => exact ⟨all.appendPart new kept fragment, rfl⟩

omit [Platform] in
theorem Log.all_compact {Q : WalEntry → Prop} {log : Log} (all : log.disk.file.All Q)
    (entries : List SnapshotEntry) (outcome : Log.CompactOutcome) :
    (log.compact entries outcome).disk.file.All Q := by
  cases outcome with
  | unwritten => exact all
  | compacted => exact .empty
  | untruncated emptied =>
      cases emptied with
      | true => exact .empty
      | false => exact all

/-! ## The watermark -/

/-- The snapshot's watermark separates the lines appended before it was taken
from those appended since. -/
structure Log.WellCut (log : Log) : Prop where
  whole : log.disk.file.tail = .whole
  readable : log.disk.file.unreadable = false
  increasing : log.disk.file.lines.Pairwise (·.sequence < ·.sequence)
  bounded : ∀ line ∈ log.disk.file.lines, line.sequence ≤ log.sequence
  watermark_le : watermark log.disk.snapshot ≤ log.sequence
  cut : ∃ before, log.disk.file.lines = before ++ log.sinceSnapshot ∧
    (∀ line ∈ before, skips log.disk.snapshot line = true) ∧
      ∀ line ∈ log.sinceSnapshot, skips log.disk.snapshot line = false

namespace Log.WellCut

variable {log : Log}

omit [Platform] in
theorem fresh : WellCut Log.fresh :=
  ⟨rfl, rfl, .nil, by simp [Log.fresh, File.empty], Nat.le_refl _, [], rfl, by simp,
    by simp [Log.fresh]⟩

omit [Platform] in
/-- A line above the watermark is replayed. -/
theorem skips_of_lt {snapshot : Option Snapshot} {line : WalEntry}
    (above : watermark snapshot < line.sequence) : skips snapshot line = false := by
  simp [skips, Nat.not_le.mpr above]

omit [Platform] in
/-- Appending stamped lines keeps the cut. -/
theorem extend (wc : log.WellCut) {last : Nat} {batch lines : List WalEntry}
    (grows : log.sequence ≤ last) (stamped : Stamped log.sequence last batch lines) :
    (log.extend lines last).WellCut := by
  obtain ⟨before, split, skipped, replayed⟩ := wc.cut
  have below := wc.watermark_le
  constructor
  case whole => exact wc.whole
  case readable => exact wc.readable
  case increasing =>
    refine List.pairwise_append.mpr ⟨wc.increasing, stamped.increasing, fun old mem new mem' => ?_⟩
    exact Nat.lt_of_le_of_lt (wc.bounded old mem) (stamped.above new mem')
  case bounded =>
    intro line mem
    rcases List.mem_append.mp mem with old | new
    · exact Nat.le_trans (wc.bounded line old) grows
    · exact stamped.bounded line new
  case watermark_le => exact Nat.le_trans below grows
  case cut =>
    refine ⟨before, ?_, skipped, fun line mem => ?_⟩
    · change log.disk.file.lines ++ lines = before ++ (log.sinceSnapshot ++ lines)
      rw [split, List.append_assoc]
    · rcases List.mem_append.mp mem with old | new
      · exact replayed line old
      · exact skips_of_lt (Nat.lt_of_le_of_lt below (stamped.above line new))

omit [Platform] in
theorem flush (wc : log.WellCut) (batch : List WalEntry) {outcome : WriteOutcome}
    (noFragment : outcome.Whole) : (log.flush batch outcome).1.WellCut := by
  obtain ⟨last, grows, ⟨msg, overflow⟩ | ⟨lines, stamped, -, written⟩⟩ :=
    Log.flush_cases wc.whole batch noFragment
  · rw [overflow]
    exact wc.extend grows (.nil _ _)
  · rcases written with ⟨-, synced⟩ | ⟨kept, msg, -, failed⟩
    · rw [synced]
      exact wc.extend grows stamped
    · rw [failed]
      exact wc.extend grows (stamped.take kept)

omit [Platform] in
theorem compact (wc : log.WellCut) (entries : List SnapshotEntry) (outcome : Log.CompactOutcome) :
    (log.compact entries outcome).WellCut := by
  -- every line of the file is at or below the new watermark
  have covered : ∀ line ∈ log.disk.file.lines, skips (some ⟨entries, log.sequence⟩) line = true :=
    fun line mem => by simp [skips, watermark, wc.bounded line mem]
  have emptied : WellCut ⟨⟨File.empty, some ⟨entries, log.sequence⟩⟩, log.sequence, []⟩ :=
    ⟨rfl, rfl, .nil, fun _ mem => absurd mem List.not_mem_nil, Nat.le_refl _, [], rfl,
      fun _ mem => absurd mem List.not_mem_nil, fun _ mem => absurd mem List.not_mem_nil⟩
  cases outcome with
  | unwritten => exact wc
  | compacted => exact emptied
  | untruncated cleared =>
      cases cleared with
      | true => exact emptied
      | false =>
          exact ⟨wc.whole, wc.readable, wc.increasing, wc.bounded, Nat.le_refl _,
            log.disk.file.lines, (List.append_nil _).symm, covered,
            fun _ mem => absurd mem List.not_mem_nil⟩

omit [Platform] in
/-- The lines a startup skips are those appended before the snapshot, the lines
it replays are those appended since. -/
theorem filter_skips (wc : log.WellCut) : ∃ before,
    log.disk.file.lines = before ++ log.sinceSnapshot ∧
      log.disk.file.lines.filter (skips log.disk.snapshot) = before ∧
        log.disk.file.lines.filter (fun line => !skips log.disk.snapshot line) =
          log.sinceSnapshot := by
  obtain ⟨before, split, skipped, replayed⟩ := wc.cut
  refine ⟨before, split, ?_, ?_⟩
  · rw [split, List.filter_append, List.filter_eq_self.mpr skipped,
      List.filter_eq_nil_iff.mpr fun line mem => by simp [replayed line mem], List.append_nil]
  · rw [split, List.filter_append,
      List.filter_eq_nil_iff.mpr fun line mem => by simp [skipped line mem],
      List.filter_eq_self.mpr fun line mem => by simp [replayed line mem], List.nil_append]

/-- A startup loads the snapshot and replays the lines appended since. -/
theorem recover_eq (wc : log.WellCut) (cfg : HnswConfig) :
    recover cfg log.disk = .ok (log.sinceSnapshot.foldl Recovery.replay
      ⟨loadSnapshot cfg log.disk.snapshot, watermark log.disk.snapshot, []⟩) := by
  obtain ⟨before, -, -, replayed⟩ := wc.filter_skips
  unfold recover
  rw [File.replay_whole wc.whole wc.readable, ← replayed, List.foldl_filter]
  simp only [Bool.not_eq_true', bind, Except.bind, pure, Except.pure]
  congr 2
  funext r line
  cases skips log.disk.snapshot line <;> rfl

end Log.WellCut

theorem Recovery.replay_maxSeq (r : Recovery) (entry : WalEntry) :
    (r.replay entry).maxSeq = max r.maxSeq entry.sequence := by
  have bigger : (if r.maxSeq < entry.sequence then entry.sequence else r.maxSeq) =
      max r.maxSeq entry.sequence := by
    split <;> omega
  unfold Recovery.replay
  rw [bigger]
  dsimp only
  split
  · rfl
  · rcases r.index.replayEntry entry with ⟨idx, _ | _⟩
    · rfl
    · rfl

/-- A replayed line does to the index what its flush did. -/
theorem Recovery.replay_index (r : Recovery) (entry : WalEntry) :
    (r.replay entry).index = (r.index.replayEntry entry).1 := by
  unfold Recovery.replay
  dsimp only
  split
  · next tomb => rw [SemanticIndex.replayEntry_of_tombstone tomb]
  · rcases r.index.replayEntry entry with ⟨idx, _ | _⟩
    · rfl
    · rfl

/-- What an empty index satisfies, and every snapshot record and every line of the
files keeps, is true of the recovered index. -/
theorem recover_induction {cfg : HnswConfig} {disk : Disk} {motive : SemanticIndex → Prop}
    (new : motive (.new cfg))
    (entry : ∀ idx, motive idx → ∀ s ∈ (disk.snapshot.map (·.entries)).getD [],
      motive (idx.replaySnapshotEntry s).1)
    (line : ∀ idx, motive idx → ∀ lines, disk.file.replay = .ok lines → ∀ l ∈ lines,
      motive (idx.replayEntry l).1)
    {r : Recovery} (read : recover cfg disk = .ok r) : motive r.index := by
  unfold recover at read
  cases lines : disk.file.replay with
  | error msg =>
      rw [lines] at read
      cases read
  | ok replayed =>
      rw [lines] at read
      cases read
      refine List.foldlRecOn (motive := fun r : Recovery => motive r.index) replayed _
        (List.foldlRecOn _ _ new entry) fun r kept l mem => ?_
      split
      · exact kept
      · rw [Recovery.replay_index]
        exact line r.index kept replayed lines l mem

theorem Recovery.foldl_replay_index (r : Recovery) (lines : List WalEntry) :
    (lines.foldl Recovery.replay r).index =
      lines.foldl (fun idx line => (idx.replayEntry line).1) r.index := by
  induction lines generalizing r with
  | nil => rfl
  | cons line lines ih => rw [List.foldl_cons, ih, Recovery.replay_index, List.foldl_cons]

theorem Recovery.mem_replay_rejected (r : Recovery) (entry line : WalEntry) :
    line ∈ (r.replay entry).rejected ↔
      line ∈ r.rejected ∨ line = entry ∧ (r.index.replayEntry entry).2 ≠ .ok () := by
  unfold Recovery.replay
  dsimp only
  split
  · next tomb => simp [SemanticIndex.replayEntry_of_tombstone tomb]
  · rcases r.index.replayEntry entry with ⟨idx, _ | _⟩
    · simp
    · simp

/-- The lines rejected by a recovery are those whose insertion fails after the
lines before them. -/
theorem Recovery.mem_foldl_replay_rejected (r : Recovery) (lines : List WalEntry) (line : WalEntry) :
    line ∈ (lines.foldl Recovery.replay r).rejected ↔ line ∈ r.rejected ∨
      ∃ pre post, lines = pre ++ line :: post ∧
        ((pre.foldl (fun idx l => (idx.replayEntry l).1) r.index).replayEntry line).2 ≠ .ok () := by
  induction lines generalizing r with
  | nil => simp
  | cons entry lines ih =>
      rw [List.foldl_cons, ih (r.replay entry), Recovery.mem_replay_rejected,
        Recovery.replay_index]
      constructor
      · rintro ((before | ⟨rfl, refused⟩) | ⟨pre, post, rfl, refused⟩)
        · exact .inl before
        · exact .inr ⟨[], lines, rfl, refused⟩
        · exact .inr ⟨entry :: pre, post, rfl, refused⟩
      · rintro (before | ⟨_ | ⟨head, pre⟩, post, split, refused⟩)
        · exact .inl (.inl before)
        · cases split
          exact .inl (.inr ⟨rfl, refused⟩)
        · cases split
          exact .inr ⟨pre, post, rfl, refused⟩

theorem Recovery.foldl_replay_maxSeq (r : Recovery) (lines : List WalEntry) :
    r.maxSeq ≤ (lines.foldl Recovery.replay r).maxSeq ∧
      ∀ line ∈ lines, line.sequence ≤ (lines.foldl Recovery.replay r).maxSeq := by
  induction lines generalizing r with
  | nil => exact ⟨Nat.le_refl _, by simp⟩
  | cons line lines ih =>
      obtain ⟨grows, covers⟩ := ih (r.replay line)
      rw [Recovery.replay_maxSeq] at grows
      rw [List.foldl_cons]
      refine ⟨by omega, List.forall_mem_cons.mpr ⟨by omega, covers⟩⟩

theorem wellFormed_of_recover {cfg : HnswConfig} {disk : Disk} {r : Recovery}
    (read : recover cfg disk = .ok r) : r.index.WellFormed :=
  recover_induction (SemanticIndex.wellFormed_new cfg)
    (fun _ good s _ => good.insertInto s.modelId s.cacheEntry)
    (fun _ good _ _ line _ => good.replayEntry line) read

/-- A startup recovers, and leaves the files as they are. -/
theorem Log.restart_recover {log log' : Log} {cfg : HnswConfig} {r : Recovery}
    (started : log.restart cfg = .ok (r, log')) :
    recover cfg log.disk = .ok r ∧ log'.disk = log.disk ∧
      log'.sinceSnapshot = log.sinceSnapshot := by
  unfold Log.restart at started
  cases read : recover cfg log.disk with
  | error msg =>
      rw [read] at started
      cases started
  | ok r' =>
      rw [read] at started
      cases started
      exact ⟨rfl, rfl, rfl⟩

/-- A log cut inside a line recovers as one cut between two lines, if it recovers
at all. -/
theorem Log.recover_flush_failed {cfg : HnswConfig} {log : Log}
    (whole : log.disk.file.tail = .whole) (batch : List WalEntry) (kept : Nat)
    (fragment : Fragment) {r : Recovery}
    (read : recover cfg (log.flush batch (.failed kept fragment)).1.disk = .ok r) :
    ∃ kept', recover cfg (log.flush batch (.failed kept' .none)).1.disk = .ok r := by
  unfold Log.flush at read ⊢
  rcases run : stampBatch log.sequence batch with ⟨last, msg | lines⟩
  · rw [run] at read
    exact ⟨kept, read⟩
  · rw [run] at read
    dsimp only [Log.writeBatchBytes] at read ⊢
    unfold recover at read ⊢
    dsimp only at read ⊢
    cases replayed : (log.disk.file.appendPart lines kept fragment).replay with
    | error msg =>
        rw [replayed] at read
        cases read
    | ok all =>
        obtain ⟨kept', same⟩ := File.replay_appendPart whole lines kept fragment replayed
        refine ⟨kept', ?_⟩
        rw [replayed] at read
        rw [same]
        exact read

/-- The recomputed counter is above every line of the file. -/
theorem Log.WellCut.restart {log log' : Log} {cfg : HnswConfig} {r : Recovery}
    (wc : log.WellCut) (started : log.restart cfg = .ok (r, log')) : log'.WellCut := by
  unfold Log.restart at started
  rw [wc.recover_eq cfg] at started
  cases started
  obtain ⟨grows, covers⟩ := Recovery.foldl_replay_maxSeq
    ⟨loadSnapshot cfg log.disk.snapshot, watermark log.disk.snapshot, []⟩ log.sinceSnapshot
  obtain ⟨before, split, skipped, replayed⟩ := wc.cut
  refine ⟨wc.whole, wc.readable, wc.increasing, fun line mem => ?_, grows, wc.cut⟩
  rw [split] at mem
  rcases List.mem_append.mp mem with old | new
  · have below := skipped line old
    simp only [skips, Bool.and_eq_true, decide_eq_true_eq] at below
    exact Nat.le_trans below.2 grows
  · exact covers line new

/-- What a startup from a log in order rebuilds. -/
theorem Log.WellCut.restart_index {log log' : Log} {cfg : HnswConfig} {r : Recovery}
    (wc : log.WellCut) (started : log.restart cfg = .ok (r, log')) :
    r.index = log.sinceSnapshot.foldl (fun idx line => (idx.replayEntry line).1)
      (loadSnapshot cfg log.disk.snapshot) := by
  have read := (Log.restart_recover started).1
  rw [wc.recover_eq cfg] at read
  cases read
  exact Recovery.foldl_replay_index _ _

end Recovery

end Ferrocache
