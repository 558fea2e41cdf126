import Ferrocache.Wal.Log

/-!
# The watermark of a snapshot

A startup reads the log file with `Wal::replay`, which skips a line with a float
that is not finite: the line is neither applied nor counted, so its sequence
number may be given out again.  `watermark_cuts_exactly` is about every run of
batches, compactions and startups that leaves no such line in the file: the
sequence numbers increase along the file, and a startup replays exactly the lines
appended since its snapshot was taken.  `skipped_line_reissues_number` is a run
with one such line.
-/

namespace Ferrocache

section Watermark

variable [Platform]

omit [Platform] in
/-- The files as a startup reads them. -/
def Disk.decoded (disk : Disk) : Disk := { disk with file := disk.file.decoded }

omit [Platform] in
/-- The lines above the watermark that a startup replays. -/
def Disk.replayed (disk : Disk) : Except String (List WalEntry) :=
  disk.decoded.file.replay.map (·.filter fun line => !skips disk.snapshot line)

/-- The startup of `main`: recover from the lines that decode, then open the log
with the highest sequence number read. -/
def Log.reopen (cfg : HnswConfig) (log : Log) : Except String (Recovery × Log) := do
  let r ← recover cfg log.disk.decoded
  return (r, { log with sequence := r.maxSeq })

omit [Platform] in
theorem Disk.decoded_eq_self {disk : Disk} (finite : disk.file.All (·.isFinite = true)) :
    disk.decoded = disk := by
  unfold Disk.decoded
  rw [File.decoded_eq_self finite]

/-- The two startups differ by the lines that do not decode. -/
theorem Log.reopen_eq_restart {log : Log} (decodes : log.disk.decoded = log.disk)
    (cfg : HnswConfig) : log.reopen cfg = log.restart cfg := by
  unfold Log.reopen Log.restart
  rw [decodes]

omit [Platform] in
/-- The entries of a batch whose lines are whole in the file after the write. -/
def WriteOutcome.left (batch : List WalEntry) : WriteOutcome → List WalEntry
  | .synced => batch
  | .failed kept _ => batch.take kept

omit [Platform] in
/-- Every line that the write leaves in the file has finite floats. -/
def LeavesFinite (batch : List WalEntry) (outcome : WriteOutcome) : Prop :=
  ∀ entry ∈ outcome.left batch, entry.isFinite = true

omit [Platform] in
instance (batch : List WalEntry) (outcome : WriteOutcome) : Decidable (LeavesFinite batch outcome) :=
  inferInstanceAs (Decidable (∀ entry ∈ outcome.left batch, _))

/-- The logs reached by batches, compactions and startups in any order, when every
write leaves whole lines only and meets `guard`. -/
inductive Log.Reachable (cfg : HnswConfig) (guard : List WalEntry → WriteOutcome → Prop) :
    Log → Prop
  | fresh : Reachable cfg guard Log.fresh
  | flush {log : Log} (batch : List WalEntry) (outcome : WriteOutcome) : Reachable cfg guard log →
    outcome.Whole → guard batch outcome → Reachable cfg guard (log.flush batch outcome).1
  | compact {log : Log} (entries : List SnapshotEntry) (outcome : Log.CompactOutcome) :
    Reachable cfg guard log → Reachable cfg guard (log.compact entries outcome)
  | reopen {log log' : Log} {r : Recovery} : Reachable cfg guard log →
    log.reopen cfg = .ok (r, log') → Reachable cfg guard log'

/-- Sequence numbers increase along the file, a startup skips the lines appended
before its snapshot was taken and replays those appended since, and so it does not
matter whether the file was truncated when the snapshot was taken. -/
structure Log.CutsExactly (cfg : HnswConfig) (log : Log) : Prop where
  increasing : log.disk.file.lines.Pairwise (·.sequence < ·.sequence)
  skipped : ∃ before, log.disk.file.lines = before ++ log.sinceSnapshot ∧
    log.disk.file.lines.filter (skips log.disk.snapshot) = before
  replayed : log.disk.replayed = .ok log.sinceSnapshot
  truncated : recover cfg log.disk.decoded =
    recover cfg (Disk.decoded ⟨⟨log.sinceSnapshot, .whole, false⟩, log.disk.snapshot⟩)

/-- A log in order whose lines all decode. -/
structure Log.Legible (log : Log) : Prop where
  wellCut : log.WellCut
  finite : ∀ line ∈ log.disk.file.lines, line.isFinite = true

namespace Log.Legible

variable {cfg : HnswConfig} {log : Log}

omit [Platform] in
theorem decoded (legible : log.Legible) : log.disk.decoded = log.disk := by
  refine Disk.decoded_eq_self ⟨legible.finite, fun entry bare => ?_⟩
  cases legible.wellCut.whole.symm.trans bare

omit [Platform] in
theorem fresh : Legible Log.fresh :=
  ⟨.fresh, fun _ mem => absurd mem List.not_mem_nil⟩

omit [Platform] in
theorem flush (legible : log.Legible) {batch : List WalEntry} {outcome : WriteOutcome}
    (noFragment : outcome.Whole) (finite : LeavesFinite batch outcome) :
    (log.flush batch outcome).1.Legible := by
  refine ⟨legible.wellCut.flush batch noFragment, ?_⟩
  have more : ∀ {last : Nat} {lines : List WalEntry}, (∀ line ∈ lines, line.isFinite = true) →
      ∀ line ∈ (log.extend lines last).disk.file.lines, line.isFinite = true :=
    fun new line mem => (List.mem_append.mp mem).elim (legible.finite line) (new line)
  obtain ⟨last, -, ⟨msg, overflow⟩ | ⟨lines, stamped, -, written⟩⟩ :=
    Log.flush_cases legible.wellCut.whole batch noFragment
  · rw [overflow]
    exact more fun _ mem => absurd mem List.not_mem_nil
  · rcases written with ⟨rfl, synced⟩ | ⟨kept, msg, rfl, failed⟩
    · rw [synced]
      exact more (stamped.forall_isFinite.mpr finite)
    · rw [failed]
      exact more ((stamped.take kept).forall_isFinite.mpr finite)

omit [Platform] in
theorem compact (legible : log.Legible) (entries : List SnapshotEntry)
    (outcome : Log.CompactOutcome) : (log.compact entries outcome).Legible := by
  have none : ∀ line ∈ File.empty.lines, line.isFinite = true :=
    fun _ mem => absurd mem List.not_mem_nil
  refine ⟨legible.wellCut.compact entries outcome, ?_⟩
  cases outcome with
  | unwritten => exact legible.finite
  | compacted => exact none
  | untruncated emptied =>
      cases emptied with
      | true => exact none
      | false => exact legible.finite

theorem reopen (legible : log.Legible) {log' : Log} {r : Recovery}
    (started : log.reopen cfg = .ok (r, log')) : log'.Legible := by
  rw [Log.reopen_eq_restart legible.decoded] at started
  obtain ⟨-, disk, -⟩ := Log.restart_recover started
  refine ⟨legible.wellCut.restart started, ?_⟩
  rw [disk]
  exact legible.finite

omit [Platform] in
/-- The log after a truncation: nothing stands before the snapshot. -/
theorem truncated (legible : log.Legible) :
    Legible ⟨⟨⟨log.sinceSnapshot, .whole, false⟩, log.disk.snapshot⟩, log.sequence,
      log.sinceSnapshot⟩ := by
  have wc := legible.wellCut
  obtain ⟨before, split, -, replayed⟩ := wc.cut
  have suffix : log.sinceSnapshot.Sublist log.disk.file.lines := by
    rw [split]
    exact List.sublist_append_right _ _
  refine ⟨⟨rfl, rfl, wc.increasing.sublist suffix, fun line mem => ?_, wc.watermark_le, [], rfl,
    by simp, replayed⟩, fun line mem => legible.finite line (suffix.subset mem)⟩
  exact wc.bounded line (suffix.subset mem)

theorem cutsExactly (legible : log.Legible) : log.CutsExactly cfg := by
  have wc := legible.wellCut
  obtain ⟨before, split, skipped, replayed⟩ := wc.filter_skips
  constructor
  case increasing => exact wc.increasing
  case skipped => exact ⟨before, split, skipped⟩
  case replayed =>
    unfold Disk.replayed
    rw [legible.decoded, File.replay_whole wc.whole wc.readable]
    exact congrArg Except.ok replayed
  case truncated =>
    have same := legible.truncated.decoded
    dsimp only at same
    rw [same, legible.decoded, wc.recover_eq cfg, legible.truncated.wellCut.recover_eq cfg]

end Log.Legible

theorem Log.Reachable.legible {cfg : HnswConfig} {log : Log}
    (reached : Log.Reachable cfg LeavesFinite log) : log.Legible := by
  induction reached with
  | fresh => exact .fresh
  | flush batch outcome _ noFragment finite ih => exact ih.flush noFragment finite
  | compact entries outcome _ ih => exact ih.compact entries outcome
  | reopen _ started ih => exact ih.reopen started

/-- The log of the next process: it goes on from the highest number read. -/
theorem Log.Reachable.resume {cfg : HnswConfig} {guard : List WalEntry → WriteOutcome → Prop}
    {log : Log} (reached : Log.Reachable cfg guard log) {sequence : Nat}
    (read : (recover cfg log.disk.decoded).map (·.maxSeq) = .ok sequence) :
    Log.Reachable cfg guard { log with sequence := sequence } := by
  cases started : recover cfg log.disk.decoded with
  | error msg =>
      rw [started] at read
      cases read
  | ok r =>
      rw [started] at read
      cases read
      refine reached.reopen (r := r) ?_
      unfold Log.reopen
      rw [started]
      rfl

omit [Platform] in
/-- What a startup replays has finite floats. -/
theorem Disk.isFinite_of_replayed {disk : Disk} (whole : disk.file.tail = .whole)
    {lines : List WalEntry} (read : disk.replayed = .ok lines) :
    ∀ line ∈ lines, line.isFinite = true := by
  unfold Disk.replayed File.replay at read
  rw [show disk.decoded.file.tail = .whole from Tail.decoded_eq_whole.mpr whole] at read
  split at read
  · cases read
  · cases read
    intro line mem
    exact (List.mem_filter.mp (List.mem_filter.mp mem).1).2

omit [Platform] in
/-- A write while the counter has room. -/
theorem Log.flush_of_room {log : Log} (whole : log.disk.file.tail = .whole)
    {batch : List WalEntry} (room : log.sequence + batch.length ≤ u64Max) {outcome : WriteOutcome}
    (noFragment : outcome.Whole) :
    (log.flush batch outcome).1 =
      log.extend (outcome.left (stampFrom log.sequence batch)) (log.sequence + batch.length) := by
  unfold Log.flush
  rw [stampBatch_eq room]
  cases outcome with
  | synced =>
      simp only [Log.writeBatchBytes, File.append_whole whole]
      rfl
  | failed kept fragment =>
      cases noFragment
      simp only [Log.writeBatchBytes, File.appendPart_none whole]
      rfl

omit [Platform] in
theorem Stamped.forall_left_isFinite {first last : Nat} {batch lines : List WalEntry}
    (stamped : Stamped first last batch lines) (outcome : WriteOutcome) :
    (∀ line ∈ outcome.left lines, line.isFinite = true) ↔ LeavesFinite batch outcome := by
  cases outcome with
  | synced => exact stamped.forall_isFinite
  | failed kept fragment => exact (stamped.take kept).forall_isFinite

/-- In every run that leaves only lines with finite floats in the file, the
watermark of every state cuts the log exactly; and from such a state a write keeps
this only if the lines it leaves have finite floats. -/
theorem watermark_cuts_exactly {cfg : HnswConfig} {log : Log}
    (reached : Log.Reachable cfg LeavesFinite log) :
    log.CutsExactly cfg ∧ ∀ batch outcome, outcome.Whole →
      log.sequence + batch.length ≤ u64Max →
        ((log.flush batch outcome).1.CutsExactly cfg ↔ LeavesFinite batch outcome) := by
  have legible := reached.legible
  refine ⟨legible.cutsExactly, fun batch outcome noFragment room => ⟨fun cuts => ?_, fun finite =>
    (legible.flush noFragment finite).cutsExactly⟩⟩
  have wc := legible.wellCut
  have stamped := (stampBatch_spec log.sequence batch).2
  rw [stampBatch_eq room] at stamped
  -- what the write leaves was appended since the snapshot, so it is replayed
  have decodes := Disk.isFinite_of_replayed (wc.flush batch noFragment).whole cuts.replayed
  rw [Log.flush_of_room wc.whole room noFragment] at decodes
  refine ((stamped _ rfl).forall_left_isFinite outcome).mp fun line left => ?_
  exact decodes line (List.mem_append_right _ left)

end Watermark

/-! ## A number given out twice -/

section Example

local instance watermarkExamplePlatform : Platform := Platform.sample

/-- A line with a one-component embedding. -/
def watermarkLine (uuid : String) (component : F32) : WalEntry :=
  ⟨uuid, [component], "r", "q", "m", 0, 0, false, none⟩

/-- One line, and a snapshot of it that leaves the file as it is. -/
def watermarkStart : Log :=
  ((Log.fresh.flush [watermarkLine "u" 1#32] .synced).1).compact [] (.untruncated false)

/-- A tombstone and an insertion after the snapshot, with a startup between them. -/
theorem watermark_cuts_exactly_sample :
    let log := (watermarkStart.flush [.tombstoneEntry "u" "m"] .synced).1
    (log.flush [watermarkLine "v" 2#32] (.failed 1 .none)).1.CutsExactly ⟨0, none⟩ := by
  intro log
  have started : Log.Reachable ⟨0, none⟩ LeavesFinite { log with sequence := 2 } :=
    .resume (.flush _ .synced (.compact _ _ (.flush _ .synced .fresh trivial (by decide)))
      trivial (by decide)) (by decide +kernel)
  exact ((watermark_cuts_exactly started).2 [watermarkLine "v" 2#32] (.failed 1 .none) rfl
    (by decide)).mpr (by decide)

/-- An infinite embedding is appended after the snapshot and skipped by the next
startup, which gives its number to the line after it. -/
theorem skipped_line_reissues_number :
    let appended := (watermarkStart.flush [watermarkLine "v" 0x7F800000#32] .synced).1
    let log := ({ appended with sequence := 1 }.flush [watermarkLine "w" 2#32] .synced).1
    Log.Reachable ⟨0, none⟩ (fun _ _ => True) log ∧
      log.disk.file.lines.map (·.sequence) = [1, 2, 2] ∧
      (log.disk.replayed.map (·.map (·.uuid)), log.sinceSnapshot.map (·.uuid)) =
        (.ok ["w"], ["v", "w"]) ∧
      ¬ log.CutsExactly ⟨0, none⟩ := by
  intro appended log
  have numbers : log.disk.file.lines.map (·.sequence) = [1, 2, 2] := by decide +kernel
  refine ⟨?_, numbers, by decide +kernel, fun cuts => ?_⟩
  · refine .flush _ .synced (.resume (.flush _ .synced (.compact _ _
      (.flush _ .synced .fresh trivial trivial)) trivial trivial) ?_) trivial trivial
    decide +kernel
  · have increasing := List.pairwise_map.mpr cuts.increasing
    rw [numbers] at increasing
    exact absurd increasing (by decide)

end Example

end Ferrocache
