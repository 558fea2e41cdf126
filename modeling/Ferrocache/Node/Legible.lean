import Ferrocache.Node.Effect
import Ferrocache.Wal.Watermark

/-!
# A node that is given finite floats

The machine of the node starts up from the lines of its log file as they were
written, `main` from those that decode.  As long as every float submitted to the
node is finite the two are the same startup, wherever a crash has cut a write
(`Reachable.reopen_eq_restart`).
-/

namespace Ferrocache

theorem WalEntry.IsTombstone.isFinite {entry : WalEntry} (tomb : entry.IsTombstone) :
    entry.isFinite = true := by
  obtain ⟨uuid, modelId, rfl⟩ := tomb
  rfl

namespace Node

/-- Every float that is submitted is finite. -/
def SubmitsFinite : Action → Prop
  | .submit entry => entry.isFinite = true
  | _ => True

/-- Every line that waits or is in the log file has finite floats. -/
structure Legible (n : Node) : Prop where
  queue : ∀ entry, .insert entry ∈ n.queue → entry.isFinite = true
  outbox : ∀ entry ∈ n.outbox, entry.isFinite = true
  batch : ∀ entry ∈ n.phase.batch, entry.isFinite = true
  file : n.log.disk.file.All (·.isFinite = true)

variable [Platform] {cfg : NodeConfig} {n : Node}

omit [Platform] in
/-- The files of the node are read as they were written. -/
theorem Legible.decoded (legible : n.Legible) : n.log.disk.decoded = n.log.disk :=
  Disk.decoded_eq_self legible.file

omit [Platform] in
theorem Legible.change (legible : n.Legible) {whole : Prop} {log : Log}
    (change : LogChange n whole log) : log.disk.file.All (·.isFinite = true) := by
  cases change with
  | stays => exact legible.file
  | flushes batch outcome due _ =>
      have floats : ∀ entry ∈ batch, entry.isFinite = true := fun entry mem =>
        (due entry mem).elim (legible.batch entry) (·.isFinite)
      exact (Log.all_flush legible.file
        (fun _ _ stamped _ => stamped.forall_isFinite.mpr floats) outcome).1
  | snapshots order visits outcome => exact Log.all_compact legible.file _ outcome

theorem Legible.act (legible : n.Legible) {a : Action} (admissible : n.Admissible cfg a)
    (finite : SubmitsFinite a) : (n.act cfg a).Legible := by
  have channel : ChannelEffect n a (n.act cfg a) := act_channel a
  refine ⟨fun entry mem => ?_, fun entry mem => ?_, fun entry mem => ?_, ?_⟩
  · rcases channel.queue entry mem with queued | sent | rfl
    · exact legible.queue entry queued
    · exact legible.outbox entry sent
    · exact finite
  · exact (channel.outbox entry mem).elim (legible.outbox entry) (·.isFinite)
  · exact (channel.batch entry mem).elim (legible.batch entry) (legible.queue entry)
  · rcases act_log admissible with ⟨change, -⟩ | ⟨crashed, r, change, started, -⟩
    · exact legible.change change
    · rw [(Log.restart_recover started).2.1]
      exact legible.change change

omit [Platform] in
theorem legible_new : (new cfg).Legible where
  queue _ mem := absurd mem List.not_mem_nil
  outbox _ mem := absurd mem List.not_mem_nil
  batch _ mem := absurd mem List.not_mem_nil
  file := .empty

theorem Reachable.legible {guard : Node → Action → Prop}
    (finite : ∀ n a, guard n a → SubmitsFinite a) (reached : Reachable cfg guard n) :
    n.Legible := by
  induction reached with
  | new => exact legible_new
  | act a _ admissible guarded ih => exact ih.act admissible (finite _ a guarded)

/-- What the machine starts from after a crash is what `main` starts from. -/
theorem Reachable.reopen_eq_restart {guard : Node → Action → Prop}
    (finite : ∀ n a, guard n a → SubmitsFinite a) (reached : Reachable cfg guard n) {cut : Cut}
    {expireOrder : PassOrder} {now : Nat} (admissible : n.Admissible cfg (.restart cut expireOrder now)) :
    (n.crashLog cfg cut).reopen cfg.hnsw = (n.crashLog cfg cut).restart cfg.hnsw := by
  have change : LogChange n (WholeLines (.restart cut expireOrder now)) (n.crashLog cfg cut) :=
    crashLog_change admissible.1
  exact Log.reopen_eq_restart (Disk.decoded_eq_self ((reached.legible finite).change change)) cfg.hnsw

end Node

end Ferrocache
