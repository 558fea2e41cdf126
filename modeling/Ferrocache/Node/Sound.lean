import Ferrocache.Node.Effect

/-!
# Applied lines are in the file

In every run whose writes leave whole lines, the log is well cut and the lines
that the flush task has still to apply stand at its end.
-/

namespace Ferrocache.Node

variable [Platform]

structure Sound (n : Node) : Prop where
  log : n.log.WellCut
  pending : n.phase.pending <:+ n.log.sinceSnapshot

variable {cfg : NodeConfig} {n : Node}

omit [Platform] in
theorem sound_new : Sound (new cfg) :=
  ⟨.fresh, List.suffix_rfl⟩

namespace Sound

omit [Platform] in
/-- A line that waits to be applied is in the file. -/
theorem mem_file (sound : Sound n) {line : WalEntry} (waits : line ∈ n.phase.pending) :
    line ∈ n.log.disk.file.lines := by
  obtain ⟨before, split, -⟩ := sound.log.cut
  rw [split]
  exact List.mem_append_right _ (sound.pending.subset waits)

omit [Platform] in
theorem wellCut (sound : Sound n) {whole : Prop} (uncut : whole) {log : Log}
    (change : LogChange n whole log) : log.WellCut := by
  cases change with
  | stays => exact sound.log
  | flushes batch outcome due keeps => exact sound.log.flush batch (keeps uncut)
  | snapshots order visits outcome => exact sound.log.compact _ outcome

theorem act (sound : Sound n) {a : Action} (admissible : n.Admissible cfg a)
    (uncut : WholeLines a) : Sound (n.act cfg a) := by
  rcases act_log admissible with ⟨change, leaves⟩ | ⟨crashed, r, change, started, idle⟩
  · refine ⟨sound.wellCut uncut change, ?_⟩
    rcases leaves with ⟨same, fewer⟩ | idle | ⟨batch, outcome, -, flushed⟩
    · rw [same]
      exact fewer.trans sound.pending
    · rw [idle]
      exact List.nil_suffix
    · -- the lines a flush hands on are the ones it appended last
      rw [(Log.flush_ok flushed).2]
      exact List.suffix_append _ _
  · refine ⟨(sound.wellCut uncut change).restart started, ?_⟩
    rw [idle]
    exact List.nil_suffix

end Sound

theorem Reachable.sound {guard : Node → Action → Prop} (uncut : ∀ n a, guard n a → WholeLines a)
    (reached : Reachable cfg guard n) : Sound n := by
  induction reached with
  | new => exact sound_new
  | act a _ admissible guarded ih => exact ih.act admissible (uncut _ a guarded)

end Ferrocache.Node
