import Ferrocache.Node.Effect

/-!
# A node stores only what was submitted to it

Whatever is true of every insertion submitted to a node (of its namespace, its
UUID and its record) is true of every line that waits, of both files and of the
index, through crashes and torn writes.
-/

namespace Ferrocache

variable (P : String → String → Record → Prop)

/-- What an insertion would store satisfies `P`. -/
def WalEntry.Meets (entry : WalEntry) : Prop :=
  entry.tombstone = false → P entry.modelId entry.uuid entry.cacheEntry.record

variable {P}

theorem WalEntry.Meets.of_tombstone {entry : WalEntry} (tomb : entry.tombstone = true) :
    entry.Meets P := fun insert => by
  rw [tomb] at insert
  cases insert

theorem Stamped.meets {first last : Nat} {batch lines : List WalEntry}
    (stamped : Stamped first last batch lines) (meets : ∀ entry ∈ batch, entry.Meets P) :
    ∀ line ∈ lines, line.Meets P := by
  intro line mem
  obtain ⟨entry, inBatch, same⟩ := stamped.origin mem
  rw [same]
  exact meets entry inBatch

/-! ## Files -/

variable (P) in
/-- The lines and the snapshot records of a log. -/
structure Log.Only (log : Log) : Prop where
  file : log.disk.file.All (·.Meets P)
  snapshot : ∀ s ∈ (log.disk.snapshot.map (·.entries)).getD [],
    P s.modelId s.uuid s.cacheEntry.record

namespace Log.Only

variable {log : Log}

theorem flush (only : log.Only P) {batch : List WalEntry} (meets : ∀ entry ∈ batch, entry.Meets P)
    (outcome : WriteOutcome) : (log.flush batch outcome).1.Only P := by
  obtain ⟨file, snapshot⟩ := Log.all_flush only.file
    (fun last lines stamped _ => stamped.meets meets) outcome
  refine ⟨file, ?_⟩
  rw [snapshot]
  exact only.snapshot

theorem compact (only : log.Only P) {entries : List SnapshotEntry}
    (meets : ∀ s ∈ entries, P s.modelId s.uuid s.cacheEntry.record)
    (outcome : Log.CompactOutcome) : (log.compact entries outcome).Only P := by
  refine ⟨Log.all_compact only.file entries outcome, ?_⟩
  cases outcome with
  | unwritten => exact only.snapshot
  | compacted => exact meets
  | untruncated emptied => exact meets

end Log.Only

/-! ## The index -/

section Index

variable [Platform]

variable (P) in
/-- Every live entry. -/
def SemanticIndex.Only (idx : SemanticIndex) : Prop :=
  ∀ m u e, idx.entryAt m u = some e → P m u e.record

namespace SemanticIndex.Only

variable {idx : SemanticIndex}

theorem loses (only : idx.Only P) {idx' : SemanticIndex} {gone : List (String × String)}
    (lost : Loses idx idx' gone) : idx'.Only P := by
  intro m u e live
  have same := lost.live m u
  rw [live] at same
  split at same
  · cases same
  · obtain ⟨old, found, record⟩ := Option.map_eq_some_iff.mp same.symm
    have kept := only m u old found
    rw [record] at kept
    exact kept

theorem insertInto (only : idx.Only P) (wf : idx.WellFormed) {m : String} {entry : CacheEntry}
    (meets : P m entry.uuid entry.record) : (idx.insertInto m entry).1.Only P := by
  by_cases accepted : NamespacedIndex.Accepts (idx.dimensionOf m) entry.embedding.length
  · intro m' u e live
    rw [(insertInto_of_accepts wf accepted).1.live] at live
    split at live
    · next here =>
        obtain ⟨rfl, rfl⟩ := here
        cases old : idx.entryAt m' entry.uuid with
        | none =>
            rw [old] at live
            cases live
            exact meets
        | some kept =>
            rw [old] at live
            cases live
            exact only m' _ kept old
    · exact only m' u e live
  · obtain ⟨msg, rejected⟩ := insertInto_of_not_accepts accepted
    rw [rejected]
    exact only

theorem replayEntry (only : idx.Only P) (wf : idx.WellFormed) {line : WalEntry}
    (meets : line.Meets P) : (idx.replayEntry line).1.Only P := by
  cases kind : line.tombstone with
  | true =>
      obtain ⟨gone, lost, -⟩ := Loses.removeByUuid wf line.uuid
      rw [replayEntry_of_tombstone kind]
      exact only.loses lost
  | false =>
      rw [replayEntry_of_insert kind]
      exact only.insertInto wf (meets kind)

theorem replayLines (only : idx.Only P) (wf : idx.WellFormed) {lines : List WalEntry}
    (meets : ∀ line ∈ lines, line.Meets P) :
    (lines.foldl (fun idx line => (idx.replayEntry line).1) idx).Only P := by
  refine (List.foldlRecOn (motive := fun idx : SemanticIndex => idx.WellFormed ∧ idx.Only P) lines _
    ⟨wf, only⟩ fun idx kept line mem => ?_).2
  exact ⟨kept.1.replayEntry line, kept.2.replayEntry kept.1 (meets line mem)⟩

theorem loadSnapshot (cfg : HnswConfig) {snapshot : Snapshot}
    (meets : ∀ s ∈ snapshot.entries, P s.modelId s.uuid s.cacheEntry.record) :
    (Ferrocache.loadSnapshot cfg (some snapshot)).WellFormed ∧
      (Ferrocache.loadSnapshot cfg (some snapshot)).Only P := by
  refine List.foldlRecOn (motive := fun idx : SemanticIndex => idx.WellFormed ∧ idx.Only P) _ _
    ⟨wellFormed_new cfg, ?_⟩ fun idx kept s mem => ?_
  · intro m u e live
    simp [SemanticIndex.new, SemanticIndex.entryAt] at live
  · exact ⟨kept.1.insertInto _ _, kept.2.insertInto kept.1 (meets s mem)⟩

theorem snapshotEntries (only : idx.Only P) (wf : idx.WellFormed) {order : PassOrder}
    (visits : Visits order idx) : ∀ s ∈ idx.snapshotEntries order,
      P s.modelId s.uuid s.cacheEntry.record := by
  intro s mem
  obtain ⟨m, e, live, rfl⟩ := (mem_snapshotEntries wf visits).mp mem
  exact only m e.uuid e live

end SemanticIndex.Only

/-- A startup reads back only what was in the files. -/
theorem Log.Only.recover {log : Log} (only : log.Only P) {cfg : HnswConfig} {r : Recovery}
    (read : Ferrocache.recover cfg log.disk = .ok r) :
    r.index.WellFormed ∧ r.index.Only P := by
  refine recover_induction (motive := fun idx => idx.WellFormed ∧ idx.Only P)
    ⟨SemanticIndex.wellFormed_new cfg, ?_⟩ ?_ ?_ read
  · intro m u e live
    simp [SemanticIndex.new, SemanticIndex.entryAt] at live
  · rintro idx ⟨wf, held⟩ s mem
    exact ⟨wf.insertInto _ _, held.insertInto wf (only.snapshot s mem)⟩
  · rintro idx ⟨wf, held⟩ lines replayed line mem
    exact ⟨wf.replayEntry line, held.replayEntry wf (only.file.replay replayed line mem)⟩

end Index

/-! ## The node -/

namespace Node

variable (P) in
/-- Every insertion that waits to be logged or to be applied. -/
structure Awaits (n : Node) : Prop where
  queue : ∀ entry, .insert entry ∈ n.queue → entry.Meets P
  outbox : ∀ entry ∈ n.outbox, entry.Meets P
  batch : ∀ entry ∈ n.phase.batch, entry.Meets P
  pending : ∀ line ∈ n.phase.pending, line.Meets P

variable (P) in
/-- Every insertion that waits, is in a file or is live. -/
structure Only (n : Node) : Prop extends Awaits P n where
  log : n.log.Only P
  index : n.index.Only P

variable {cfg : NodeConfig} {n : Node}

section Runs

variable [Platform]

omit [Platform] in
theorem Awaits.due (awaits : Awaits P n) {batch : List WalEntry} (due : n.Due batch) :
    ∀ entry ∈ batch, entry.Meets P := fun entry mem =>
  (due entry mem).elim (awaits.batch entry) fun tomb => .of_tombstone tomb.tombstone

theorem Awaits.act (awaits : Awaits P n) {a : Action} (admissible : n.Admissible cfg a)
    (submitted : ∀ entry, a = .submit entry → entry.Meets P) : Awaits P (n.act cfg a) := by
  have channel : ChannelEffect n a (n.act cfg a) := act_channel a
  refine ⟨fun entry mem => ?_, fun entry mem => ?_, fun entry mem => ?_, ?_⟩
  · rcases channel.queue entry mem with queued | sent | now
    · exact awaits.queue entry queued
    · exact awaits.outbox entry sent
    · exact submitted entry now
  · exact (channel.outbox entry mem).elim (awaits.outbox entry) fun tomb =>
      .of_tombstone tomb.tombstone
  · exact (channel.batch entry mem).elim (awaits.batch entry) (awaits.queue entry)
  · have none : (n.act cfg a).phase.pending = [] →
        ∀ line ∈ (n.act cfg a).phase.pending, line.Meets P := fun idle line mem => by
      rw [idle] at mem
      cases mem
    rcases act_log admissible with ⟨-, ⟨-, fewer⟩ | idle | ⟨batch, outcome, due, flushed⟩⟩ |
        ⟨_, _, -, -, idle⟩
    · exact fun line mem => awaits.pending line (fewer.subset mem)
    · exact none idle
    · exact (Log.flush_ok flushed).1.meets (awaits.due due)
    · exact none idle

theorem Only.change (only : Only P n) (wf : n.index.WellFormed) {whole : Prop} {log : Log}
    (change : LogChange n whole log) : log.Only P := by
  cases change with
  | stays => exact only.log
  | flushes batch outcome due _ => exact only.log.flush (only.toAwaits.due due) outcome
  | snapshots order visits outcome =>
      exact only.log.compact (only.index.snapshotEntries wf visits) outcome

theorem Only.act (only : Only P n) (wf : n.index.WellFormed) {a : Action}
    (admissible : n.Admissible cfg a) (submitted : ∀ entry, a = .submit entry → entry.Meets P) :
    Only P (n.act cfg a) := by
  refine ⟨only.toAwaits.act admissible submitted, ?_, ?_⟩
  · rcases act_log admissible with ⟨change, -⟩ | ⟨crashed, r, change, started, -⟩
    · exact only.change wf change
    · have reopened : (n.act cfg a).log.disk = crashed.disk := (Log.restart_recover started).2.1
      have kept := only.change wf change
      exact ⟨by rw [reopened]; exact kept.file, by rw [reopened]; exact kept.snapshot⟩
  · have effect := act_index wf admissible
    generalize (n.act cfg a).index = index at effect ⊢
    cases effect with
    | loses lost _ => exact only.index.loses lost
    | takes line lines compact runs phase =>
        refine only.index.replayEntry wf (only.pending line ?_)
        rw [phase]
        exact List.mem_cons_self
    | boots cut expireOrder now runs r read visits =>
        subst runs
        have crash : LogChange n (WholeLines (.restart cut expireOrder now)) (n.crashLog cfg cut) :=
          crashLog_change admissible.1
        obtain ⟨good, held⟩ := (only.change wf crash).recover read
        exact held.loses (.of_removed (SemanticIndex.Removed.collectExpired good visits.1 now))

omit [Platform] in
theorem only_new : Only P (new cfg) where
  queue _ mem := absurd mem List.not_mem_nil
  outbox _ mem := absurd mem List.not_mem_nil
  batch _ mem := absurd mem List.not_mem_nil
  pending _ mem := absurd mem List.not_mem_nil
  log := ⟨⟨fun _ mem => absurd mem List.not_mem_nil, fun _ bare => by cases bare⟩,
    fun _ mem => absurd mem List.not_mem_nil⟩
  index m u e live := by simp [new, SemanticIndex.new, SemanticIndex.entryAt] at live

/-- In every run, a node stores only what was submitted to it. -/
theorem Reachable.only {guard : Node → Action → Prop}
    (submitted : ∀ n entry, guard n (.submit entry) → entry.Meets P)
    (reached : Reachable cfg guard n) : Only P n := by
  induction reached with
  | new => exact only_new
  | act a before admissible guarded ih =>
      refine ih.act before.wellFormed admissible fun entry same => ?_
      subst same
      exact submitted _ entry guarded

end Runs

end Node

end Ferrocache
