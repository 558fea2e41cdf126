import Ferrocache.Node.Effect

/-!
# Group commit

The flush task by itself: rounds of `flush_loop` over the commands in the
channel, with the replies it sends.  How many commands a round takes is up to
the batch size and the timeout; the iteration orders and the outcomes of the
writes are arguments of the round.

`Store.serve` is what one command does by itself.  A round, and so a run of
rounds, does what its commands do one after the other (`flushLoop_spec`).
-/

namespace Ferrocache

/-- What the flush task sends back: to an insert its sequence number,
`InsertError::Wal` or `InsertError::Index`; to a compaction its result or an
error. -/
inductive Reply : Type
  | inserted (sequence : Nat)
  | walError
  | indexError
  | compacted (entriesSnapshotted walSequence : Nat)
  | compactError
  deriving DecidableEq

/-- The kind of reply that a command gets. -/
def Reply.Answers : Command → Reply → Prop
  | .insert _, .inserted _ => True
  | .insert _, .walError => True
  | .insert _, .indexError => True
  | .compact, .compacted _ _ => True
  | .compact, .compactError => True
  | _, _ => False

/-- One iteration of `flush_loop`. -/
structure Round : Type where
  size : Nat
  outcome : WriteOutcome
  evictOrder : List String
  rebuildOrder : PassOrder
  tombstoneOutcome : WriteOutcome
  autoOrder : PassOrder
  autoOutcome : Log.CompactOutcome
  order : SemanticIndex → PassOrder
  compactOutcome : Log.CompactOutcome

namespace Node

section Loop

variable [Platform] (cfg : NodeConfig) (n : Node) (r : Round)

/-- The loop under the index lock. -/
def applyAll : Node := Node.apply^[n.phase.pending.length + 1] n

/-- A round up to the requested compaction. -/
def flushRound : Node :=
  let flushed := ((n.collect r.size).write r.outcome).acquire.applyAll
  ((flushed.evict cfg r.evictOrder r.rebuildOrder).writeTombstones r.tombstoneOutcome).settle cfg
    r.autoOrder r.autoOutcome

def round : Node :=
  let flushed := n.flushRound cfg r
  flushed.runCompact (r.order flushed.index) r.compactOutcome

/-- The replies to the lines of a batch that was written. -/
def insertReplies : SemanticIndex → List WalEntry → List Reply
  | _, [] => []
  | index, line :: lines =>
    (match (index.replayEntry line).2 with
      | .ok () => .inserted line.sequence
      | .error _ => .indexError) :: insertReplies (index.replayEntry line).1 lines

omit [Platform] in
/-- The replies of `run_compact`. -/
def compactReplies : List Reply :=
  match n.phase, r.compactOutcome with
  | .compacting, .compacted =>
    [.compacted (n.index.snapshotEntries (r.order n.index)).length n.log.sequence]
  | .compacting, _ => [.compactError]
  | _, _ => []

/-- The replies of a round, in the order of their commands. -/
def roundReplies : List Reply :=
  let written := (n.collect r.size).write r.outcome
  (match written.phase with
    | .written lines _ => insertReplies written.index lines
    | _ => (n.collect r.size).phase.batch.map fun _ => .walError) ++
    (n.flushRound cfg r).compactReplies r

/-- Rounds of the loop, with all the replies. -/
def flushLoop : List Round → Node → Node × List Reply
  | [], n => (n, [])
  | r :: rounds, n =>
    let (last, replies) := flushLoop rounds (n.round cfg r)
    (last, n.roundReplies cfg r ++ replies)

end Loop

end Node

/-! ## One command -/

namespace SemanticIndex

/-- What a snapshot of the index holds. -/
def contents (idx : SemanticIndex) : Multiset SnapshotEntry :=
  idx.namespaces.entries.bind fun s => s.2.entries.entries.map fun e => snapshotEntry s.1 e.2

/-- The entries that a snapshot keeps of one namespace. -/
theorem map_visited (modelId : String) (entries : HashMap Nat CacheEntry) (order : List Nat) :
    (HashMap.visited entries order).map (fun e => snapshotEntry modelId e.2) =
      (order.filterMap entries.lookup).map (snapshotEntry modelId) := by
  unfold HashMap.visited
  rw [List.map_filterMap, List.map_filterMap]
  refine List.filterMap_congr fun k _ => ?_
  cases entries.lookup k with
  | none => rfl
  | some v => rfl

theorem snapshotEntries_eq_contents {idx : SemanticIndex} {order : PassOrder}
    (visits : Visits order idx) : (idx.snapshotEntries order : Multiset _) = idx.contents := by
  have listed : ∀ l, idx.snapshotEntries ⟨l, order.entries⟩ =
      (HashMap.visited idx.namespaces l).flatMap fun s =>
        (HashMap.visited s.2.entries (order.entries s.1)).map fun e => snapshotEntry s.1 e.2 := by
    intro l
    induction l with
    | nil => rfl
    | cons modelId l ih =>
        unfold HashMap.visited snapshotEntries at ih ⊢
        rw [List.flatMap_cons, ih, List.filterMap_cons]
        dsimp only
        cases idx.namespaces.lookup modelId with
        | none => rfl
        | some ns =>
            dsimp only [Option.map_some]
            rw [List.flatMap_cons]
            exact congrArg (· ++ _) (map_visited modelId ns.entries _).symm
  unfold contents
  rw [listed order.namespaces, HashMap.entries_eq_visited visits.1, ← Multiset.coe_bind]
  refine Multiset.bind_congr fun s mem => ?_
  have found : idx.namespaces.lookup s.1 = some s.2 := by
    rw [← HashMap.entries_eq_visited visits.1] at mem
    exact Finmap.mem_lookup_iff.mpr mem
  rw [HashMap.entries_eq_visited (visits.2 s.1 s.2 found), Multiset.map_coe]

end SemanticIndex

/-- What the flush task writes: the index, the log file, the counter, and the
snapshot up to the order of its entries. -/
structure Store : Type where
  index : SemanticIndex
  file : File
  sequence : Nat
  snapshot : Option (Multiset SnapshotEntry × Nat)

def Node.store (n : Node) : Store where
  index := n.index
  file := n.log.disk.file
  sequence := n.log.sequence
  snapshot := n.log.disk.snapshot.map fun s => ((s.entries : Multiset SnapshotEntry), s.walSequence)

/-- How many of the commands are inserts. -/
def inserts (commands : List Command) : Nat := commands.countP fun c => decide (c ≠ .compact)

namespace Store

section Serve

variable [Platform]

/-- What one command does by itself, without faults. -/
def serve (s : Store) : Command → Store × Reply
  | .insert entry =>
    let line := { entry with sequence := s.sequence + 1 }
    ({ s with
        index := (s.index.replayEntry line).1
        file := s.file.append [line]
        sequence := s.sequence + 1 },
      match (s.index.replayEntry line).2 with
      | .ok () => .inserted (s.sequence + 1)
      | .error _ => .indexError)
  | .compact =>
    ({ s with file := File.empty, snapshot := some (s.index.contents, s.sequence) },
      .compacted s.index.contents.card s.sequence)

/-- Commands one after the other. -/
def serveAll : List Command → Store → Store × List Reply
  | [], s => (s, [])
  | command :: commands, s =>
    let (last, replies) := serveAll commands (s.serve command).1
    (last, (s.serve command).2 :: replies)

theorem serveAll_append (first second : List Command) (s : Store) :
    serveAll (first ++ second) s =
      ((serveAll second (serveAll first s).1).1,
        (serveAll first s).2 ++ (serveAll second (serveAll first s).1).2) := by
  induction first generalizing s with
  | nil => rfl
  | cons command first ih =>
      change ((serveAll (first ++ second) _).1, _ :: (serveAll (first ++ second) _).2) = _
      rw [ih]
      rfl

/-- Every command is replied to, once. -/
theorem serveAll_answers (commands : List Command) (s : Store) :
    List.Forall₂ Reply.Answers commands (serveAll commands s).2 := by
  induction commands generalizing s with
  | nil => exact .nil
  | cons command commands ih =>
      refine .cons ?_ (ih _)
      cases command with
      | compact => trivial
      | insert entry =>
          unfold serve
          dsimp only
          split
          · trivial
          · trivial

theorem serveAll_sequence (commands : List Command) (s : Store) :
    (serveAll commands s).1.sequence = s.sequence + inserts commands := by
  induction commands generalizing s with
  | nil => rfl
  | cons command commands ih =>
      refine (ih _).trans ?_
      unfold inserts
      cases command with
      | insert entry =>
          rw [List.countP_cons_of_pos (by simp)]
          change s.sequence + 1 + _ = _
          omega
      | compact =>
          rw [List.countP_cons_of_neg (by simp)]
          rfl

end Serve

end Store

/-! ## Batches -/

/-- Lines appended together stand as if they were appended one by one. -/
theorem File.append_cons (file : File) (line : WalEntry) (lines : List WalEntry) :
    file.append (line :: lines) = (file.append [line]).append lines := by
  have whole : (file.append [line]).tail = .whole := by
    unfold File.append
    cases file.tail with
    | whole => rfl
    | torn => rfl
    | bare entry => rfl
    | cut => rfl
  rw [File.append_whole whole]
  unfold File.append
  cases file.tail with
  | whole => simp
  | torn => simp
  | bare entry => simp
  | cut => simp

namespace Node

section Rounds

variable [Platform] {cfg : NodeConfig} {n : Node} {r : Round}

/-- The index after a list of lines. -/
def replayAll (index : SemanticIndex) (lines : List WalEntry) : SemanticIndex :=
  lines.foldl (fun index line => (index.replayEntry line).1) index

/-- A batch served command by command. -/
theorem serveAll_inserts (batch : List WalEntry) (s : Store) :
    Store.serveAll (batch.map .insert) s =
      (⟨replayAll s.index (stampFrom s.sequence batch),
        s.file.append (stampFrom s.sequence batch), s.sequence + batch.length, s.snapshot⟩,
        insertReplies s.index (stampFrom s.sequence batch)) := by
  induction batch generalizing s with
  | nil => rfl
  | cons entry batch ih =>
      change ((Store.serveAll (batch.map .insert) _).1,
        _ :: (Store.serveAll (batch.map .insert) _).2) = _
      rw [ih]
      have stamped : stampFrom s.sequence (entry :: batch) =
          { entry with sequence := s.sequence + 1 } :: stampFrom (s.sequence + 1) batch := rfl
      rw [stamped, File.append_cons, List.length_cons, Nat.add_comm batch.length 1,
        ← Nat.add_assoc]
      rfl

/-- One iteration under the index lock. -/
theorem apply_cons {line : WalEntry} {lines : List WalEntry} {compact : Bool}
    (applying : n.phase = .applying (line :: lines) compact) :
    n.apply.phase = .applying lines compact ∧ n.apply.log = n.log ∧ n.apply.queue = n.queue ∧
      n.apply.index = (n.index.replayEntry line).1 := by
  unfold apply
  rw [applying]
  dsimp only
  rcases n.index.replayEntry line with ⟨index, _ | _⟩
  · exact ⟨rfl, rfl, rfl, rfl⟩
  · exact ⟨rfl, rfl, rfl, rfl⟩

theorem applyAll_spec {lines : List WalEntry} {compact : Bool}
    (applying : n.phase = .applying lines compact) :
    n.applyAll.phase = .flushed compact ∧ n.applyAll.log = n.log ∧ n.applyAll.queue = n.queue ∧
      n.applyAll.index = replayAll n.index lines := by
  have pending : n.phase.pending = lines := by
    rw [applying]
    rfl
  unfold applyAll
  rw [pending]
  clear pending
  induction lines generalizing n with
  | nil =>
      change n.apply.phase = _ ∧ n.apply.log = _ ∧ n.apply.queue = _ ∧ n.apply.index = _
      unfold apply
      rw [applying]
      exact ⟨rfl, rfl, rfl, rfl⟩
  | cons line lines ih =>
      obtain ⟨phase, log, queue, index⟩ := apply_cons applying
      obtain ⟨phase', log', queue', index'⟩ := ih phase
      rw [List.length_cons, Function.iterate_succ_apply]
      rw [log] at log'
      rw [queue] at queue'
      rw [index] at index'
      exact ⟨phase', log', queue', index'⟩

/-- `flush_insert_batch` with a write that succeeds. -/
theorem applyBatch_spec {batch : List WalEntry} {compact : Bool}
    (collected : n.phase = .collected batch compact)
    (room : n.log.sequence + batch.length ≤ u64Max) :
    let lines := stampFrom n.log.sequence batch
    let flushed := (n.write .synced).acquire.applyAll
    (n.write .synced).phase = .written lines compact ∧ (n.write .synced).index = n.index ∧
      flushed.phase = .flushed compact ∧ flushed.queue = n.queue ∧
      flushed.index = replayAll n.index lines ∧
      flushed.log = ⟨⟨n.log.disk.file.append lines, n.log.disk.snapshot⟩,
        n.log.sequence + batch.length, n.log.sinceSnapshot ++ lines⟩ := by
  intro lines flushed
  have wrote : n.write .synced = { n with
      log := ⟨⟨n.log.disk.file.append lines, n.log.disk.snapshot⟩,
        n.log.sequence + batch.length, n.log.sinceSnapshot ++ lines⟩
      phase := .written lines compact
      answers := answer n.answers lines none } := by
    unfold write
    rw [collected]
    dsimp only
    rw [Log.flush_synced room]
  have phase : (n.write .synced).acquire.phase = .applying lines compact := by rw [wrote]; rfl
  obtain ⟨done, log, queue, index⟩ := applyAll_spec phase
  refine ⟨by rw [wrote], by rw [wrote], done, ?_, ?_, ?_⟩
  · exact queue.trans (by rw [wrote]; rfl)
  · exact index.trans (by rw [wrote]; rfl)
  · exact log.trans (by rw [wrote]; rfl)

/-- No cap on the namespaces and no automatic compaction. -/
structure Plain (cfg : NodeConfig) : Prop where
  uncapped : cfg.hnsw.maxEntriesPerNamespace = none
  manual : cfg.compactIntervalInserts = 0

omit [Platform] in
theorem Plain.autoCompacts (plain : Plain cfg) (n : Node) : n.autoCompacts cfg = false := by
  unfold Node.autoCompacts
  rw [plain.manual]
  rfl

/-- The batch of a round up to the compaction that ended it. -/
theorem flushRound_batch (plain : Plain cfg) (idle : n.phase = .idle) {entry : WalEntry}
    {batch : List WalEntry} {compact : Bool} {rest : List Command}
    (taken : takeBatch r.size n.queue = (entry :: batch, compact, rest))
    (synced : r.outcome = .synced)
    (room : n.log.sequence + (entry :: batch).length ≤ u64Max) :
    let lines := stampFrom n.log.sequence (entry :: batch)
    let written := (n.collect r.size).write r.outcome
    written.phase = .written lines compact ∧ written.index = n.index ∧
      (n.flushRound cfg r).phase = (if compact then .compacting else .idle) ∧
      (n.flushRound cfg r).queue = rest ∧
      (n.flushRound cfg r).index = replayAll n.index lines ∧
      (n.flushRound cfg r).log =
        ⟨⟨n.log.disk.file.append lines, n.log.disk.snapshot⟩,
          n.log.sequence + (entry :: batch).length, n.log.sinceSnapshot ++ lines⟩ := by
  intro lines written
  have collected : n.collect r.size =
      { n with queue := rest, phase := .collected (entry :: batch) compact } := by
    unfold collect
    rw [idle, taken]
  have phase : (n.collect r.size).phase = .collected (entry :: batch) compact := by rw [collected]
  have fits : (n.collect r.size).log.sequence + (entry :: batch).length ≤ u64Max := by
    rw [collected]
    exact room
  obtain ⟨wrote, same, flushed, queue, index, log⟩ := applyBatch_spec phase fits
  rw [← synced] at wrote same flushed queue index log
  have evicted : written.acquire.applyAll.evict cfg r.evictOrder r.rebuildOrder =
      { written.acquire.applyAll with phase := .settled compact } := by
    unfold evict
    rw [flushed]
    dsimp only
    rw [plain.uncapped]
  have settled : n.flushRound cfg r = { written.acquire.applyAll with
      phase := if compact then .compacting else .idle } := by
    unfold flushRound
    dsimp only
    rw [evicted]
    unfold settle writeTombstones
    dsimp only
    rw [plain.autoCompacts]
    rfl
  rw [settled]
  refine ⟨?_, ?_, rfl, ?_, ?_, ?_⟩
  · exact wrote.trans (by rw [collected])
  · exact same.trans (by rw [collected])
  · exact queue.trans (by rw [collected])
  · exact index.trans (by rw [collected])
  · exact log.trans (by rw [collected])

/-- A round that takes no batch does nothing before the compaction. -/
theorem flushRound_of_collect (cfg : NodeConfig) {phase : Phase} {queue : List Command}
    (unbatched : phase = .idle ∨ phase = .compacting)
    (collected : n.collect r.size = { n with queue := queue, phase := phase }) :
    n.flushRound cfg r = { n with queue := queue, phase := phase } ∧
      (n.collect r.size).write r.outcome = { n with queue := queue, phase := phase } := by
  unfold flushRound
  dsimp only
  rw [collected]
  rcases unbatched with rfl | rfl
  · exact ⟨rfl, rfl⟩
  · exact ⟨rfl, rfl⟩

/-- No write fails, and the compaction visits the index. -/
structure Faultless (r : Round) : Prop where
  takes : 0 < r.size
  synced : r.outcome = .synced
  compacted : r.compactOutcome = .compacted
  visits : ∀ index, SemanticIndex.Visits (r.order index) index

omit [Platform] in
theorem runCompact_spec (faultless : Faultless r) (compacting : n.phase = .compacting) :
    let after := n.runCompact (r.order n.index) r.compactOutcome
    after.phase = .idle ∧ after.queue = n.queue ∧
      after.store = ⟨n.index, File.empty, n.log.sequence, some (n.index.contents, n.log.sequence)⟩ ∧
      n.compactReplies r = [.compacted n.index.contents.card n.log.sequence] := by
  have listed := SemanticIndex.snapshotEntries_eq_contents (faultless.visits n.index)
  have counted : (n.index.snapshotEntries (r.order n.index)).length = n.index.contents.card := by
    rw [← listed, Multiset.coe_card]
  intro after
  have ran : after = { n.snapshotCompact (r.order n.index) .compacted with phase := .idle } := by
    change n.runCompact (r.order n.index) r.compactOutcome = _
    unfold runCompact
    rw [compacting, faultless.compacted]
  rw [ran]
  refine ⟨rfl, rfl, ?_, ?_⟩
  · unfold store snapshotCompact
    dsimp only [Log.compact, Option.map_some]
    rw [listed]
  · unfold compactReplies
    rw [compacting, faultless.compacted]
    dsimp only
    rw [counted]

/-- The end of a round serves the compaction that was requested, if any. -/
theorem runCompact_serves (faultless : Faultless r) {compact : Bool}
    (phase : n.phase = if compact then .compacting else .idle) :
    let after := n.runCompact (r.order n.index) r.compactOutcome
    after.phase = .idle ∧ after.queue = n.queue ∧
      (after.store, n.compactReplies r) =
        Store.serveAll (if compact then [.compact] else []) n.store := by
  cases compact with
  | true =>
      obtain ⟨idle, queue, store, reply⟩ := runCompact_spec faultless phase
      exact ⟨idle, queue, Prod.ext store reply⟩
  | false =>
      have idle : n.phase = .idle := phase
      have same : n.runCompact (r.order n.index) r.compactOutcome = n := by
        unfold runCompact
        rw [idle]
      have silent : n.compactReplies r = [] := by
        unfold compactReplies
        rw [idle]
      intro after
      exact ⟨(congrArg Node.phase same).trans idle, congrArg Node.queue same,
        Prod.ext (congrArg Node.store same) silent⟩

omit [Platform] in
/-- A batch is empty only if the channel is. -/
theorem takeBatch_eq_nil {size : Nat} {queue rest : List Command} (takes : 0 < size)
    (taken : takeBatch size queue = ([], false, rest)) : queue = [] := by
  obtain ⟨k, rfl⟩ : ∃ k, size = k + 1 := ⟨size - 1, by omega⟩
  cases queue with
  | nil => rfl
  | cons command queue =>
      cases command with
      | compact => cases taken
      | insert entry => cases taken

omit [Platform] in
theorem inserts_map_append (batch : List WalEntry) (rest : List Command) :
    inserts (batch.map .insert ++ rest) = batch.length + inserts rest := by
  unfold inserts
  rw [List.countP_append, List.countP_eq_length.mpr, List.length_map]
  intro command mem
  obtain ⟨entry, -, rfl⟩ := List.mem_map.mp mem
  rfl

omit [Platform] in
theorem collect_nil (idle : n.phase = .idle) (takes : 0 < r.size) {compact : Bool}
    {rest : List Command} (taken : takeBatch r.size n.queue = ([], compact, rest)) :
    n.collect r.size =
      { n with queue := rest, phase := if compact then .compacting else .idle } := by
  cases compact with
  | true =>
      unfold collect
      rw [idle, taken]
      rfl
  | false =>
      have empty := takeBatch_eq_nil takes taken
      have split := takeBatch_append r.size n.queue
      rw [taken, empty] at split
      obtain rfl : [] = rest := split
      have same : n.collect r.size = n := by
        unfold collect
        rw [idle, taken]
      rw [same]
      obtain ⟨_, _, _, _, _, _, _, _, _⟩ := n
      cases idle
      cases empty
      rfl

/-- What a round does before the compaction. -/
theorem flushRound_spec (plain : Plain cfg) (faultless : Faultless r) (idle : n.phase = .idle)
    (room : n.log.sequence + inserts n.queue ≤ u64Max) :
    ∃ batch compact rest, takeBatch r.size n.queue = (batch, compact, rest) ∧
      (n.flushRound cfg r).queue = rest ∧
      (n.flushRound cfg r).phase = (if compact then .compacting else .idle) ∧
      ((n.flushRound cfg r).store, insertReplies n.index (stampFrom n.log.sequence batch)) =
        Store.serveAll (batch.map .insert) n.store ∧
      n.roundReplies cfg r = insertReplies n.index (stampFrom n.log.sequence batch) ++
        (n.flushRound cfg r).compactReplies r := by
  rcases taken : takeBatch r.size n.queue with ⟨_ | ⟨entry, batch⟩, compact, rest⟩
  · have collected := collect_nil idle faultless.takes taken
    have unbatched : (if compact then Phase.compacting else .idle) = .idle ∨
        (if compact then Phase.compacting else .idle) = .compacting := by
      cases compact with
      | false => exact .inl rfl
      | true => exact .inr rfl
    obtain ⟨flushed, wrote⟩ := flushRound_of_collect cfg unbatched collected
    refine ⟨[], compact, rest, rfl, by rw [flushed], by rw [flushed], by rw [flushed]; rfl, ?_⟩
    unfold roundReplies
    dsimp only
    rw [wrote, collected]
    cases compact with
    | false => rfl
    | true => rfl
  · have few : (entry :: batch).length ≤ inserts n.queue := by
      rw [takeBatch_append r.size n.queue, taken, inserts_map_append]
      exact Nat.le_add_right _ _
    obtain ⟨written, kept, phase, queue, index, log⟩ :=
      flushRound_batch plain idle taken faultless.synced (by omega)
    refine ⟨entry :: batch, compact, rest, rfl, queue, phase, ?_, ?_⟩
    · rw [serveAll_inserts]
      unfold store
      rw [index, log]
    · unfold roundReplies
      dsimp only
      rw [written, kept]

/-- A round takes commands from the channel and serves them in order. -/
theorem round_spec (plain : Plain cfg) (faultless : Faultless r) (idle : n.phase = .idle)
    (room : n.log.sequence + inserts n.queue ≤ u64Max) :
    ∃ taken, n.queue = taken ++ (n.round cfg r).queue ∧ (n.round cfg r).phase = .idle ∧
      ((n.round cfg r).store, n.roundReplies cfg r) = Store.serveAll taken n.store ∧
      (n.queue ≠ [] → taken ≠ []) := by
  obtain ⟨batch, compact, rest, taken, queue, phase, served, replies⟩ :=
    flushRound_spec plain faultless idle room
  obtain ⟨idle', queue', served'⟩ := runCompact_serves faultless phase
  have split := takeBatch_append r.size n.queue
  rw [taken] at split
  dsimp only at split
  refine ⟨batch.map .insert ++ (if compact then [.compact] else []), ?_, idle', ?_, ?_⟩
  · change n.queue = _ ++ ((n.flushRound cfg r).runCompact _ _).queue
    rw [queue', queue, List.append_assoc]
    exact split
  · rw [Store.serveAll_append, ← served, ← served', replies]
    rfl
  · intro some none
    obtain ⟨noBatch, noCompact⟩ := List.append_eq_nil_iff.mp none
    rw [List.map_eq_nil_iff] at noBatch
    cases compact with
    | true => cases noCompact
    | false =>
        rw [noBatch] at taken
        exact some (takeBatch_eq_nil faultless.takes taken)

/-- Rounds that empty the channel serve its commands in order. -/
theorem flushLoop_spec (plain : Plain cfg) {rounds : List Round}
    (faultless : ∀ r ∈ rounds, Faultless r) (idle : n.phase = .idle)
    (room : n.log.sequence + inserts n.queue ≤ u64Max) :
    ∃ taken, n.queue = taken ++ (flushLoop cfg rounds n).1.queue ∧
      ((flushLoop cfg rounds n).1.store, (flushLoop cfg rounds n).2) =
        Store.serveAll taken n.store ∧
      (rounds.length ≤ taken.length ∨ (flushLoop cfg rounds n).1.queue = []) := by
  induction rounds generalizing n with
  | nil => exact ⟨[], rfl, rfl, .inl (Nat.le_refl _)⟩
  | cons r rounds ih =>
      obtain ⟨first, queue, idle', served, progress⟩ :=
        round_spec plain (faultless r List.mem_cons_self) idle room
      have sequence : (n.round cfg r).log.sequence = n.log.sequence + inserts first := by
        have counted := Store.serveAll_sequence first n.store
        rw [← served] at counted
        exact counted
      have shared : inserts n.queue = inserts first + inserts (n.round cfg r).queue := by
        rw [queue]
        exact List.countP_append
      obtain ⟨later, queue', served', further⟩ := ih
        (fun r' mem => faultless r' (List.mem_cons_of_mem _ mem)) idle' (by omega)
      refine ⟨first ++ later, ?_, ?_, ?_⟩
      · rw [List.append_assoc]
        exact queue.trans (congrArg (first ++ ·) queue')
      · rw [Store.serveAll_append, ← served, ← served']
        rfl
      · rcases further with more | empty
        · by_cases none : n.queue = []
          · refine .inr ?_
            have nothing := none.symm.trans (queue.trans (congrArg (first ++ ·) queue'))
            exact (List.append_eq_nil_iff.mp (List.append_eq_nil_iff.mp nothing.symm).2).2
          · refine .inl ?_
            have some := List.length_pos_iff.mpr (progress none)
            rw [List.length_cons, List.length_append]
            omega
        · exact .inr empty

/-- A round for every command empties the channel. -/
theorem flushLoop_drains (plain : Plain cfg) {rounds : List Round}
    (faultless : ∀ r ∈ rounds, Faultless r) (idle : n.phase = .idle)
    (room : n.log.sequence + inserts n.queue ≤ u64Max)
    (enough : n.queue.length ≤ rounds.length) : (flushLoop cfg rounds n).1.queue = [] := by
  obtain ⟨taken, queue, -, more | empty⟩ := flushLoop_spec plain faultless idle room
  · have total := congrArg List.length queue
    rw [List.length_append] at total
    exact List.length_eq_zero_iff.mp (by omega)
  · exact empty

/-- The same snapshot up to the order of its entries. -/
def SameSnapshot : Option Snapshot → Option Snapshot → Prop :=
  Option.Rel fun s s' => s.entries.Perm s'.entries ∧ s.walSequence = s'.walSequence

omit [Platform] in
theorem sameSnapshot_of_store {m m' : Node} (same : m.store = m'.store) :
    SameSnapshot m.log.disk.snapshot m'.log.disk.snapshot := by
  have snapshots := congrArg Store.snapshot same
  unfold store at snapshots
  dsimp only at snapshots
  cases left : m.log.disk.snapshot with
  | none =>
      cases right : m'.log.disk.snapshot with
      | none => exact .none
      | some s' =>
          rw [left, right] at snapshots
          cases snapshots
  | some s =>
      cases right : m'.log.disk.snapshot with
      | none =>
          rw [left, right] at snapshots
          cases snapshots
      | some s' =>
          rw [left, right] at snapshots
          obtain ⟨entries, sequence⟩ := Prod.mk.inj (Option.some.inj snapshots)
          exact .some ⟨Multiset.coe_eq_coe.mp entries, sequence⟩

/-- However the loop cuts the commands into batches, the index, the log, the
snapshot and the reply to every command are the same: those of any other cut, such
as rounds of size one, which take the commands one at a time. -/
theorem group_commit_invisible (plain : Plain cfg) (idle : n.phase = .idle)
    (room : n.log.sequence + inserts n.queue ≤ u64Max) {rounds singles : List Round}
    (faultless : ∀ r ∈ rounds, Faultless r) (faultless' : ∀ r ∈ singles, Faultless r)
    (drained : (flushLoop cfg rounds n).1.queue = [])
    (drained' : (flushLoop cfg singles n).1.queue = []) :
    (flushLoop cfg rounds n).1.index = (flushLoop cfg singles n).1.index ∧
    (flushLoop cfg rounds n).1.log.disk.file = (flushLoop cfg singles n).1.log.disk.file ∧
    (flushLoop cfg rounds n).1.log.sequence = (flushLoop cfg singles n).1.log.sequence ∧
    SameSnapshot (flushLoop cfg rounds n).1.log.disk.snapshot
      (flushLoop cfg singles n).1.log.disk.snapshot ∧
    (flushLoop cfg rounds n).2 = (flushLoop cfg singles n).2 ∧
    List.Forall₂ Reply.Answers n.queue (flushLoop cfg rounds n).2 := by
  obtain ⟨taken, queue, served, -⟩ := flushLoop_spec plain faultless idle room
  obtain ⟨taken', queue', served', -⟩ := flushLoop_spec plain faultless' idle room
  rw [drained, List.append_nil] at queue
  rw [drained', List.append_nil] at queue'
  rw [← queue] at served
  rw [← queue', ← served] at served'
  obtain ⟨store, replies⟩ := Prod.mk.inj served'.symm
  refine ⟨congrArg Store.index store, congrArg Store.file store, congrArg Store.sequence store,
    sameSnapshot_of_store store, replies, ?_⟩
  have answered := Store.serveAll_answers n.queue n.store
  rw [← served] at answered
  exact answered

end Rounds

section Example

local instance groupCommitPlatform : Platform := Platform.sample

/-- Some order that visits the index. -/
noncomputable def anyOrder (index : SemanticIndex) : PassOrder where
  namespaces := index.namespaces.keys.toList
  entries modelId :=
    ((index.namespaces.lookup modelId).map fun ns => ns.entries.keys.toList).getD []

theorem visits_anyOrder (index : SemanticIndex) : SemanticIndex.Visits (anyOrder index) index := by
  refine ⟨⟨Finset.nodup_toList _, fun k => ?_⟩, fun m ns found => ?_⟩
  · exact Finset.mem_toList.trans Finmap.mem_keys
  · unfold anyOrder
    dsimp only
    rw [found]
    exact ⟨Finset.nodup_toList _, fun k => Finset.mem_toList.trans Finmap.mem_keys⟩

/-- A round that takes up to `size` commands and meets no fault. -/
noncomputable def smoothRound (size : Nat) : Round :=
  ⟨size, .synced, [], ⟨[], fun _ => []⟩, .synced, ⟨[], fun _ => []⟩, .compacted, anyOrder,
    .compacted⟩

theorem faultless_smoothRound {size : Nat} (takes : 0 < size) : Faultless (smoothRound size) :=
  ⟨takes, rfl, rfl, visits_anyOrder⟩

/-- An entry, a rejected one, its removal and a compaction. -/
def fourCommands : Node :=
  { new ⟨⟨0, none⟩, 256, 0⟩ with
    queue := [.insert ⟨"u", [1#32], "r", "q", "m", 0, 0, false, none⟩,
      .insert ⟨"v", [1#32, 2#32], "r", "q", "m", 0, 0, false, none⟩,
      .insert (.tombstoneEntry "u" "m"), .compact] }

theorem group_commit_fourCommands :
    (flushLoop ⟨⟨0, none⟩, 256, 0⟩ (List.replicate 4 (smoothRound 3)) fourCommands).2 =
      (flushLoop ⟨⟨0, none⟩, 256, 0⟩ (List.replicate 4 (smoothRound 1)) fourCommands).2 := by
  have plain : Plain ⟨⟨0, none⟩, 256, 0⟩ := ⟨rfl, rfl⟩
  have room : fourCommands.log.sequence + inserts fourCommands.queue ≤ u64Max := by decide
  have three : ∀ r ∈ List.replicate 4 (smoothRound 3), Faultless r := by
    intro r mem
    rw [List.eq_of_mem_replicate mem]
    exact faultless_smoothRound (by decide)
  have one : ∀ r ∈ List.replicate 4 (smoothRound 1), Faultless r := by
    intro r mem
    rw [List.eq_of_mem_replicate mem]
    exact faultless_smoothRound (by decide)
  have enough : ∀ r : Round, fourCommands.queue.length ≤ (List.replicate 4 r).length :=
    fun _ => Nat.le_refl 4
  exact (group_commit_invisible plain rfl room three one
    (flushLoop_drains plain three rfl room (enough _))
    (flushLoop_drains plain one rfl room (enough _))).2.2.2.2.1

end Example

end Node

end Ferrocache
