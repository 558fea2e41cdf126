import Ferrocache.Node.Effect

/-!
# What waits to be applied

The lines that the flush task has still to apply, its batch and the entries in
the channel form one list, in the order in which they will be applied.  An
action appends to this list, takes its head into the index, or drops a batch
whose write failed.  A removal of a UUID is under way while a delete handler is
between its lookup and its removal, or a tombstone waits.
-/

namespace Ferrocache

/-- The entry without its sequence number. -/
def WalEntry.unstamped (entry : WalEntry) : WalEntry := { entry with sequence := 0 }

theorem Stamped.map_unstamped {first last : Nat} {batch lines : List WalEntry}
    (stamped : Stamped first last batch lines) :
    lines.map WalEntry.unstamped = batch.map WalEntry.unstamped := by
  have same := stamped.same
  clear stamped
  induction same with
  | nil => rfl
  | @cons entry line batch lines head _ ih =>
      rw [List.map_cons, List.map_cons, ih, head]
      rfl

/-- The entries in the channel. -/
def queued (queue : List Command) : List WalEntry :=
  queue.filterMap fun
    | .insert entry => some entry
    | .compact => none

theorem queued_append (queue more : List Command) :
    queued (queue ++ more) = queued queue ++ queued more := List.filterMap_append

theorem queued_map_insert (batch : List WalEntry) : queued (batch.map .insert) = batch := by
  unfold queued
  rw [List.filterMap_map]
  exact List.filterMap_some

/-- Taking a batch moves entries from the channel, in their order. -/
theorem queued_takeBatch (size : Nat) (queue : List Command) :
    queued queue = (takeBatch size queue).1 ++ queued (takeBatch size queue).2.2 := by
  have split := congrArg queued (Node.takeBatch_append size queue)
  rw [queued_append, queued_append, queued_map_insert] at split
  have marker : queued (if (takeBatch size queue).2.1 then [Command.compact] else []) = [] := by
    split
    · rfl
    · rfl
  rw [marker, List.nil_append] at split
  exact split

/-- What becomes of a request in the channel: it waits behind `ahead` entries, or
its sender is answered. -/
inductive Fate : Type
  | waits (ahead : Nat)
  | answered (answer : Answer)
  deriving DecidableEq

namespace Node

/-- What waits to be applied, without sequence numbers. -/
def waiting (n : Node) : List WalEntry :=
  (n.phase.pending ++ n.phase.batch ++ queued n.queue).map WalEntry.unstamped

/-- What an action does to a tombstone behind `ahead` entries. -/
def fate (n : Node) (ahead : Nat) : Action → Fate
  | .apply => match n.phase with
      | .applying (_ :: _) _ => if ahead = 0 then .answered .ok else .waits (ahead - 1)
      | _ => .waits ahead
  | .write outcome => match n.phase with
      | .collected batch _ =>
          match (n.log.flush batch outcome).2 with
          | .ok _ => .waits ahead
          | .error _ =>
            if ahead < batch.length then .answered .wal else .waits (ahead - batch.length)
      | _ => .waits ahead
  | _ => .waits ahead

/-- A tombstone waits on, is applied, or is lost with its batch. -/
theorem fate_cases (n : Node) (ahead : Nat) (a : Action) :
    (∃ k, n.fate ahead a = .waits k) ∨
      (n.fate ahead a = .answered .ok ∧ a = .apply ∧
        ∃ line lines compact, n.phase = .applying (line :: lines) compact) ∨
      (n.fate ahead a = .answered .wal ∧ ∃ outcome batch compact msg, a = .write outcome ∧
        n.phase = .collected batch compact ∧ ahead < batch.length ∧
        (n.log.flush batch outcome).2 = .error msg) := by
  cases a with
  | apply =>
      unfold fate
      dsimp only
      split
      · next line lines compact phase =>
          split
          · exact .inr (.inl ⟨rfl, rfl, line, lines, compact, phase⟩)
          · exact .inl ⟨_, rfl⟩
      · exact .inl ⟨_, rfl⟩
  | write outcome =>
      unfold fate
      dsimp only
      split
      · next batch compact phase =>
          split
          · exact .inl ⟨_, rfl⟩
          · next msg failed =>
              split
              · next lost =>
                  exact .inr (.inr ⟨rfl, outcome, batch, compact, msg, rfl, phase, lost, failed⟩)
              · exact .inl ⟨_, rfl⟩
      · exact .inl ⟨_, rfl⟩
  | _ => exact .inl ⟨ahead, rfl⟩

/-- What an action can do to the list. -/
inductive WaitingStep (n : Node) : Action → List WalEntry → Prop
  | stays (a : Action) (same : ∀ ahead, n.fate ahead a = .waits ahead) : WaitingStep n a n.waiting
  | submits (entry : WalEntry) : WaitingStep n (.submit entry) (n.waiting ++ [entry.unstamped])
  | sends (i : Nat) {entry : WalEntry} (found : n.outbox[i]? = some entry) :
    WaitingStep n (.send i) (n.waiting ++ [entry.unstamped])
  | applies {line : WalEntry} {lines : List WalEntry} {compact : Bool} {rest : List WalEntry}
    (phase : n.phase = .applying (line :: lines) compact)
    (head : n.waiting = line.unstamped :: rest) : WaitingStep n .apply rest
  | fails (outcome : WriteOutcome) {batch : List WalEntry} {compact : Bool} {rest : List WalEntry}
    {log : Log} {msg : String} (phase : n.phase = .collected batch compact)
    (failed : n.log.flush batch outcome = (log, .error msg))
    (split : n.waiting = batch.map WalEntry.unstamped ++ rest) :
    WaitingStep n (.write outcome) rest

variable [Platform] {cfg : NodeConfig} {n : Node}

omit [Platform] in
/-- An action that leaves the channel alone, and at most moves on in the loop. -/
theorem WaitingStep.moves {a : Action} {m : Node} {before : Phase} (phase : n.phase = before)
    (same : ∀ ahead, n.fate ahead a = .waits ahead) (queue : m.queue = n.queue)
    (pending : m.phase.pending = before.pending) (batch : m.phase.batch = before.batch) :
    WaitingStep n a m.waiting := by
  have kept : m.waiting = n.waiting := by
    unfold waiting
    rw [queue, pending, batch, phase]
  rw [kept]
  exact .stays a same

omit [Platform] in
/-- An entry is put into the channel. -/
theorem waiting_enqueue {m : Node} {entry : WalEntry} (queue : m.queue = n.queue ++ [.insert entry])
    (phase : m.phase = n.phase) : m.waiting = n.waiting ++ [entry.unstamped] := by
  unfold waiting
  rw [queue, phase, queued_append, ← List.append_assoc, List.map_append]
  rfl

theorem waiting_send {i : Nat} {entry : WalEntry} (found : n.outbox[i]? = some entry) :
    (n.act cfg (.send i)).waiting = n.waiting ++ [entry.unstamped] := by
  change (n.send i).waiting = _
  unfold Node.send
  rw [found]
  exact waiting_enqueue rfl rfl

omit [Platform] in
theorem waiting_applying {line : WalEntry} {lines : List WalEntry} {compact : Bool}
    (phase : n.phase = .applying (line :: lines) compact) :
    n.waiting = line.unstamped :: (lines ++ [] ++ queued n.queue).map WalEntry.unstamped := by
  unfold waiting
  rw [phase]
  rfl

omit [Platform] in
/-- An action that neither writes a batch nor applies a line answers nobody. -/
theorem fate_eq_waits {a : Action}
    (noBatch : ∀ outcome batch compact, a = .write outcome → n.phase ≠ .collected batch compact)
    (noLine : ∀ line lines compact, a = .apply → n.phase ≠ .applying (line :: lines) compact)
    (ahead : Nat) : n.fate ahead a = .waits ahead := by
  cases a with
  | apply =>
      unfold fate
      dsimp only
      split
      · next line lines compact phase => exact absurd phase (noLine line lines compact rfl)
      · rfl
  | write outcome =>
      unfold fate
      dsimp only
      split
      · next batch compact phase => exact absurd phase (noBatch outcome batch compact rfl)
      · rfl
  | _ => rfl

theorem act_waiting {a : Action} (alive : crashes a = false) :
    WaitingStep n a (n.act cfg a).waiting := by
  -- nothing moves in the list, and nothing is answered
  have same : ∀ m : Node, m.waiting = n.waiting → (∀ ahead, n.fate ahead a = .waits ahead) →
      WaitingStep n a m.waiting := by
    intro m kept fated
    rw [kept]
    exact .stays a fated
  have moves : Moves cfg n a (n.act cfg a) := act_moves a
  generalize n.act cfg a = m at moves ⊢
  cases moves with
  | waits a noBatch noLine noStart => exact .stays a (fate_eq_waits noBatch noLine)
  | submits entry =>
      have added : Node.waiting { n with queue := n.queue ++ [.insert entry] } =
          n.waiting ++ [entry.unstamped] := waiting_enqueue rfl rfl
      rw [added]
      exact .submits entry
  | asksCompact =>
      refine same _ ?_ fun _ => rfl
      unfold waiting
      dsimp only
      rw [queued_append, show queued [.compact] = [] from rfl, List.append_nil]
  | @sends i entry found =>
      have added : Node.waiting { n with
          outbox := n.outbox.eraseIdx i
          queue := n.queue ++ [.insert entry] } = n.waiting ++ [entry.unstamped] :=
        waiting_enqueue rfl rfl
      rw [added]
      exact .sends i found
  | collects size idle taken =>
      have moved := queued_takeBatch size n.queue
      rw [taken] at moved
      refine same _ ?_ fun _ => rfl
      unfold waiting
      rw [idle, moved]
      rfl
  | collectsCompact size idle taken =>
      have moved := queued_takeBatch size n.queue
      rw [taken] at moved
      refine same _ ?_ fun _ => rfl
      unfold waiting
      rw [idle, moved]
      rfl
  | writes outcome phase flushed =>
      -- the batch is now stamped, but it is the same batch
      have stamped := (Log.flush_ok flushed).1.map_unstamped
      refine same _ ?_ fun ahead => ?_
      · unfold waiting
        rw [phase]
        simp only [Phase.pending, Phase.batch, List.append_nil, List.nil_append, List.map_append,
          stamped]
      · simp only [fate, phase, flushed]
  | failsWrite outcome phase flushed =>
      refine .fails outcome phase flushed ?_
      unfold waiting
      rw [phase]
      exact List.map_append
  | endsLoop phase =>
      refine .moves phase (fun ahead => ?_) rfl rfl rfl
      simp only [fate, phase]
  | applies phase replayed => exact .applies phase (waiting_applying phase)
  | rejects phase replayed => exact .applies phase (waiting_applying phase)
  | @settles order outcome compact phase notDue =>
      cases compact with
      | true => exact .moves phase (fun _ => rfl) rfl rfl rfl
      | false => exact .moves phase (fun _ => rfl) rfl rfl rfl
  | @settlesCompact order outcome compact phase due =>
      cases compact with
      | true => exact .moves phase (fun _ => rfl) rfl rfl rfl
      | false => exact .moves phase (fun _ => rfl) rfl rfl rfl
  | acquires phase => exact .moves phase (fun _ => rfl) rfl rfl rfl
  | keepsAll order rebuildOrder phase uncapped => exact .moves phase (fun _ => rfl) rfl rfl rfl
  | evicts order rebuildOrder phase capped => exact .moves phase (fun _ => rfl) rfl rfl rfl
  | writesNone outcome phase => exact .moves phase (fun _ => rfl) rfl rfl rfl
  | writesTombstones outcome phase flushed => exact .moves phase (fun _ => rfl) rfl rfl rfl
  | failsTombstones outcome phase flushed => exact .moves phase (fun _ => rfl) rfl rfl rfl
  | compacts order outcome phase => exact .moves phase (fun _ => rfl) rfl rfl rfl
  | boots => cases alive
  | _ => exact .moves rfl (fun _ => rfl) rfl rfl rfl

end Node

end Ferrocache
