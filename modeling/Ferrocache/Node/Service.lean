import Ferrocache.Lib.Turns
import Ferrocache.Node.Capacity
import Ferrocache.Node.GroupCommit

/-!
# Every request is answered

A request to the flush task waits in the channel, then in a batch, and gets one
reply.  In a run without a crash, whatever the handlers and the reaper do in
between and whether the writes succeed or not, the flush task always has a step
to take while a request is open, and answers it after a number of its own steps
that depends on the position in the channel only.
-/

namespace Ferrocache

/-- Where a request is: in the channel behind other commands, in the batch
behind other entries, the compaction that ended the batch, or answered. -/
inductive Ticket : Type
  | queued (ahead : Nat)
  | batched (ahead : Nat)
  | compaction
  | answered (reply : Reply)
  deriving DecidableEq

namespace Node

section Follow

variable [Platform] (n : Node)

/-- The reply to the first line under the index lock. -/
def lineReply (line : WalEntry) : Reply :=
  match (n.index.replayEntry line).2 with
  | .ok () => .inserted line.sequence
  | .error _ => .indexError

omit [Platform] in
/-- The reply to the compaction. -/
def compactReply (order : PassOrder) : Log.CompactOutcome → Reply
  | .compacted => .compacted (n.index.snapshotEntries order).length n.log.sequence
  | _ => .compactError

omit [Platform] in
/-- Where a batch of this size leaves a command of the channel. -/
def dealt (taken : Nat) (compact : Bool) (ahead : Nat) : Ticket :=
  if ahead < taken then .batched ahead
  else if compact = true then
    if ahead = taken then .compaction else .queued (ahead - taken - 1)
  else .queued (ahead - taken)

/-- What an action does for the request. -/
def follow : Ticket → Action → Ticket
  | .queued ahead, .collect size =>
      if n.phase = .idle then
        dealt (takeBatch size n.queue).1.length (takeBatch size n.queue).2.1 ahead
      else .queued ahead
  | .batched ahead, .write outcome => match n.phase with
      | .collected batch _ => match (n.log.flush batch outcome).2 with
          | .ok _ => .batched ahead
          | .error _ => .answered .walError
      | _ => .batched ahead
  | .batched ahead, .apply => match n.phase with
      | .applying (line :: _) _ =>
          if ahead = 0 then .answered (n.lineReply line) else .batched (ahead - 1)
      | _ => .batched ahead
  | .compaction, .compact order outcome =>
      if n.phase = .compacting then .answered (n.compactReply order outcome) else .compaction
  | ticket, _ => ticket

omit [Platform] in
/-- The action is the next step of the flush task. -/
def turn : Action → Bool
  | .collect _ => decide (n.phase = .idle ∧ n.queue ≠ [])
  | .write _ => match n.phase with
      | .collected _ _ => true
      | _ => false
  | .acquire => match n.phase with
      | .written _ _ => true
      | _ => false
  | .apply => match n.phase with
      | .applying _ _ => true
      | _ => false
  | .evict _ _ => match n.phase with
      | .flushed _ => true
      | _ => false
  | .writeTombstones _ => match n.phase with
      | .evicted _ _ => true
      | _ => false
  | .settle _ _ => match n.phase with
      | .settled _ => true
      | _ => false
  | .compact _ _ => decide (n.phase = .compacting)
  | _ => false

/-- The node and the request after an action. -/
def track (cfg : NodeConfig) (state : Node × Ticket) (a : Action) : Node × Ticket :=
  (state.1.act cfg a, state.1.follow state.2 a)

/-- Where a request is after a run. -/
def ticketAfter (cfg : NodeConfig) (ticket : Ticket) (actions : List Action) : Ticket :=
  (actions.foldl (track cfg) (n, ticket)).2

/-- The steps of the flush task in a run. -/
def turnsIn (cfg : NodeConfig) (actions : List Action) : Nat :=
  Turns.count (act cfg) turn n actions

end Follow

/-! ## What is left to do -/

/-- The steps of the flush task to the end of its round, at most. -/
def leftInRound : Phase → Nat
  | .idle => 0
  | .compacting => 1
  | .settled _ => 2
  | .evicted _ _ => 3
  | .flushed _ => 4
  | .applying lines _ => lines.length + 5
  | .written lines _ => lines.length + 6
  | .collected batch _ => batch.length + 7

/-- The steps of the flush task up to the reply, at most: nine for each command
of the channel. -/
def leftFor (n : Node) : Ticket → Nat
  | .queued ahead => leftInRound n.phase + 9 * (ahead + 1)
  | .batched ahead => match n.phase with
      | .collected _ _ => ahead + 3
      | .written _ _ => ahead + 2
      | _ => ahead + 1
  | .compaction => leftInRound n.phase
  | .answered _ => 0

/-- A compaction request ended the batch. -/
def endsCompacting : Phase → Bool
  | .idle => false
  | .compacting => true
  | .settled compact => compact
  | .evicted _ compact => compact
  | .flushed compact => compact
  | .applying _ compact => compact
  | .written _ compact => compact
  | .collected _ compact => compact

/-- The request is for this command and is where the ticket says. -/
def Holds (command : Command) (n : Node) : Ticket → Prop
  | .queued ahead => n.queue[ahead]? = some command
  | .batched ahead => command ≠ .compact ∧ ahead < (n.phase.pending ++ n.phase.batch).length
  | .compaction => command = .compact ∧ endsCompacting n.phase = true
  | .answered reply => reply.Answers command

section Progress

variable [Platform] {cfg : NodeConfig} {n : Node} {a : Action}

/-- Only the flush task changes its phase. -/
theorem phase_of_not_turn (alive : crashes a = false) (waits : n.turn a = false) :
    (n.act cfg a).phase = n.phase := by
  cases a with
  | submit entry => rfl
  | requestCompact => rfl
  | lookupDelete uuid =>
      change (n.lookupDelete uuid).phase = _
      unfold Node.lookupDelete
      split
      · rfl
      · rfl
  | removeDelete i =>
      change (n.removeDelete i).phase = _
      unfold Node.removeDelete
      split
      · rfl
      · rfl
  | invalidate order embedding threshold modelId now => rfl
  | reap expireOrder now rebuildOrder pruneOrder => rfl
  | access modelId internalId now => rfl
  | send i =>
      change (n.send i).phase = _
      unfold Node.send
      split
      · rfl
      · rfl
  | collect size =>
      have blocked : ¬ (n.phase = .idle ∧ n.queue ≠ []) := of_decide_eq_false waits
      change (n.collect size).phase = _
      unfold Node.collect
      split
      · next idle taken =>
          refine absurd ⟨idle, fun empty => ?_⟩ blocked
          rw [empty] at taken
          cases size with
          | zero => cases taken
          | succ size => cases taken
      · next idle taken =>
          refine absurd ⟨idle, fun empty => ?_⟩ blocked
          rw [empty] at taken
          cases size with
          | zero => cases taken
          | succ size => cases taken
      · rfl
  | write outcome =>
      change (n.write outcome).phase = _
      unfold Node.write
      cases phase : n.phase with
      | collected batch compact => simp [turn, phase] at waits
      | _ => exact phase
  | acquire =>
      change n.acquire.phase = _
      unfold Node.acquire
      cases phase : n.phase with
      | written lines compact => simp [turn, phase] at waits
      | _ => exact phase
  | apply =>
      change n.apply.phase = _
      unfold Node.apply
      cases phase : n.phase with
      | applying lines compact => simp [turn, phase] at waits
      | _ => exact phase
  | evict order rebuildOrder =>
      change (n.evict cfg order rebuildOrder).phase = _
      unfold Node.evict
      cases phase : n.phase with
      | flushed compact => simp [turn, phase] at waits
      | _ => exact phase
  | writeTombstones outcome =>
      change (n.writeTombstones outcome).phase = _
      unfold Node.writeTombstones
      cases phase : n.phase with
      | evicted out compact => simp [turn, phase] at waits
      | _ => exact phase
  | settle order outcome =>
      change (n.settle cfg order outcome).phase = _
      unfold Node.settle
      cases phase : n.phase with
      | settled compact => simp [turn, phase] at waits
      | _ => exact phase
  | compact order outcome =>
      change (n.runCompact order outcome).phase = _
      unfold Node.runCompact
      cases phase : n.phase with
      | compacting => simp [turn, phase] at waits
      | _ => exact phase
  | restart cut expireOrder now => cases alive

/-- What the flush task goes on to, by its phase. -/
inductive NextPhase (n : Node) (a : Action) : Phase → Prop
  | collects (size : Nat) (runs : a = .collect size) (idle : n.phase = .idle) (next : Phase) :
    NextPhase n a next
  | fails (outcome : WriteOutcome) {batch : List WalEntry} {compact : Bool}
    (runs : a = .write outcome) (phase : n.phase = .collected batch compact) {msg : String}
    (failed : (n.log.flush batch outcome).2 = .error msg) : NextPhase n a (.flushed compact)
  | writes (outcome : WriteOutcome) {batch lines : List WalEntry} {compact : Bool}
    (runs : a = .write outcome) (phase : n.phase = .collected batch compact)
    (written : (n.log.flush batch outcome).2 = .ok lines) (same : lines.length = batch.length) :
    NextPhase n a (.written lines compact)
  | acquires {lines : List WalEntry} {compact : Bool} (runs : a = .acquire)
    (phase : n.phase = .written lines compact) : NextPhase n a (.applying lines compact)
  | applies {line : WalEntry} {lines : List WalEntry} {compact : Bool} (runs : a = .apply)
    (phase : n.phase = .applying (line :: lines) compact) : NextPhase n a (.applying lines compact)
  | ends {compact : Bool} (runs : a = .apply) (phase : n.phase = .applying [] compact) :
    NextPhase n a (.flushed compact)
  | keeps {compact : Bool} (phase : n.phase = .flushed compact) : NextPhase n a (.settled compact)
  | evicts {compact : Bool} (phase : n.phase = .flushed compact) (out : List EvictedEntry) :
    NextPhase n a (.evicted out compact)
  | settles {out : List EvictedEntry} {compact : Bool} (phase : n.phase = .evicted out compact) :
    NextPhase n a (.settled compact)
  | finishes {compact : Bool} (phase : n.phase = .settled compact) :
    NextPhase n a (if compact then .compacting else .idle)
  | compacts (order : PassOrder) (outcome : Log.CompactOutcome) (runs : a = .compact order outcome)
    (phase : n.phase = .compacting) : NextPhase n a .idle

theorem nextPhase_of_turn (turns : n.turn a = true) : NextPhase n a (n.act cfg a).phase := by
  cases a with
  | collect size =>
      have ready : n.phase = .idle ∧ n.queue ≠ [] := of_decide_eq_true turns
      exact .collects size rfl ready.1 _
  | write outcome =>
      change NextPhase n _ (n.write outcome).phase
      unfold Node.write
      cases phase : n.phase with
      | collected batch compact =>
          dsimp only
          rcases flushed : n.log.flush batch outcome with ⟨log, msg | lines⟩
          · exact .fails outcome rfl phase (congrArg Prod.snd flushed)
          · have same := (Log.flush_ok flushed).1.same.length_eq
            exact .writes outcome rfl phase (congrArg Prod.snd flushed) same.symm
      | _ => simp [turn, phase] at turns
  | acquire =>
      change NextPhase n _ n.acquire.phase
      unfold Node.acquire
      cases phase : n.phase with
      | written lines compact => exact .acquires rfl phase
      | _ => simp [turn, phase] at turns
  | apply =>
      change NextPhase n _ n.apply.phase
      unfold Node.apply
      cases phase : n.phase with
      | applying lines compact =>
          cases lines with
          | nil => exact .ends rfl phase
          | cons line lines =>
              dsimp only
              rcases n.index.replayEntry line with ⟨index, _ | _⟩
              · exact .applies rfl phase
              · exact .applies rfl phase
      | _ => simp [turn, phase] at turns
  | evict order rebuildOrder =>
      change NextPhase n _ (n.evict cfg order rebuildOrder).phase
      unfold Node.evict
      cases phase : n.phase with
      | flushed compact =>
          cases cfg.hnsw.maxEntriesPerNamespace with
          | none => exact .keeps phase
          | some maxEntries => exact .evicts phase _
      | _ => simp [turn, phase] at turns
  | writeTombstones outcome =>
      change NextPhase n _ (n.writeTombstones outcome).phase
      unfold Node.writeTombstones
      cases phase : n.phase with
      | evicted out compact =>
          cases out with
          | nil => exact .settles phase
          | cons e out =>
              dsimp only
              rcases n.log.flush (evictedTombstones (e :: out)) outcome with ⟨log, _ | _⟩
              · exact .settles phase
              · exact .settles phase
      | _ => simp [turn, phase] at turns
  | settle order outcome =>
      change NextPhase n _ (n.settle cfg order outcome).phase
      unfold Node.settle
      cases phase : n.phase with
      | settled compact => exact .finishes phase
      | _ => simp [turn, phase] at turns
  | compact order outcome =>
      change NextPhase n _ (n.runCompact order outcome).phase
      unfold Node.runCompact
      cases phase : n.phase with
      | compacting => exact .compacts order outcome rfl phase
      | _ => simp [turn, phase] at turns
  | _ => cases turns

variable (cfg n) in
/-- Apart from the end of a wait, a step of the flush task brings the end of the
round closer. -/
theorem leftInRound_act (alive : crashes a = false) (other : ∀ size, a ≠ .collect size) :
    leftInRound (n.act cfg a).phase + (if n.turn a then 1 else 0) ≤ leftInRound n.phase := by
  cases turns : n.turn a with
  | false =>
      rw [phase_of_not_turn alive turns]
      exact le_rfl
  | true =>
      have next : NextPhase n a (n.act cfg a).phase := nextPhase_of_turn turns
      generalize (n.act cfg a).phase = after at next ⊢
      rw [if_pos rfl]
      cases next with
      | collects size runs idle next => exact absurd runs (other size)
      | writes outcome runs phase written same => simp [phase, leftInRound, same]
      | @finishes compact phase =>
          cases compact with
          | true => simp [phase, leftInRound]
          | false => simp [phase, leftInRound]
      | fails outcome runs phase failed => simp [phase, leftInRound]
      | acquires runs phase => simp [phase, leftInRound]
      | applies runs phase => simp [phase, leftInRound]
      | ends runs phase => simp [phase, leftInRound]
      | keeps phase => simp [phase, leftInRound]
      | evicts phase out => simp [phase, leftInRound]
      | settles phase => simp [phase, leftInRound]
      | compacts order outcome runs phase => simp [phase, leftInRound]

variable (cfg n) in
/-- Commands are only added behind the others, except when a batch is taken. -/
theorem queue_act (alive : crashes a = false) (other : ∀ size, a ≠ .collect size) :
    ∃ more, (n.act cfg a).queue = n.queue ++ more := by
  have moves : Moves cfg n a (n.act cfg a) := act_moves a
  generalize n.act cfg a = n' at moves ⊢
  cases moves with
  | submits entry => exact ⟨_, rfl⟩
  | asksCompact => exact ⟨_, rfl⟩
  | sends i found => exact ⟨_, rfl⟩
  | collects size idle taken => exact absurd rfl (other size)
  | collectsCompact size idle taken => exact absurd rfl (other size)
  | boots => cases alive
  | _ => exact ⟨[], (List.append_nil _).symm⟩

/-! ## A request in the channel -/

omit [Platform] in
/-- Waiting for a command leaves everything. -/
theorem collect_of_busy (size : Nat) (busy : n.phase ≠ .idle) : n.collect size = n := by
  unfold Node.collect
  split
  · next idle _ => exact absurd idle busy
  · next idle _ => exact absurd idle busy
  · rfl

omit [Platform] in
/-- A batch that was taken, with what it leaves in the channel. -/
theorem collect_of_idle {size : Nat} (takes : 0 < size) (idle : n.phase = .idle)
    (some : n.queue ≠ []) :
    (n.collect size).queue = (takeBatch size n.queue).2.2 ∧
      (((takeBatch size n.queue).1 = [] ∧ (takeBatch size n.queue).2.1 = true ∧
          (n.collect size).phase = .compacting) ∨
        (takeBatch size n.queue).1 ≠ [] ∧ (n.collect size).phase =
          .collected (takeBatch size n.queue).1 (takeBatch size n.queue).2.1) := by
  unfold Node.collect
  rw [idle]
  rcases taken : takeBatch size n.queue with ⟨_ | ⟨entry, batch⟩, _ | _, queue⟩
  · -- an empty batch was ended by a compaction, or there was nothing to take
    exact absurd (takeBatch_eq_nil takes taken) some
  · exact ⟨rfl, .inl ⟨rfl, rfl, rfl⟩⟩
  · exact ⟨rfl, .inr ⟨List.cons_ne_nil _ _, rfl⟩⟩
  · exact ⟨rfl, .inr ⟨List.cons_ne_nil _ _, rfl⟩⟩

omit [Platform] in
/-- Where the command at a position of the channel goes. -/
theorem dealt_spec {queue rest : List Command} {batch : List WalEntry} {compact : Bool}
    (split : queue = batch.map .insert ++ ((if compact then [.compact] else []) ++ rest))
    {ahead : Nat} {command : Command} (found : queue[ahead]? = some command) :
    (dealt batch.length compact ahead = .batched ahead ∧ ahead < batch.length ∧
        command ≠ .compact) ∨
      (dealt batch.length compact ahead = .compaction ∧ ahead = batch.length ∧ compact = true ∧
        command = .compact) ∨
      ∃ later, dealt batch.length compact ahead = .queued later ∧ rest[later]? = some command ∧
        later + batch.length + (if compact then 1 else 0) = ahead := by
  subst split
  unfold dealt
  by_cases inside : ahead < batch.length
  · refine .inl ⟨if_pos inside, inside, ?_⟩
    rw [List.getElem?_append_left (by rw [List.length_map]; exact inside), List.getElem?_map] at found
    obtain ⟨entry, -, rfl⟩ := Option.map_eq_some_iff.mp found
    exact Command.noConfusion
  · have beyond : batch.length ≤ ahead := Nat.le_of_not_lt inside
    rw [List.getElem?_append_right (by rw [List.length_map]; exact beyond), List.length_map] at found
    rw [if_neg inside]
    cases compact with
    | false => exact .inr (.inr ⟨ahead - batch.length, rfl, found, Nat.sub_add_cancel beyond⟩)
    | true =>
        by_cases exactly : ahead = batch.length
        · rw [exactly, Nat.sub_self] at found
          exact .inr (.inl ⟨by simp [exactly], exactly, rfl, (Option.some.inj found).symm⟩)
        · obtain ⟨later, position⟩ : ∃ later, ahead - batch.length = later + 1 :=
            ⟨ahead - batch.length - 1, by omega⟩
          refine .inr (.inr ⟨later, ?_, ?_, ?_⟩)
          · simp only [if_true, if_neg exactly, position, Nat.add_sub_cancel]
          · rw [position] at found
            exact found
          · rw [if_pos rfl]
            omega

/-- Taking a batch serves nine steps' worth of each command it takes. -/
theorem queued_collect {command : Command} {ahead size : Nat}
    (found : n.queue[ahead]? = some command) (takes : 0 < size) (idle : n.phase = .idle) :
    Holds command (n.collect size) (n.follow (.queued ahead) (.collect size)) ∧
      leftFor (n.collect size) (n.follow (.queued ahead) (.collect size)) + 1 ≤
        9 * (ahead + 1) := by
  have some : n.queue ≠ [] := by
    intro empty
    rw [empty] at found
    cases found
  obtain ⟨queue, phase⟩ := collect_of_idle takes idle some
  have ticket : n.follow (.queued ahead) (.collect size) =
      dealt (takeBatch size n.queue).1.length (takeBatch size n.queue).2.1 ahead := if_pos idle
  have place := dealt_spec (takeBatch_append size n.queue) found
  rw [ticket]
  generalize (takeBatch size n.queue).1 = batch at phase place ⊢
  generalize (takeBatch size n.queue).2.1 = compact at phase place ⊢
  rcases place with ⟨dealt, inside, kind⟩ | ⟨dealt, last, ends, kind⟩ |
    ⟨later, dealt, there, position⟩
  · -- it is in the batch
    rw [dealt]
    rcases phase with ⟨rfl, -, -⟩ | ⟨-, collected⟩
    · cases inside
    · unfold Holds leftFor
      rw [collected]
      exact ⟨⟨kind, inside⟩, by dsimp only; omega⟩
  · -- it is the compaction that ends the batch
    rw [dealt]
    unfold Holds leftFor
    rcases phase with ⟨-, -, compacting⟩ | ⟨-, collected⟩
    · rw [compacting]
      exact ⟨⟨kind, rfl⟩, by dsimp only [leftInRound]; omega⟩
    · rw [collected]
      exact ⟨⟨kind, ends⟩, by dsimp only [leftInRound]; omega⟩
  · -- it is still in the channel
    rw [dealt]
    unfold Holds leftFor
    rw [queue]
    refine ⟨there, ?_⟩
    rcases phase with ⟨rfl, rfl, compacting⟩ | ⟨nonempty, collected⟩
    · rw [compacting]
      rw [if_pos rfl, List.length_nil] at position
      dsimp only [leftInRound]
      omega
    · rw [collected]
      have more : 0 < batch.length := List.length_pos_iff.mpr nonempty
      dsimp only [leftInRound]
      omega

/-- A request in the channel moves up, or into a batch. -/
theorem queued_track {command : Command} {ahead : Nat} (found : n.queue[ahead]? = some command)
    (admissible : n.Admissible cfg a) (alive : crashes a = false) :
    Holds command (n.act cfg a) (n.follow (.queued ahead) a) ∧
      leftFor (n.act cfg a) (n.follow (.queued ahead) a) + (if n.turn a then 1 else 0) ≤
        leftFor n (.queued ahead) := by
  by_cases takes : ∃ size, a = .collect size
  · obtain ⟨size, rfl⟩ := takes
    by_cases idle : n.phase = .idle
    · obtain ⟨holds, less⟩ := queued_collect found admissible.1 idle
      have all : leftFor n (.queued ahead) = 9 * (ahead + 1) := by
        unfold leftFor
        rw [idle]
        exact Nat.zero_add _
      rw [all]
      refine ⟨holds, le_trans ?_ less⟩
      have atMost : (if n.turn (.collect size) then 1 else 0) ≤ 1 := by
        split
        · exact le_rfl
        · exact Nat.zero_le 1
      exact Nat.add_le_add_left atMost _
    · have waits : n.follow (.queued ahead) (.collect size) = .queued ahead := if_neg idle
      have same : n.act cfg (.collect size) = n := collect_of_busy size idle
      have notTurn : n.turn (.collect size) = false := decide_eq_false fun both => idle both.1
      rw [waits, same, notTurn]
      exact ⟨found, le_rfl⟩
  · have other : ∀ size, a ≠ .collect size := fun size same => takes ⟨size, same⟩
    obtain ⟨more, queue⟩ := queue_act cfg n alive other
    have waits : n.follow (.queued ahead) a = .queued ahead := by
      cases a with
      | collect size => exact absurd rfl (other size)
      | _ => rfl
    have less := leftInRound_act cfg n alive other
    rw [waits]
    refine ⟨?_, ?_⟩
    · change (n.act cfg a).queue[ahead]? = some command
      have inside := (List.getElem?_eq_some_iff.mp found).1
      rw [queue, List.getElem?_append_left inside]
      exact found
    · unfold leftFor
      dsimp only
      omega

/-! ## A request in a batch -/

omit [Platform] in
theorem walError_answers {command : Command} (kind : command ≠ .compact) :
    Reply.walError.Answers command := by
  cases command with
  | insert entry => trivial
  | compact => exact absurd rfl kind

theorem lineReply_answers {command : Command} (kind : command ≠ .compact) (line : WalEntry) :
    (n.lineReply line).Answers command := by
  cases command with
  | compact => exact absurd rfl kind
  | insert entry =>
      unfold lineReply
      split
      · trivial
      · trivial

omit [Platform] in
theorem compactReply_answers (order : PassOrder) (outcome : Log.CompactOutcome) :
    (n.compactReply order outcome).Answers .compact := by
  cases outcome with
  | _ => trivial

/-- Only the flush task moves a request in a batch, or the compaction that ends
the batch. -/
theorem follow_of_not_turn {ticket : Ticket} (waits : n.turn a = false)
    (taken : ∀ ahead, ticket ≠ .queued ahead) : n.follow ticket a = ticket := by
  cases ticket with
  | queued ahead => exact absurd rfl (taken ahead)
  | answered reply => cases a <;> rfl
  | batched ahead =>
      cases a with
      | write outcome =>
          unfold follow
          cases phase : n.phase with
          | collected batch compact => simp [turn, phase] at waits
          | _ => rfl
      | apply =>
          unfold follow
          cases phase : n.phase with
          | applying lines compact => simp [turn, phase] at waits
          | _ => rfl
      | _ => rfl
  | compaction =>
      cases a with
      | compact order outcome => exact if_neg (of_decide_eq_false waits)
      | _ => rfl

/-- A request in a batch moves up, or it is answered. -/
theorem batched_track {command : Command} {ahead : Nat} (kind : command ≠ .compact)
    (inside : ahead < (n.phase.pending ++ n.phase.batch).length) (alive : crashes a = false) :
    Holds command (n.act cfg a) (n.follow (.batched ahead) a) ∧
      leftFor (n.act cfg a) (n.follow (.batched ahead) a) + (if n.turn a then 1 else 0) ≤
        leftFor n (.batched ahead) := by
  cases turns : n.turn a with
  | false =>
      have same : (n.act cfg a).phase = n.phase := phase_of_not_turn alive turns
      rw [follow_of_not_turn turns fun _ => Ticket.noConfusion]
      unfold Holds leftFor
      rw [same]
      exact ⟨⟨kind, inside⟩, le_rfl⟩
  | true =>
      have next : NextPhase n a (n.act cfg a).phase := nextPhase_of_turn turns
      rw [if_pos rfl]
      generalize after : (n.act cfg a).phase = phase' at next
      cases next with
      | fails outcome runs phase failed =>
          subst runs
          have reply : n.follow (.batched ahead) (.write outcome) = .answered .walError := by
            simp only [follow, phase, failed]
          rw [reply]
          exact ⟨walError_answers kind, by unfold leftFor; rw [phase]; dsimp only; omega⟩
      | @writes outcome batch lines compact runs phase written same =>
          subst runs
          have stays : n.follow (.batched ahead) (.write outcome) = .batched ahead := by
            simp only [follow, phase, written]
          rw [stays]
          unfold Holds leftFor
          rw [after, phase]
          rw [phase] at inside
          simp only [Phase.pending, Phase.batch, List.append_nil, List.nil_append] at inside ⊢
          exact ⟨⟨kind, by omega⟩, by omega⟩
      | acquires runs phase =>
          subst runs
          unfold Holds leftFor follow
          rw [after, phase]
          rw [phase] at inside
          exact ⟨⟨kind, inside⟩, le_rfl⟩
      | @applies line lines compact runs phase =>
          subst runs
          by_cases first : ahead = 0
          · have reply : n.follow (.batched ahead) .apply = .answered (n.lineReply line) := by
              simp only [follow, phase, if_pos first]
            rw [reply]
            exact ⟨lineReply_answers kind line, by unfold leftFor; rw [phase]; dsimp only; omega⟩
          · have moves : n.follow (.batched ahead) .apply = .batched (ahead - 1) := by
              simp only [follow, phase, if_neg first]
            rw [moves]
            unfold Holds leftFor
            rw [after, phase]
            rw [phase] at inside
            simp only [Phase.pending, Phase.batch, List.append_nil, List.length_cons] at inside ⊢
            exact ⟨⟨kind, by omega⟩, by omega⟩
      | ends runs phase => rw [phase] at inside; cases inside
      | collects size runs idle next => rw [idle] at inside; cases inside
      | keeps phase => rw [phase] at inside; cases inside
      | evicts phase out => rw [phase] at inside; cases inside
      | settles phase => rw [phase] at inside; cases inside
      | finishes phase => rw [phase] at inside; cases inside
      | compacts order outcome runs phase => rw [phase] at inside; cases inside

/-- The compaction that ended a batch comes closer, or it is answered. -/
theorem compaction_track (ends : endsCompacting n.phase = true) (alive : crashes a = false) :
    Holds .compact (n.act cfg a) (n.follow .compaction a) ∧
      leftFor (n.act cfg a) (n.follow .compaction a) + (if n.turn a then 1 else 0) ≤
        leftFor n .compaction := by
  cases turns : n.turn a with
  | false =>
      have same : (n.act cfg a).phase = n.phase := phase_of_not_turn alive turns
      rw [follow_of_not_turn turns fun _ => Ticket.noConfusion]
      unfold Holds leftFor
      rw [same]
      exact ⟨⟨rfl, ends⟩, le_rfl⟩
  | true =>
      have next : NextPhase n a (n.act cfg a).phase := nextPhase_of_turn turns
      by_cases last : ∃ order outcome, a = .compact order outcome
      · obtain ⟨order, outcome, rfl⟩ := last
        have phase : n.phase = .compacting := of_decide_eq_true turns
        have reply : n.follow .compaction (.compact order outcome) =
            .answered (n.compactReply order outcome) := if_pos phase
        rw [reply]
        refine ⟨compactReply_answers order outcome, ?_⟩
        unfold leftFor
        rw [phase]
        exact le_rfl
      · have stays : n.follow .compaction a = .compaction := by
          cases a with
          | compact order outcome => exact absurd ⟨order, outcome, rfl⟩ last
          | _ => rfl
        have busy : ∀ size, a ≠ .collect size := by
          rintro size rfl
          have ready : n.phase = .idle ∧ n.queue ≠ [] := of_decide_eq_true turns
          rw [ready.1] at ends
          cases ends
        have less := leftInRound_act cfg n alive busy
        rw [turns] at less
        rw [stays]
        refine ⟨⟨rfl, ?_⟩, less⟩
        generalize (n.act cfg a).phase = after at next ⊢
        cases next with
        | collects size runs idle next => exact absurd runs (busy size)
        | compacts order outcome runs phase => exact absurd ⟨order, outcome, runs⟩ last
        | @finishes compact phase =>
            rw [phase] at ends
            have asked : compact = true := ends
            rw [if_pos asked]
            rfl
        | fails outcome runs phase failed => rw [phase] at ends; exact ends
        | writes outcome runs phase written same => rw [phase] at ends; exact ends
        | acquires runs phase => rw [phase] at ends; exact ends
        | applies runs phase => rw [phase] at ends; exact ends
        | ends runs phase => rw [phase] at ends; exact ends
        | keeps phase => rw [phase] at ends; exact ends
        | evicts phase out => rw [phase] at ends; exact ends
        | settles phase => rw [phase] at ends; exact ends

/-! ## Runs -/

/-- A request that is open moves up, or it is answered. -/
theorem track_step {command : Command} {ticket : Ticket} (holds : Holds command n ticket)
    (admissible : n.Admissible cfg a) (alive : crashes a = false)
    (opens : ∀ reply, ticket ≠ .answered reply) :
    Holds command (n.act cfg a) (n.follow ticket a) ∧
      leftFor (n.act cfg a) (n.follow ticket a) + (if n.turn a then 1 else 0) ≤
        leftFor n ticket := by
  cases ticket with
  | queued ahead => exact queued_track holds admissible alive
  | batched ahead => exact batched_track holds.1 holds.2 alive
  | compaction =>
      obtain ⟨rfl, ends⟩ := holds
      exact compaction_track ends alive
  | answered reply => exact absurd rfl (opens reply)

/-- The flush task has a step to take unless it waits for a command. -/
theorem exists_turn_of_busy (busy : n.phase = .idle → n.queue ≠ []) :
    ∃ a, n.Admissible cfg a ∧ crashes a = false ∧ n.turn a = true := by
  have capOrder : ∃ order rebuildOrder, n.Admissible cfg (.evict order rebuildOrder) := by
    cases capped : cfg.hnsw.maxEntriesPerNamespace with
    | none => exact ⟨[], ⟨[], fun _ => []⟩, fun _ found => by rw [capped] at found; cases found⟩
    | some maxEntries =>
        refine ⟨n.index.namespaces.keys.toList, anyOrder (n.index.evictToCap
          n.index.namespaces.keys.toList maxEntries).1, fun other found => ?_⟩
        obtain rfl := Option.some.inj (found.symm.trans capped)
        exact ⟨(visits_anyOrder n.index).1, visits_anyOrder _⟩
  cases phase : n.phase with
  | idle =>
      exact ⟨.collect 1, ⟨Nat.one_pos, le_max_right _ _⟩, rfl, decide_eq_true ⟨phase, busy phase⟩⟩
  | collected batch compact => exact ⟨.write .synced, trivial, rfl, by simp [turn, phase]⟩
  | written lines compact => exact ⟨.acquire, trivial, rfl, by simp [turn, phase]⟩
  | applying lines compact => exact ⟨.apply, trivial, rfl, by simp [turn, phase]⟩
  | flushed compact =>
      obtain ⟨order, rebuildOrder, admissible⟩ := capOrder
      exact ⟨.evict order rebuildOrder, admissible, rfl, by simp [turn, phase]⟩
  | evicted out compact => exact ⟨.writeTombstones .synced, trivial, rfl, by simp [turn, phase]⟩
  | settled compact =>
      exact ⟨.settle (anyOrder n.index) .compacted, visits_anyOrder _, rfl, by simp [turn, phase]⟩
  | compacting =>
      exact ⟨.compact (anyOrder n.index) .compacted, visits_anyOrder _, rfl, by simp [turn, phase]⟩

omit [Platform] in
/-- While a request is open, the flush task does not wait for a command. -/
theorem Holds.busy {command : Command} {ticket : Ticket} (holds : Holds command n ticket)
    (opens : ∀ reply, ticket ≠ .answered reply) (idle : n.phase = .idle) : n.queue ≠ [] := by
  intro empty
  cases ticket with
  | queued ahead =>
      have found : n.queue[ahead]? = some command := holds
      rw [empty] at found
      cases found
  | batched ahead =>
      have inside := holds.2
      rw [idle] at inside
      cases inside
  | compaction =>
      have ends := holds.2
      rw [idle] at ends
      cases ends
  | answered reply => exact opens reply rfl

/-- The request was answered, with a reply for its kind of command. -/
def Answered (command : Command) (ticket : Ticket) : Prop :=
  ∃ reply, ticket = .answered reply ∧ reply.Answers command

omit [Platform] in
theorem leftFor_pos {command : Command} {ticket : Ticket} (holds : Holds command n ticket)
    (opens : ∀ reply, ticket ≠ .answered reply) : 0 < leftFor n ticket := by
  unfold leftFor
  cases ticket with
  | queued ahead =>
      dsimp only
      omega
  | batched ahead =>
      dsimp only
      split
      · exact Nat.succ_pos _
      · exact Nat.succ_pos _
      · exact Nat.succ_pos _
  | compaction =>
      have ends := holds.2
      cases phase : n.phase with
      | idle =>
          rw [phase] at ends
          cases ends
      | _ => exact Nat.succ_pos _
  | answered reply => exact absurd rfl (opens reply)

variable (cfg) in
theorem progress_track (command : Command) :
    Turns.Progress (track cfg) (fun state => state.1.turn)
      (fun state a => state.1.Admissible cfg a ∧ crashes a = false)
      (fun state => leftFor state.1 state.2) (fun state => Holds command state.1 state.2)
      (fun state => Answered command state.2) where
  stays := by
    rintro ⟨n, ticket⟩ a ⟨reply, rfl, kind⟩
    exact ⟨reply, rfl, kind⟩
  falls := by
    rintro ⟨n, ticket⟩ a holds ⟨admissible, alive⟩ unanswered
    refine track_step holds admissible alive fun reply same => unanswered ⟨reply, same, ?_⟩
    subst same
    exact holds
  positive := by
    rintro ⟨n, ticket⟩ holds unanswered
    refine leftFor_pos holds fun reply same => unanswered ⟨reply, same, ?_⟩
    subst same
    exact holds

theorem runs_track (ticket : Ticket) {actions : List Action}
    (allowed : Allowed cfg Alive n actions) :
    Turns.Runs (track cfg) (fun state a => state.1.Admissible cfg a ∧ crashes a = false)
      (n, ticket) actions := by
  induction actions generalizing n ticket with
  | nil => trivial
  | cons a actions ih =>
      obtain ⟨admissible, alive, rest⟩ := allowed
      exact ⟨⟨admissible, alive⟩, ih _ rest⟩

theorem fst_track (ticket : Ticket) (actions : List Action) :
    (actions.foldl (track cfg) (n, ticket)).1 = n.run cfg actions := by
  induction actions generalizing n ticket with
  | nil => rfl
  | cons a actions ih => exact ih (n := n.act cfg a) _

/-- A command in the channel of any node, and any run without a crash.  Until it
is answered, the flush task has a step to take; it is answered after at most nine
such steps for each command up to it, on top of the steps that end the current
round; and the reply is one for its kind of command. -/
theorem answered_within {ahead : Nat} {command : Command}
    (queued : n.queue[ahead]? = some command) {actions : List Action}
    (allowed : Allowed cfg Alive n actions) :
    (Answered command (n.ticketAfter cfg (.queued ahead) actions) ∨
      ∃ a, (n.run cfg actions).Admissible cfg a ∧ crashes a = false ∧
        (n.run cfg actions).turn a = true) ∧
    (leftInRound n.phase + 9 * (ahead + 1) ≤ n.turnsIn cfg actions →
      Answered command (n.ticketAfter cfg (.queued ahead) actions)) := by
  have progress := progress_track cfg command
  have holds : Holds command n (.queued ahead) := queued
  have runs := runs_track (.queued ahead) allowed
  constructor
  · by_cases answered : Answered command (n.ticketAfter cfg (.queued ahead) actions)
    · exact .inl answered
    · rcases progress.done_or_inv (s := (n, .queued ahead)) holds runs with done | later
      · exact .inl done
      · rw [fst_track] at later
        refine .inr (exists_turn_of_busy (later.busy fun reply same => answered ⟨reply, same, ?_⟩))
        rw [same] at later
        exact later
  · intro enough
    have same : Turns.count (track cfg) (fun state => state.1.turn) (n, .queued ahead) actions =
        n.turnsIn cfg actions :=
      Turns.count_project Prod.fst (fun _ _ => rfl) (fun _ _ => rfl) _ actions
    refine progress.done_of_count (s := (n, .queued ahead)) holds runs ?_
    rw [same]
    exact enough

end Progress

section Example

local instance serviceExamplePlatform : Platform := Platform.sample

def servedConfig : NodeConfig := ⟨⟨0, none⟩, 2, 0⟩

/-- An insert and a compaction request in the channel. -/
def twoRequests : Node :=
  { new servedConfig with queue := [.insert (datedLine "p" 3), .compact] }

/-- The round that serves them, with a pass of the reaper and another insert in
between, and the start of the next round. -/
def servedRun : List Action :=
  [.collect 2, .write .synced, .reap ⟨[], fun _ => []⟩ 0 ⟨[], fun _ => []⟩ [], .acquire, .apply,
    .submit (datedLine "q" 9), .apply, .evict [] ⟨[], fun _ => []⟩,
    .settle ⟨["a"], fun _ => [0]⟩ .compacted, .compact ⟨["a"], fun _ => [0]⟩ .compacted, .collect 1]

theorem answered_within_sample :
    Answered (.insert (datedLine "p" 3))
        (twoRequests.ticketAfter servedConfig (.queued 0) servedRun) ∧
      twoRequests.ticketAfter servedConfig (.queued 0) servedRun = .answered (.inserted 1) ∧
      twoRequests.ticketAfter servedConfig (.queued 1) servedRun = .answered (.compacted 1 1) := by
  have allowed : Allowed servedConfig Alive twoRequests servedRun := by
    refine ⟨⟨by decide, by decide⟩, rfl, trivial, rfl, ⟨?_, ?_, ?_, ?_⟩, rfl, trivial, rfl, trivial,
      rfl, rfl, rfl, trivial, rfl, (fun _ capped => by cases capped), rfl, ?_, rfl, ?_, rfl,
      ⟨by decide, by decide⟩, rfl, trivial⟩
    · decide +kernel
    · decide +kernel
    · decide +kernel
    · decide +kernel
    · change SemanticIndex.Visits _ _
      decide +kernel
    · change SemanticIndex.Visits _ _
      decide +kernel
  refine ⟨(answered_within rfl allowed).2 ?_, by decide +kernel, by decide +kernel⟩
  decide +kernel

end Example

end Node

end Ferrocache
