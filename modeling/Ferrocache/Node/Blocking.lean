import Ferrocache.Node.Tasks
import Mathlib.Algebra.Ring.Nat
import Mathlib.Order.WellFounded

/-!
# No task waits forever

The tasks of a node wait for the lock, for room in the channel and for replies,
and the flush task waits for the lock and for commands.  In every reachable state
someone can go on, whatever the capacity of the channel, until every task is
finished, the channel is empty and the flush task waits for a command.  Without
new requests this is reached after finitely many steps, in whatever order the
steps are taken (`tasks_finish`).

The measure counts the sweeps that are not done yet, since what they remove is
not known before, and then the steps: nine of the flush task and three of its
own for each command that a task has still to send.
-/

namespace Ferrocache

section Waiting

variable [Platform] {cfg : NodeConfig} {capacity : Nat} {s : Server} {n : Node}

omit [Platform] in
/-- Commands behind it do not move a request. -/
theorem Node.Holds.append {n' : Node} {command : Command} {ticket : Ticket} {more : List Command}
    (holds : Node.Holds command n ticket) (queue : n'.queue = n.queue ++ more)
    (phase : n'.phase = n.phase) : Node.Holds command n' ticket := by
  cases ticket with
  | queued ahead =>
      have found : n.queue[ahead]? = some command := holds
      have inside := (List.getElem?_eq_some_iff.mp found).1
      change n'.queue[ahead]? = some command
      rw [queue, List.getElem?_append_left inside]
      exact found
  | batched ahead =>
      unfold Node.Holds
      rw [phase]
      exact holds
  | compaction =>
      unfold Node.Holds
      rw [phase]
      exact holds
  | answered reply => exact holds

/-- A step of the flush task keeps track of a request, answered or not. -/
theorem Node.Holds.follow {command : Command} {ticket : Ticket} {a : Action}
    (holds : Node.Holds command n ticket) (admissible : n.Admissible cfg a)
    (alive : Node.crashes a = false) :
    Node.Holds command (n.act cfg a) (n.follow ticket a) := by
  by_cases opens : ∀ reply, ticket ≠ .answered reply
  · exact (Node.track_step holds admissible alive opens).1
  · push Not at opens
    obtain ⟨reply, rfl⟩ := opens
    have same : n.follow (.answered reply) a = .answered reply := by
      cases a with
      | _ => rfl
    rw [same]
    exact holds

namespace Server

/-- Every task that waits for a reply has its command with the flush task. -/
def Tracked (s : Server) : Prop :=
  ∀ command ticket rest, .waiting command ticket rest ∈ s.tasks →
    Node.Holds command s.node ticket

/-- A task only adds to the channel, and then it waits for its own command. -/
theorem advance_spec (task : Job) (choice : Choice) (n : Node) :
    (task.advance choice n).1.phase = n.phase ∧
      (∃ more, (task.advance choice n).1.queue = n.queue ++ more) ∧
      ∀ command ticket rest, (task.advance choice n).2 = .waiting command ticket rest →
        Node.Holds command (task.advance choice n).1 ticket := by
  have silent : ∀ (n' : Node) (t : Job), n'.phase = n.phase → n'.queue = n.queue →
      (∀ command ticket rest, t ≠ .waiting command ticket rest) →
      n'.phase = n.phase ∧ (∃ more, n'.queue = n.queue ++ more) ∧
        ∀ command ticket rest, t = .waiting command ticket rest → Node.Holds command n' ticket :=
    fun n' t phase queue quiet => ⟨phase, ⟨[], by rw [queue, List.append_nil]⟩,
      fun command ticket rest same => absurd same (quiet command ticket rest)⟩
  have buries : ∀ (entries : List WalEntry) command ticket rest,
      Job.bury entries ≠ .waiting command ticket rest := fun entries _ _ _ => by
    cases entries <;> exact Job.noConfusion
  have sends : ∀ command : Command,
      (n.queue ++ [command])[n.queue.length]? = some command := fun command => by
    rw [List.getElem?_append_right le_rfl, Nat.sub_self]
    rfl
  cases task with
  | reading => exact silent _ _ rfl rfl fun _ _ _ => Job.noConfusion
  | querying req modelId now =>
      unfold Job.advance
      dsimp only
      split
      · exact silent _ _ rfl rfl fun _ _ _ => Job.noConfusion
      · exact silent _ _ rfl rfl fun _ _ _ => Job.noConfusion
  | charging ns internalId => exact silent _ _ rfl rfl fun _ _ _ => Job.noConfusion
  | looking uuid =>
      unfold Job.advance
      dsimp only
      split
      · exact silent _ _ rfl rfl fun _ _ _ => Job.noConfusion
      · exact silent _ _ rfl rfl fun _ _ _ => Job.noConfusion
  | removing uuid modelId => exact silent _ _ rfl rfl (buries [.tombstoneEntry uuid modelId])
  | invalidating embedding threshold ns now => exact silent _ _ rfl rfl (buries _)
  | reaping now => exact silent _ _ rfl rfl (buries _)
  | submitting command =>
      refine ⟨rfl, ⟨[command], rfl⟩, fun command' ticket rest same => ?_⟩
      cases same
      exact sends command
  | burying entry rest =>
      refine ⟨rfl, ⟨[.insert entry], rfl⟩, fun command ticket rest' same => ?_⟩
      cases same
      exact sends (.insert entry)
  | waiting command ticket rest => exact silent _ _ rfl rfl (buries rest)
  | finished => exact silent _ _ rfl rfl fun _ _ _ => Job.noConfusion

theorem Tracked.step (tracked : s.Tracked) {e : ServerEvent}
    (admissible : s.Admissible cfg capacity e) : (s.step cfg e).Tracked := by
  intro command ticket rest mem
  cases e with
  | spawn task =>
      rcases List.mem_append.mp mem with old | new
      · exact tracked command ticket rest old
      · rw [← List.mem_singleton.mp new] at admissible
        exact admissible.elim
  | run i choice =>
      obtain ⟨task, found, -⟩ := admissible
      obtain ⟨phase, ⟨more, queue⟩, sends⟩ := advance_spec task choice s.node
      simp only [Server.step, found] at mem ⊢
      rcases List.mem_or_eq_of_mem_set mem with old | new
      · exact (tracked command ticket rest old).append queue phase
      · exact sends command ticket rest new.symm
  | flush a =>
      obtain ⟨possible, alive, -⟩ := admissible
      obtain ⟨task, old, same⟩ := List.mem_map.mp mem
      cases task with
      | waiting command' ticket' rest' =>
          cases same
          exact (tracked _ _ _ old).follow possible alive
      | _ => cases same

theorem Reachable.tracked (reached : Reachable cfg capacity n s) : s.Tracked := by
  induction reached with
  | start =>
      intro command ticket rest mem
      unfold Server.start at mem
      generalize n.outbox = due at mem
      cases due with
      | nil => cases List.mem_singleton.mp mem
      | cons entry due => cases List.mem_singleton.mp mem
  | step e _ admissible ih => exact ih.step admissible

/-! ## Someone can go on -/

/-- Every task is finished, the channel is empty and the flush task waits for a
command. -/
structure Resting (s : Server) : Prop where
  tasks : ∀ task ∈ s.tasks, task = .finished
  queue : s.node.queue = []
  phase : s.node.phase = .idle

/-- A step that is no new request. -/
def Steps (cfg : NodeConfig) (capacity : Nat) (s s' : Server) : Prop :=
  ∃ e, (∀ task, e ≠ .spawn task) ∧ s.Admissible cfg capacity e ∧ s' = s.step cfg e

/-- While the flush task waits for a command, no task waits for anything. -/
theorem exists_ready (tracked : s.Tracked) (idle : s.node.phase = .idle)
    (empty : s.node.queue = []) {task : Job} (mem : task ∈ s.tasks) (opens : task ≠ .finished) :
    ∃ choice, task.Ready choice s.node capacity := by
  have unlocked : s.node.phase.locked = false := by
    rw [idle]
    rfl
  have room : s.node.queue.length < max capacity 1 := by
    rw [empty]
    exact lt_of_lt_of_le Nat.one_pos (le_max_right _ _)
  let none : PassOrder := ⟨[], fun _ => []⟩
  cases task with
  | reading => exact ⟨⟨0, [], none, none, []⟩, unlocked⟩
  | querying req modelId now => exact ⟨⟨0, [], none, none, []⟩, unlocked⟩
  | charging ns internalId => exact ⟨⟨0, [], none, none, []⟩, unlocked⟩
  | looking uuid => exact ⟨⟨0, [], none, none, []⟩, unlocked⟩
  | removing uuid modelId => exact ⟨⟨0, [], none, none, []⟩, unlocked⟩
  | invalidating embedding threshold ns now =>
      refine ⟨⟨0, (Node.anyOrder s.node.index).entries ns, none, none, []⟩, unlocked, ?_⟩
      exact fun space known => (Node.visits_anyOrder s.node.index).2 ns space known
  | reaping now =>
      let expired := (s.node.index.collectExpired (Node.anyOrder s.node.index) now).1
      let rebuilt := (expired.rebuildDirtyNamespaces (Node.anyOrder expired)).1
      exact ⟨⟨0, [], Node.anyOrder s.node.index, Node.anyOrder expired,
        (Node.anyOrder rebuilt).namespaces⟩, unlocked, Node.visits_anyOrder s.node.index,
        Node.visits_anyOrder expired, (Node.visits_anyOrder rebuilt).1⟩
  | submitting command => exact ⟨⟨0, [], none, none, []⟩, room⟩
  | burying entry rest => exact ⟨⟨0, [], none, none, []⟩, room⟩
  | waiting command ticket rest =>
      refine ⟨⟨0, [], none, none, []⟩, ?_⟩
      by_contra pending
      have holds := tracked command ticket rest mem
      exact holds.busy (fun reply same => pending ⟨reply, same⟩) idle empty
  | finished => exact absurd rfl opens

theorem resting_of_stuck (tracked : s.Tracked) (stuck : ∀ s', ¬ Steps cfg capacity s s') :
    s.Resting := by
  have waits : s.node.phase = .idle ∧ s.node.queue = [] := by
    by_contra busy
    have turn : ∃ a, s.node.Admissible cfg a ∧ Node.crashes a = false ∧ s.node.turn a = true :=
      Node.exists_turn_of_busy fun idle empty => busy ⟨idle, empty⟩
    obtain ⟨a, admissible, alive, turns⟩ := turn
    exact stuck _ ⟨.flush a, fun _ => ServerEvent.noConfusion, ⟨admissible, alive, turns⟩, rfl⟩
  refine ⟨fun task mem => ?_, waits.2, waits.1⟩
  by_contra opens
  have goesOn : ∃ choice, task.Ready choice s.node capacity :=
    exists_ready tracked waits.1 waits.2 mem opens
  obtain ⟨choice, ready⟩ := goesOn
  obtain ⟨i, found⟩ := List.mem_iff_getElem?.mp mem
  exact stuck _ ⟨.run i choice, fun _ => ServerEvent.noConfusion, ⟨task, found, ready⟩, rfl⟩

/-! ## Every run ends -/

end Server

/-- A sweep that is not done yet. -/
def Job.sweeps : Job → Nat
  | .invalidating _ _ _ _ => 1
  | .reaping _ => 1
  | _ => 0

/-- The steps that a task has to take, and nine of the flush task for each command
that it has still to send. -/
def Job.weight : Job → Nat
  | .reading => 1
  | .querying _ _ _ => 2
  | .charging _ _ => 1
  | .looking _ => 14
  | .removing _ _ => 13
  | .invalidating _ _ _ _ => 0
  | .reaping _ => 0
  | .submitting _ => 12
  | .burying _ rest => 12 * (rest.length + 1)
  | .waiting _ _ rest => 12 * rest.length + 1
  | .finished => 0

/-- The steps that the flush task has to take. -/
def Node.backlog (n : Node) : Nat := Node.leftInRound n.phase + 9 * n.queue.length

omit [Platform] in
theorem Job.weight_bury (entries : List WalEntry) :
    (Job.bury entries).sweeps = 0 ∧ (Job.bury entries).weight = 12 * entries.length := by
  cases entries with
  | nil => exact ⟨rfl, rfl⟩
  | cons entry rest => exact ⟨rfl, rfl⟩

/-- A step of a task ends a sweep, or brings the end closer. -/
theorem Job.advance_falls {task : Job} {choice : Choice} (ready : task.Ready choice n capacity) :
    (task.advance choice n).2.sweeps < task.sweeps ∨
      (task.advance choice n).2.sweeps = task.sweeps ∧
        (task.advance choice n).2.weight + (task.advance choice n).1.backlog <
          task.weight + n.backlog := by
  cases task with
  | reading => exact .inr ⟨rfl, by simp [Job.advance, Job.weight]⟩
  | querying req modelId now =>
      unfold Job.advance
      dsimp only
      split
      · exact .inr ⟨rfl, by simp [Job.weight]⟩
      · exact .inr ⟨rfl, by simp [Job.weight]⟩
  | charging ns internalId => exact .inr ⟨rfl, by simp [Job.advance, Job.weight, Node.backlog]⟩
  | looking uuid =>
      unfold Job.advance
      dsimp only
      split
      · exact .inr ⟨rfl, by simp [Job.weight]⟩
      · exact .inr ⟨rfl, by simp [Job.weight]⟩
  | removing uuid modelId =>
      exact .inr ⟨rfl, by simp [Job.advance, Job.bury, Job.weight, Node.backlog]⟩
  | invalidating embedding threshold ns now =>
      refine .inl ?_
      rw [Job.advance, (Job.weight_bury _).1]
      exact Nat.one_pos
  | reaping now =>
      refine .inl ?_
      rw [Job.advance, (Job.weight_bury _).1]
      exact Nat.one_pos
  | submitting command =>
      refine .inr ⟨rfl, ?_⟩
      simp only [Job.advance, Job.weight, Node.backlog, List.length_append, List.length_nil,
        List.length_singleton]
      omega
  | burying entry rest =>
      refine .inr ⟨rfl, ?_⟩
      simp only [Job.advance, Job.weight, Node.backlog, List.length_append, List.length_singleton]
      omega
  | waiting command ticket rest =>
      refine .inr ⟨(Job.weight_bury rest).1, ?_⟩
      rw [Job.advance, (Job.weight_bury rest).2]
      exact Nat.add_lt_add_right (Nat.lt_succ_self _) _
  | finished => exact ready.elim

/-- Only the end of a wait takes commands from the channel. -/
theorem Node.queue_of_turn {a : Action} (alive : Node.crashes a = false) (turns : n.turn a = true)
    (other : ∀ size, a ≠ .collect size) : (n.act cfg a).queue = n.queue := by
  have moves : Node.Moves cfg n a (n.act cfg a) := Node.act_moves a
  generalize n.act cfg a = n' at moves ⊢
  cases moves with
  | submits entry => cases turns
  | asksCompact => cases turns
  | sends i found => cases turns
  | collects size idle taken => exact absurd rfl (other size)
  | collectsCompact size idle taken => exact absurd rfl (other size)
  | boots => cases alive
  | _ => rfl

/-- A step of the flush task brings the end closer. -/
theorem Node.backlog_falls {a : Action} (admissible : n.Admissible cfg a)
    (alive : Node.crashes a = false) (turns : n.turn a = true) :
    (n.act cfg a).backlog < n.backlog := by
  unfold Node.backlog
  by_cases takes : ∃ size, a = .collect size
  · obtain ⟨size, rfl⟩ := takes
    have ready : n.phase = .idle ∧ n.queue ≠ [] := of_decide_eq_true turns
    obtain ⟨queue, phase⟩ := Node.collect_of_idle admissible.1 ready.1 ready.2
    have length := congrArg List.length (takeBatch_append size n.queue)
    change Node.leftInRound (n.collect size).phase + 9 * (n.collect size).queue.length < _
    rw [queue, ready.1]
    simp only [List.length_append, List.length_map] at length
    rcases phase with ⟨none, compacts, compacting⟩ | ⟨some, collected⟩
    · rw [none, compacts, if_pos rfl] at length
      rw [compacting]
      simp only [Node.leftInRound, List.length_nil, List.length_singleton] at length ⊢
      omega
    · have taken : 0 < (takeBatch size n.queue).1.length := List.length_pos_iff.mpr some
      rw [collected]
      simp only [Node.leftInRound]
      omega
  · have other : ∀ size, a ≠ .collect size := fun size same => takes ⟨size, same⟩
    have less := Node.leftInRound_act cfg n alive other
    rw [turns, if_pos rfl] at less
    rw [Node.queue_of_turn alive turns other]
    omega

namespace Server

/-- The sweeps that are left. -/
def sweeps (s : Server) : Nat := (s.tasks.map Job.sweeps).sum

/-- The steps that are left, apart from those that follow a sweep. -/
def work (s : Server) : Nat := (s.tasks.map Job.weight).sum + s.node.backlog

theorem sweeps_follow (n : Node) (a : Action) (task : Job) :
    (task.follow n a).sweeps = task.sweeps ∧ (task.follow n a).weight = task.weight := by
  cases task with
  | _ => exact ⟨rfl, rfl⟩

theorem Steps.falls {s' : Server} (steps : Steps cfg capacity s s') :
    s'.sweeps < s.sweeps ∨ s'.sweeps = s.sweeps ∧ s'.work < s.work := by
  obtain ⟨e, known, admissible, rfl⟩ := steps
  cases e with
  | spawn task => exact absurd rfl (known task)
  | run i choice =>
      obtain ⟨task, found, ready⟩ := admissible
      obtain ⟨pre, post, around, put⟩ := exists_split_at found
      have step : s.step cfg (.run i choice) =
          ⟨(task.advance choice s.node).1, pre ++ (task.advance choice s.node).2 :: post⟩ := by
        simp only [Server.step, found, put]
      rw [step]
      unfold sweeps work
      rw [around]
      simp only [List.map_append, List.map_cons, List.sum_append, List.sum_cons]
      rcases Job.advance_falls ready with fewer | ⟨same, less⟩
      · left
        omega
      · right
        omega
  | flush a =>
      obtain ⟨possible, alive, turns⟩ := admissible
      have less := Node.backlog_falls possible alive turns
      right
      unfold sweeps work Server.step
      simp only [List.map_map]
      have sweeps' : Job.sweeps ∘ (·.follow s.node a) = Job.sweeps :=
        funext fun task => (sweeps_follow s.node a task).1
      have weight' : Job.weight ∘ (·.follow s.node a) = Job.weight :=
        funext fun task => (sweeps_follow s.node a task).2
      rw [sweeps', weight']
      exact ⟨rfl, Nat.add_lt_add_left less _⟩

theorem wellFounded_steps : WellFounded fun s' s => Steps cfg capacity s s' := by
  have measure : WellFounded (InvImage (Prod.Lex (· < ·) (· < ·))
      fun s : Server => (s.sweeps, s.work)) :=
    InvImage.wf _ (WellFounded.prod_lex Nat.lt_wfRel.wf Nat.lt_wfRel.wf)
  exact Subrelation.wf (fun steps => Prod.lex_def.mpr steps.falls) measure

theorem Reachable.later {n : Node} {s' : Server} (reached : Reachable cfg capacity n s)
    (later : Relation.ReflTransGen (Steps cfg capacity) s s') : Reachable cfg capacity n s' := by
  induction later with
  | refl => exact reached
  | tail _ steps ih =>
      obtain ⟨e, -, admissible, rfl⟩ := steps
      exact ih.step e admissible

/-- In every run, with requests coming in at any time: if no more requests come,
there is an end, whatever steps are taken in whatever order; and at the end every
task is finished, the channel is empty and the flush task waits for a command.
So no task waits forever, neither for the lock nor for room nor for a reply. -/
theorem tasks_finish {n : Node} (reached : Reachable cfg capacity n s) :
    (∀ run : Nat → Server, run 0 = s → ∃ k, ¬ Steps cfg capacity (run k) (run (k + 1))) ∧
      ∀ s', Relation.ReflTransGen (Steps cfg capacity) s s' →
        (∀ s'', ¬ Steps cfg capacity s' s'') → s'.Resting := by
  constructor
  · intro run _
    by_contra forever
    push Not at forever
    have ends : WellFounded fun s' s => Steps cfg capacity s s' := wellFounded_steps
    exact (wellFounded_iff_isEmpty_descending_chain.mp ends).false ⟨run, forever⟩
  · intro s' later stuck
    exact resting_of_stuck (reached.later later).tracked stuck

end Server

end Waiting

section Example

local instance blockingExamplePlatform : Platform := Platform.sample

namespace Server

/-- Two inserts and a compaction, with room for one command. -/
def crowdedChannel : List ServerEvent :=
  [.spawn (.submitting (.insert (Node.datedLine "p" 3))), .spawn (.submitting .compact),
    .spawn (.submitting (.insert (Node.datedLine "q" 9))), .run 2 noChoice]

theorem tasks_finish_sample :
    let s := (start (Node.new Node.servedConfig)).run Node.servedConfig crowdedChannel
    s.node.queue.length = 1 ∧
      (∀ run : Nat → Server, run 0 = s → ∃ k, ¬ Steps Node.servedConfig 0 (run k) (run (k + 1))) ∧
      ∀ s', Relation.ReflTransGen (Steps Node.servedConfig 0) s s' →
        (∀ s'', ¬ Steps Node.servedConfig 0 s' s'') → s'.Resting := by
  have allowed : (start (Node.new Node.servedConfig)).Allowed Node.servedConfig 0 crowdedChannel :=
    ⟨rfl, trivial, rfl, ⟨_, rfl, Nat.one_pos⟩, trivial⟩
  exact ⟨rfl, tasks_finish (Reachable.start.run allowed)⟩

end Server

end Example

end Ferrocache
