import Ferrocache.Node.Service
import Ferrocache.Server.Request

/-!
# The tasks of a node

The handlers (`server.rs`), the reaper and the startup (`main.rs`) as tasks that
run from one `await` to the next, on a node whose flush task runs as in
`Ferrocache.Node`.  A task waits for the index lock, for room in the channel of
the flush task, which is bounded, or for a reply.  It never waits while it holds
the lock, so that what it does under the lock is one step; only the flush task
holds the lock across steps.

The machine of `Ferrocache.Node` leaves the tasks out and lets their actions
happen at any time.  Every run of the tasks is a run of that machine
(`tasks_refine_node`).

The forwards of a clustered request are not here: each ends by its timeout.
-/

namespace Ferrocache

/-- Where a task is.  The first constructors wait for the lock, the next two for
room in the channel, and `waiting` for the reply; `rest` are the tombstones that
the task has still to send, one after the other. -/
inductive Job : Type
  /-- a handler that only reads, such as `get_entry_handler` -/
  | reading
  /-- `process_query_locally` -/
  | querying (req : QueryRequest) (modelId : String) (now : Nat)
  /-- a hit, before `record_access` -/
  | charging (ns : String) (internalId : Nat)
  /-- `delete_entry_handler` -/
  | looking (uuid : String)
  | removing (uuid modelId : String)
  /-- `invalidate_handler` -/
  | invalidating (embedding : Embedding) (threshold : F32) (ns : String) (now : Nat)
  /-- one tick of `expiry_reaper_loop` -/
  | reaping (now : Nat)
  /-- `local_insert_inner`, `perform_repair`, `read_repair_handler`, `compact_handler` -/
  | submitting (command : Command)
  | burying (entry : WalEntry) (rest : List WalEntry)
  | waiting (command : Command) (ticket : Ticket) (rest : List WalEntry)
  | finished

/-- What a step of a task leaves open: the clock and the orders in which it visits
the tables. -/
structure Choice : Type where
  now : Nat
  order : List Nat
  expireOrder : PassOrder
  rebuildOrder : PassOrder
  pruneOrder : List String

/-- A node and its tasks. -/
structure Server : Type where
  node : Node
  tasks : List Job

inductive ServerEvent : Type
  | spawn (task : Job)
  | run (i : Nat) (choice : Choice)
  | flush (a : Action)

namespace Job

/-- The loop over the tombstones. -/
def bury : List WalEntry → Job
  | [] => .finished
  | entry :: rest => .burying entry rest

/-- A task that was just started. -/
def Fresh : Job → Prop
  | .reading => True
  | .querying _ _ _ => True
  | .looking _ => True
  | .invalidating _ _ _ _ => True
  | .reaping _ => True
  | .submitting .compact => True
  | .submitting (.insert entry) => entry.tombstone = false
  | _ => False

section Steps

variable [Platform] (choice : Choice) (n : Node)

/-- A task goes on to its next `await`. -/
def advance : Job → Node × Job
  | .reading => (n, .finished)
  | .querying req modelId now =>
    match queryLocally n.index req modelId now with
    | (.ok (some hit), ns, _) => (n, .charging ns hit.internalId)
    | _ => (n, .finished)
  | .charging ns internalId =>
    ({ n with index := n.index.recordAccess ns internalId choice.now }, .finished)
  | .looking uuid =>
    match n.index.namespaceFor uuid with
    | none => (n, .finished)
    | some modelId => (n, .removing uuid modelId)
  | .removing uuid modelId =>
    ({ n with index := (n.index.removeByUuid uuid).1 }, bury [.tombstoneEntry uuid modelId])
  | .invalidating embedding threshold ns now =>
    let (index, uuids) := n.index.invalidateSimilar choice.order embedding threshold ns now
    ({ n with index := index }, bury (tombstones (uuids.map fun u => (u, ns))))
  | .reaping now =>
    let (index, expired) := n.index.collectExpired choice.expireOrder now
    let index := (index.rebuildDirtyNamespaces choice.rebuildOrder).1
    let index := (index.pruneEmptyNamespaces choice.pruneOrder).1
    ({ n with index := index }, bury (tombstones expired))
  | .submitting command =>
    ({ n with queue := n.queue ++ [command] }, .waiting command (.queued n.queue.length) [])
  | .burying entry rest =>
    ({ n with queue := n.queue ++ [.insert entry] },
      .waiting (.insert entry) (.queued n.queue.length) rest)
  | .waiting _ _ rest => (n, bury rest)
  | .finished => (n, .finished)

/-- When a task can go on. -/
def Ready (capacity : Nat) : Job → Prop
  | .invalidating _ _ ns _ => n.phase.locked = false ∧
      ∀ space, n.index.namespaces.lookup ns = some space →
        HashMap.IterOrder space.entries choice.order
  | .reaping now => n.phase.locked = false ∧
      SemanticIndex.Visits choice.expireOrder n.index ∧
      SemanticIndex.Visits choice.rebuildOrder (n.index.collectExpired choice.expireOrder now).1 ∧
      HashMap.IterOrder (((n.index.collectExpired choice.expireOrder now).1.rebuildDirtyNamespaces
        choice.rebuildOrder).1).namespaces choice.pruneOrder
  | .submitting _ => n.queue.length < max capacity 1
  | .burying _ _ => n.queue.length < max capacity 1
  | .waiting _ ticket _ => ∃ reply, ticket = .answered reply
  | .finished => False
  | _ => n.phase.locked = false

/-- A step of the flush task moves the command that the task waits for. -/
def follow (a : Action) : Job → Job
  | .waiting command ticket rest => .waiting command (n.follow ticket a) rest
  | task => task

end Steps

/-- The delete that is between its lookup and its removal. -/
def removal : Job → List (String × String)
  | .removing uuid modelId => [(uuid, modelId)]
  | _ => []

/-- The tombstones that are not in the channel yet. -/
def due : Job → List WalEntry
  | .burying entry rest => entry :: rest
  | .waiting _ _ rest => rest
  | _ => []

end Job

namespace Server

section Machine

variable [Platform] (cfg : NodeConfig) (capacity : Nat) (s : Server)

def step : ServerEvent → Server
  | .spawn task => { s with tasks := s.tasks ++ [task] }
  | .run i choice =>
    match s.tasks[i]? with
    | none => s
    | some task =>
      let (node, next) := task.advance choice s.node
      ⟨node, s.tasks.set i next⟩
  | .flush a => ⟨s.node.act cfg a, s.tasks.map (·.follow s.node a)⟩

def Admissible : ServerEvent → Prop
  | .spawn task => task.Fresh
  | .run i choice => ∃ task, s.tasks[i]? = some task ∧ task.Ready choice s.node capacity
  | .flush a => s.node.Admissible cfg a ∧ Node.crashes a = false ∧ s.node.turn a = true

omit [Platform] in
/-- A node that was just started, with the task that sends the tombstones of the
startup. -/
def start (n : Node) : Server := ⟨n, [.bury n.outbox]⟩

inductive Reachable (n : Node) : Server → Prop
  | start : Reachable n (start n)
  | step {s : Server} (e : ServerEvent) : Reachable n s → s.Admissible cfg capacity e →
    Reachable n (s.step cfg e)

/-- The server after a list of events. -/
def run (events : List ServerEvent) : Server := events.foldl (step cfg) s

/-- Every event of the list can happen when its turn comes. -/
def Allowed (s : Server) : List ServerEvent → Prop
  | [] => True
  | e :: events => s.Admissible cfg capacity e ∧ Allowed (s.step cfg e) events

variable {cfg capacity s}

theorem Reachable.run {n : Node} (reached : Reachable cfg capacity n s) {events : List ServerEvent}
    (allowed : s.Allowed cfg capacity events) : Reachable cfg capacity n (s.run cfg events) := by
  induction events generalizing s with
  | nil => exact reached
  | cons e events ih => exact ih (reached.step e allowed.1) allowed.2

end Machine

end Server

/-! ## Refinement -/

section Refinement

variable [Platform] {cfg : NodeConfig} {capacity : Nat} {s : Server}

omit [Platform] in
/-- The list around a position. -/
theorem exists_split_at {α : Type*} {l : List α} {i : Nat} {x : α} (found : l[i]? = some x) :
    ∃ pre post, l = pre ++ x :: post ∧ ∀ y, l.set i y = pre ++ y :: post := by
  obtain ⟨inside, rfl⟩ := List.getElem?_eq_some_iff.mp found
  refine ⟨l.take i, l.drop (i + 1), ?_, fun y => ?_⟩
  · rw [List.getElem_cons_drop, List.take_append_drop]
  · rw [List.set_eq_take_append_cons_drop, if_pos inside]

/-- The same node with other values in the fields of the handlers and in those
that are not in the code. -/
def Node.overlay (n : Node) (deleting : List (String × String)) (outbox : List WalEntry)
    (unlogged : Finset String) (answers : Nat → Option Answer) : Node :=
  { n with deleting := deleting, outbox := outbox, unlogged := unlogged, answers := answers }

variable (cfg) in
/-- The flush task does not look at the fields of the handlers. -/
theorem Node.act_overlay {n : Node} {a : Action} (turns : n.turn a = true)
    (deleting : List (String × String)) (outbox : List WalEntry) (unlogged : Finset String)
    (answers : Nat → Option Answer) :
    ∃ unlogged' answers', (n.overlay deleting outbox unlogged answers).act cfg a =
      (n.act cfg a).overlay deleting outbox unlogged' answers' := by
  cases a with
  | collect size =>
      refine ⟨unlogged, answers, ?_⟩
      rcases n with ⟨index, log, inserts, queue, phase, _, _, _, _⟩
      simp only [Node.act, Node.collect, Node.overlay]
      rcases takeBatch size queue with ⟨_ | ⟨entry, batch⟩, _ | _, rest⟩
      · cases phase <;> rfl
      · cases phase <;> rfl
      · cases phase <;> rfl
      · cases phase <;> rfl
  | write outcome =>
      simp only [Node.act, Node.write, Node.overlay]
      cases phase : n.phase with
      | collected batch compact =>
          dsimp only
          rcases n.log.flush batch outcome with ⟨log, msg | lines⟩
          · exact ⟨_, _, rfl⟩
          · exact ⟨_, _, rfl⟩
      | _ => simp [Node.turn, phase] at turns
  | acquire =>
      simp only [Node.act, Node.acquire, Node.overlay]
      cases phase : n.phase with
      | written lines compact => exact ⟨_, _, rfl⟩
      | _ => simp [Node.turn, phase] at turns
  | apply =>
      simp only [Node.act, Node.apply, Node.overlay]
      cases phase : n.phase with
      | applying lines compact =>
          cases lines with
          | nil => exact ⟨_, _, rfl⟩
          | cons line lines =>
              dsimp only
              rcases n.index.replayEntry line with ⟨index, _ | _⟩
              · exact ⟨_, _, rfl⟩
              · exact ⟨_, _, rfl⟩
      | _ => simp [Node.turn, phase] at turns
  | evict order rebuildOrder =>
      simp only [Node.act, Node.evict, Node.overlay]
      cases phase : n.phase with
      | flushed compact =>
          cases cfg.hnsw.maxEntriesPerNamespace with
          | none => exact ⟨_, _, rfl⟩
          | some maxEntries => exact ⟨_, _, rfl⟩
      | _ => simp [Node.turn, phase] at turns
  | writeTombstones outcome =>
      simp only [Node.act, Node.writeTombstones, Node.overlay]
      cases phase : n.phase with
      | evicted out compact =>
          cases out with
          | nil => exact ⟨_, _, rfl⟩
          | cons e out =>
              dsimp only
              rcases n.log.flush (Node.evictedTombstones (e :: out)) outcome with ⟨log, _ | _⟩
              · exact ⟨_, _, rfl⟩
              · exact ⟨_, _, rfl⟩
      | _ => simp [Node.turn, phase] at turns
  | settle order outcome =>
      cases phase : n.phase with
      | settled compact =>
          have same : (n.overlay deleting outbox unlogged answers).autoCompacts cfg =
              n.autoCompacts cfg := rfl
          have phase' : (n.overlay deleting outbox unlogged answers).phase = .settled compact := phase
          refine ⟨unlogged, answers, ?_⟩
          simp only [Node.act, Node.settle, phase, phase', same]
          cases n.autoCompacts cfg <;> rfl
      | _ => simp [Node.turn, phase] at turns
  | compact order outcome =>
      simp only [Node.act, Node.runCompact, Node.overlay]
      cases phase : n.phase with
      | compacting => exact ⟨_, _, rfl⟩
      | _ => simp [Node.turn, phase] at turns
  | _ => cases turns

namespace Server

/-- The node of the machine without tasks: its deletes between lookup and removal
and its tombstones on their way are those of the tasks, in some order. -/
inductive Refines (s : Server) : Node → Prop
  | mk {deleting : List (String × String)} {outbox : List WalEntry} (unlogged : Finset String)
    (answers : Nat → Option Answer) (removals : deleting.Perm (s.tasks.flatMap Job.removal))
    (dues : outbox.Perm (s.tasks.flatMap Job.due))
    (inserts : ∀ entry, .submitting (.insert entry) ∈ s.tasks → entry.tombstone = false) :
    Refines s (s.node.overlay deleting outbox unlogged answers)

omit [Platform] in
/-- One task and the others. -/
theorem refines_split {m n : Node} {pre post : List Job} {t : Job} :
    Refines ⟨m, pre ++ t :: post⟩ n ↔
      ∃ deleting outbox unlogged answers, n = m.overlay deleting outbox unlogged answers ∧
        deleting.Perm (t.removal ++ (pre ++ post).flatMap Job.removal) ∧
        outbox.Perm (t.due ++ (pre ++ post).flatMap Job.due) ∧
        (∀ entry, t = .submitting (.insert entry) → entry.tombstone = false) ∧
        ∀ entry, .submitting (.insert entry) ∈ pre ++ post → entry.tombstone = false := by
  have move : ∀ {α : Type} (f : Job → List α), ((pre ++ t :: post).flatMap f).Perm
      (f t ++ (pre ++ post).flatMap f) := fun f => by
    simp only [List.flatMap_append, List.flatMap_cons]
    exact List.perm_append_comm_assoc _ _ _
  constructor
  · intro refines
    cases refines with
    | mk unlogged answers removals dues inserts =>
        refine ⟨_, _, unlogged, answers, rfl, removals.trans (move _), dues.trans (move _),
          fun entry same => inserts entry ?_, fun entry mem => inserts entry ?_⟩
        · rw [← same]
          exact List.mem_append_right _ List.mem_cons_self
        · rcases List.mem_append.mp mem with before | after
          · exact List.mem_append_left _ before
          · exact List.mem_append_right _ (List.mem_cons_of_mem _ after)
  · rintro ⟨deleting, outbox, unlogged, answers, rfl, removals, dues, here, inserts⟩
    refine .mk unlogged answers (removals.trans (move _).symm) (dues.trans (move _).symm)
      fun entry mem => ?_
    rcases List.mem_append.mp mem with before | rest
    · exact inserts entry (List.mem_append_left _ before)
    · rcases List.mem_cons.mp rest with same | after
      · exact here entry same.symm
      · exact inserts entry (List.mem_append_right _ after)

omit [Platform] in
/-- Taking an element out of a list that has it first, up to the order. -/
theorem exists_eraseIdx_of_perm {α : Type*} {l rest : List α} {x : α} (perm : l.Perm (x :: rest)) :
    ∃ k, l[k]? = some x ∧ (l.eraseIdx k).Perm rest := by
  obtain ⟨k, found⟩ := List.mem_iff_getElem?.mp (perm.mem_iff.mpr List.mem_cons_self)
  obtain ⟨inside, rfl⟩ := List.getElem?_eq_some_iff.mp found
  exact ⟨k, found, ((List.getElem_cons_eraseIdx_perm inside).trans perm).cons_inv⟩

omit [Platform] in
theorem due_bury (entries : List WalEntry) : (Job.bury entries).due = entries := by
  cases entries <;> rfl

omit [Platform] in
theorem removal_bury (entries : List WalEntry) : (Job.bury entries).removal = [] := by
  cases entries <;> rfl

omit [Platform] in
theorem bury_ne_submitting (entries : List WalEntry) (command : Command) :
    Job.bury entries ≠ .submitting command := by
  cases entries <;> exact Job.noConfusion

/-- The other machine can follow: it waits, or takes an action of its own. -/
def Follows (cfg : NodeConfig) (s : Server) (n : Node) : Prop :=
  s.Refines n ∨ ∃ a, n.Admissible cfg a ∧ Node.crashes a = false ∧ s.Refines (n.act cfg a)

/-- Each step of a task is an action of a handler, or the other machine waits. -/
theorem Refines.advance {m n : Node} {pre post : List Job} {t : Job} {choice : Choice}
    (refines : Refines ⟨m, pre ++ t :: post⟩ n) (ready : t.Ready choice m capacity) :
    Follows cfg ⟨(t.advance choice m).1, pre ++ (t.advance choice m).2 :: post⟩ n := by
  have around := refines_split.mp refines
  obtain ⟨deleting, outbox, unlogged, answers, rfl, removals, dues, own, inserts⟩ := around
  -- the other machine waits while the task changes nothing that it sees
  have waits : ∀ t' : Job, t'.removal = t.removal → t'.due = t.due →
      (∀ command, t' ≠ .submitting command) → Follows cfg ⟨m, pre ++ t' :: post⟩ _ :=
    fun t' removal due quiet => .inl (refines_split.mpr ⟨deleting, outbox, unlogged, answers, rfl,
      by rw [removal]; exact removals, by rw [due]; exact dues, fun _ same => absurd same (quiet _),
      inserts⟩)
  cases t with
  | reading => exact waits _ rfl rfl fun _ => Job.noConfusion
  | querying req modelId now =>
      unfold Job.advance
      dsimp only
      split
      · exact waits _ rfl rfl fun _ => Job.noConfusion
      · exact waits _ rfl rfl fun _ => Job.noConfusion
  | charging ns internalId =>
      refine .inr ⟨.access ns internalId choice.now, ready, rfl, refines_split.mpr
        ⟨deleting, outbox, unlogged, answers, rfl, removals, dues, fun _ same => ?_, inserts⟩⟩
      cases same
  | looking uuid =>
      cases named : m.index.namespaceFor uuid with
      | none =>
          have step : (Job.looking uuid).advance choice m = (m, .finished) := by
            simp only [Job.advance, named]
          rw [step]
          exact waits _ rfl rfl fun _ => Job.noConfusion
      | some modelId =>
          have step : (Job.looking uuid).advance choice m = (m, .removing uuid modelId) := by
            simp only [Job.advance, named]
          rw [step]
          refine .inr ⟨.lookupDelete uuid, ready, rfl, refines_split.mpr
            ⟨deleting ++ [(uuid, modelId)], outbox, unlogged, answers, ?_, ?_, dues,
              fun _ same => ?_, inserts⟩⟩
          · have known : (m.overlay deleting outbox unlogged answers).index.namespaceFor uuid =
                some modelId := named
            simp only [Node.act, Node.lookupDelete, known]
            rfl
          · exact List.perm_append_comm.trans (removals.cons _)
          · cases same
  | removing uuid modelId =>
      obtain ⟨k, found, others⟩ := exists_eraseIdx_of_perm removals
      refine .inr ⟨.removeDelete k, ready, rfl, refines_split.mpr
        ⟨deleting.eraseIdx k, outbox ++ [.tombstoneEntry uuid modelId],
          unlogged ∪ (if (m.index.removeByUuid uuid).2 then [uuid] else []).toFinset, answers, ?_,
          others, ?_, fun _ same => ?_, inserts⟩⟩
      · have known : (m.overlay deleting outbox unlogged answers).deleting[k]? =
            some (uuid, modelId) := found
        simp only [Node.act, Node.removeDelete, known]
        rfl
      · exact List.perm_append_comm.trans (dues.cons _)
      · cases same
  | invalidating embedding threshold ns now =>
      refine .inr ⟨.invalidate choice.order embedding threshold ns now, ready, rfl,
        refines_split.mpr ⟨deleting, outbox ++ tombstones _, _, answers, rfl, ?_, ?_,
          fun _ same => ?_, inserts⟩⟩
      · rw [Job.advance, removal_bury]
        exact removals
      · rw [Job.advance, due_bury]
        exact List.perm_append_comm.trans (dues.append_left _)
      · exact absurd same (bury_ne_submitting _ _)
  | reaping now =>
      refine .inr ⟨.reap choice.expireOrder now choice.rebuildOrder choice.pruneOrder, ready, rfl,
        refines_split.mpr ⟨deleting, outbox ++ tombstones _, _, answers, rfl, ?_, ?_,
          fun _ same => ?_, inserts⟩⟩
      · rw [Job.advance, removal_bury]
        exact removals
      · rw [Job.advance, due_bury]
        exact List.perm_append_comm.trans (dues.append_left _)
      · exact absurd same (bury_ne_submitting _ _)
  | submitting command =>
      cases command with
      | insert entry =>
          refine .inr ⟨.submit entry, own entry rfl, rfl, refines_split.mpr
            ⟨deleting, outbox, unlogged, answers, rfl, removals, dues, fun _ same => ?_, inserts⟩⟩
          cases same
      | compact =>
          refine .inr ⟨.requestCompact, trivial, rfl, refines_split.mpr
            ⟨deleting, outbox, unlogged, answers, rfl, removals, dues, fun _ same => ?_, inserts⟩⟩
          cases same
  | burying entry rest =>
      obtain ⟨k, found, others⟩ := exists_eraseIdx_of_perm dues
      refine .inr ⟨.send k, trivial, rfl, refines_split.mpr
        ⟨deleting, outbox.eraseIdx k, unlogged, answers, ?_, removals, others, fun _ same => ?_,
          inserts⟩⟩
      · have known : (m.overlay deleting outbox unlogged answers).outbox[k]? = some entry := found
        simp only [Node.act, Node.send, known]
        rfl
      · cases same
  | waiting command ticket rest =>
      exact waits _ (removal_bury rest) (due_bury rest) (bury_ne_submitting rest)
  | finished => exact ready.elim

omit [Platform] in
/-- A task that was just started has nothing that the other machine sees. -/
theorem removal_of_fresh {task : Job} (fresh : task.Fresh) : task.removal = [] ∧ task.due = [] := by
  cases task with
  | removing uuid modelId => exact fresh.elim
  | burying entry rest => exact fresh.elim
  | waiting command ticket rest => exact fresh.elim
  | _ => exact ⟨rfl, rfl⟩

theorem Refines.spawn {n : Node} (refines : s.Refines n) {task : Job} (fresh : task.Fresh) :
    (s.step cfg (.spawn task)).Refines n := by
  obtain ⟨removal, due⟩ := removal_of_fresh fresh
  cases refines with
  | mk unlogged answers removals dues inserts =>
      refine .mk unlogged answers ?_ ?_ fun entry mem => ?_
      · simpa [Server.step, removal] using removals
      · simpa [Server.step, due] using dues
      · rcases List.mem_append.mp mem with old | new
        · exact inserts entry old
        · rw [← List.mem_singleton.mp new] at fresh
          exact fresh

theorem removal_follow (n : Node) (a : Action) (task : Job) :
    (task.follow n a).removal = task.removal ∧ (task.follow n a).due = task.due := by
  cases task with
  | _ => exact ⟨rfl, rfl⟩

theorem Refines.flush {n : Node} (refines : s.Refines n) {a : Action}
    (admissible : s.node.Admissible cfg a) (turns : s.node.turn a = true) :
    n.Admissible cfg a ∧ (s.step cfg (.flush a)).Refines (n.act cfg a) := by
  cases refines with
  | @mk deleting outbox unlogged answers removals dues inserts =>
      obtain ⟨unlogged', answers', act⟩ :=
        Node.act_overlay cfg turns deleting outbox unlogged answers
      refine ⟨?_, ?_⟩
      · cases a with
        | _ => exact admissible
      · rw [act]
        refine .mk unlogged' answers' ?_ ?_ fun entry mem => ?_
        · simpa [Server.step, List.flatMap_map, removal_follow] using removals
        · simpa [Server.step, List.flatMap_map, removal_follow] using dues
        · obtain ⟨task, old, same⟩ := List.mem_map.mp mem
          cases task with
          | submitting command =>
              cases same
              exact inserts entry old
          | _ => cases same

theorem Refines.step {n : Node} (refines : s.Refines n) {e : ServerEvent}
    (admissible : s.Admissible cfg capacity e) : Follows cfg (s.step cfg e) n := by
  cases e with
  | spawn task => exact .inl (refines.spawn admissible)
  | run i choice =>
      obtain ⟨task, found, ready⟩ := admissible
      obtain ⟨pre, post, around, put⟩ := exists_split_at found
      have step : s.step cfg (.run i choice) =
          ⟨(task.advance choice s.node).1, pre ++ (task.advance choice s.node).2 :: post⟩ := by
        simp only [Server.step, found, put]
      have here : Refines ⟨s.node, pre ++ task :: post⟩ n := by
        rw [← around]
        exact refines
      rw [step]
      exact here.advance ready
  | flush a =>
      obtain ⟨possible, alive, turns⟩ := admissible
      exact .inr ⟨a, (refines.flush possible turns).1, alive, (refines.flush possible turns).2⟩

end Server

theorem Node.Allowed.snoc {n : Node} {guard : Node → Action → Prop} {actions : List Action}
    (allowed : Node.Allowed cfg guard n actions) {a : Action}
    (admissible : (n.run cfg actions).Admissible cfg a) (guarded : guard (n.run cfg actions) a) :
    Node.Allowed cfg guard n (actions ++ [a]) := by
  induction actions generalizing n with
  | nil => exact ⟨admissible, guarded, trivial⟩
  | cons b actions ih => exact ⟨allowed.1, allowed.2.1, ih allowed.2.2 admissible guarded⟩

/-- Every run of the tasks, with any requests coming in, is a run of the machine
of `Ferrocache.Node` without a crash, which ends with the same index, log and
channel, the same flush task, and the deletes and tombstones of the tasks under
way. -/
theorem Server.tasks_refine_node {n : Node} (idle : n.deleting = [])
    (reached : Server.Reachable cfg capacity n s) :
    ∃ actions, Node.Allowed cfg Node.Alive n actions ∧ s.Refines (n.run cfg actions) := by
  induction reached with
  | start =>
      refine ⟨[], trivial, ?_⟩
      have refines : (Server.start n).Refines
          (n.overlay n.deleting n.outbox n.unlogged n.answers) := by
        refine .mk n.unlogged n.answers ?_ ?_ fun entry mem => ?_
        · rw [idle]
          simp [Server.start, Server.removal_bury]
        · simp [Server.start, Server.due_bury]
        · exact absurd (List.mem_singleton.mp mem).symm (Server.bury_ne_submitting _ _)
      exact refines
  | step e _ admissible ih =>
      obtain ⟨actions, allowed, refines⟩ := ih
      rcases refines.step admissible with waits | ⟨a, possible, alive, acts⟩
      · exact ⟨actions, allowed, waits⟩
      · refine ⟨actions ++ [a], allowed.snoc possible alive, ?_⟩
        have run : n.run cfg (actions ++ [a]) = (n.run cfg actions).act cfg a :=
          List.foldl_append
        rw [run]
        exact acts

end Refinement

section Example

local instance tasksExamplePlatform : Platform := Platform.sample

namespace Server

def noChoice : Choice := ⟨0, [], ⟨[], fun _ => []⟩, ⟨[], fun _ => []⟩, []⟩

/-- An insert, and a delete of the same entry that comes up to its tombstone. -/
def insertThenDelete : List ServerEvent :=
  [.spawn (.submitting (.insert (Node.datedLine "p" 3))), .spawn (.looking "p"), .run 1 noChoice,
    .flush (.collect 1), .flush (.write .synced), .flush .acquire, .flush .apply, .flush .apply,
    .run 2 noChoice, .run 2 noChoice]

theorem tasks_refine_node_sample :
    let n := Node.new Node.servedConfig
    let s := (start n).run Node.servedConfig insertThenDelete
    s.tasks.flatMap Job.due = [.tombstoneEntry "p" "a"] ∧
      ∃ actions, Node.Allowed Node.servedConfig Node.Alive n actions ∧
        s.Refines (n.run Node.servedConfig actions) := by
  refine ⟨by decide +kernel, ?_⟩
  have allowed : (start (Node.new Node.servedConfig)).Allowed Node.servedConfig 1
      insertThenDelete :=
    ⟨rfl, trivial, ⟨_, rfl, Nat.one_pos⟩, ⟨⟨by decide, by decide⟩, rfl, rfl⟩, ⟨trivial, rfl, rfl⟩,
      ⟨trivial, rfl, rfl⟩, ⟨trivial, rfl, rfl⟩, ⟨trivial, rfl, rfl⟩, ⟨_, rfl, rfl⟩, ⟨_, rfl, rfl⟩,
      trivial⟩
  exact tasks_refine_node rfl (Reachable.start.run allowed)

end Server

end Example

end Ferrocache
