import Ferrocache.Cluster.State
import Ferrocache.Node.Effect
import Ferrocache.Server.Request

/-!
# A clustered insert

`insert_handler` with its cluster path (`server.rs`), the retry loop of the
router (`router.rs`), and everything that can happen around it: every node runs
the machine of `Ferrocache.Node`, a forwarded insert may be delivered any number
of times and at any time after it was sent, replies may be lost, and read repair
may copy the entry between nodes.

The handler advances from one `await` to the next.  It is told that an insert
succeeded, by its own flush task or by a peer, only if the flush task of that
node acknowledged a line with the UUID.
-/

namespace Ferrocache

/-- The fields of `AppState` that `insert_handler` reads. -/
structure AppState : Type where
  cluster : Option ClusterState
  router : Bool
  replicationFactor : Nat
  maxReplicationRetries : Nat

/-- `usize::MAX`. -/
def usizeMax : Nat := 2 ^ 64 - 1

/-- The number of attempts of `forward_with_retry`. -/
def totalAttempts (maxRetries : Nat) : Nat := min (maxRetries + 1) usizeMax

/-- What the flush task answers to the handler; `dropped` is a closed channel. -/
inductive FlushReply : Type
  | ok
  | wal
  | index (msg : String)
  | dropped
  deriving DecidableEq

/-- How one forward ends, as `is_retryable` classifies it: a connect error, a
timeout or a 5xx status is retryable. -/
inductive ForwardOutcome : Type
  | ok
  | retryable
  | fatal
  deriving DecidableEq

inductive InsertReply : Type
  | ok (id : String)
  | badRequest (msg : String)
  | internalError (msg : String)
  | badGateway (msg : String)
  deriving DecidableEq

/-! ## The call -/

/-- One call of `insert_handler`: the node that serves it, its state, the query
parameter, the body, and the UUID it generates. -/
structure InsertCall : Type where
  here : String
  state : AppState
  isLocal : Bool
  req : InsertRequest
  newUuid : String

/-- What the handler decides before its first insert. -/
inductive InsertPlan : Type
  | reject (msg : String)
  | storeLocally
  | replicate (cluster : ClusterState) (replicas : List (String × String))

namespace InsertCall

variable (call : InsertCall)

def plan : InsertPlan :=
  match call.req.validate with
  | .error msg => .reject msg
  | .ok () =>
    if call.isLocal then .storeLocally
    else
      match call.state.cluster with
      | none => .storeLocally
      | some cluster =>
        match cluster.getReplicaAddrs call.req.embedding call.state.replicationFactor with
        | [] => .storeLocally
        | r :: rs => .replicate cluster (r :: rs)

/-- The UUID stored: the coordinator stamps its own, a local insert takes the
one of the request if it has one. -/
def id : String :=
  match call.plan with
  | .replicate _ _ => call.newUuid
  | _ => call.req.uuid.getD call.newUuid

theorem id_of_replicate {cluster : ClusterState} {replicas : List (String × String)}
    (planned : call.plan = .replicate cluster replicas) : call.id = call.newUuid := by
  unfold id
  rw [planned]

/-- The validated model id. -/
def modelId : String := call.req.modelId.getD ""

/-- The namespace the entry goes to. -/
def targetNamespace : String :=
  insertNamespace call.modelId call.req.cacheScope call.req.conversationId

/-- The line that `local_insert_inner` builds on a node with this conversation
TTL. -/
def line (now : Nat) (conversationTtl : Option Nat) : WalEntry :=
  call.req.walEntry call.modelId call.id now conversationTtl

/-- The text of an error of `local_insert_inner`. -/
def flushError : FlushReply → Option String
  | .ok => none
  | .wal => some "persistence failed"
  | .index msg => some msg
  | .dropped => some "persistence failed"

theorem eq_ok_of_flushError {reply : FlushReply} (ok : flushError reply = none) : reply = .ok := by
  cases reply with
  | ok => rfl
  | wal => cases ok
  | index msg => cases ok
  | dropped => cases ok

end InsertCall

/-- The line that `perform_repair` builds from an entry it fetched. -/
def FullEntry.repairLine (full : FullEntry) : WalEntry where
  uuid := full.uuid
  embedding := full.embedding
  response := full.response
  queryText := full.queryText
  modelId := full.modelId
  sequence := 0
  insertedAt := full.insertedAt
  tombstone := false
  expiresAt := full.expiresAt

/-! ## The machine -/

/-- Where the handler is. -/
inductive InsertPhase : Type
  | received
  /-- waits for its own flush task; then it answers, or goes on to the peers -/
  | storing (peers : Option (List (String × String)))
  /-- at the head of the loop over the peers -/
  | replicating (peers : List (String × String))
  /-- a forward is under way, the `attempt`-th to this peer -/
  | forwarding (addr : String) (attempt : Nat) (rest : List (String × String))
  | answered (reply : InsertReply)
  /-- its node crashed -/
  | lost
  deriving DecidableEq

/-- The nodes of the cluster.  The other fields are not in the code: the nodes
whose flush task acknowledged the UUID of the insert, those that removed it or
crashed (before or after they acknowledged it), and those that had it in the log
file and in the index at some time. -/
structure World : Type where
  nodes : String → Node
  acked : Finset String
  removed : Finset String
  stored : Finset String

/-- The cluster around one insert: `sent` are the addresses it was forwarded to
and `copies` the entries that read repairs have fetched. -/
structure Insertion : Type extends World where
  phase : InsertPhase
  sent : List String
  copies : List FullEntry

inductive InsertEvent : Type
  | receive (now : Nat)
  | flushed (reply : FlushReply)
  | forward
  | outcome (result : ForwardOutcome)
  | deliver (addr : String) (now : Nat)
  | fetch (p : String)
  | repair (p : String) (full : FullEntry)
  | node (p : String) (a : Action)

section Machine

variable [Platform]

/-- The step acknowledges an insert of the UUID. -/
def Node.acks (n : Node) (uuid : String) : Action → Bool
  | .apply => match n.phase with
      | .applying (line :: _) _ => !line.tombstone && decide (line.uuid = uuid) &&
          (n.index.replayEntry line).2.isOk
      | _ => false
  | _ => false

/-- The UUID is in a line of the log file that decodes, and is found in the
index. -/
def Node.Stores (n : Node) (uuid : String) : Prop :=
  (∃ line ∈ n.log.disk.file.decoded.lines, line.tombstone = false ∧ line.uuid = uuid) ∧
    (n.index.getEntryByUuid uuid).isSome

instance (n : Node) (uuid : String) : Decidable (n.Stores uuid) :=
  inferInstanceAs (Decidable (_ ∧ _))

omit [Platform] in
/-- A crash ends the handler. -/
def InsertPhase.crash : InsertPhase → InsertPhase
  | .answered reply => .answered reply
  | _ => .lost

/-- One action of node `p`. -/
def World.onNode (w : World) (cfg : NodeConfig) (uuid p : String) (a : Action) : World :=
  let n := w.nodes p
  let n' := n.act cfg a
  { nodes := Function.update w.nodes p n'
    acked := if n.acks uuid a then insert p w.acked else w.acked
    removed := if n.removes cfg uuid a then insert p w.removed else w.removed
    stored := if n'.Stores uuid then insert p w.stored else w.stored }

namespace Insertion

omit [Platform] in
def new (nodes : String → Node) : Insertion :=
  ⟨⟨nodes, ∅, ∅, ∅⟩, .received, [], []⟩

variable (fleet : Fleet) (call : InsertCall) (s : Insertion)

def onNode (p : String) (a : Action) : Insertion :=
  { s with toWorld := s.toWorld.onNode (fleet.config p) call.id p a }

/-- `local_insert_inner` on node `p`, up to the channel. -/
def submitAt (p : String) (now : Nat) : Insertion :=
  s.onNode fleet call p (.submit (call.line now (fleet.conversationTtl p)))

omit [Platform] in
/-- The handler after its own part: without a router it gives up. -/
def enterLoop (peers : List (String × String)) : InsertPhase :=
  if call.state.router then .replicating peers
  else .answered (.badGateway "upstream replica unavailable")

def receive (now : Nat) : Insertion :=
  match s.phase, call.plan with
  | .received, .reject msg => { s with phase := .answered (.badRequest msg) }
  | .received, .storeLocally => { s.submitAt fleet call call.here now with phase := .storing none }
  | .received, .replicate cluster replicas =>
    let peers := replicas.filter (·.1 ≠ cluster.selfNodeId)
    if replicas.any (·.1 = cluster.selfNodeId) then
      { s.submitAt fleet call call.here now with phase := .storing (some peers) }
    else { s with phase := enterLoop call peers }
  | _, _ => s

omit [Platform] in
def flushed (reply : FlushReply) : Insertion :=
  match s.phase with
  | .storing peers =>
    match InsertCall.flushError reply, peers with
    | some msg, _ => { s with phase := .answered (.internalError msg) }
    | none, none => { s with phase := .answered (.ok call.id) }
    | none, some peers => { s with phase := enterLoop call peers }
  | _ => s

omit [Platform] in
/-- The head of the loop: a dead peer is skipped, any other is sent the
insert. -/
def forward : Insertion :=
  match s.phase, call.plan with
  | .replicating [], _ => { s with phase := .answered (.ok call.id) }
  | .replicating ((id, addr) :: rest), .replicate cluster _ =>
    if cluster.peerStatus id = .dead then { s with phase := .replicating rest }
    else { s with phase := .forwarding addr 0 rest, sent := addr :: s.sent }
  | _, _ => s

omit [Platform] in
/-- The end of one attempt. -/
def outcome (result : ForwardOutcome) : Insertion :=
  match s.phase, result with
  | .forwarding _ _ rest, .ok => { s with phase := .replicating rest }
  | .forwarding addr attempt rest, .retryable =>
    if attempt + 1 < totalAttempts call.state.maxReplicationRetries then
      { s with phase := .forwarding addr (attempt + 1) rest, sent := addr :: s.sent }
    else { s with phase := .answered (.badGateway "upstream replica unavailable") }
  | .forwarding _ _ _, .fatal =>
    { s with phase := .answered (.badGateway "upstream replica unavailable") }
  | _, _ => s

def step : InsertEvent → Insertion
  | .receive now => s.receive fleet call now
  | .flushed reply => s.flushed call reply
  | .forward => s.forward call
  | .outcome result => s.outcome call result
  | .deliver addr now => s.submitAt fleet call (fleet.owner addr) now
  | .fetch p => { s with copies := ((s.nodes p).index.getEntryByUuid call.id).toList ++ s.copies }
  | .repair p full => s.onNode fleet call p (.submit full.repairLine)
  | .node p a =>
    { s.onNode fleet call p a with
      phase := if p = call.here && Node.crashes a then s.phase.crash else s.phase }

/-- When an event can happen. -/
def Admissible : InsertEvent → Prop
  | .flushed reply => reply = .ok → call.here ∈ s.acked
  | .outcome result => result = .ok →
      ∀ addr attempt rest, s.phase = .forwarding addr attempt rest → fleet.owner addr ∈ s.acked
  | .deliver addr _ => addr ∈ s.sent
  | .fetch p => (s.nodes p).phase.locked = false
  | .repair _ full => full ∈ s.copies
  | .node p a => (s.nodes p).Admissible (fleet.config p) a
  | _ => True

/-- The states reached from `start` by events that all meet `guard`. -/
inductive Reachable (guard : InsertEvent → Prop) (start : String → Node) : Insertion → Prop
  | new : Reachable guard start (new start)
  | step {s : Insertion} (e : InsertEvent) : Reachable guard start s →
    s.Admissible fleet call e → guard e → Reachable guard start (s.step fleet call e)

/-- The state after a list of events. -/
def run (events : List InsertEvent) : Insertion := events.foldl (step fleet call) s

/-- Every event of the list can happen and meets `guard` when its turn comes. -/
def Allowed (guard : InsertEvent → Prop) (s : Insertion) : List InsertEvent → Prop
  | [] => True
  | e :: events => s.Admissible fleet call e ∧ guard e ∧ Allowed guard (s.step fleet call e) events

variable {fleet call s}

/-- Whether an event can happen does not depend on the guard. -/
theorem Allowed.of_forall {guard guard' : InsertEvent → Prop} {events : List InsertEvent}
    (allowed : Allowed fleet call guard s events) (meets : ∀ e ∈ events, guard' e) :
    Allowed fleet call guard' s events := by
  induction events generalizing s with
  | nil => trivial
  | cons e events ih =>
      obtain ⟨admissible, -, rest⟩ := allowed
      obtain ⟨first, later⟩ := List.forall_mem_cons.mp meets
      exact ⟨admissible, first, ih rest later⟩

theorem Reachable.run {guard : InsertEvent → Prop} {start : String → Node}
    (reached : Reachable fleet call guard start s) {events : List InsertEvent}
    (allowed : Allowed fleet call guard s events) :
    Reachable fleet call guard start (s.run fleet call events) := by
  induction events generalizing s with
  | nil => exact reached
  | cons e events ih =>
      obtain ⟨admissible, guarded, rest⟩ := allowed
      exact ih (reached.step e admissible guarded) rest

end Insertion

/-! ## One action of a node -/

namespace World

variable {w : World} {cfg : NodeConfig} {uuid p q : String} {a : Action}

@[simp]
theorem onNode_nodes_self : (w.onNode cfg uuid p a).nodes p = (w.nodes p).act cfg a :=
  Function.update_self ..

theorem onNode_nodes_of_ne (other : q ≠ p) : (w.onNode cfg uuid p a).nodes q = w.nodes q :=
  Function.update_of_ne other ..

/-- What the action keeps on its node is kept on every node. -/
theorem forall_onNode {K : Node → Prop} (all : ∀ q, K (w.nodes q))
    (kept : K ((w.nodes p).act cfg a)) (q : String) : K ((w.onNode cfg uuid p a).nodes q) := by
  by_cases same : q = p
  · subst same
    rw [onNode_nodes_self]
    exact kept
  · rw [onNode_nodes_of_ne same]
    exact all q

@[simp]
theorem mem_onNode_acked : q ∈ (w.onNode cfg uuid p a).acked ↔
    q ∈ w.acked ∨ q = p ∧ (w.nodes p).acks uuid a = true := by
  simp only [onNode]
  split <;> simp_all [or_comm]

@[simp]
theorem mem_onNode_removed : q ∈ (w.onNode cfg uuid p a).removed ↔
    q ∈ w.removed ∨ q = p ∧ (w.nodes p).removes cfg uuid a = true := by
  simp only [onNode]
  split <;> simp_all [or_comm]

@[simp]
theorem mem_onNode_stored : q ∈ (w.onNode cfg uuid p a).stored ↔
    q ∈ w.stored ∨ q = p ∧ ((w.nodes p).act cfg a).Stores uuid := by
  simp only [onNode]
  split <;> simp_all [or_comm]

end World

namespace Insertion

variable (fleet : Fleet) (call : InsertCall) (s : Insertion)

/-- What an event can lead to. -/
inductive Moves : InsertEvent → Insertion → Prop
  | stays (e : InsertEvent) : Moves e s
  | rejects (now : Nat) {msg : String} (planned : call.plan = .reject msg) :
    Moves (.receive now) { s with phase := .answered (.badRequest msg) }
  | storesAlone (now : Nat) (planned : call.plan = .storeLocally) :
    Moves (.receive now) { s.submitAt fleet call call.here now with phase := .storing none }
  | storesFirst (now : Nat) {cluster : ClusterState} {replicas : List (String × String)}
    (planned : call.plan = .replicate cluster replicas)
    (inside : ∃ r ∈ replicas, r.1 = cluster.selfNodeId) :
    Moves (.receive now) { s.submitAt fleet call call.here now with
      phase := .storing (some (replicas.filter (·.1 ≠ cluster.selfNodeId))) }
  | enters (now : Nat) {cluster : ClusterState} {replicas : List (String × String)}
    (planned : call.plan = .replicate cluster replicas)
    (outside : ∀ r ∈ replicas, r.1 ≠ cluster.selfNodeId) :
    Moves (.receive now)
      { s with phase := enterLoop call (replicas.filter (·.1 ≠ cluster.selfNodeId)) }
  | fails (reply : FlushReply) (msg : String) :
    Moves (.flushed reply) { s with phase := .answered (.internalError msg) }
  | stored (reply : FlushReply) (phase : s.phase = .storing none)
    (ok : InsertCall.flushError reply = none) :
    Moves (.flushed reply) { s with phase := .answered (.ok call.id) }
  | continues (reply : FlushReply) {peers : List (String × String)}
    (phase : s.phase = .storing (some peers)) (ok : InsertCall.flushError reply = none) :
    Moves (.flushed reply) { s with phase := enterLoop call peers }
  | ends (phase : s.phase = .replicating []) :
    Moves .forward { s with phase := .answered (.ok call.id) }
  | skips {id addr : String} {rest : List (String × String)} {cluster : ClusterState}
    {replicas : List (String × String)} (phase : s.phase = .replicating ((id, addr) :: rest))
    (planned : call.plan = .replicate cluster replicas) (dead : cluster.peerStatus id = .dead) :
    Moves .forward { s with phase := .replicating rest }
  | sends {id addr : String} {rest : List (String × String)} {cluster : ClusterState}
    {replicas : List (String × String)} (phase : s.phase = .replicating ((id, addr) :: rest))
    (planned : call.plan = .replicate cluster replicas) (alive : cluster.peerStatus id ≠ .dead) :
    Moves .forward { s with phase := .forwarding addr 0 rest, sent := addr :: s.sent }
  | succeeds {addr : String} {attempt : Nat} {rest : List (String × String)}
    (phase : s.phase = .forwarding addr attempt rest) :
    Moves (.outcome .ok) { s with phase := .replicating rest }
  | retries {addr : String} {attempt : Nat} {rest : List (String × String)}
    (phase : s.phase = .forwarding addr attempt rest) :
    Moves (.outcome .retryable)
      { s with phase := .forwarding addr (attempt + 1) rest, sent := addr :: s.sent }
  | givesUp (result : ForwardOutcome) : Moves (.outcome result)
    { s with phase := .answered (.badGateway "upstream replica unavailable") }
  | arrives (addr : String) (now : Nat) :
    Moves (.deliver addr now) (s.submitAt fleet call (fleet.owner addr) now)
  | fetches (p : String) : Moves (.fetch p)
    { s with copies := ((s.nodes p).index.getEntryByUuid call.id).toList ++ s.copies }
  | repairs (p : String) (full : FullEntry) :
    Moves (.repair p full) (s.onNode fleet call p (.submit full.repairLine))
  | acts (p : String) (a : Action) : Moves (.node p a) { s.onNode fleet call p a with
      phase := if p = call.here && Node.crashes a then s.phase.crash else s.phase }

theorem step_moves (e : InsertEvent) : Moves fleet call s e (s.step fleet call e) := by
  cases e with
  | receive now =>
      simp only [step, receive]
      split
      · next planned => exact .rejects now planned
      · next planned => exact .storesAlone now planned
      · next cluster replicas _ planned =>
          by_cases inside : ∃ r ∈ replicas, r.1 = cluster.selfNodeId
          · rw [if_pos (by simpa using inside)]
            exact .storesFirst now planned inside
          · rw [if_neg (by simpa using inside)]
            exact .enters now planned fun r mem self => inside ⟨r, mem, self⟩
      · exact .stays _
  | flushed reply =>
      simp only [step, flushed]
      split
      · next phase =>
          split
          · exact .fails reply _
          · next ok => exact .stored reply phase ok
          · next ok => exact .continues reply phase ok
      · exact .stays _
  | forward =>
      simp only [step, forward]
      split
      · next phase => exact .ends phase
      · next phase planned =>
          split
          · next dead => exact .skips phase planned dead
          · next alive => exact .sends phase planned alive
      · exact .stays _
  | outcome result =>
      simp only [step, outcome]
      split
      · next phase => exact .succeeds phase
      · next phase =>
          split
          · exact .retries phase
          · exact .givesUp _
      · exact .givesUp _
      · exact .stays _
  | deliver addr now => exact .arrives addr now
  | fetch p => exact .fetches p
  | repair p full => exact .repairs p full
  | node p a => exact .acts p a

/-- The handler starts with an insert of its own. -/
def StoresFirst : Prop :=
  call.plan = .storeLocally ∨ ∃ cluster replicas, call.plan = .replicate cluster replicas ∧
    ∃ r ∈ replicas, r.1 = cluster.selfNodeId

/-- The actions that an event can cause on a node. -/
inductive Causes : InsertEvent → String → Action → Prop
  | own (now : Nat) (first : StoresFirst call) :
    Causes (.receive now) call.here (.submit (call.line now (fleet.conversationTtl call.here)))
  | delivered (addr : String) (now : Nat) : Causes (.deliver addr now) (fleet.owner addr)
    (.submit (call.line now (fleet.conversationTtl (fleet.owner addr))))
  | repaired (p : String) (full : FullEntry) :
    Causes (.repair p full) p (.submit full.repairLine)
  | runs (p : String) (a : Action) : Causes (.node p a) p a

variable {fleet call s}

/-- An event leaves the nodes alone or runs one action on one of them. -/
theorem step_world (e : InsertEvent) : (s.step fleet call e).toWorld = s.toWorld ∨
    ∃ p a, Causes fleet call e p a ∧
      (s.step fleet call e).toWorld = s.toWorld.onNode (fleet.config p) call.id p a := by
  have moves := step_moves fleet call s e
  generalize s.step fleet call e = s' at moves ⊢
  cases moves with
  | storesAlone now planned => exact .inr ⟨_, _, .own now (.inl planned), rfl⟩
  | storesFirst now planned inside =>
      exact .inr ⟨_, _, .own now (.inr ⟨_, _, planned, inside⟩), rfl⟩
  | arrives addr now => exact .inr ⟨_, _, .delivered addr now, rfl⟩
  | repairs p full => exact .inr ⟨_, _, .repaired p full, rfl⟩
  | acts p a => exact .inr ⟨p, a, .runs p a, rfl⟩
  | _ => exact .inl rfl

/-- A caused action is one the node can take. -/
theorem Causes.admissible {e : InsertEvent} {p : String} {a : Action}
    (causes : Causes fleet call e p a) (admissible : s.Admissible fleet call e) :
    (s.nodes p).Admissible (fleet.config p) a := by
  cases causes with
  | own now first => rfl
  | delivered addr now => rfl
  | repaired p full => rfl
  | runs p a => exact admissible

/-- A copy is what a node answers to a lookup by UUID. -/
theorem step_copies (e : InsertEvent) {full : FullEntry}
    (mem : full ∈ (s.step fleet call e).copies) : full ∈ s.copies ∨
      ∃ p, (s.nodes p).index.getEntryByUuid call.id = some full := by
  have moves := step_moves fleet call s e
  generalize s.step fleet call e = s' at moves mem
  cases moves with
  | fetches p =>
      rcases List.mem_append.mp mem with new | old
      · exact .inr ⟨p, Option.mem_toList.mp new⟩
      · exact .inl old
  | _ => exact .inl mem

end Insertion

end Machine

end Ferrocache
