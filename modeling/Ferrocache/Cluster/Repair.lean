import Ferrocache.Cluster.Fanout
import Ferrocache.Cluster.Query
import Ferrocache.Node.Doom

/-!
# Read repair against a delete

`attempt_read_repair` and `perform_repair` (`server.rs`) beside a clustered
delete.  A query that misses asks the replicas, and a detached task fetches the
entry of the first hit and puts a copy into the channel of its own node.  The
task does not know of the delete, and a tombstone only removes what is in the
index when it is applied, so that a copy that comes later stays.

An entry that was deleted stays away when no copy comes later: nothing is put
into the channel of a node that the delete is done with, and a node that the
delete passes over has nothing of the UUID, in its index or on the way to it.
-/

namespace Ferrocache

/-- Where a repair is. -/
inductive RepairStage : Type
  /-- a replica's result is `none` until it answers, and if its query fails -/
  | asking (req : QueryRequest) (peers : List (String × String))
      (results : List (Option QueryResponse))
  | fetching (addr uuid : String)
  | inserting (full : FullEntry)

/-- A repair, and the node that runs it. -/
structure RepairTask : Type where
  here : String
  stage : RepairStage

/-- The cluster around one delete, which has not arrived while `phase` is `none`.
`visited` is not in the code: the nodes that the delete is done with, because its
tombstone is in their channel or because it passed them over. -/
structure ReadRepair : Type where
  nodes : String → Node
  tasks : List RepairTask
  phase : Option DeletePhase
  visited : List String

inductive RepairEvent : Type
  /-- a query is served on node `p` -/
  | query (p : String) (app : QueryState) (params : LocalParam) (req : QueryRequest) (now : Nat)
  /-- the `k`-th replica answers -/
  | answer (i k now : Nat)
  | choose (i : Nat)
  | fetch (i : Nat)
  | insert (i : Nat)
  /-- the request for the entry, or the channel, fails -/
  | fail (i : Nat)
  | receive
  /-- the delete, or any other task of a node -/
  | delete (e : DeleteEvent)

namespace ReadRepair

section Machine

variable [Platform] (fleet : Fleet) (call : DeleteCall) (path : String → Option String)
  (s : ReadRepair)

omit [Platform] in
def new (nodes : String → Node) : ReadRepair := ⟨nodes, [], none, []⟩

/-- `process_query_locally`: a miss asks the replicas, if there are any to ask. -/
def query (p : String) (app : QueryState) (params : LocalParam) (req : QueryRequest)
    (now : Nat) : ReadRepair :=
  match app.plan params req with
  | .serve tryRepair =>
    match processQueryLocally (s.nodes p).index req now, app.repairPeers tryRepair req.embedding with
    | some ⟨false, _⟩, peer :: peers =>
      { s with
        tasks := s.tasks ++
          [⟨p, .asking req (peer :: peers) (List.replicate (peers.length + 1) none)⟩] }
    | _, _ => s
  | _ => s

/-- A replica serves the query without a repair of its own. -/
def answer (i k now : Nat) : ReadRepair :=
  match s.tasks[i]? with
  | some ⟨p, .asking req peers results⟩ =>
    match peers[k]? with
    | some (_, addr) =>
      { s with
        tasks := s.tasks.set i ⟨p, .asking req peers (results.set k
          (processQueryLocally (s.nodes (fleet.owner addr)).index req now))⟩ }
    | none => s
  | _ => s

omit [Platform] in
/-- The first hit, if it has an id, is fetched. -/
def choose (i : Nat) : ReadRepair :=
  match s.tasks[i]? with
  | some ⟨p, .asking _ peers results⟩ =>
    match firstHit peers results with
    | some ((_, addr), ⟨_, some uuid⟩) =>
      { s with tasks := s.tasks.set i ⟨p, .fetching addr uuid⟩ }
    | _ => { s with tasks := s.tasks.eraseIdx i }
  | _ => s

omit [Platform] in
/-- `GET /internal/entry/{uuid}`; `path` is the UUID that the peer reads from the
path, which is not percent-encoded. -/
def fetch (i : Nat) : ReadRepair :=
  match s.tasks[i]? with
  | some ⟨p, .fetching addr uuid⟩ =>
    match (path uuid).bind (s.nodes (fleet.owner addr)).index.getEntryByUuid with
    | some full => { s with tasks := s.tasks.set i ⟨p, .inserting full⟩ }
    | none => { s with tasks := s.tasks.eraseIdx i }
  | _ => s

/-- The copy is put into the channel; what comes back is only counted. -/
def insert (i : Nat) : ReadRepair :=
  match s.tasks[i]? with
  | some ⟨p, .inserting full⟩ =>
    { s with
      nodes := fleet.act s.nodes p (.submit full.repairLine)
      tasks := s.tasks.eraseIdx i }
  | _ => s

def receive : ReadRepair :=
  match s.phase with
  | none =>
    let started := Deletion.begin fleet call s.nodes
    { s with nodes := started.nodes, phase := some started.phase }
  | some _ => s

omit [Platform] in
/-- The delete; before it arrives, its handler has nothing to do. -/
def deletion : Deletion := ⟨s.nodes, s.phase.getD (.answered .deleted)⟩

omit [Platform] in
/-- The peer whose turn it is, if it is not asked for the UUID or answers that it
does not have it. -/
def passedOver : Option String :=
  match s.phase with
  | some (.fanOut ((_, addr) :: _)) =>
    if call.pathUuid = some call.uuid ∧
        (lookupStage (s.nodes (fleet.owner addr)) call.uuid).isOk = true then none
    else some (fleet.owner addr)
  | _ => none

omit [Platform] in
/-- The node that the delete is done with after the event. -/
def finishes : DeleteEvent → Option String
  | .send _ => match s.phase with
      | some (.working p uuid (.log _) _) => if uuid = call.uuid then some p else none
      | _ => none
  | .forward => s.passedOver fleet call
  | _ => none

def delete (e : DeleteEvent) : ReadRepair :=
  let after := s.deletion.step fleet call e
  { s with
    nodes := after.nodes
    phase := s.phase.map fun _ => after.phase
    visited := s.visited ++ (s.finishes fleet call e).toList }

def step : RepairEvent → ReadRepair
  | .query p app params req now => s.query p app params req now
  | .answer i k now => s.answer fleet i k now
  | .choose i => s.choose i
  | .fetch i => s.fetch fleet path i
  | .insert i => s.insert fleet i
  | .fail i => { s with tasks := s.tasks.eraseIdx i }
  | .receive => s.receive fleet call
  | .delete e => s.delete fleet call e

/-- When an event can happen: a handler reads the index of a node when no other
task holds its lock. -/
def Admissible : RepairEvent → Prop
  | .query p _ _ _ _ => (s.nodes p).phase.locked = false
  | .answer i k _ => ∀ p req peers results id addr,
      s.tasks[i]? = some ⟨p, .asking req peers results⟩ → peers[k]? = some (id, addr) →
        (s.nodes (fleet.owner addr)).phase.locked = false
  | .fetch i => ∀ p addr uuid, s.tasks[i]? = some ⟨p, .fetching addr uuid⟩ →
      (s.nodes (fleet.owner addr)).phase.locked = false
  | .receive => (s.nodes call.here).phase.locked = false
  | .delete e => s.deletion.Admissible fleet e
  | _ => True

/-- The states reached by events that all meet `guard`. -/
inductive Reachable (guard : ReadRepair → RepairEvent → Prop) (start : String → Node) :
    ReadRepair → Prop
  | new : Reachable guard start (new start)
  | step {s : ReadRepair} (e : RepairEvent) : Reachable guard start s →
    s.Admissible fleet call e → guard s e → Reachable guard start (s.step fleet call path e)

/-- The state after a list of events. -/
def run (events : List RepairEvent) : ReadRepair := events.foldl (step fleet call path) s

/-- Every event of the list can happen and meets `guard` when its turn comes. -/
def Allowed (guard : ReadRepair → RepairEvent → Prop) (s : ReadRepair) :
    List RepairEvent → Prop
  | [] => True
  | e :: events => s.Admissible fleet call e ∧ guard s e ∧
      Allowed guard (s.step fleet call path e) events

variable {fleet call path s}

theorem Allowed.append {guard : ReadRepair → RepairEvent → Prop} {events more : List RepairEvent}
    (allowed : Allowed fleet call path guard s events)
    (rest : Allowed fleet call path guard (s.run fleet call path events) more) :
    Allowed fleet call path guard s (events ++ more) := by
  induction events generalizing s with
  | nil => exact rest
  | cons e events ih => exact ⟨allowed.1, allowed.2.1, ih allowed.2.2 rest⟩

theorem Reachable.mono {guard guard' : ReadRepair → RepairEvent → Prop} {start : String → Node}
    (weaker : ∀ s e, guard s e → guard' s e)
    (reached : Reachable fleet call path guard start s) :
    Reachable fleet call path guard' start s := by
  induction reached with
  | new => exact .new
  | step e _ admissible guarded ih => exact ih.step e admissible (weaker _ e guarded)

theorem Reachable.run {guard : ReadRepair → RepairEvent → Prop} {start : String → Node}
    (reached : Reachable fleet call path guard start s) {events : List RepairEvent}
    (allowed : Allowed fleet call path guard s events) :
    Reachable fleet call path guard start (s.run fleet call path events) := by
  induction events generalizing s with
  | nil => exact reached
  | cons e events ih =>
      obtain ⟨admissible, guarded, rest⟩ := allowed
      exact ih (reached.step e admissible guarded) rest

variable (fleet call s) in
/-- What an event can lead to. -/
inductive Moves : RepairEvent → ReadRepair → Prop
  | tasks (e : RepairEvent) (tasks : List RepairTask) : Moves e { s with tasks := tasks }
  | inserts (i : Nat) {p : String} {full : FullEntry}
    (task : s.tasks[i]? = some ⟨p, .inserting full⟩) : Moves (.insert i)
      { s with
        nodes := fleet.act s.nodes p (.submit full.repairLine)
        tasks := s.tasks.eraseIdx i }
  | receives (absent : s.phase = none) : Moves .receive
      { s with
        nodes := (Deletion.begin fleet call s.nodes).nodes
        phase := some (Deletion.begin fleet call s.nodes).phase }
  | deletes (e : DeleteEvent) : Moves (.delete e) (s.delete fleet call e)

variable (fleet call path s) in
theorem step_moves (e : RepairEvent) : Moves fleet call s e (s.step fleet call path e) := by
  cases e with
  | query p app params req now =>
      simp only [step, query]
      split
      · split
        · exact .tasks _ _
        · exact .tasks _ s.tasks
      · exact .tasks _ s.tasks
  | answer i k now =>
      simp only [step, answer]
      split
      · split
        · exact .tasks _ _
        · exact .tasks _ s.tasks
      · exact .tasks _ s.tasks
  | choose i =>
      simp only [step, choose]
      split
      · split
        · exact .tasks _ _
        · exact .tasks _ _
      · exact .tasks _ s.tasks
  | fetch i =>
      simp only [step, fetch]
      split
      · split
        · exact .tasks _ _
        · exact .tasks _ _
      · exact .tasks _ s.tasks
  | insert i =>
      simp only [step, insert]
      split
      · next task => exact .inserts i task
      · exact .tasks _ s.tasks
  | fail i => exact .tasks _ _
  | receive =>
      simp only [step, receive]
      split
      · next absent => exact .receives absent
      · exact .tasks _ s.tasks
  | delete e => exact .deletes e

/-! ## The property and the condition -/

omit [Platform] in
/-- Every task and message is finished. -/
structure Quiet (members : Set String) (s : ReadRepair) : Prop where
  tasks : s.tasks = []
  waiting : ∀ p ∈ members, (s.nodes p).waiting = []
  outbox : ∀ p ∈ members, (s.nodes p).outbox = []
  deleting : ∀ p ∈ members, (s.nodes p).deleting = []

omit [Platform] in
/-- No node crashes, fails to write a batch or closes its channel. -/
def Healthy (s : ReadRepair) : RepairEvent → Prop
  | .delete (.node p a) => Node.crashes a = false ∧ (s.nodes p).WritesBatch a
  | .delete .closed => False
  | _ => True

omit [Platform] in
variable (call) in
/-- No client inserts the UUID after the delete has arrived. -/
def NotAgain (s : ReadRepair) : RepairEvent → Prop
  | .delete (.node _ (.submit entry)) => entry.uuid = call.uuid → s.phase = none
  | _ => True

omit [Platform] in
variable (fleet call) in
/-- No insertion of the UUID is put into the channel of a node that the delete is
done with; a node that it passes over has nothing of the UUID, live or waiting;
and when a tombstone of it is applied, no second namespace has it. -/
def Timely (s : ReadRepair) : RepairEvent → Prop
  | .insert i => ∀ p full, s.tasks[i]? = some ⟨p, .inserting full⟩ → full.uuid = call.uuid →
      p ∉ s.visited
  | .delete .forward => ∀ p, s.passedOver fleet call = some p →
      (s.nodes p).Buried (Node.Other call.uuid)
  | .delete (.node p a) => p ∈ s.visited → (s.nodes p).Clears call.uuid a ∧
      ∀ entry, a = .submit entry → entry.Meets (Node.Other call.uuid)
  | _ => True

/-! ## The way of the delete -/

variable {cluster : ClusterState} {members : Set String}

omit [Platform] in
variable (fleet call) in
/-- The handler is still going to be at node `q`, before the tombstone is sent. -/
def Ahead (peers : List (String × String)) (q : String) : DeletePhase → Prop
  | .working p uuid stage rest => (p = q ∧ uuid = call.uuid ∧ stage ≠ .logged) ∨
      ∃ r ∈ rest.getD peers, fleet.owner r.2 = q
  | .fanOut ahead => ∃ r ∈ ahead, fleet.owner r.2 = q
  | .answered reply => reply ≠ .deleted

omit [Platform] in
theorem ne_deleted_of_lookupStage {n : Node} {uuid : String} {reply : DeleteReply}
    (failed : lookupStage n uuid = .error reply) : reply ≠ .deleted := by
  unfold lookupStage at failed
  split at failed
  · cases failed
    exact DeleteReply.noConfusion
  · split at failed
    · cases failed
      exact DeleteReply.noConfusion
    · cases failed

omit [Platform] in
theorem ne_logged_of_lookupStage {n : Node} {uuid : String} {stage : DeleteStage}
    (found : lookupStage n uuid = .ok stage) : stage ≠ .logged := by
  unfold lookupStage at found
  split at found
  · cases found
  · split at found
    · cases found
    · cases found
      exact DeleteStage.noConfusion

/-- When the delete arrives, every member is ahead. -/
theorem ahead_begin (connected : Deletion.Connected fleet call cluster members)
    (nodes : String → Node) {q : String} (mem : q ∈ members) :
    Ahead fleet call (cluster.allPeerAddrs call.order) q (Deletion.begin fleet call nodes).phase := by
  unfold Deletion.begin
  split
  · next reply failed => exact ne_deleted_of_lookupStage failed
  · next stage found =>
      rcases connected.known q mem with receiver | ⟨id, addr, other, listed, owned⟩
      · exact .inl ⟨receiver.symm, rfl, ne_logged_of_lookupStage found⟩
      · exact .inr ⟨(id, addr), cluster.mem_allPeerAddrs connected.visits other listed, owned⟩

/-- A member that is ahead stays ahead until the delete is done with it. -/
theorem ahead_delete (connected : Deletion.Connected fleet call cluster members)
    {phase : DeletePhase} (known : s.phase = some phase)
    (within : Deletion.Within (cluster.allPeerAddrs call.order) phase) {e : DeleteEvent}
    (healthy : s.Healthy (.delete e)) {q : String}
    (ahead : Ahead fleet call (cluster.allPeerAddrs call.order) q phase) :
    s.finishes fleet call e = some q ∨ Ahead fleet call (cluster.allPeerAddrs call.order) q
      (s.deletion.step fleet call e).phase := by
  have same : s.deletion.phase = phase := by
    unfold deletion
    rw [known]
    rfl
  have moves := Deletion.step_moves fleet call s.deletion e
  generalize s.deletion.step fleet call e = s' at moves ⊢
  cases moves with
  | stays =>
      rw [same]
      exact .inr ahead
  | removes i stands =>
      cases same.symm.trans stands
      exact .inr (ahead.imp_left fun here => ⟨here.1, here.2.1, DeleteStage.noConfusion⟩)
  | sends i stands =>
      cases same.symm.trans stands
      rcases ahead with ⟨rfl, named, -⟩ | later
      · refine .inl ?_
        unfold finishes
        rw [known]
        exact if_pos named
      · exact .inr (.inr later)
  | fails stands => exact healthy.elim
  | passes stands => exact healthy.elim
  | @replies p uuid rest stands =>
      cases same.symm.trans stands
      rcases ahead with ⟨-, -, unsent⟩ | later
      · exact absurd rfl unsent
      · cases rest with
        | some rest => exact .inr later
        | none =>
            simp only [Deletion.afterLocal, connected.notLocal, connected.clustered,
              connected.routed]
            exact .inr later
  | ends stands =>
      cases same.symm.trans stands
      obtain ⟨r, mem, -⟩ := ahead
      cases mem
  | @skips id addr rest cluster' stands clustered missed =>
      cases same.symm.trans stands
      cases connected.clustered.symm.trans clustered
      obtain ⟨r, mem, owned⟩ := ahead
      rcases List.mem_cons.mp mem with rfl | later
      · have listed : (id, addr) ∈ cluster.allPeerAddrs call.order := within List.mem_cons_self
        have alive := connected.alive id addr (cluster.lookup_of_mem_allPeerAddrs listed)
        refine .inl ?_
        unfold finishes passedOver
        rw [known]
        dsimp only
        rw [if_neg, owned]
        intro both
        obtain ⟨reply, failed⟩ := (missed.resolve_left alive) call.uuid both.1
        have ok := both.2
        unfold deletion at failed
        rw [failed] at ok
        cases ok
      · exact .inr ⟨r, later, owned⟩
  | @visits id addr rest uuid stage stands asked found =>
      cases same.symm.trans stands
      obtain ⟨r, mem, owned⟩ := ahead
      rcases List.mem_cons.mp mem with rfl | later
      · by_cases named : uuid = call.uuid
        · exact .inr (.inl ⟨owned, named, ne_logged_of_lookupStage found⟩)
        · refine .inl ?_
          unfold finishes passedOver
          rw [known]
          dsimp only
          rw [if_neg, owned]
          intro both
          exact named (Option.some.inj (asked.symm.trans both.1))
      · exact .inr (.inr ⟨r, later, owned⟩)
  | acts p a =>
      rw [same]
      exact .inr ahead

/-! ## What the steps keep -/

/-- What is known of the nodes: the UUID is gone from those that the delete is
done with. -/
structure Clean (call : DeleteCall) (nodes : String → Node) (visited : List String) : Prop where
  wellFormed : ∀ p, (nodes p).index.WellFormed
  outbox : ∀ p, (nodes p).SendsTombstones
  gone : ∀ p ∈ visited, (nodes p).Gone call.uuid

variable {nodes : String → Node} {visited : List String}

theorem Clean.act (clean : Clean call nodes visited) {p : String} {a : Action}
    (admissible : (nodes p).Admissible (fleet.config p) a)
    (benign : p ∈ visited → (nodes p).Benign call.uuid a) :
    Clean call (fleet.act nodes p a) visited where
  wellFormed := Deletion.forall_act (K := fun _ n => n.index.WellFormed) clean.wellFormed
    ((Node.act_index (clean.wellFormed p) admissible).wellFormed (clean.wellFormed p))
  outbox := Deletion.forall_act (K := fun _ n => n.SendsTombstones) clean.outbox ((clean.outbox p).act a)
  gone := Deletion.forall_act (K := fun q n => q ∈ visited → n.Gone call.uuid) clean.gone
    fun mem => (clean.gone p mem).act (clean.wellFormed p) (clean.outbox p) admissible (benign mem)

omit [Platform] in
/-- The handler's own actions are benign, and so are those of the other tasks. -/
theorem benign_of_runs {e : DeleteEvent} {p : String} {a : Action}
    (runs : Deletion.Runs s.deletion e p a) (healthy : s.Healthy (.delete e))
    (timely : s.Timely fleet call (.delete e)) (mem : p ∈ s.visited) :
    (s.nodes p).Benign call.uuid a := by
  cases runs with
  | lookup p uuid => exact .of_other (by simp) (by simp) (by simp) rfl
  | remove i phase => exact .of_other (by simp) (by simp) (by simp) rfl
  | send i p => exact .of_other (by simp) (by simp) (by simp) rfl
  | node p a =>
      obtain ⟨clears, submitted⟩ := timely mem
      exact ⟨healthy.1, healthy.2, clears, submitted⟩

/-- An event of the delete, or of another task. -/
theorem Clean.delete (clean : Clean call s.nodes s.visited) {e : DeleteEvent}
    (admissible : s.deletion.Admissible fleet e) (healthy : s.Healthy (.delete e))
    (timely : s.Timely fleet call (.delete e)) :
    Clean call (s.deletion.step fleet call e).nodes s.visited := by
  rcases (Deletion.step_moves fleet call s.deletion e).nodes admissible with
    same | ⟨p, a, runs, acts, able⟩
  · rw [same]
    exact clean
  · rw [acts]
    exact clean.act able (benign_of_runs runs healthy timely)

/-- The node that the delete is done with after the event. -/
theorem gone_of_finishes (clean : Clean call s.nodes s.visited) {e : DeleteEvent}
    (admissible : s.deletion.Admissible fleet e)
    (timely : s.Timely fleet call (.delete e)) {p : String}
    (finished : s.finishes fleet call e = some p) :
    ((s.deletion.step fleet call e).nodes p).Gone call.uuid := by
  cases e with
  | send i =>
      unfold finishes at finished
      dsimp only at finished
      split at finished
      · next q uuid modelId rest phase =>
          split at finished
          · next named =>
              cases finished
              have stands : s.deletion.phase = .working p uuid (.log modelId) rest := by
                unfold deletion
                rw [phase]
                rfl
              have sent : ((s.nodes p).act (fleet.config p) (.send i)).waiting = _ :=
                Node.waiting_send (admissible p uuid modelId rest stands)
              unfold Deletion.step Deletion.send
              rw [stands]
              dsimp only
              unfold Fleet.act
              rw [Function.update_self]
              exact Node.gone_of_last sent rfl named
          · cases finished
      · cases finished
  | forward =>
      -- the node has nothing of the UUID, and the lookup brings nothing
      have alone : Clean call s.nodes [p] := ⟨clean.wellFormed, clean.outbox, fun q mem => by
        rw [List.mem_singleton.mp mem]
        exact .inr (timely p finished)⟩
      have after : Clean call (s.deletion.step fleet call .forward).nodes [p] := by
        rcases (Deletion.step_moves fleet call s.deletion .forward).nodes admissible with
          same | ⟨q, a, runs, acts, able⟩
        · rw [same]
          exact alone
        · rw [acts]
          cases runs with
          | lookup q uuid =>
              exact alone.act able fun _ => .of_other (by simp) (by simp) (by simp) rfl
      exact after.gone p List.mem_cons_self
  | remove i => cases finished
  | closed => cases finished
  | reply => cases finished
  | node q a => cases finished

variable (fleet call cluster members) in
/-- The invariant of a run. -/
structure Tracks (s : ReadRepair) : Prop where
  clean : Clean call s.nodes s.visited
  within : ∀ phase, s.phase = some phase →
    Deletion.Within (cluster.allPeerAddrs call.order) phase
  ahead : ∀ phase, s.phase = some phase → ∀ q ∈ members, q ∈ s.visited ∨
    Ahead fleet call (cluster.allPeerAddrs call.order) q phase

theorem Tracks.delete (tracks : Tracks fleet call cluster members s)
    (connected : Deletion.Connected fleet call cluster members) {e : DeleteEvent}
    (admissible : s.deletion.Admissible fleet e) (healthy : s.Healthy (.delete e))
    (timely : s.Timely fleet call (.delete e)) :
    Tracks fleet call cluster members (s.delete fleet call e) := by
  have after := tracks.clean.delete admissible healthy timely
  refine ⟨⟨after.wellFormed, after.outbox, fun p mem => ?_⟩, fun phase known => ?_,
    fun phase known q mem => ?_⟩
  · rcases List.mem_append.mp mem with old | new
    · exact after.gone p old
    · exact gone_of_finishes tracks.clean admissible timely (Option.mem_toList.mp new)
  · obtain ⟨before, stood, rfl⟩ := Option.map_eq_some_iff.mp known
    have within := tracks.within before stood
    refine Deletion.within_step connected ?_ e
    unfold deletion
    rw [stood]
    exact within
  · obtain ⟨before, stood, rfl⟩ := Option.map_eq_some_iff.mp known
    rcases tracks.ahead before stood q mem with old | ahead
    · exact .inl (List.mem_append_left _ old)
    · rcases ahead_delete connected stood (tracks.within before stood) healthy ahead with
        finished | still
      · exact .inl (List.mem_append_right _ (Option.mem_toList.mpr finished))
      · exact .inr still

theorem Tracks.step (tracks : Tracks fleet call cluster members s)
    (connected : Deletion.Connected fleet call cluster members) {e : RepairEvent}
    (admissible : s.Admissible fleet call e) (healthy : s.Healthy e)
    (timely : s.Timely fleet call e) :
    Tracks fleet call cluster members (s.step fleet call path e) := by
  have moves := step_moves fleet call path s e
  generalize s.step fleet call path e = s' at moves ⊢
  cases moves with
  | tasks e tasks => exact ⟨tracks.clean, tracks.within, tracks.ahead⟩
  | @inserts i p full task =>
      refine ⟨tracks.clean.act rfl fun mem => ?_, tracks.within, tracks.ahead⟩
      refine ⟨rfl, fun _ _ _ _ same => (by cases same), fun _ _ _ same => (by cases same),
        fun entry same _ => ?_⟩
      cases same
      exact fun named => timely p full task named mem
  | receives absent =>
      have started : Clean call (Deletion.begin fleet call s.nodes).nodes s.visited := by
        unfold Deletion.begin
        split
        · exact tracks.clean
        · exact tracks.clean.act admissible fun _ =>
            .of_other (by simp) (by simp) (by simp) rfl
      refine ⟨started, fun phase known => ?_, fun phase known q mem => ?_⟩
      · cases known
        unfold Deletion.begin
        split
        · trivial
        · exact List.nil_subset _
      · cases known
        exact .inr (ahead_begin connected s.nodes mem)
  | deletes e => exact tracks.delete connected admissible healthy timely

/-- A run whose steps all meet the condition: once the delete is answered and
nothing is under way any more, no member has the UUID. -/
theorem deleted_stays_deleted {start : String → Node}
    (connected : Deletion.Connected fleet call cluster members)
    (started : ∀ p, Node.Reachable (fleet.config p) (fun _ _ => True) (start p))
    (reached : Reachable fleet call path (fun s e => s.Healthy e ∧ s.Timely fleet call e) start s)
    (answered : s.phase = some (.answered .deleted)) (quiet : s.Quiet members) :
    ∀ q ∈ members, (s.nodes q).index.Lacks call.uuid := by
  have tracks : Tracks fleet call cluster members s := by
    clear answered quiet
    induction reached with
    | new =>
        exact ⟨⟨fun p => (started p).wellFormed, fun p => (started p).outbox, fun _ mem =>
          absurd mem List.not_mem_nil⟩, fun _ known => (by cases known), fun _ known => by cases known⟩
    | step e _ admissible guarded ih => exact ih.step connected admissible guarded.1 guarded.2
  intro q mem
  rcases tracks.ahead _ answered q mem with visited | ahead
  · exact (tracks.clean.gone q visited).entryAt (quiet.waiting q mem)
  · exact absurd rfl ahead

end Machine

section Example

local instance repairExamplePlatform : Platform := Platform.sample

/-- An entry is stored, and the flush task rests. -/
def stored : List Action :=
  [.submit ⟨"id", [0x3F800000#32], "r", "q", "m", 0, 0, false, none⟩, .collect 1, .write .synced,
    .acquire, .apply, .apply, .evict [] ⟨[], fun _ => []⟩, .settle ⟨["m"], fun _ => [0]⟩ .compacted]

/-- `b` has the entry, `a` has not. -/
def sampleStart (p : String) : Node :=
  if p = "b" then (Node.new ⟨⟨0, none⟩, 256, 0⟩).run ⟨⟨0, none⟩, 256, 0⟩ stored
  else .new ⟨⟨0, none⟩, 256, 0⟩

theorem sampleStart_reachable (p : String) :
    Node.Reachable (Fleet.sample.config p) (fun _ _ => True) (sampleStart p) := by
  change Node.Reachable ⟨⟨0, none⟩, 256, 0⟩ (fun _ _ => True) (sampleStart p)
  unfold sampleStart
  split
  · refine Node.Reachable.run .new ⟨rfl, trivial, ⟨by decide, by decide⟩, trivial, trivial, trivial,
      trivial, trivial, trivial, trivial, trivial, trivial, fun _ capped => ?_, trivial, ?_, trivial,
      trivial⟩
    · cases capped
    · change SemanticIndex.Visits _ _
      decide +kernel
  · exact .new

/-- A delete that `b` receives. -/
def sampleCall : DeleteCall :=
  ⟨"b", some (ClusterState.sample "b" ∅), true, false, "id", ["a", "b"], some "id"⟩

theorem connected_sample :
    Deletion.Connected Fleet.sample sampleCall (ClusterState.sample "b" ∅) {"a", "b"} where
  clustered := rfl
  routed := rfl
  notLocal := rfl
  visits := by decide +kernel
  alive id addr _ := by
    have untracked : (ClusterState.sample "b" ∅).peerStatus id = .alive := rfl
    rw [untracked]
    decide
  known p mem := by
    rcases mem with rfl | rfl
    · exact .inr ⟨"a", "a:3000", by decide, by decide +kernel, by decide⟩
    · exact .inl rfl

/-- `a` is asked for the entry, and asks `b`. -/
def asks : List RepairEvent :=
  [.query "a" ⟨⟨some (ClusterState.sample "a" ∅), true, 2, 0⟩, true⟩ .absent
      ⟨[0x3F800000#32], 0#32, some "m", some "q", none, none⟩ 0, .answer 0 0 0, .choose 0]

/-- The delete on `b`, where its tombstone is flushed, and then on `a`. -/
def deletes : List RepairEvent :=
  [.receive, .delete (.remove 0), .delete (.send 0), .delete (.node "b" (.collect 1)),
    .delete (.node "b" (.write .synced)), .delete (.node "b" .acquire),
    .delete (.node "b" .apply), .delete (.node "b" .apply), .delete .reply, .delete .forward,
    .delete .forward]

/-- The copy is put into the channel of `a`, and flushed. -/
def copies : List RepairEvent :=
  [.insert 0, .delete (.node "a" (.collect 1)), .delete (.node "a" (.write .synced)),
    .delete (.node "a" .acquire), .delete (.node "a" .apply), .delete (.node "a" .apply)]

/-- The state after these events. -/
def sampleRun (events : List RepairEvent) : ReadRepair :=
  (new sampleStart).run Fleet.sample sampleCall some events

/-- `a` has asked, and has fetched the copy or not. -/
def before (fetched : Bool) : List RepairEvent := asks ++ if fetched then [.fetch 0] else []

/-- All that is asked of an event. -/
def Proper (s : ReadRepair) (e : RepairEvent) : Prop :=
  s.Healthy e ∧ s.NotAgain sampleCall e ∧ s.Timely Fleet.sample sampleCall e

/-- The steps of a flush task that neither write nor apply. -/
theorem proper_node {s : ReadRepair} {p : String} {a : Action}
    (submits : ∀ entry, a ≠ .submit entry) (writes : ∀ outcome, a ≠ .write outcome)
    (applies : a ≠ .apply) (alive : Node.crashes a = false) : s.Proper (.delete (.node p a)) := by
  have benign : (s.nodes p).Benign "id" a := .of_other submits writes applies alive
  refine ⟨⟨benign.alive, benign.writes⟩, ?_, fun _ => ⟨benign.clears, benign.submitted⟩⟩
  cases a with
  | submit entry => exact absurd rfl (submits entry)
  | _ => trivial

/-- Both nodes can be asked. -/
theorem unlocked_at_owner {s : ReadRepair} (a : (s.nodes "a").phase.locked = false)
    (b : (s.nodes "b").phase.locked = false) (addr : String) :
    (s.nodes (Fleet.sample.owner addr)).phase.locked = false := by
  unfold Fleet.sample
  dsimp only
  split
  · exact a
  · exact b

theorem allowed_before (fetched : Bool) :
    Allowed Fleet.sample sampleCall some Proper (new sampleStart) (before fetched) := by
  refine Allowed.append ⟨?_, ⟨trivial, trivial, trivial⟩, ?_, ⟨trivial, trivial, trivial⟩, trivial,
    ⟨trivial, trivial, trivial⟩, trivial⟩ ?_
  · change (sampleStart "a").phase.locked = false
    decide +kernel
  · intro p req peers results id addr _ _
    exact unlocked_at_owner (by decide +kernel) (by decide +kernel) addr
  · cases fetched with
    | false => trivial
    | true =>
        refine ⟨fun p addr uuid _ => ?_, ⟨trivial, trivial, trivial⟩, trivial⟩
        exact unlocked_at_owner (by decide +kernel) (by decide +kernel) addr

theorem buried_of_lacks {n : Node} {uuid : String} (lacks : n.index.Lacks uuid)
    (quiet : n.waiting = []) : n.Buried (Node.Other uuid) := by
  refine ⟨fun m u e live same => ?_, fun entry mem => ?_⟩
  · subst same
    cases live.symm.trans (lacks m)
  · rw [quiet] at mem
    cases mem

/-- The state after the first `k` events of the delete. -/
def during (fetched : Bool) (k : Nat) : ReadRepair :=
  (sampleRun (before fetched)).run Fleet.sample sampleCall some (deletes.take k)

theorem proper_apply {s : ReadRepair} (lacks : (s.nodes "b").index.Lacks "id") :
    s.Proper (.delete (.node "b" .apply)) := by
  refine ⟨⟨rfl, fun _ _ _ _ same => by cases same⟩, trivial, fun _ =>
    ⟨fun _ _ _ _ _ _ _ m live => ?_, fun _ same => by cases same⟩⟩
  exact absurd (lacks m) live

theorem allowed_deletes (fetched : Bool) :
    Allowed Fleet.sample sampleCall some Proper (during fetched 0) deletes := by
  have known : ∀ fetched : Bool,
      (during fetched 1).deletion.phase = .working "b" "id" (.remove "m") none ∧
        (during fetched 2).deletion.phase = .working "b" "id" (.log "m") none ∧
        ((during fetched 4).nodes "b").phase = .collected [.tombstoneEntry "id" "m"] false ∧
        (during fetched 9).passedOver Fleet.sample sampleCall = some "a" ∧
        (during fetched 10).deletion.phase = .fanOut [] ∧
        (during fetched 10).passedOver Fleet.sample sampleCall = none := by
    decide +kernel
  have able : ∀ fetched : Bool,
      ((during fetched 0).nodes "b").phase.locked = false ∧
        ((during fetched 1).nodes "b").phase.locked = false ∧
        ((during fetched 1).nodes "b").deleting[0]? = some ("id", "m") ∧
        ((during fetched 2).nodes "b").outbox[0]? = some (.tombstoneEntry "id" "m") ∧
        ((during fetched 4).nodes "b").log.sequence + 1 ≤ u64Max ∧
        ((during fetched 9).nodes "a").phase.locked = false ∧
        ((during fetched 9).nodes "b").phase.locked = false := by
    decide +kernel
  have clear : ∀ fetched : Bool,
      ((during fetched 6).nodes "b").index.Lacks "id" ∧
        ((during fetched 7).nodes "b").index.Lacks "id" ∧
        ((during fetched 9).nodes "a").index.Lacks "id" ∧
        ((during fetched 9).nodes "a").waiting = [] := by
    decide +kernel
  obtain ⟨removing, sending, collected, passed, ended, none⟩ := known fetched
  obtain ⟨idle, unlocked, looked, due, room, freeA, freeB⟩ := able fetched
  obtain ⟨first, second, missing, quiet⟩ := clear fetched
  refine ⟨idle, ⟨trivial, trivial, trivial⟩, fun p uuid m rest stands => ?_,
    ⟨trivial, trivial, trivial⟩, fun p uuid m rest stands => ?_, ⟨trivial, trivial, trivial⟩,
    ⟨by decide, by decide⟩, proper_node (by simp) (by simp) (by simp) rfl,
    trivial, ⟨⟨rfl, fun batch compact outcome stands same => ?_⟩, trivial, fun _ =>
      ⟨fun _ _ _ same => (by cases same), fun _ same => by cases same⟩⟩,
    trivial, proper_node (by simp) (by simp) (by simp) rfl, trivial, proper_apply first,
    trivial, proper_apply second, trivial, ⟨trivial, trivial, trivial⟩,
    fun id addr rest _ => unlocked_at_owner freeA freeB addr,
    ⟨trivial, trivial, fun p overlooked => ?_⟩, fun id addr rest stands => ?_,
    ⟨trivial, trivial, fun p overlooked => ?_⟩, trivial⟩
  · cases removing.symm.trans stands
    exact ⟨unlocked, looked⟩
  · cases sending.symm.trans stands
    exact due
  · cases same
    cases collected.symm.trans stands
    exact ⟨rfl, room⟩
  · cases passed.symm.trans overlooked
    exact buried_of_lacks missing quiet
  · cases ended.symm.trans stands
  · cases none.symm.trans overlooked

theorem reachable_during (fetched : Bool) :
    Reachable Fleet.sample sampleCall some Proper sampleStart (during fetched 11) :=
  (Reachable.new.run (allowed_before fetched)).run (allowed_deletes fetched)

theorem quiet_of_still {s : ReadRepair} (tasks : s.tasks.length = 0)
    (a : (s.nodes "a").waiting = [] ∧ (s.nodes "a").outbox = [] ∧ (s.nodes "a").deleting = [])
    (b : (s.nodes "b").waiting = [] ∧ (s.nodes "b").outbox = [] ∧ (s.nodes "b").deleting = []) :
    s.Quiet {"a", "b"} := by
  have both : ∀ p ∈ ({"a", "b"} : Set String), (s.nodes p).waiting = [] ∧
      (s.nodes p).outbox = [] ∧ (s.nodes p).deleting = [] := by
    intro p mem
    rcases mem with rfl | rfl
    · exact a
    · exact b
  exact ⟨List.length_eq_zero_iff.mp tasks, fun p mem => (both p mem).1,
    fun p mem => (both p mem).2.1, fun p mem => (both p mem).2.2⟩

/-- The repair fetches the entry only after the delete, and finds nothing. -/
theorem deleted_stays_deleted_lateFetch :
    let s := (during false 11).run Fleet.sample sampleCall some [.fetch 0]
    s.phase = some (.answered .deleted) ∧
      ∀ q ∈ ({"a", "b"} : Set String), (s.nodes q).index.Lacks "id" := by
  have answered : ((during false 11).run Fleet.sample sampleCall some [.fetch 0]).phase =
      some (.answered .deleted) := by
    decide +kernel
  refine ⟨answered, deleted_stays_deleted connected_sample sampleStart_reachable
    (((reachable_during false).mono fun _ _ proper => ⟨proper.1, proper.2.2⟩).run
      ⟨fun p addr uuid _ => ?_, ⟨trivial, trivial⟩, trivial⟩) answered (quiet_of_still ?_ ?_ ?_)⟩
  · exact unlocked_at_owner (by decide +kernel) (by decide +kernel) addr
  · decide +kernel
  · decide +kernel
  · decide +kernel

/-- The repair has fetched the entry before the delete, and puts its copy into
the channel of `a` after the delete was answered. -/
theorem repair_restores_deleted :
    let s := (during true 11).run Fleet.sample sampleCall some copies
    Deletion.Connected Fleet.sample sampleCall (ClusterState.sample "b" ∅) {"a", "b"} ∧
      (∀ p, Node.Reachable (Fleet.sample.config p) (fun _ _ => True) (sampleStart p)) ∧
      Reachable Fleet.sample sampleCall some (fun s e => s.Healthy e ∧ s.NotAgain sampleCall e)
        sampleStart s ∧
      s.phase = some (.answered .deleted) ∧ s.Quiet {"a", "b"} ∧
      ¬ (s.nodes "a").index.Lacks "id" := by
  have sound : Reachable Fleet.sample sampleCall some
      (fun s e => s.Healthy e ∧ s.NotAgain sampleCall e) sampleStart (during true 11) :=
    (reachable_during true).mono fun _ _ proper => ⟨proper.1, proper.2.1⟩
  have collected : (((during true 11).run Fleet.sample sampleCall some (copies.take 2)).nodes
      "a").phase = .collected [⟨"id", [0x3F800000#32], "r", "q", "m", 0, 0, false, none⟩] false := by
    decide +kernel
  have still : ∀ {n : Node} {a : Action}, (∀ outcome, a ≠ .write outcome) → n.WritesBatch a :=
    fun other _ _ outcome _ same => absurd same (other outcome)
  refine ⟨connected_sample, sampleStart_reachable, sound.run ⟨trivial, ⟨trivial, trivial⟩,
    ⟨by decide, by decide⟩, ⟨⟨rfl, still (by simp)⟩, trivial⟩, trivial,
    ⟨⟨rfl, fun batch compact outcome stands same => ?_⟩, trivial⟩, trivial,
    ⟨⟨rfl, still (by simp)⟩, trivial⟩, trivial, ⟨⟨rfl, still (by simp)⟩, trivial⟩, trivial,
    ⟨⟨rfl, still (by simp)⟩, trivial⟩, trivial⟩, by decide +kernel, quiet_of_still ?_ ?_ ?_, ?_⟩
  · cases same
    cases collected.symm.trans stands
    exact ⟨rfl, by decide +kernel⟩
  · decide +kernel
  · decide +kernel
  · decide +kernel
  · decide +kernel

end Example

end ReadRepair

end Ferrocache
