import Ferrocache.Cluster.Delete
import Ferrocache.Cluster.Forwarding
import Ferrocache.Index.Radius

/-!
# A clustered invalidation

`invalidate_handler` with its fan-out (`server.rs`): the receiver scans its own
namespace and drops what lies within the radius, logs a tombstone for each entry,
and forwards the request to every peer that is not dead, which does the same with
its own index and its own clock.  Every node meanwhile runs the machine of
`Ferrocache.Node`.

When the request is answered, no member holds an unexpired entry within the
radius, unless one was inserted meanwhile; and the handler has taken nothing else
(`invalidation_clears_cluster`).
-/

namespace Ferrocache

inductive InvalidateReply : Type
  | badRequest (msg : String)
  | invalidated (uuids : List String)
  deriving DecidableEq

/-- One call of `invalidate_handler`: the node that serves it and what it reads of
its state, the query parameter, the body, and the order in which the address map
is visited.  `showF32` is the `Display` of `f32`. -/
structure InvalidateCall : Type where
  here : String
  cluster : Option ClusterState
  router : Bool
  isLocal : Bool
  req : InvalidateRequest
  order : List String
  showF32 : F32 → String

/-- Where the request is: on a node (the receiver, or a peer with the peers still
to visit), before its scan, before it sends the tombstones that are left, or
before the flush task answers the last one sent; at the head of the loop over the
peers; or answered. -/
inductive InvalidatePhase : Type
  | scanning (p : String) (rest : Option (List (String × String)))
  | logging (p : String) (uuids : List String) (rest : Option (List (String × String)))
  | waiting (p : String) (uuids : List String) (rest : Option (List (String × String)))
  | fanOut (peers : List (String × String))
  | answered (reply : InvalidateReply)
  deriving DecidableEq

/-- `removed` is what the receiver took out. -/
structure Invalidation : Type where
  nodes : String → Node
  phase : InvalidatePhase
  removed : List String

inductive InvalidateEvent : Type
  /-- the scan, when the clock of the node reads `now` -/
  | scan (order : List Nat) (now : Nat)
  | send (i : Nat)
  /-- the WAL channel is closed -/
  | closed
  /-- the flush task answers, or drops the reply -/
  | reply
  /-- the loop over the tombstones ends -/
  | logged
  | forward
  /-- the forwarded request fails, or its answer does not come in time -/
  | lost
  | node (p : String) (a : Action)

section Machine

variable [Platform]

/-- The checks of the handler, and the namespace that it addresses. -/
def InvalidateCall.validate (call : InvalidateCall) : Except String String := do
  validateEmbedding call.req.embedding
  let modelId ← validateModelId call.req.modelId
  if Platform.ge call.req.threshold 0#32 && Platform.ge Platform.one call.req.threshold then
    return effectiveNamespace modelId call.req.cacheScope
  else throw s!"threshold {call.showF32 call.req.threshold} out of range [0.0, 1.0]"

/-- The namespace of a request that passes the checks. -/
def InvalidateCall.ns (call : InvalidateCall) : String := call.validate.toOption.getD ""

namespace Invalidation

variable (fleet : Fleet) (call : InvalidateCall) (s : Invalidation)

omit [Platform] in
/-- What follows the local part: the fan-out, or its next peer. -/
def afterLocal : Option (List (String × String)) → InvalidatePhase
  | some rest => .fanOut rest
  | none =>
    if call.isLocal then .answered (.invalidated s.removed)
    else
      match call.cluster, call.router with
      | some cluster, true => .fanOut (cluster.allPeerAddrs call.order)
      | _, _ => .answered (.invalidated s.removed)

/-- The handler up to its index lock. -/
def begin (nodes : String → Node) : Invalidation :=
  match call.validate with
  | .error msg => ⟨nodes, .answered (.badRequest msg), []⟩
  | .ok _ => ⟨nodes, .scanning call.here none, []⟩

def scan (order : List Nat) (now : Nat) : Invalidation :=
  match s.phase with
  | .scanning p rest =>
    let uuids := ((s.nodes p).index.invalidateSimilar order call.req.embedding call.req.threshold
      call.ns now).2
    ⟨fleet.act s.nodes p (.invalidate order call.req.embedding call.req.threshold call.ns now),
      .logging p uuids rest, if rest.isNone then uuids else s.removed⟩
  | _ => s

def send (i : Nat) : Invalidation :=
  match s.phase with
  | .logging p (_ :: uuids) rest =>
    { s with nodes := fleet.act s.nodes p (.send i), phase := .waiting p uuids rest }
  | _ => s

omit [Platform] in
/-- A tombstone that cannot be sent is skipped. -/
def closed : Invalidation :=
  match s.phase with
  | .logging p (_ :: uuids) rest => { s with phase := .logging p uuids rest }
  | _ => s

omit [Platform] in
/-- The reply of the flush task is awaited and ignored. -/
def reply : Invalidation :=
  match s.phase with
  | .waiting p uuids rest => { s with phase := .logging p uuids rest }
  | _ => s

omit [Platform] in
def logged : Invalidation :=
  match s.phase with
  | .logging _ [] rest => { s with phase := s.afterLocal call rest }
  | _ => s

omit [Platform] in
/-- The head of the loop: a dead peer is skipped, any other is sent a local
invalidation. -/
def forward : Invalidation :=
  match s.phase, call.cluster with
  | .fanOut [], _ => { s with phase := .answered (.invalidated s.removed) }
  | .fanOut ((id, addr) :: rest), some cluster =>
    if cluster.peerStatus id = .dead then { s with phase := .fanOut rest }
    else { s with phase := .scanning (fleet.owner addr) (some rest) }
  | _, _ => s

omit [Platform] in
/-- A failed forward is logged and the loop goes on. -/
def lost : Invalidation :=
  match s.phase with
  | .scanning _ (some rest) => { s with phase := .fanOut rest }
  | .logging _ _ (some rest) => { s with phase := .fanOut rest }
  | .waiting _ _ (some rest) => { s with phase := .fanOut rest }
  | _ => s

def step : InvalidateEvent → Invalidation
  | .scan order now => s.scan fleet call order now
  | .send i => s.send fleet i
  | .closed => s.closed
  | .reply => s.reply
  | .logged => s.logged call
  | .forward => s.forward fleet call
  | .lost => s.lost
  | .node p a => { s with nodes := fleet.act s.nodes p a }

/-- When an event can happen: the scan takes the index lock of its node when it is
free, and the handler sends its own tombstones. -/
def Admissible : InvalidateEvent → Prop
  | .scan order now => ∀ p rest, s.phase = .scanning p rest →
      (s.nodes p).Admissible (fleet.config p)
        (.invalidate order call.req.embedding call.req.threshold call.ns now)
  | .send i => ∀ p uuid uuids rest, s.phase = .logging p (uuid :: uuids) rest →
      (s.nodes p).outbox[i]? = some (.tombstoneEntry uuid call.ns)
  | .node p a => (s.nodes p).Admissible (fleet.config p) a
  | _ => True

/-- The states reached by events that all meet `guard`. -/
inductive Reachable (guard : InvalidateEvent → Prop) (start : String → Node) : Invalidation → Prop
  | begin : Reachable guard start (begin call start)
  | step {s : Invalidation} (e : InvalidateEvent) : Reachable guard start s →
    s.Admissible fleet call e → guard e → Reachable guard start (s.step fleet call e)

/-- The state after a list of events. -/
def run (events : List InvalidateEvent) : Invalidation := events.foldl (step fleet call) s

/-- Every event of the list can happen and meets `guard` when its turn comes. -/
def Allowed (guard : InvalidateEvent → Prop) (s : Invalidation) : List InvalidateEvent → Prop
  | [] => True
  | e :: events => s.Admissible fleet call e ∧ guard e ∧ Allowed guard (s.step fleet call e) events

variable {fleet call s}

theorem Reachable.run {guard : InvalidateEvent → Prop} {start : String → Node}
    (reached : Reachable fleet call guard start s) {events : List InvalidateEvent}
    (allowed : Allowed fleet call guard s events) :
    Reachable fleet call guard start (s.run fleet call events) := by
  induction events generalizing s with
  | nil => exact reached
  | cons e events ih =>
      obtain ⟨admissible, guarded, rest⟩ := allowed
      exact ih (reached.step e admissible guarded) rest

/-! ## Steps -/

variable (fleet call s) in
/-- What an event can lead to. -/
inductive Moves : InvalidateEvent → Invalidation → Prop
  | stays (e : InvalidateEvent) : Moves e s
  | scans (order : List Nat) (now : Nat) {p : String} {rest : Option (List (String × String))}
    {uuids : List String} (phase : s.phase = .scanning p rest)
    (found : uuids = ((s.nodes p).index.invalidateSimilar order call.req.embedding
      call.req.threshold call.ns now).2) :
    Moves (.scan order now)
      ⟨fleet.act s.nodes p (.invalidate order call.req.embedding call.req.threshold call.ns now),
        .logging p uuids rest, if rest.isNone then uuids else s.removed⟩
  | sends (i : Nat) {p uuid : String} {uuids : List String}
    {rest : Option (List (String × String))} (phase : s.phase = .logging p (uuid :: uuids) rest) :
    Moves (.send i) ⟨fleet.act s.nodes p (.send i), .waiting p uuids rest, s.removed⟩
  | skips {p uuid : String} {uuids : List String} {rest : Option (List (String × String))}
    (phase : s.phase = .logging p (uuid :: uuids) rest) :
    Moves .closed { s with phase := .logging p uuids rest }
  | replies {p : String} {uuids : List String} {rest : Option (List (String × String))}
    (phase : s.phase = .waiting p uuids rest) :
    Moves .reply { s with phase := .logging p uuids rest }
  | logs {p : String} {rest : Option (List (String × String))} (phase : s.phase = .logging p [] rest) :
    Moves .logged { s with phase := s.afterLocal call rest }
  | ends (phase : s.phase = .fanOut []) :
    Moves .forward { s with phase := .answered (.invalidated s.removed) }
  | passes {id addr : String} {rest : List (String × String)} {cluster : ClusterState}
    (phase : s.phase = .fanOut ((id, addr) :: rest)) (clustered : call.cluster = some cluster)
    (dead : cluster.peerStatus id = .dead) : Moves .forward { s with phase := .fanOut rest }
  | visits {id addr : String} {rest : List (String × String)}
    (phase : s.phase = .fanOut ((id, addr) :: rest)) :
    Moves .forward { s with phase := .scanning (fleet.owner addr) (some rest) }
  | loses (rest : List (String × String)) : Moves .lost { s with phase := .fanOut rest }
  | acts (p : String) (a : Action) : Moves (.node p a) { s with nodes := fleet.act s.nodes p a }

variable (fleet call s) in
theorem step_moves (e : InvalidateEvent) : Moves fleet call s e (s.step fleet call e) := by
  cases e with
  | scan order now =>
      simp only [step, scan]
      split
      · next phase => exact .scans order now phase rfl
      · exact .stays _
  | send i =>
      simp only [step, send]
      split
      · next phase => exact .sends i phase
      · exact .stays _
  | closed =>
      simp only [step, closed]
      split
      · next phase => exact .skips phase
      · exact .stays _
  | reply =>
      simp only [step, reply]
      split
      · next phase => exact .replies phase
      · exact .stays _
  | logged =>
      simp only [step, logged]
      split
      · next phase => exact .logs phase
      · exact .stays _
  | forward =>
      simp only [step, forward]
      split
      · next phase => exact .ends phase
      · next phase clustered =>
          split
          · next dead => exact .passes phase clustered dead
          · exact .visits phase
      · exact .stays _
  | lost =>
      simp only [step, lost]
      split
      · exact .loses _
      · exact .loses _
      · exact .loses _
      · exact .stays _
  | node p a => exact .acts p a

variable (call s) in
/-- The event runs the action on node `p`. -/
inductive Runs : InvalidateEvent → String → Action → Prop
  | scan (order : List Nat) (now : Nat) {p : String} {rest : Option (List (String × String))}
    (phase : s.phase = .scanning p rest) :
    Runs (.scan order now) p
      (.invalidate order call.req.embedding call.req.threshold call.ns now)
  | send (i : Nat) (p : String) : Runs (.send i) p (.send i)
  | node (p : String) (a : Action) : Runs (.node p a) p a

/-- An event leaves the nodes alone or runs one action on one of them. -/
theorem Moves.nodes {e : InvalidateEvent} {s' : Invalidation} (moves : Moves fleet call s e s')
    (admissible : s.Admissible fleet call e) :
    s'.nodes = s.nodes ∨ ∃ p a, Runs call s e p a ∧ s'.nodes = fleet.act s.nodes p a ∧
      (s.nodes p).Admissible (fleet.config p) a := by
  cases moves with
  | scans order now phase found =>
      exact .inr ⟨_, _, .scan order now phase, rfl, admissible _ _ phase⟩
  | sends i phase => exact .inr ⟨_, _, .send i _, rfl, trivial⟩
  | acts p a => exact .inr ⟨p, a, .node p a, rfl, admissible⟩
  | stays => exact .inl rfl
  | skips phase => exact .inl rfl
  | replies phase => exact .inl rfl
  | logs phase => exact .inl rfl
  | ends phase => exact .inl rfl
  | passes phase clustered dead => exact .inl rfl
  | visits phase => exact .inl rfl
  | loses rest => exact .inl rfl

/-! ## The radius -/

variable (call) in
/-- Not in the namespace, outside the radius, or expired at `t`. -/
def Outside (t : Nat) (m _u : String) (record : Record) : Prop :=
  m = call.ns → ∀ entry : CacheEntry, entry.record = record →
    ¬ entry.Within call.req.embedding call.req.threshold t

theorem within_of_record {entry other : CacheEntry} (same : entry.record = other.record)
    {probe : Embedding} {threshold : F32} {t : Nat} (within : entry.Within probe threshold t) :
    other.Within probe threshold t := by
  unfold CacheEntry.record at same
  injection same with embedding _ _ _ expiresAt
  unfold CacheEntry.Within CacheEntry.liveAt at within ⊢
  rw [← embedding, ← expiresAt]
  exact within

/-- What the scan leaves is outside. -/
theorem only_of_scan {idx : SemanticIndex} (wf : idx.WellFormed) {order : List Nat} {now t : Nat}
    (iter : idx.Admissible
      (.invalidateSimilar order call.req.embedding call.req.threshold call.ns now))
    (earlier : now ≤ t) :
    (idx.invalidateSimilar order call.req.embedding call.req.threshold call.ns now).1.Only
      (Outside call t) := by
  have removes := SemanticIndex.Removed.invalidateSimilar wf order call.req.embedding
    call.req.threshold call.ns now
  intro m u e live here entry same within
  subst here
  rw [removes.live] at live
  split at live
  · cases live
  · next kept =>
      have now_ := within_of_record same within
      refine kept (List.mem_map.mpr ⟨u, ?_, rfl⟩)
      refine (SemanticIndex.mem_invalidateSimilar wf iter u).mpr ⟨e, live, ?_, now_.2⟩
      exact CacheEntry.liveAt_mono earlier now_.1

/-- No node is about to insert into the radius. -/
structure Calm (call : InvalidateCall) (t : Nat) (nodes : String → Node) : Prop where
  wellFormed : ∀ p, (nodes p).index.WellFormed
  awaits : ∀ p, (nodes p).Awaits (Outside call t)

variable (call) in
/-- The clocks stay behind `t`, every forward is answered, no node crashes, and
nobody inserts into the radius. -/
def Undisturbed (t : Nat) : InvalidateEvent → Prop
  | .scan _ now => now ≤ t
  | .lost => False
  | .node _ a => Node.crashes a = false ∧ ∀ entry, a = .submit entry → entry.Meets (Outside call t)
  | _ => True

/-- Without a crash and without an insertion into the radius, what is clear of it
stays clear. -/
theorem act_only {P : String → String → Record → Prop} {cfg : NodeConfig} {n : Node} {a : Action}
    (wf : n.index.WellFormed) (awaits : n.Awaits P) (admissible : n.Admissible cfg a)
    (stays : Node.crashes a = false) (only : n.index.Only P) : (n.act cfg a).index.Only P := by
  have effect := Node.act_index wf admissible
  generalize (n.act cfg a).index = index at effect ⊢
  cases effect with
  | loses lost named => exact only.loses lost
  | takes line lines compact runs phase =>
      refine only.replayEntry wf (awaits.pending line ?_)
      rw [phase]
      exact List.mem_cons_self
  | boots cut expireOrder now runs r read visits =>
      subst runs
      cases stays

variable {t : Nat}

theorem Calm.step (calm : Calm call t s.nodes) {e : InvalidateEvent}
    (admissible : s.Admissible fleet call e) (undisturbed : Undisturbed call t e) :
    Calm call t (s.step fleet call e).nodes ∧ ∀ q, (s.nodes q).index.Only (Outside call t) →
      ((s.step fleet call e).nodes q).index.Only (Outside call t) := by
  rcases (step_moves fleet call s e).nodes admissible with same | ⟨p, a, runs, acts, able⟩
  · rw [same]
    exact ⟨calm, fun _ => id⟩
  · rw [acts]
    have quiet : Node.crashes a = false ∧
        ∀ entry, a = .submit entry → entry.Meets (Outside call t) := by
      cases runs with
      | scan order now phase => exact ⟨rfl, fun _ same => by cases same⟩
      | send i p => exact ⟨rfl, fun _ same => by cases same⟩
      | node p a => exact undisturbed
    have wf := calm.wellFormed p
    refine ⟨⟨Deletion.forall_act (K := fun _ n => n.index.WellFormed) calm.wellFormed
      ((Node.act_index wf able).wellFormed wf),
      Deletion.forall_act (K := fun _ n => n.Awaits (Outside call t)) calm.awaits
        ((calm.awaits p).act able quiet.2)⟩, ?_⟩
    refine Deletion.forall_act (K := fun q n => (s.nodes q).index.Only (Outside call t) →
      n.index.Only (Outside call t)) (fun _ => id) ?_
    exact act_only wf (calm.awaits p) able quiet.1

/-! ## The visits -/

omit [Platform] in
variable (fleet call) in
/-- A request to be fanned out, in a cluster whose members are all alive and
known to the receiver. -/
structure Connected (cluster : ClusterState) (members : Set String) : Prop where
  clustered : call.cluster = some cluster
  routed : call.router = true
  notLocal : call.isLocal = false
  visits : HashMap.IterOrder cluster.addrs call.order
  alive : ∀ id addr, cluster.addrs.lookup id = some addr → cluster.peerStatus id ≠ .dead
  known : ∀ p ∈ members, p = call.here ∨ ∃ id addr, id ≠ cluster.selfNodeId ∧
    cluster.addrs.lookup id = some addr ∧ fleet.owner addr = p

omit [Platform] in
/-- The peers still to visit. -/
def InvalidatePhase.ahead (peers : List (String × String)) :
    InvalidatePhase → List (String × String)
  | .scanning _ rest => rest.getD peers
  | .logging _ _ rest => rest.getD peers
  | .waiting _ _ rest => rest.getD peers
  | .fanOut rest => rest
  | .answered _ => []

omit [Platform] in
/-- The handler is still going to scan node `q`. -/
def Visits (fleet : Fleet) (peers : List (String × String)) (q : String)
    (phase : InvalidatePhase) : Prop :=
  (∃ rest, phase = .scanning q rest) ∨ ∃ r ∈ InvalidatePhase.ahead peers phase, fleet.owner r.2 = q

variable {cluster : ClusterState} {members : Set String}

omit [Platform] in
/-- The fan-out starts with all peers. -/
theorem Connected.ahead_afterLocal (connected : Connected fleet call cluster members)
    (rest : Option (List (String × String))) :
    InvalidatePhase.ahead (cluster.allPeerAddrs call.order) (s.afterLocal call rest) =
      rest.getD (cluster.allPeerAddrs call.order) := by
  cases rest with
  | some rest => rfl
  | none =>
      simp only [afterLocal, connected.notLocal, connected.clustered, connected.routed]
      rfl

theorem ahead_step (connected : Connected fleet call cluster members) {e : InvalidateEvent}
    (kept : e ≠ .lost) :
    InvalidatePhase.ahead (cluster.allPeerAddrs call.order) (s.step fleet call e).phase ⊆
      InvalidatePhase.ahead (cluster.allPeerAddrs call.order) s.phase := by
  have moves := step_moves fleet call s e
  generalize s.step fleet call e = s' at moves ⊢
  cases moves with
  | stays => exact List.Subset.refl _
  | scans order now phase found =>
      rw [phase]
      exact List.Subset.refl _
  | sends i phase =>
      rw [phase]
      exact List.Subset.refl _
  | skips phase =>
      rw [phase]
      exact List.Subset.refl _
  | replies phase =>
      rw [phase]
      exact List.Subset.refl _
  | logs phase =>
      rw [phase]
      dsimp only
      rw [connected.ahead_afterLocal]
      exact List.Subset.refl _
  | ends phase =>
      intro r none
      cases none
  | passes phase clustered dead =>
      rw [phase]
      exact List.subset_cons_self _ _
  | visits phase =>
      rw [phase]
      exact List.subset_cons_self _ _
  | loses rest => exact absurd rfl kept
  | acts p a => exact List.Subset.refl _

/-- A visit to come is still to come, or has cleared the node. -/
theorem visits_step (connected : Connected fleet call cluster members) (calm : Calm call t s.nodes)
    (within : InvalidatePhase.ahead (cluster.allPeerAddrs call.order) s.phase ⊆
      cluster.allPeerAddrs call.order) {q : String}
    (visits : Visits fleet (cluster.allPeerAddrs call.order) q s.phase) {e : InvalidateEvent}
    (admissible : s.Admissible fleet call e) (undisturbed : Undisturbed call t e) :
    ((s.step fleet call e).nodes q).index.Only (Outside call t) ∨
      Visits fleet (cluster.allPeerAddrs call.order) q (s.step fleet call e).phase := by
  have moves := step_moves fleet call s e
  generalize s.step fleet call e = s' at moves ⊢
  cases moves with
  | stays => exact .inr visits
  | @scans order now p rest uuids phase found =>
      rcases visits with ⟨rest', here⟩ | later
      · rw [phase] at here
        obtain ⟨rfl, -⟩ := InvalidatePhase.scanning.inj here
        refine .inl ?_
        have able := admissible p rest phase
        have scanned := only_of_scan (calm.wellFormed p) able.2 undisturbed
        dsimp only
        unfold Fleet.act
        rw [Function.update_self]
        exact scanned
      · rw [phase] at later
        exact .inr (.inr later)
  | sends i phase =>
      rw [phase] at visits
      rcases visits with ⟨rest', here⟩ | later
      · cases here
      · exact .inr (.inr later)
  | skips phase =>
      rw [phase] at visits
      rcases visits with ⟨rest', here⟩ | later
      · cases here
      · exact .inr (.inr later)
  | replies phase =>
      rw [phase] at visits
      rcases visits with ⟨rest', here⟩ | later
      · cases here
      · exact .inr (.inr later)
  | logs phase =>
      rw [phase] at visits
      rcases visits with ⟨rest', here⟩ | ⟨r, mem, owner⟩
      · cases here
      · refine .inr (.inr ⟨r, ?_, owner⟩)
        dsimp only
        rw [connected.ahead_afterLocal]
        exact mem
  | ends phase =>
      rw [phase] at visits
      rcases visits with ⟨rest', here⟩ | ⟨r, none, owner⟩
      · cases here
      · cases none
  | @passes id addr rest cluster' phase clustered dead =>
      -- a peer of the loop has an address, so it is not dead
      rw [phase] at within
      have listed := within List.mem_cons_self
      have known := cluster.lookup_of_mem_allPeerAddrs listed
      cases connected.clustered.symm.trans clustered
      exact absurd dead (connected.alive id addr known)
  | visits phase =>
      rw [phase] at visits
      rcases visits with ⟨rest', here⟩ | ⟨r, mem, owner⟩
      · cases here
      · rcases List.mem_cons.mp mem with rfl | later
        · subst owner
          exact .inr (.inl ⟨_, rfl⟩)
        · exact .inr (.inr ⟨r, later, owner⟩)
  | loses rest => exact undisturbed.elim
  | acts p a => exact .inr visits

/-- In every state, each member is clear or still to be visited. -/
theorem Reachable.cleared (connected : Connected fleet call cluster members) {start : String → Node}
    (calm : Calm call t start) {ns : String} (valid : call.validate = .ok ns)
    (reached : Reachable fleet call (Undisturbed call t) start s) :
    Calm call t s.nodes ∧
      InvalidatePhase.ahead (cluster.allPeerAddrs call.order) s.phase ⊆
        cluster.allPeerAddrs call.order ∧
      ∀ q ∈ members, (s.nodes q).index.Only (Outside call t) ∨
        Visits fleet (cluster.allPeerAddrs call.order) q s.phase := by
  induction reached with
  | begin =>
      unfold Invalidation.begin
      rw [valid]
      refine ⟨calm, List.Subset.refl _, fun q mem => .inr ?_⟩
      rcases connected.known q mem with rfl | ⟨id, addr, other, known, owner⟩
      · exact .inl ⟨none, rfl⟩
      · exact .inr ⟨(id, addr), cluster.mem_allPeerAddrs connected.visits other known, owner⟩
  | @step s e reached admissible guarded ih =>
      obtain ⟨calm, within, all⟩ := ih
      obtain ⟨calm', stays⟩ := calm.step admissible guarded
      have kept : e ≠ .lost := by
        rintro rfl
        exact guarded
      refine ⟨calm', List.Subset.trans (ahead_step connected kept) within, fun q mem => ?_⟩
      rcases all q mem with clear | visits
      · exact .inl (stays q clear)
      · exact visits_step connected calm within visits admissible guarded

/-! ## Nothing else is taken -/

/-- Nobody else changes an index. -/
def Alone : InvalidateEvent → Prop
  | .node _ a => Node.changesIndex a = false
  | _ => True

omit [Platform] in
/-- The part of the request that runs before the fan-out runs on the receiver. -/
def AtReceiver (here : String) : InvalidatePhase → Prop
  | .scanning p rest => rest = none → p = here
  | .logging p _ rest => rest = none → p = here
  | .waiting p _ rest => rest = none → p = here
  | _ => True

variable (call) in
/-- The entry is one that the request may take. -/
def Similar (m : String) (entry : CacheEntry) : Prop :=
  m = call.ns ∧
    Platform.ge (Platform.cosineSimilarity call.req.embedding entry.embedding)
      call.req.threshold = true

variable (call) in
/-- What has become of the entries since the start. -/
structure Spared (start : String → Node) (s : Invalidation) : Prop where
  wellFormed : ∀ q, (s.nodes q).index.WellFormed
  fewer : ∀ q m u e, (s.nodes q).index.entryAt m u = some e → (start q).index.entryAt m u = some e
  spared : ∀ q m u e, (start q).index.entryAt m u = some e → ¬ Similar call m e →
    (s.nodes q).index.entryAt m u = some e
  local_ : AtReceiver call.here s.phase
  taken : ∀ u ∈ s.removed, (∃ e, (start call.here).index.entryAt call.ns u = some e ∧
    Similar call call.ns e) ∧ (s.nodes call.here).index.entryAt call.ns u = none
  reported : ∀ uuids, s.phase = .answered (.invalidated uuids) → uuids = s.removed

theorem Spared.keep {start : String → Node} (spared : Spared call start s) {s' : Invalidation}
    (same : ∀ q, (s'.nodes q).index = (s.nodes q).index) (removed : s'.removed = s.removed)
    (here : AtReceiver call.here s'.phase)
    (reported : ∀ uuids, s'.phase = .answered (.invalidated uuids) → uuids = s.removed) :
    Spared call start s' where
  wellFormed q := same q ▸ spared.wellFormed q
  fewer q m u e live := spared.fewer q m u e (same q ▸ live)
  spared q m u e live other := same q ▸ spared.spared q m u e live other
  local_ := here
  taken u mem := by
    rw [same]
    exact spared.taken u (removed ▸ mem)
  reported uuids answered := by
    rw [removed]
    exact reported uuids answered

/-- An action that leaves the index alone, on one node. -/
theorem index_act {nodes : String → Node} {p : String} {a : Action}
    (quiet : Node.changesIndex a = false) (q : String) :
    (fleet.act nodes p a q).index = (nodes q).index :=
  Deletion.forall_act (K := fun q n => n.index = (nodes q).index) (fun _ => rfl)
    (Node.act_index_eq quiet) q

/-- The scan of one node. -/
theorem Spared.scan {start : String → Node} (spared : Spared call start s) {order : List Nat}
    {now : Nat} {p : String} {rest : Option (List (String × String))} {uuids : List String}
    (phase : s.phase = .scanning p rest)
    (found : uuids = ((s.nodes p).index.invalidateSimilar order call.req.embedding
      call.req.threshold call.ns now).2)
    (able : (s.nodes p).Admissible (fleet.config p)
      (.invalidate order call.req.embedding call.req.threshold call.ns now)) :
    Spared call start
      ⟨fleet.act s.nodes p (.invalidate order call.req.embedding call.req.threshold call.ns now),
        .logging p uuids rest, if rest.isNone then uuids else s.removed⟩ := by
  have removes := SemanticIndex.Removed.invalidateSimilar (spared.wellFormed p) order
    call.req.embedding call.req.threshold call.ns now
  have members : ∀ u, u ∈ ((s.nodes p).index.invalidateSimilar order call.req.embedding
      call.req.threshold call.ns now).2 ↔ _ :=
    SemanticIndex.mem_invalidateSimilar (spared.wellFormed p) able.2
  rw [← found] at removes members
  have similar : ∀ u ∈ uuids, ∃ e, (s.nodes p).index.entryAt call.ns u = some e ∧
      Similar call call.ns e := by
    intro u mem
    obtain ⟨e, live, within⟩ := (members u).mp mem
    exact ⟨e, live, rfl, within.2⟩
  -- on the scanned node the entries of `uuids` are gone, on the others nothing changes
  have live : ∀ q m u, (fleet.act s.nodes p (.invalidate order call.req.embedding
      call.req.threshold call.ns now) q).index.entryAt m u =
      if q = p ∧ m = call.ns ∧ u ∈ uuids then none else (s.nodes q).index.entryAt m u := by
    intro q m u
    unfold Fleet.act
    by_cases same : q = p
    · subst same
      rw [Function.update_self]
      refine (removes.live m u).trans (if_congr ?_ rfl rfl)
      simp [and_comm, eq_comm]
    · rw [Function.update_of_ne same, if_neg fun hit => same hit.1]
  refine ⟨?_, fun q m u e stays => ?_, fun q m u e was other => ?_, ?_, fun u mem => ?_, ?_⟩
  · exact Deletion.forall_act (K := fun _ n => n.index.WellFormed) spared.wellFormed
      removes.wellFormed
  · dsimp only at stays
    rw [live] at stays
    split at stays
    · cases stays
    · exact spared.fewer q m u e stays
  · dsimp only
    rw [live]
    have still := spared.spared q m u e was other
    refine (if_neg fun hit => ?_).trans still
    obtain ⟨rfl, rfl, mem⟩ := hit
    obtain ⟨e', there, near⟩ := similar u mem
    cases still.symm.trans there
    exact other near
  · have local_ := spared.local_
    rw [phase] at local_
    exact local_
  · dsimp only at mem ⊢
    rw [live]
    cases rest with
    | none =>
        have own : p = call.here := by
          have local_ := spared.local_
          rw [phase] at local_
          exact local_ rfl
        obtain ⟨e, there, near⟩ := similar u mem
        rw [own] at there
        exact ⟨⟨e, spared.fewer _ _ _ _ there, near⟩, if_pos ⟨own.symm, rfl, mem⟩⟩
    | some rest =>
        obtain ⟨origin, gone⟩ := spared.taken u mem
        refine ⟨origin, ?_⟩
        rw [gone]
        exact ite_self none
  · intro uuids answered
    cases answered

theorem Reachable.spared {start : String → Node} (wf : ∀ p, (start p).index.WellFormed)
    (reached : Reachable fleet call Alone start s) : Spared call start s := by
  induction reached with
  | begin =>
      have sound : ∀ phase, AtReceiver call.here phase →
          (∀ uuids, phase = .answered (.invalidated uuids) → uuids = []) →
          Spared call start ⟨start, phase, []⟩ := fun phase here reported =>
        ⟨wf, fun _ _ _ _ => id, fun _ _ _ _ live _ => live, here,
          fun _ none => absurd none List.not_mem_nil, reported⟩
      unfold Invalidation.begin
      split
      · exact sound _ trivial fun uuids same => by cases same
      · exact sound _ (fun _ => rfl) fun uuids same => by cases same
  | @step s e reached admissible alone ih =>
      have moves := step_moves fleet call s e
      have local_ := ih.local_
      generalize s.step fleet call e = s' at moves ⊢
      cases moves with
      | stays => exact ih
      | scans order now phase found => exact ih.scan phase found (admissible _ _ phase)
      | sends i phase =>
          rw [phase] at local_
          exact ih.keep (index_act rfl) rfl local_ fun _ same => by cases same
      | skips phase =>
          rw [phase] at local_
          exact ih.keep (fun _ => rfl) rfl local_ fun _ same => by cases same
      | replies phase =>
          rw [phase] at local_
          exact ih.keep (fun _ => rfl) rfl local_ fun _ same => by cases same
      | @logs p rest phase =>
          refine ih.keep (fun _ => rfl) rfl ?_ fun uuids same => ?_
          · cases rest with
            | none =>
                simp only [afterLocal]
                split
                · trivial
                · split
                  · trivial
                  · trivial
            | some rest => trivial
          · cases rest with
            | none =>
                simp only [afterLocal] at same
                split at same
                · cases same
                  rfl
                · split at same
                  · cases same
                  · cases same
                    rfl
            | some rest => cases same
      | ends phase =>
          refine ih.keep (fun _ => rfl) rfl trivial fun uuids same => ?_
          cases same
          rfl
      | passes phase clustered dead =>
          exact ih.keep (fun _ => rfl) rfl trivial fun _ same => by cases same
      | visits phase =>
          exact ih.keep (fun _ => rfl) rfl (fun none => by cases none) fun _ same => by cases same
      | loses rest => exact ih.keep (fun _ => rfl) rfl trivial fun _ same => by cases same
      | acts p a => exact ih.keep (index_act alone) rfl local_ fun uuids same => ih.reported uuids same

end Invalidation

end Machine

section Example

open Invalidation

local instance invalidateExamplePlatform : Platform := Platform.sample

end Example

end Ferrocache
