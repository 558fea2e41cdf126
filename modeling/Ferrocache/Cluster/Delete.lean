import Ferrocache.Cluster.State
import Ferrocache.Node.Provenance

/-!
# A clustered delete

`delete_entry_handler` with its fan-out (`server.rs`): the receiver removes the
entry, logs a tombstone, and forwards a local delete to every peer, which runs
the same handler without a fan-out.  Every node meanwhile runs the machine of
`Ferrocache.Node`.

`Moves` says what an event can lead to.  As long as nobody inserts the UUID and
no node crashes, it can only fade from a node.
-/

namespace Ferrocache

inductive DeleteReply : Type
  | deleted
  | badRequest (msg : String)
  | notFound (msg : String)
  | internalError (msg : String)
  deriving DecidableEq

/-- One call of `delete_entry_handler`: the node that serves it and what it
reads of its state, the query parameter, the UUID, the order in which the
address map is visited, and the UUID that a peer reads from the path of the
forwarded request (which is not percent-encoded). -/
structure DeleteCall : Type where
  here : String
  cluster : Option ClusterState
  router : Bool
  isLocal : Bool
  uuid : String
  order : List String
  pathUuid : Option String

/-- Where the handler is on one node, after its lookup. -/
inductive DeleteStage : Type
  | remove (modelId : String)
  | log (modelId : String)
  | logged
  deriving DecidableEq

inductive DeletePhase : Type
  /-- on node `p`: the receiver, or a peer with the peers still to visit -/
  | working (p uuid : String) (stage : DeleteStage) (rest : Option (List (String × String)))
  /-- at the head of the loop over the peers -/
  | fanOut (peers : List (String × String))
  | answered (reply : DeleteReply)
  deriving DecidableEq

structure Deletion : Type where
  nodes : String → Node
  phase : DeletePhase

inductive DeleteEvent : Type
  | remove (i : Nat)
  | send (i : Nat)
  /-- the WAL channel is closed -/
  | closed
  /-- the flush task answers, or drops the reply -/
  | reply
  | forward
  | node (p : String) (a : Action)

/-- The checks before the removal. -/
def lookupStage (n : Node) (uuid : String) : Except DeleteReply DeleteStage :=
  if isBlank uuid then .error (.badRequest "uuid is required")
  else
    match n.index.namespaceFor uuid with
    | none => .error (.notFound "entry not found")
    | some modelId => .ok (.remove modelId)

section Machine

variable [Platform]

/-- One action of node `p`. -/
def Fleet.act (fleet : Fleet) (nodes : String → Node) (p : String) (a : Action) : String → Node :=
  Function.update nodes p ((nodes p).act (fleet.config p) a)

namespace Deletion

variable (fleet : Fleet) (call : DeleteCall) (s : Deletion)

omit [Platform] in
/-- What follows the local part: the fan-out, or its next peer. -/
def afterLocal : Option (List (String × String)) → DeletePhase
  | some rest => .fanOut rest
  | none =>
    if call.isLocal then .answered .deleted
    else
      match call.cluster, call.router with
      | some cluster, true => .fanOut (cluster.allPeerAddrs call.order)
      | _, _ => .answered .deleted

/-- The handler up to its lookup, on the receiver. -/
def begin (nodes : String → Node) : Deletion :=
  match lookupStage (nodes call.here) call.uuid with
  | .error reply => ⟨nodes, .answered reply⟩
  | .ok stage =>
    ⟨fleet.act nodes call.here (.lookupDelete call.uuid), .working call.here call.uuid stage none⟩

def remove (i : Nat) : Deletion :=
  match s.phase with
  | .working p uuid (.remove modelId) rest =>
    ⟨fleet.act s.nodes p (.removeDelete i), .working p uuid (.log modelId) rest⟩
  | _ => s

def send (i : Nat) : Deletion :=
  match s.phase with
  | .working p uuid (.log _) rest => ⟨fleet.act s.nodes p (.send i), .working p uuid .logged rest⟩
  | _ => s

omit [Platform] in
def closed : Deletion :=
  match s.phase with
  | .working _ _ (.log _) none => { s with phase := .answered (.internalError "persistence failed") }
  | .working _ _ (.log _) (some rest) => { s with phase := .fanOut rest }
  | _ => s

omit [Platform] in
/-- The reply of the flush task is awaited and ignored. -/
def reply : Deletion :=
  match s.phase with
  | .working _ _ .logged rest => { s with phase := afterLocal call rest }
  | _ => s

/-- The head of the loop: a dead peer is skipped, any other is sent a local
delete; its status is ignored. -/
def forward : Deletion :=
  match s.phase, call.cluster with
  | .fanOut [], _ => { s with phase := .answered .deleted }
  | .fanOut ((id, addr) :: rest), some cluster =>
    if cluster.peerStatus id = .dead then { s with phase := .fanOut rest }
    else
      match call.pathUuid with
      | none => { s with phase := .fanOut rest }
      | some uuid =>
        match lookupStage (s.nodes (fleet.owner addr)) uuid with
        | .error _ => { s with phase := .fanOut rest }
        | .ok stage =>
          ⟨fleet.act s.nodes (fleet.owner addr) (.lookupDelete uuid),
            .working (fleet.owner addr) uuid stage (some rest)⟩
  | _, _ => s

def step : DeleteEvent → Deletion
  | .remove i => s.remove fleet i
  | .send i => s.send fleet i
  | .closed => s.closed
  | .reply => s.reply call
  | .forward => s.forward fleet call
  | .node p a => { s with nodes := fleet.act s.nodes p a }

/-- When an event can happen: the handler takes the index lock of a node when it
is free, and acts for its own entries of the node's tables. -/
def Admissible : DeleteEvent → Prop
  | .remove i => ∀ p uuid modelId rest, s.phase = .working p uuid (.remove modelId) rest →
      (s.nodes p).phase.locked = false ∧ (s.nodes p).deleting[i]? = some (uuid, modelId)
  | .send i => ∀ p uuid modelId rest, s.phase = .working p uuid (.log modelId) rest →
      (s.nodes p).outbox[i]? = some (.tombstoneEntry uuid modelId)
  | .forward => ∀ id addr rest, s.phase = .fanOut ((id, addr) :: rest) →
      (s.nodes (fleet.owner addr)).phase.locked = false
  | .node p a => (s.nodes p).Admissible (fleet.config p) a
  | _ => True

/-- The states reached, by events that all meet `guard`, from the moment when the
receiver looks the UUID up. -/
inductive Reachable (guard : Deletion → DeleteEvent → Prop) (start : String → Node) :
    Deletion → Prop
  | begin : (start call.here).phase.locked = false → Reachable guard start (begin fleet call start)
  | step {s : Deletion} (e : DeleteEvent) : Reachable guard start s → s.Admissible fleet e →
    guard s e → Reachable guard start (s.step fleet call e)

/-- The state after a list of events. -/
def run (events : List DeleteEvent) : Deletion := events.foldl (step fleet call) s

/-- Every event of the list can happen and meets `guard` when its turn comes. -/
def Allowed (guard : Deletion → DeleteEvent → Prop) (s : Deletion) : List DeleteEvent → Prop
  | [] => True
  | e :: events => s.Admissible fleet e ∧ guard s e ∧ Allowed guard (s.step fleet call e) events

variable {fleet call s}

theorem Reachable.run {guard : Deletion → DeleteEvent → Prop} {start : String → Node}
    (reached : Reachable fleet call guard start s) {events : List DeleteEvent}
    (allowed : Allowed fleet call guard s events) :
    Reachable fleet call guard start (s.run fleet call events) := by
  induction events generalizing s with
  | nil => exact reached
  | cons e events ih =>
      obtain ⟨admissible, guarded, rest⟩ := allowed
      exact ih (reached.step e admissible guarded) rest

end Deletion

/-! ## One UUID on one node -/

namespace SemanticIndex

omit [Platform] in
/-- No namespace has the UUID. -/
def Lacks (idx : SemanticIndex) (u : String) : Prop := ∀ m, idx.entryAt m u = none

omit [Platform] in
theorem lacks_iff {idx : SemanticIndex} {u : String} :
    idx.Lacks u ↔ ∀ m ∈ idx.namespaces.keys, idx.entryAt m u = none := by
  refine ⟨fun lacks m _ => lacks m, fun all m => ?_⟩
  by_cases known : m ∈ idx.namespaces
  · exact all m (Finmap.mem_keys.mpr known)
  · unfold entryAt
    rw [Finmap.lookup_eq_none.mpr known]
    rfl

instance (idx : SemanticIndex) (u : String) : Decidable (idx.Lacks u) :=
  decidable_of_iff _ lacks_iff.symm

/-- Removing a UUID that is housed leaves none. -/
theorem HousedAt.lacks {idx idx' : SemanticIndex} {u : String} (housed : idx.HousedAt u)
    (removed : RemovedUuid idx idx' u) : idx'.Lacks u := by
  intro m
  rw [removed.live]
  split
  · rfl
  · next kept => exact not_not.mp fun live => kept ⟨rfl, housed m live⟩

omit [Platform] in
theorem HousedAt.lacks_of_unknown {idx : SemanticIndex} {u : String} (housed : idx.HousedAt u)
    (unknown : idx.namespaceFor u = none) : idx.Lacks u := fun m =>
  not_not.mp fun live => Option.some_ne_none m ((housed m live).symm.trans unknown)

omit [Platform] in
/-- From `idx` to `idx'` the UUID is not inserted, and its directory slot is not
filled. -/
structure Fades (idx idx' : SemanticIndex) (u : String) : Prop where
  lacks : idx.Lacks u → idx'.Lacks u
  housed : idx.HousedAt u → idx'.HousedAt u
  directory : ∀ m, idx'.uuidToNamespace.lookup u = some m → idx.uuidToNamespace.lookup u = some m

namespace Fades

variable {idx idx' : SemanticIndex} {u : String}

omit [Platform] in
theorem refl (idx : SemanticIndex) (u : String) : Fades idx idx u :=
  ⟨id, id, fun _ => id⟩

omit [Platform] in
theorem trans {idx'' : SemanticIndex} (first : Fades idx idx' u) (second : Fades idx' idx'' u) :
    Fades idx idx'' u where
  lacks lacks := second.lacks (first.lacks lacks)
  housed housed := second.housed (first.housed housed)
  directory m named := first.directory m (second.directory m named)

theorem of_loses {gone : List (String × String)} (lost : Loses idx idx' gone) :
    Fades idx idx' u where
  lacks lacks m := by
    have same := lost.live m u
    rw [lacks m, Option.map_none, ite_self] at same
    exact Option.map_eq_none_iff.mp same
  housed := lost.housed u
  directory := lost.directory u

theorem of_removedUuid {uuid : String} (removed : RemovedUuid idx idx' uuid) :
    Fades idx idx' u where
  lacks lacks m := by
    rw [removed.live]
    split
    · rfl
    · exact lacks m
  housed housed := housed.of_removedUuid removed
  directory _ := removed.directory_of_some

/-- A line that inserts another UUID. -/
theorem replayEntry (wf : idx.WellFormed) {line : WalEntry} (insert : line.tombstone = false)
    (other : u ≠ line.uuid) : Fades idx (idx.replayEntry line).1 u := by
  rw [SemanticIndex.replayEntry_of_insert insert]
  by_cases accepted : NamespacedIndex.Accepts (idx.dimensionOf line.modelId)
      line.cacheEntry.embedding.length
  · have inserted := (SemanticIndex.insertInto_of_accepts wf accepted).1
    have live : ∀ m, (idx.insertInto line.modelId line.cacheEntry).1.entryAt m u =
        idx.entryAt m u := by
      intro m
      rw [inserted.live, if_neg fun hit => other hit.2]
    have directory : (idx.insertInto line.modelId line.cacheEntry).1.uuidToNamespace.lookup u =
        idx.uuidToNamespace.lookup u := by
      rw [inserted.directory, HashMap.lookup_insert_eq]
      exact if_neg other
    refine ⟨fun lacks m => (live m).trans (lacks m), fun housed m here => ?_, fun m named => ?_⟩
    · rw [live] at here
      rw [directory]
      exact housed m here
    · rw [directory] at named
      exact named
  · obtain ⟨msg, rejected⟩ := SemanticIndex.insertInto_of_not_accepts accepted
    rw [rejected]
    exact .refl idx u

end Fades

end SemanticIndex

/-- Without a crash and without an insertion of the UUID, it fades. -/
theorem Node.act_fades {cfg : NodeConfig} {n : Node} {a : Action} {u : String}
    (wf : n.index.WellFormed) (awaits : n.Awaits fun _ v _ => v ≠ u)
    (admissible : n.Admissible cfg a) (stays : crashes a = false) :
    SemanticIndex.Fades n.index (n.act cfg a).index u := by
  have effect := act_index wf admissible
  generalize (n.act cfg a).index = index at effect ⊢
  cases effect with
  | loses lost named => exact .of_loses lost
  | takes line lines compact runs phase =>
      cases kind : line.tombstone with
      | true =>
          rw [SemanticIndex.replayEntry_of_tombstone kind]
          exact .of_removedUuid (SemanticIndex.removeByUuid_spec wf line.uuid)
      | false =>
          refine .replayEntry wf kind (Ne.symm (awaits.pending line ?_ kind))
          rw [phase]
          exact List.mem_cons_self
  | boots cut expireOrder now runs r read visits =>
      subst runs
      cases stays

namespace Deletion

variable {fleet : Fleet} {call : DeleteCall} {s : Deletion}

/-! ## Steps -/

variable (fleet call s) in
/-- What an event can lead to. -/
inductive Moves : DeleteEvent → Deletion → Prop
  | stays (e : DeleteEvent) : Moves e s
  | removes (i : Nat) {p uuid modelId : String} {rest : Option (List (String × String))}
    (phase : s.phase = .working p uuid (.remove modelId) rest) :
    Moves (.remove i)
      ⟨fleet.act s.nodes p (.removeDelete i), .working p uuid (.log modelId) rest⟩
  | sends (i : Nat) {p uuid modelId : String} {rest : Option (List (String × String))}
    (phase : s.phase = .working p uuid (.log modelId) rest) :
    Moves (.send i) ⟨fleet.act s.nodes p (.send i), .working p uuid .logged rest⟩
  | fails {p uuid modelId : String} (phase : s.phase = .working p uuid (.log modelId) none) :
    Moves .closed ⟨s.nodes, .answered (.internalError "persistence failed")⟩
  | passes {p uuid modelId : String} {rest : List (String × String)}
    (phase : s.phase = .working p uuid (.log modelId) (some rest)) :
    Moves .closed ⟨s.nodes, .fanOut rest⟩
  | replies {p uuid : String} {rest : Option (List (String × String))}
    (phase : s.phase = .working p uuid .logged rest) :
    Moves .reply ⟨s.nodes, afterLocal call rest⟩
  | ends (phase : s.phase = .fanOut []) : Moves .forward ⟨s.nodes, .answered .deleted⟩
  | skips {id addr : String} {rest : List (String × String)} {cluster : ClusterState}
    (phase : s.phase = .fanOut ((id, addr) :: rest)) (clustered : call.cluster = some cluster)
    (missed : cluster.peerStatus id = .dead ∨ ∀ uuid, call.pathUuid = some uuid →
      ∃ reply, lookupStage (s.nodes (fleet.owner addr)) uuid = .error reply) :
    Moves .forward ⟨s.nodes, .fanOut rest⟩
  | visits {id addr : String} {rest : List (String × String)} {uuid : String} {stage : DeleteStage}
    (phase : s.phase = .fanOut ((id, addr) :: rest)) (path : call.pathUuid = some uuid)
    (found : lookupStage (s.nodes (fleet.owner addr)) uuid = .ok stage) :
    Moves .forward ⟨fleet.act s.nodes (fleet.owner addr) (.lookupDelete uuid),
      .working (fleet.owner addr) uuid stage (some rest)⟩
  | acts (p : String) (a : Action) : Moves (.node p a) ⟨fleet.act s.nodes p a, s.phase⟩

variable (fleet call s) in
theorem step_moves (e : DeleteEvent) : Moves fleet call s e (s.step fleet call e) := by
  cases e with
  | remove i =>
      simp only [step, remove]
      split
      · next phase => exact .removes i phase
      · exact .stays _
  | send i =>
      simp only [step, send]
      split
      · next phase => exact .sends i phase
      · exact .stays _
  | closed =>
      simp only [step, closed]
      split
      · next phase => exact .fails phase
      · next phase => exact .passes phase
      · exact .stays _
  | reply =>
      simp only [step, reply]
      split
      · next phase => exact .replies phase
      · exact .stays _
  | forward =>
      simp only [step, forward]
      split
      · next phase => exact .ends phase
      · next phase clustered =>
          split
          · next dead => exact .skips phase clustered (.inl dead)
          · split
            · next path =>
                refine .skips phase clustered (.inr fun uuid same => ?_)
                cases path.symm.trans same
            · next path =>
                split
                · next found =>
                    refine .skips phase clustered (.inr fun uuid same => ?_)
                    cases path.symm.trans same
                    exact ⟨_, found⟩
                · next found => exact .visits phase path found
      · exact .stays _
  | node p a => exact .acts p a

omit [Platform] in
/-- The event runs the action on node `p`. -/
inductive Runs (s : Deletion) : DeleteEvent → String → Action → Prop
  | lookup (p uuid : String) : Runs s .forward p (.lookupDelete uuid)
  | remove (i : Nat) {p uuid modelId : String} {rest : Option (List (String × String))}
    (phase : s.phase = .working p uuid (.remove modelId) rest) :
    Runs s (.remove i) p (.removeDelete i)
  | send (i : Nat) (p : String) : Runs s (.send i) p (.send i)
  | node (p : String) (a : Action) : Runs s (.node p a) p a

/-- An event leaves the nodes alone or runs one action on one of them. -/
theorem Moves.nodes {e : DeleteEvent} {s' : Deletion} (moves : Moves fleet call s e s')
    (admissible : s.Admissible fleet e) :
    s'.nodes = s.nodes ∨ ∃ p a, Runs s e p a ∧ s'.nodes = fleet.act s.nodes p a ∧
      (s.nodes p).Admissible (fleet.config p) a := by
  cases moves with
  | stays => exact .inl rfl
  | removes i phase => exact .inr ⟨_, _, .remove i phase, rfl, (admissible _ _ _ _ phase).1⟩
  | sends i phase => exact .inr ⟨_, _, .send i _, rfl, trivial⟩
  | fails phase => exact .inl rfl
  | passes phase => exact .inl rfl
  | replies phase => exact .inl rfl
  | ends phase => exact .inl rfl
  | skips phase clustered missed => exact .inl rfl
  | visits phase path found => exact .inr ⟨_, _, .lookup _ _, rfl, admissible _ _ _ phase⟩
  | acts p a => exact .inr ⟨p, a, .node p a, rfl, admissible⟩

/-- What one action keeps on its node is kept on every node. -/
theorem forall_act {nodes : String → Node} {K : String → Node → Prop} (all : ∀ q, K q (nodes q))
    {p : String} {a : Action} (kept : K p ((nodes p).act (fleet.config p) a)) (q : String) :
    K q (fleet.act nodes p a q) := by
  unfold Fleet.act
  by_cases same : q = p
  · subst same
    rw [Function.update_self]
    exact kept
  · rw [Function.update_of_ne same]
    exact all q

/-! ## What the steps keep -/

omit [Platform] in
/-- No other request for the UUID, no crash, and the flush tasks run. -/
def Undisturbed (call : DeleteCall) : DeleteEvent → Prop
  | .node _ a => Node.Avoids call.uuid a ∧ Node.crashes a = false
  | .closed => False
  | _ => True

omit [Platform] in
theorem Runs.undisturbed {e : DeleteEvent} {p : String} {a : Action} (runs : Runs s e p a)
    (undisturbed : Undisturbed call e) : Node.Avoids call.uuid a ∧ Node.crashes a = false := by
  cases runs with
  | lookup p uuid => exact ⟨trivial, rfl⟩
  | remove i phase => exact ⟨trivial, rfl⟩
  | send i p => exact ⟨trivial, rfl⟩
  | node p a => exact undisturbed

/-- No node is about to insert the UUID. -/
structure Calm (call : DeleteCall) (nodes : String → Node) : Prop where
  wellFormed : ∀ p, (nodes p).index.WellFormed
  awaits : ∀ p, (nodes p).Awaits fun _ u _ => u ≠ call.uuid

theorem Calm.act {nodes : String → Node} (calm : Calm call nodes) {p : String} {a : Action}
    (admissible : (nodes p).Admissible (fleet.config p) a) (avoids : Node.Avoids call.uuid a)
    (stays : Node.crashes a = false) :
    Calm call (fleet.act nodes p a) ∧ ∀ q,
      SemanticIndex.Fades (nodes q).index (fleet.act nodes p a q).index call.uuid := by
  have wf := calm.wellFormed p
  have submitted : ∀ entry, a = .submit entry → entry.Meets fun _ u _ => u ≠ call.uuid := by
    intro entry same
    subst same
    exact fun _ => avoids
  refine ⟨⟨forall_act (K := fun _ n => n.index.WellFormed) calm.wellFormed
    ((Node.act_index wf admissible).wellFormed wf),
    forall_act (K := fun _ n => n.Awaits fun _ u _ => u ≠ call.uuid) calm.awaits
      ((calm.awaits p).act admissible submitted)⟩, ?_⟩
  exact forall_act (K := fun q n => SemanticIndex.Fades (nodes q).index n.index call.uuid)
    (fun q => .refl _ _) (Node.act_fades wf (calm.awaits p) admissible stays)

theorem Calm.step (calm : Calm call s.nodes) {e : DeleteEvent} (admissible : s.Admissible fleet e)
    (undisturbed : Undisturbed call e) :
    Calm call (s.step fleet call e).nodes ∧ ∀ q,
      SemanticIndex.Fades (s.nodes q).index ((s.step fleet call e).nodes q).index call.uuid := by
  rcases (step_moves fleet call s e).nodes admissible with same | ⟨p, a, runs, acts, able⟩
  · rw [same]
    exact ⟨calm, fun _ => .refl _ _⟩
  · rw [acts]
    obtain ⟨avoids, stays⟩ := runs.undisturbed undisturbed
    exact calm.act able avoids stays

variable (fleet call) in
/-- The lookup changes no index. -/
theorem begin_index (start : String → Node) (q : String) :
    ((begin fleet call start).nodes q).index = (start q).index := by
  unfold begin
  split
  · rfl
  · refine forall_act (K := fun q n => n.index = (start q).index) (fun _ => rfl) ?_ q
    change ((start call.here).lookupDelete call.uuid).index = _
    unfold Node.lookupDelete
    split <;> rfl

/-- While the request runs, the UUID fades on every node. -/
theorem Reachable.calm {start : String → Node} (calm : Calm call start)
    (reached : Reachable fleet call (fun _ => Undisturbed call) start s) :
    Calm call s.nodes ∧ ∀ q,
      SemanticIndex.Fades (start q).index (s.nodes q).index call.uuid := by
  induction reached with
  | begin free =>
      refine ⟨?_, fun q => ?_⟩
      · unfold Deletion.begin
        split
        · exact calm
        · have able : (start call.here).Admissible (fleet.config call.here)
              (.lookupDelete call.uuid) := free
          exact (calm.act able trivial rfl).1
      · rw [begin_index]
        exact .refl _ _
  | step e _ admissible undisturbed ih =>
      obtain ⟨after, fades⟩ := ih.1.step admissible undisturbed
      exact ⟨after, fun q => (ih.2 q).trans (fades q)⟩

/-- The index after the handler's removal. -/
theorem removeDelete_index {nodes : String → Node} {p uuid modelId : String} {i : Nat}
    (found : (nodes p).deleting[i]? = some (uuid, modelId)) :
    (fleet.act nodes p (.removeDelete i) p).index = ((nodes p).index.removeByUuid uuid).1 := by
  simp [Fleet.act, Node.act, Node.removeDelete, found, Node.removed]

end Deletion

end Machine

end Ferrocache
