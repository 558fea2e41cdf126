import Ferrocache.Cluster.Delete
import Ferrocache.Cluster.Query
import Ferrocache.Server.Isolation

/-!
# The caching middleware

`_intercept` of the Python client (`middleware.py`, `client.py`), which wraps a
chat completion API: it looks the last user message up in the cache, calls the
API on a miss and stores what the API says.  Any number of calls of any number
of wrapped clients share a cluster, whose nodes run the machine of
`Ferrocache.Node`, crashes included.

A lookup is forwarded to the owner of its embedding and a miss asks the replicas;
an insert is stored by the node that gets it or sent on to the replicas.  What a
node knows of the ring and of its peers may change at any time.  A message may
reach its node late, more than once or never, and read repair may copy any entry
from one node to another.
-/

namespace Ferrocache

/-! ## The prompt -/

/-- A part of a message: a dictionary with its text, if it has one, or something
else. -/
inductive ContentPart : Type
  | dict (text : Option String)
  | other

inductive Content : Type
  | text (s : String)
  | parts (parts : List ContentPart)
  | other

structure ChatMessage : Type where
  role : Option String
  content : Content

/-- `p.get("text", "")` for the dictionaries. -/
def ContentPart.getText : ContentPart → Option String
  | .dict text => some (text.getD "")
  | .other => none

/-- The text of the last user message. -/
def lastUserText (messages : List ChatMessage) : Option String := do
  let msg ← messages.reverse.find? (·.role = some "user")
  match msg.content with
  | .text s => some s
  | .parts parts =>
    let joined := "\n".intercalate ((parts.filterMap ContentPart.getText).filter (· ≠ ""))
    if joined ≠ "" then some joined else none
  | .other => none

/-! ## A call -/

/-- The settings of a wrapped client; `url` is the address of the node it talks
to. -/
structure Wrapped : Type where
  url : String
  modelId : String
  threshold : F32
  failOpen : Bool
  cacheScope : Option String
  conversationId : Option String

def Wrapped.target (client : Wrapped) : Target :=
  ⟨client.modelId, client.cacheScope, client.conversationId⟩

/-- `cache.query`. -/
def Wrapped.queryRequest (client : Wrapped) (prompt : String) (embedding : Embedding) :
    QueryRequest :=
  ⟨embedding, client.threshold, some client.modelId, some prompt, client.cacheScope,
    client.conversationId⟩

/-- `cache.insert`. -/
def Wrapped.insertRequest (client : Wrapped) (text prompt : String) (embedding : Embedding) :
    InsertRequest :=
  ⟨embedding, text, prompt, some client.modelId, none, none, client.cacheScope,
    client.conversationId⟩

/-- The arguments of a call; `messages` is none when it is no list. -/
structure Kwargs : Type where
  messages : Option (List ChatMessage)
  model : Option String

def Kwargs.prompt (kwargs : Kwargs) : Option String := kwargs.messages.bind lastUserText

/-- What the cache client raises: `FerrocacheError`, or anything else. -/
inductive CacheExn : Type
  | ferrocacheError
  | other
  deriving DecidableEq

/-- What `_intercept` raises; `valueError` is for an empty model id. -/
inductive Exn : Type
  | cache (e : CacheExn)
  | valueError
  | api

/-- What a call gives back: a response of the API, with the mark
`_ferrocache_hit` if it is set; a response built from the cache; or an
exception. -/
inductive Outcome (R : Type) : Type
  | api (resp : R) (mark : Option (Option Bool))
  | cached (content model : String) (similarity : F32)
  | raised (e : Exn)

/-- Where `_intercept` is: before `embed_fn`, in the lookup, before the API call
(with what to store afterwards), or before the insert. -/
inductive InterceptPhase (R : Type) : Type
  | embedding (prompt : String)
  | querying (prompt : String) (embedding : Embedding)
  | calling (mark : Option (Option Bool)) (store : Option (String × Embedding))
  | storing (resp : R) (text prompt : String) (embedding : Embedding)
  | done (outcome : Outcome R)

/-- A call.  `sent` are the queries sent for it, by the client and by nodes, and
`offers` the hits that nodes found for them.  The last two fields are not in the
code: how often the API was called, and what it said. -/
structure Intercept (R : Type) : Type where
  client : Wrapped
  kwargs : Kwargs
  phase : InterceptPhase R
  sent : List (String × LocalParam)
  offers : List QueryHit
  asked : Nat
  answers : List R

/-- How the lookup ends: an exception of the client, a miss, or one of the hits. -/
inductive LookupReply : Type
  | failed (e : CacheExn)
  | miss
  | hit (k : Nat)

/-- An insert that was sent to an address, with its query parameter. -/
structure InsertMessage : Type where
  addr : String
  isLocal : Bool
  req : InsertRequest

/-- The nodes and the calls.  `wire` are the inserts that were sent and `copies`
the entries that the read repair of a node has fetched. -/
structure Deployment (R : Type) : Type where
  nodes : String → Node
  wire : List InsertMessage
  copies : List (String × FullEntry)
  calls : List (Intercept R)

inductive ClientEvent (R : Type) : Type
  | start (client : Wrapped) (kwargs : Kwargs)
  | embed (i : Nat) (result : Option Embedding)
  /-- the `k`-th query of call `i` reaches its node -/
  | serve (i k : Nat) (app : QueryState) (now : Nat)
  | lookup (i : Nat) (reply : LookupReply)
  | api (i : Nat) (result : Option R)
  | insert (i : Nat) (sent : Bool) (failure : Option CacheExn)
  /-- the `j`-th insert reaches its node -/
  | arrive (j : Nat) (app : AppState) (newUuid : String) (now : Nat)
  | fetch (p addr uuid : String)
  | copy (j : Nat)
  | node (p : String) (a : Action)

section Machine

variable {R : Type}

namespace Intercept

variable (extract : R → Option String) (c : Intercept R)

def begin (client : Wrapped) (kwargs : Kwargs) : Intercept R where
  client := client
  kwargs := kwargs
  phase :=
    match kwargs.prompt with
    | none => .calling none none
    | some prompt => .embedding prompt
  sent := []
  offers := []
  asked := 0
  answers := []

/-- `_embed_safely`, and the start of the lookup. -/
def embedded (result : Option Embedding) : Intercept R :=
  match c.phase with
  | .embedding prompt =>
    match result with
    | none => { c with phase := .calling none none }
    | some embedding =>
      if c.client.modelId = "" then { c with phase := .done (.raised .valueError) }
      else { c with phase := .querying prompt embedding, sent := [(c.client.url, .absent)] }
  | _ => c

/-- `except FerrocacheError` around the lookup. -/
def lookupFailed (e : CacheExn) : Intercept R :=
  { c with
    phase :=
      if e = .ferrocacheError ∧ c.client.failOpen then .calling (some none) none
      else .done (.raised (.cache e)) }

/-- The end of the lookup. -/
def looked (reply : LookupReply) : Intercept R :=
  match c.phase with
  | .querying prompt embedding =>
    match reply with
    | .failed e => c.lookupFailed e
    | .miss => { c with phase := .calling (some (some false)) (some (prompt, embedding)) }
    | .hit k =>
      match c.offers[k]? with
      | none => c
      | some hit =>
        { c with
          phase := .done (.cached hit.response (c.kwargs.model.getD "unknown") hit.similarity) }
  | _ => c

/-- `real_call`. -/
def called (result : Option R) : Intercept R :=
  match c.phase with
  | .calling mark store =>
    match result with
    | none => { c with phase := .done (.raised .api), asked := c.asked + 1 }
    | some resp =>
      { c with
        phase :=
          match store, extract resp with
          | some (prompt, embedding), some text => .storing resp text prompt embedding
          | _, _ => .done (.api resp mark)
        asked := c.asked + 1
        answers := c.answers ++ [resp] }
  | _ => c

/-- The end of the insert. -/
def stored (failure : Option CacheExn) : Intercept R :=
  match c.phase with
  | .storing resp _ _ _ =>
    { c with
      phase :=
        match failure with
        | none => .done (.api resp (some (some false)))
        | some e =>
          if e = .ferrocacheError ∧ c.client.failOpen then .done (.api resp (some (some false)))
          else .done (.raised (.cache e)) }
  | _ => c

/-- The insert that the call sends. -/
def request : Option InsertMessage :=
  match c.phase with
  | .storing _ text prompt embedding =>
    some ⟨c.client.url, false, c.client.insertRequest text prompt embedding⟩
  | _ => none

end Intercept

variable [Platform]

/-- `process_query_locally` without read repair; an error status is `none`. -/
def answerLocally (idx : SemanticIndex) (req : QueryRequest) (now : Nat) :
    Option (Option QueryHit) :=
  match validateModelId req.modelId with
  | .error _ => none
  | .ok modelId => (queryLocally idx req modelId now).1.toOption

/-- `query_handler` on a node with index `idx`: the query is sent on, to the owner
or on a miss to the replicas, or the node has a hit.  What the client hears of
any of these is up to `LookupReply`. -/
def Intercept.serve (c : Intercept R) (idx : SemanticIndex) (params : LocalParam) (app : QueryState)
    (now : Nat) : Intercept R :=
  match c.phase with
  | .querying prompt embedding =>
    let req := c.client.queryRequest prompt embedding
    match app.plan params req with
    | .forward _ addr =>
      if app.router then { c with sent := c.sent ++ [(addr, ⟨some true, some true⟩)] } else c
    | .serve tryRepair =>
      match answerLocally idx req now with
      | some (some hit) => { c with offers := c.offers ++ [hit] }
      | some none =>
        { c with
          sent := c.sent ++ (app.repairPeers tryRepair embedding).map fun peer =>
            (peer.2, ⟨some true, some false⟩) }
      | none => c
    | _ => c
  | _ => c

namespace Deployment

variable (extract : R → Option String) (fleet : Fleet) (d : Deployment R)

omit [Platform] in
def change (i : Nat) (f : Intercept R → Intercept R) : Deployment R :=
  { d with calls := d.calls.modify i f }

def serve (i k : Nat) (app : QueryState) (now : Nat) : Deployment R :=
  d.change i fun c =>
    match c.sent[k]? with
    | none => c
    | some (addr, params) => c.serve (d.nodes (fleet.owner addr)).index params app now

def act (p : String) (a : Action) : Deployment R :=
  { d with nodes := fleet.act d.nodes p a }

omit [Platform] in
/-- The loop over the peers of a clustered insert: what it sends if no forward
fails. -/
def forwards (app : AppState) (cluster : ClusterState) (replicas : List (String × String))
    (req : InsertRequest) : List InsertMessage :=
  if app.router then
    (replicas.filter fun r => r.1 ≠ cluster.selfNodeId ∧ cluster.peerStatus r.1 ≠ .dead).map
      fun r => ⟨r.2, true, req⟩
  else []

/-- `insert_handler`. -/
def arrive (j : Nat) (app : AppState) (newUuid : String) (now : Nat) : Deployment R :=
  match d.wire[j]? with
  | none => d
  | some msg =>
    let p := fleet.owner msg.addr
    let call : InsertCall := ⟨p, app, msg.isLocal, msg.req, newUuid⟩
    let stores := d.act fleet p (.submit (call.line now (fleet.conversationTtl p)))
    match call.plan with
    | .reject _ => d
    | .storeLocally => stores
    | .replicate cluster replicas =>
      let here := if replicas.any (·.1 = cluster.selfNodeId) then stores else d
      { here with
        wire := d.wire ++ forwards app cluster replicas { msg.req with uuid := some newUuid } }

/-- `perform_repair`: the copy that node `p` has fetched is put into its channel. -/
def copy (j : Nat) : Deployment R :=
  match d.copies[j]? with
  | none => d
  | some (p, full) => d.act fleet p (.submit full.repairLine)

def step : ClientEvent R → Deployment R
  | .start client kwargs => { d with calls := d.calls ++ [.begin client kwargs] }
  | .embed i result => d.change i (·.embedded result)
  | .serve i k app now => d.serve fleet i k app now
  | .lookup i reply => d.change i (·.looked reply)
  | .api i result => d.change i (·.called extract result)
  | .insert i sent failure =>
    let sends := if sent then (d.calls[i]?.bind Intercept.request).toList else []
    { d.change i (·.stored failure) with wire := d.wire ++ sends }
  | .arrive j app newUuid now => d.arrive fleet j app newUuid now
  | .fetch p addr uuid =>
    let found := (d.nodes (fleet.owner addr)).index.getEntryByUuid uuid
    { d with copies := d.copies ++ found.toList.map fun full => (p, full) }
  | .copy j => d.copy fleet j
  | .node p a => d.act fleet p a

/-- Only the middleware inserts; an index is read when no other task holds its
lock, and a node does what it can do. -/
def Admissible : ClientEvent R → Prop
  | .serve i k _ _ => ∀ c addr params, d.calls[i]? = some c → c.sent[k]? = some (addr, params) →
      (d.nodes (fleet.owner addr)).phase.locked = false
  | .fetch _ addr _ => (d.nodes (fleet.owner addr)).phase.locked = false
  | .node p a => (d.nodes p).Admissible (fleet.config p) a ∧ ∀ entry, a ≠ .submit entry
  | _ => True

omit [Platform] in
/-- Fresh nodes and no calls. -/
def new : Deployment R := ⟨fun p => Node.new (fleet.config p), [], [], []⟩

inductive Reachable : Deployment R → Prop
  | new : Reachable (new fleet)
  | step {d : Deployment R} (e : ClientEvent R) : Reachable d → d.Admissible fleet e →
    Reachable (d.step extract fleet e)

/-- The deployment after a list of events. -/
def run (events : List (ClientEvent R)) : Deployment R := events.foldl (step extract fleet) d

/-- Every event of the list can happen when its turn comes. -/
def Allowed (d : Deployment R) : List (ClientEvent R) → Prop
  | [] => True
  | e :: events => d.Admissible fleet e ∧ Allowed (d.step extract fleet e) events

variable {extract fleet d}

theorem Reachable.run (reached : Reachable extract fleet d) {events : List (ClientEvent R)}
    (allowed : d.Allowed extract fleet events) :
    Reachable extract fleet (d.run extract fleet events) := by
  induction events generalizing d with
  | nil => exact reached
  | cons e events ih => exact ih (reached.step e allowed.1) allowed.2

end Deployment

end Machine

end Ferrocache
