import Ferrocache.Cluster.Query

/-!
# Forwarded requests

Which requests a handler sends to other nodes (`server.rs`, `router.rs`), and
the tree of requests that one client request causes.  Every request of the tree
is handled by some node with some view of the cluster, which the views of the
other nodes need not agree with (`Handling`).

A forwarded query, insert or invalidation carries its parameters in a fixed
URL.  A forwarded delete has the UUID in the path of its URL, in front of
`?local=true` and not encoded, so what the peer reads is up to the URL
(`UrlReader`).
-/

namespace Ferrocache

structure InvalidateRequest : Type where
  embedding : Embedding
  threshold : F32
  modelId : Option String
  cacheScope : Option String
  deriving DecidableEq

/-- A request that a node handles. -/
inductive Request : Type
  | query (params : LocalParam) (req : QueryRequest)
  | insert (params : LocalParam) (req : InsertRequest)
  | delete (params : LocalParam) (uuid : String)
  | invalidate (params : LocalParam) (req : InvalidateRequest)
  /-- `GET /internal/entry/:uuid` -/
  | getEntry
  deriving DecidableEq

/-- A client sends it without parameters. -/
def Request.FromClient : Request → Prop
  | .query params _ => params = .absent
  | .insert params _ => params = .absent
  | .delete params _ => params = .absent
  | .invalidate params _ => params = .absent
  | .getEntry => False

/-- What a node reads from the URL `…/entry/{uuid}?local=true`, if the URL leads
to the handler at all. -/
abbrev UrlReader := String → Option (String × LocalParam)

/-- A request on its way: the address, and what is read there. -/
structure Message : Type where
  addr : String
  request : Option Request

/-- One run of a handler: the state it sees and the outcomes it meets.  The
order visits the address map. -/
structure Handling : Type where
  state : QueryState
  order : List String
  visits : ∀ cluster, state.cluster = some cluster → HashMap.IterOrder cluster.addrs order
  /-- the local lookup of a query misses -/
  misses : Bool
  /-- the replies of the replicas -/
  results : List (Option QueryResponse)
  /-- the UUID that an insert generates -/
  newUuid : String
  /-- the local part of an insert or a delete succeeds -/
  succeeds : Bool
  /-- the outcomes of the attempts to reach an address -/
  outcomes : String → Nat → ForwardOutcome

namespace Handling

variable [Platform] (reader : UrlReader) (h : Handling)

omit [Platform] in
/-- How many attempts `forward_with_retry` makes of the `left` ones, and whether
the last of them succeeds. -/
def attempts (outcomes : Nat → ForwardOutcome) : Nat → Nat → Nat × Bool
  | 0, _ => (0, false)
  | left + 1, i =>
    match outcomes i with
    | .ok => (1, true)
    | .fatal => (1, false)
    | .retryable => ((attempts outcomes left (i + 1)).1 + 1, (attempts outcomes left (i + 1)).2)

omit [Platform] in
def forwardWithRetry (addr : String) (request : Request) : List Message × Bool :=
  let (count, ok) := attempts (h.outcomes addr) (totalAttempts h.state.maxReplicationRetries) 0
  (List.replicate count ⟨addr, some request⟩, ok)

omit [Platform] in
/-- The fan-out of `attempt_read_repair`. -/
def asks (tryRepair : Bool) (req : QueryRequest) : List Message :=
  (h.state.repairPeers tryRepair req.embedding).map fun peer =>
    ⟨peer.2, some (.query ⟨some true, some false⟩ req)⟩

omit [Platform] in
/-- The entry fetch of the background task: `perform_repair` asks the replica with
the first hit. -/
def fetches (tryRepair : Bool) (req : QueryRequest) : List Message :=
  match firstHit (h.state.repairPeers tryRepair req.embedding) h.results with
  | some (peer, ⟨_, some _⟩) => [⟨peer.2, some .getEntry⟩]
  | _ => []

omit [Platform] in
def sendsRepair (tryRepair : Bool) (req : QueryRequest) : List Message :=
  h.asks tryRepair req ++ h.fetches tryRepair req

/-- `query_handler`. -/
def sendsQuery (params : LocalParam) (req : QueryRequest) : List Message :=
  match h.state.plan params req with
  | .reject => []
  | .deadOwner => []
  | .forward _ addr =>
    if h.state.router then
      (h.forwardWithRetry addr (.query ⟨some true, some true⟩ req)).1
    else []
  | .serve tryRepair => if h.misses then h.sendsRepair tryRepair req else []

omit [Platform] in
/-- The loop of `insert_handler` over the replicas; it ends with the first
failure. -/
def replicates (cluster : ClusterState) (request : Request) : List (String × String) → List Message
  | [] => []
  | (id, addr) :: rest =>
    if cluster.peerStatus id = .dead then replicates cluster request rest
    else
      match h.forwardWithRetry addr request with
      | (sent, true) => sent ++ replicates cluster request rest
      | (sent, false) => sent

omit [Platform] in
/-- `insert_handler`. -/
def sendsInsert (params : LocalParam) (req : InsertRequest) : List Message :=
  match InsertCall.plan ⟨"", h.state.toAppState, params.isLocal, req, h.newUuid⟩ with
  | .replicate cluster replicas =>
    if replicas.any (·.1 = cluster.selfNodeId) && !h.succeeds || !h.state.router then []
    else h.replicates cluster (.insert ⟨some true, none⟩ { req with uuid := some h.newUuid })
      (replicas.filter (·.1 ≠ cluster.selfNodeId))
  | _ => []

omit [Platform] in
/-- The fan-out to every peer that is not dead. -/
def fansOut (params : LocalParam) (request : Option Request) : List Message :=
  match params.isLocal, h.state.cluster, h.state.router with
  | false, some cluster, true =>
    ((cluster.allPeerAddrs h.order).filter fun peer => cluster.peerStatus peer.1 ≠ .dead).map
      fun peer => ⟨peer.2, request⟩
  | _, _, _ => []

omit [Platform] in
/-- `delete_entry_handler`. -/
def sendsDelete (params : LocalParam) (uuid : String) : List Message :=
  if isBlank uuid || !h.succeeds then []
  else h.fansOut params ((reader uuid).map fun read => .delete read.2 read.1)

/-- `invalidate_handler`. -/
def sendsInvalidate (params : LocalParam) (req : InvalidateRequest) : List Message :=
  if (validateEmbedding req.embedding).isOk && (validateModelId req.modelId).isOk &&
      (Platform.ge req.threshold 0#32 && Platform.ge Platform.one req.threshold) then
    h.fansOut params (some (.invalidate ⟨some true, none⟩ req))
  else []

/-- What the handler of a request sends. -/
def sends : Request → List Message
  | .query params req => h.sendsQuery params req
  | .insert params req => h.sendsInsert params req
  | .delete params uuid => h.sendsDelete reader params uuid
  | .invalidate params req => h.sendsInvalidate params req
  | .getEntry => []

end Handling

/-! ## The tree of a request -/

/-- Where a request stands in the tree: the positions of the messages that lead
to it. -/
abbrev Path := List Nat

section Tree

variable [Platform] (reader : UrlReader) (env : Path → Handling)

/-- The requests that the messages of one run are read as, below its path. -/
def received (path : Path) (messages : List Message) : List (Path × Request) :=
  (messages.zipIdx.filterMap fun m => m.1.request.map fun request => (path ++ [m.2], request))

/-- The requests at a depth of the tree, when the one at `path` is handled as in
`env path`. -/
def level (root : Request) : Nat → List (Path × Request)
  | 0 => [([], root)]
  | depth + 1 => (level root depth).flatMap fun node =>
    received node.1 ((env node.1).sends reader node.2)

/-- The messages sent at a depth of the tree. -/
def sentAt (root : Request) (depth : Nat) : List Message :=
  (level reader env root depth).flatMap fun node => (env node.1).sends reader node.2

end Tree

/-! ## What each handler sends -/

namespace Handling

variable [Platform] {reader : UrlReader} (h : Handling)

omit [Platform] in
theorem mem_forwardWithRetry {addr : String} {request : Request} {m : Message}
    (mem : m ∈ (h.forwardWithRetry addr request).1) : m = ⟨addr, some request⟩ :=
  List.eq_of_mem_replicate mem

omit [Platform] in
theorem mem_asks {tryRepair : Bool} {req : QueryRequest} {m : Message}
    (mem : m ∈ h.asks tryRepair req) :
    m.request = some (.query ⟨some true, some false⟩ req) := by
  obtain ⟨peer, -, rfl⟩ := List.mem_map.mp mem
  rfl

omit [Platform] in
theorem mem_fetches {tryRepair : Bool} {req : QueryRequest} {m : Message}
    (mem : m ∈ h.fetches tryRepair req) : m.request = some .getEntry := by
  unfold fetches at mem
  split at mem
  · rw [List.mem_singleton.mp mem]
  · cases mem

omit [Platform] in
/-- A repair sends queries that neither forward nor repair, and an entry fetch. -/
theorem mem_sendsRepair {tryRepair : Bool} {req : QueryRequest} {m : Message}
    (mem : m ∈ h.sendsRepair tryRepair req) :
    m.request = some (.query ⟨some true, some false⟩ req) ∨ m.request = some .getEntry := by
  rcases List.mem_append.mp mem with asked | fetched
  · exact .inl (h.mem_asks asked)
  · exact .inr (h.mem_fetches fetched)

omit [Platform] in
theorem sendsRepair_false (req : QueryRequest) : h.sendsRepair false req = [] := by
  have nobody : h.state.repairPeers false req.embedding = [] := by
    unfold QueryState.repairPeers
    cases h.state.cluster with
    | none => rfl
    | some cluster => rfl
  unfold sendsRepair asks fetches
  rw [nobody]
  rfl

/-- A local query is not forwarded. -/
theorem plan_of_local {params : LocalParam} (isLocal : params.isLocal = true)
    (req : QueryRequest) :
    h.state.plan params req = .reject ∨ h.state.plan params req = .serve params.tryRepair := by
  have nobody : h.state.owner params req.embedding = none := by
    unfold QueryState.owner
    rw [if_pos isLocal]
    rfl
  unfold QueryState.plan
  rw [nobody]
  split
  · exact .inr rfl
  · exact .inl rfl

/-- What `query_handler` sends: nothing, attempts to reach one owner, or a
repair. -/
theorem sendsQuery_cases (params : LocalParam) (req : QueryRequest) :
    h.sendsQuery params req = [] ∨
    (params.isLocal = false ∧ ∃ addr, ∀ m ∈ h.sendsQuery params req,
      m = ⟨addr, some (.query ⟨some true, some true⟩ req)⟩) ∨
    h.sendsQuery params req = h.sendsRepair params.tryRepair req := by
  cases plan : h.state.plan params req with
  | reject =>
      unfold sendsQuery
      rw [plan]
      exact .inl rfl
  | deadOwner =>
      unfold sendsQuery
      rw [plan]
      exact .inl rfl
  | forward id addr =>
      refine .inr (.inl ⟨?_, addr, fun m mem => ?_⟩)
      · cases isLocal : params.isLocal with
        | false => rfl
        | true =>
            rcases h.plan_of_local isLocal req with reject | serve
            · cases plan.symm.trans reject
            · cases plan.symm.trans serve
      · unfold sendsQuery at mem
        rw [plan] at mem
        dsimp only at mem
        split at mem
        · exact h.mem_forwardWithRetry mem
        · cases mem
  | serve tryRepair =>
      have same : tryRepair = params.tryRepair := by
        unfold QueryState.plan at plan
        split at plan
        · split at plan
          · split at plan
            · cases plan
            · cases plan
          · exact (QueryPlan.serve.inj plan).symm
        · cases plan
      unfold sendsQuery
      rw [plan, same]
      dsimp only
      split
      · exact .inr (.inr rfl)
      · exact .inl rfl

/-- The fan-out of a query asks at most `replication_factor` nodes. -/
theorem length_fanOut (params : LocalParam) (req : QueryRequest) :
    ((h.sendsQuery params req).filter
      (·.request = some (.query ⟨some true, some false⟩ req))).length ≤
        h.state.replicationFactor := by
  rcases h.sendsQuery_cases params req with none | ⟨-, addr, forwards⟩ | repairs
  · rw [none]
    exact Nat.zero_le _
  · rw [List.filter_eq_nil_iff.mpr]
    · exact Nat.zero_le _
    · intro m mem
      rw [forwards m mem]
      simp
  · rw [repairs]
    have fetched : (h.fetches params.tryRepair req).filter
        (·.request = some (.query ⟨some true, some false⟩ req)) = [] := by
      refine List.filter_eq_nil_iff.mpr fun m mem => ?_
      rw [h.mem_fetches mem]
      simp
    unfold sendsRepair
    rw [List.filter_append, fetched, List.append_nil]
    refine le_trans (List.length_filter_le _ _) ?_
    unfold asks
    rw [List.length_map]
    exact h.state.length_repairPeers _ _

omit [Platform] in
theorem fansOut_local {params : LocalParam} (isLocal : params.isLocal = true)
    (request : Option Request) : h.fansOut params request = [] := by
  unfold fansOut
  rw [isLocal]

omit [Platform] in
theorem mem_fansOut {params : LocalParam} {request : Option Request} {m : Message}
    (mem : m ∈ h.fansOut params request) : m.request = request := by
  unfold fansOut at mem
  split at mem
  · obtain ⟨peer, -, rfl⟩ := List.mem_map.mp mem
    rfl
  · cases mem

omit [Platform] in
theorem sendsInsert_local {params : LocalParam} (isLocal : params.isLocal = true)
    (req : InsertRequest) : h.sendsInsert params req = [] := by
  unfold sendsInsert InsertCall.plan
  dsimp only
  rw [isLocal]
  cases req.validate with
  | error msg => rfl
  | ok _ => rfl

omit [Platform] in
theorem mem_replicates {cluster : ClusterState} {request : Request}
    {peers : List (String × String)} {m : Message}
    (mem : m ∈ h.replicates cluster request peers) : m.request = some request := by
  induction peers with
  | nil => cases mem
  | cons peer rest ih =>
      unfold replicates at mem
      split at mem
      · exact ih mem
      · split at mem
        · next sent forwarded =>
            rcases List.mem_append.mp mem with here | later
            · have first : m ∈ (h.forwardWithRetry peer.2 request).1 := by
                rw [forwarded]
                exact here
              rw [h.mem_forwardWithRetry first]
            · exact ih later
        · next sent forwarded =>
            have first : m ∈ (h.forwardWithRetry peer.2 request).1 := by
              rw [forwarded]
              exact mem
            rw [h.mem_forwardWithRetry first]

omit [Platform] in
theorem mem_sendsInsert {params : LocalParam} {req : InsertRequest} {m : Message}
    (mem : m ∈ h.sendsInsert params req) :
    ∃ stamped, m.request = some (.insert ⟨some true, none⟩ stamped) := by
  unfold sendsInsert at mem
  split at mem
  · split at mem
    · cases mem
    · exact ⟨_, h.mem_replicates mem⟩
  · cases mem

end Handling

/-! ## Depth -/

section Depth

variable [Platform]

/-- How far the requests below this one go. -/
def Request.reach : Request → Nat
  | .query params _ => if params.isLocal then (if params.tryRepair then 1 else 0) else 2
  | .insert params _ => if params.isLocal then 0 else 1
  | .delete params uuid => if params.isLocal || isBlank uuid then 0 else 1
  | .invalidate params _ => if params.isLocal then 0 else 1
  | .getEntry => 0

/-- The URL of the forwarded delete is read as a local delete, or as none. -/
def ReadsLocal (reader : UrlReader) (uuid : String) : Prop :=
  isBlank uuid = true ∨
    ∀ read, reader uuid = some read → read.2.isLocal = true ∨ isBlank read.1 = true

/-- A delete of the tree is local, or its UUID passes through a URL. -/
def Request.Settles (reader : UrlReader) : Request → Prop
  | .delete params uuid => params.isLocal = true ∨ ReadsLocal reader uuid
  | _ => True

section Kinds

variable {reader : UrlReader} (h : Handling) {m : Message}

theorem query_reach {params : LocalParam} {req : QueryRequest}
    (mem : m ∈ h.sendsQuery params req) :
    0 < (Request.query params req).reach ∧ ∀ next, m.request = some next →
      next.Settles reader ∧ next.reach < (Request.query params req).reach := by
  rcases h.sendsQuery_cases params req with none | ⟨notLocal, addr, forwards⟩ | repairs
  · rw [none] at mem
    cases mem
  · have far : (Request.query params req).reach = 2 := by simp [Request.reach, notLocal]
    rw [far]
    refine ⟨Nat.two_pos, fun next read => ?_⟩
    rw [forwards m mem] at read
    obtain rfl := Option.some.inj read
    exact ⟨trivial, Nat.one_lt_two⟩
  · rw [repairs] at mem
    have repairing : params.tryRepair = true := by
      cases found : params.tryRepair with
      | true => rfl
      | false =>
          rw [found, h.sendsRepair_false] at mem
          cases mem
    have positive : 0 < (Request.query params req).reach := by
      cases isLocal : params.isLocal with
      | true => simp [Request.reach, isLocal, repairing]
      | false => simp [Request.reach, isLocal]
    refine ⟨positive, fun next read => ?_⟩
    rcases h.mem_sendsRepair mem with asked | fetched
    · obtain rfl := Option.some.inj (asked.symm.trans read)
      exact ⟨trivial, positive⟩
    · obtain rfl := Option.some.inj (fetched.symm.trans read)
      exact ⟨trivial, positive⟩

omit [Platform] in
theorem insert_reach {params : LocalParam} {req : InsertRequest}
    (mem : m ∈ h.sendsInsert params req) :
    0 < (Request.insert params req).reach ∧ ∀ next, m.request = some next →
      next.Settles reader ∧ next.reach < (Request.insert params req).reach := by
  cases isLocal : params.isLocal with
  | true =>
      rw [h.sendsInsert_local isLocal] at mem
      cases mem
  | false =>
      have far : (Request.insert params req).reach = 1 := by simp [Request.reach, isLocal]
      rw [far]
      refine ⟨Nat.one_pos, fun next read => ?_⟩
      obtain ⟨stamped, sent⟩ := h.mem_sendsInsert mem
      obtain rfl := Option.some.inj (sent.symm.trans read)
      exact ⟨trivial, Nat.one_pos⟩

omit [Platform] in
theorem delete_reach {params : LocalParam} {uuid : String}
    (settles : (Request.delete params uuid).Settles reader)
    (mem : m ∈ h.sendsDelete reader params uuid) :
    0 < (Request.delete params uuid).reach ∧ ∀ next, m.request = some next →
      next.Settles reader ∧ next.reach < (Request.delete params uuid).reach := by
  unfold Handling.sendsDelete at mem
  split at mem
  · cases mem
  · next found =>
      have named : isBlank uuid = false := by
        cases blank : isBlank uuid with
        | false => rfl
        | true => simp [blank] at found
      cases isLocal : params.isLocal with
      | true =>
          rw [h.fansOut_local isLocal] at mem
          cases mem
      | false =>
          have far : (Request.delete params uuid).reach = 1 := by
            simp [Request.reach, isLocal, named]
          rw [far]
          refine ⟨Nat.one_pos, fun next read => ?_⟩
          rw [h.mem_fansOut mem] at read
          obtain ⟨⟨uuid', params'⟩, url, rfl⟩ := Option.map_eq_some_iff.mp read
          rcases settles with alone | blank | reads
          · cases isLocal.symm.trans alone
          · cases named.symm.trans blank
          · rcases reads _ url with quiet | blank
            · exact ⟨.inl quiet, by simp [Request.reach, quiet]⟩
            · exact ⟨.inr (.inl blank), by simp [Request.reach, blank]⟩

theorem invalidate_reach {params : LocalParam} {req : InvalidateRequest}
    (mem : m ∈ h.sendsInvalidate params req) :
    0 < (Request.invalidate params req).reach ∧ ∀ next, m.request = some next →
      next.Settles reader ∧ next.reach < (Request.invalidate params req).reach := by
  unfold Handling.sendsInvalidate at mem
  split at mem
  · cases isLocal : params.isLocal with
    | true =>
        rw [h.fansOut_local isLocal] at mem
        cases mem
    | false =>
        have far : (Request.invalidate params req).reach = 1 := by simp [Request.reach, isLocal]
        rw [far]
        refine ⟨Nat.one_pos, fun next read => ?_⟩
        rw [h.mem_fansOut mem] at read
        obtain rfl := Option.some.inj read
        exact ⟨trivial, Nat.one_pos⟩
  · cases mem

/-- Every request that a handler sends reaches less far than its own. -/
theorem sends_reach {request : Request} (settles : request.Settles reader)
    (mem : m ∈ h.sends reader request) :
    0 < request.reach ∧
      ∀ next, m.request = some next → next.Settles reader ∧ next.reach < request.reach := by
  cases request with
  | query params req => exact query_reach h mem
  | insert params req => exact insert_reach h mem
  | delete params uuid => exact delete_reach h settles mem
  | invalidate params req => exact invalidate_reach h mem
  | getEntry => cases mem

end Kinds

omit [Platform] in
theorem mem_received {path : Path} {messages : List Message} {node : Path × Request}
    (mem : node ∈ received path messages) : ∃ m ∈ messages, m.request = some node.2 := by
  obtain ⟨⟨m, i⟩, listed, read⟩ := List.mem_filterMap.mp mem
  obtain ⟨request, sent, rfl⟩ := Option.map_eq_some_iff.mp read
  exact ⟨m, (List.mem_zipIdx' listed).2 ▸ List.getElem_mem _, sent⟩

variable {reader : UrlReader} {env : Path → Handling}

/-- The requests of the tree run out of reach. -/
theorem level_reach {root : Request} (settles : root.Settles reader) {depth : Nat}
    {node : Path × Request} (mem : node ∈ level reader env root depth) :
    node.2.Settles reader ∧ node.2.reach + depth ≤ root.reach := by
  induction depth generalizing node with
  | zero =>
      rw [List.mem_singleton.mp mem]
      exact ⟨settles, Nat.le_refl _⟩
  | succ depth ih =>
      obtain ⟨parent, above, below⟩ := List.mem_flatMap.mp mem
      obtain ⟨settled, bound⟩ := ih above
      obtain ⟨m, sent, read⟩ := mem_received below
      obtain ⟨settled', less⟩ := (sends_reach (env parent.1) settled sent).2 node.2 read
      exact ⟨settled', by omega⟩

theorem sentAt_eq_nil (root : Request) (settles : root.Settles reader) {depth : Nat}
    (deep : root.reach ≤ depth) : sentAt reader env root depth = [] := by
  refine List.eq_nil_iff_forall_not_mem.mpr fun m mem => ?_
  obtain ⟨node, above, sent⟩ := List.mem_flatMap.mp mem
  obtain ⟨settled, bound⟩ := level_reach settles above
  have positive := (sends_reach (env node.1) settled sent).1
  omega

/-! ## The bounds -/

/-- A message of a fan-out: a query that triggers neither forwarding nor repair,
or the entry fetch of the background repair. -/
def Message.FansOut (req : QueryRequest) (m : Message) : Prop :=
  m.request = some (.query ⟨some true, some false⟩ req) ∨ m.request = some .getEntry

/-- The tree of a client request is as shallow as it should be: a query goes to
one owner, then to its replicas, at most `replication_factor` of them; anything
else goes to the peers. -/
def WithinBounds (reader : UrlReader) (env : Path → Handling) (root : Request) : Prop :=
  match root with
  | .query _ req =>
    (∀ depth ≥ 2, sentAt reader env root depth = []) ∧
      ((∃ addr, ∀ m ∈ sentAt reader env root 0,
        m = ⟨addr, some (.query ⟨some true, some true⟩ req)⟩) ∨
        ∀ m ∈ sentAt reader env root 0, m.FansOut req) ∧
      (∀ m ∈ sentAt reader env root 1, m.FansOut req) ∧
      ∀ depth, ∀ node ∈ level reader env root depth,
        (((env node.1).sends reader node.2).filter
          (·.request = some (.query ⟨some true, some false⟩ req))).length ≤
            (env node.1).state.replicationFactor
  | _ => ∀ depth ≥ 1, sentAt reader env root depth = []

/-- A query of the tree is the client's, but for its parameters. -/
theorem level_query {params : LocalParam} {req : QueryRequest} {depth : Nat}
    {node : Path × Request} (mem : node ∈ level reader env (.query params req) depth) :
    (∃ params', node.2 = .query params' req ∧ (0 < depth → params'.isLocal = true)) ∨
      node.2 = .getEntry := by
  induction depth generalizing node with
  | zero =>
      rw [List.mem_singleton.mp mem]
      exact .inl ⟨params, rfl, fun below => absurd below (Nat.lt_irrefl 0)⟩
  | succ depth ih =>
      obtain ⟨parent, above, below⟩ := List.mem_flatMap.mp mem
      obtain ⟨m, sent, read⟩ := mem_received below
      rcases ih above with ⟨params', same, -⟩ | fetch
      · rw [same] at sent
        rcases (env parent.1).sendsQuery_cases params' req with none | ⟨-, addr, forwards⟩ | repairs
        · change m ∈ (env parent.1).sendsQuery params' req at sent
          rw [none] at sent
          cases sent
        · rw [forwards m sent] at read
          exact .inl ⟨_, (Option.some.inj read).symm, fun _ => rfl⟩
        · change m ∈ (env parent.1).sendsQuery params' req at sent
          rw [repairs] at sent
          rcases (env parent.1).mem_sendsRepair sent with asked | fetched
          · exact .inl ⟨_, Option.some.inj (read.symm.trans asked), fun _ => rfl⟩
          · exact .inr (Option.some.inj (read.symm.trans fetched))
      · rw [fetch] at sent
        cases sent

theorem query_within (req : QueryRequest) :
    WithinBounds reader env (.query .absent req) := by
  have start : ∀ m, m ∈ sentAt reader env (.query .absent req) 0 ↔
      m ∈ (env []).sendsQuery .absent req := by
    intro m
    unfold sentAt level
    rw [List.flatMap_singleton]
    rfl
  refine ⟨fun depth deep => sentAt_eq_nil (.query .absent req) trivial deep, ?_, fun m mem => ?_, ?_⟩
  · rcases (env []).sendsQuery_cases .absent req with none | ⟨-, addr, forwards⟩ | repairs
    · refine .inr fun m mem => ?_
      have sent := (start m).mp mem
      rw [none] at sent
      cases sent
    · exact .inl ⟨addr, fun m mem => forwards m ((start m).mp mem)⟩
    · refine .inr fun m mem => ?_
      have sent := (start m).mp mem
      rw [repairs] at sent
      exact (env []).mem_sendsRepair sent
  · obtain ⟨node, above, sent⟩ := List.mem_flatMap.mp mem
    rcases level_query above with ⟨params, same, isLocal⟩ | fetch
    · rw [same] at sent
      change m ∈ (env node.1).sendsQuery params req at sent
      rcases (env node.1).sendsQuery_cases params req with none | ⟨notLocal, -⟩ | repairs
      · rw [none] at sent
        cases sent
      · cases notLocal.symm.trans (isLocal Nat.one_pos)
      · rw [repairs] at sent
        exact (env node.1).mem_sendsRepair sent
    · rw [fetch] at sent
      cases sent
  · intro depth node mem
    rcases level_query mem with ⟨params, same, -⟩ | fetch
    · rw [same]
      exact (env node.1).length_fanOut params req
    · rw [fetch]
      exact Nat.zero_le _

end Depth

/-! ## A node that forwards -/

section Forwarder

/-- Node `a` finds what it looks for and knows an alive peer. -/
def Handling.busy : Handling where
  state := ⟨⟨some (.sample "a" ∅), true, 1, 0⟩, false⟩
  order := ["a", "b"]
  visits cluster same := by
    obtain rfl := Option.some.inj same
    decide
  misses := true
  results := []
  newUuid := "id"
  succeeds := true
  outcomes _ _ := .ok

theorem Handling.busy_fansOut {params : LocalParam} (notLocal : params.isLocal = false)
    (request : Option Request) : Handling.busy.fansOut params request = [⟨"b:3000", request⟩] := by
  unfold Handling.fansOut
  rw [notLocal]
  have alone : ((ClusterState.sample "a" ∅).allPeerAddrs ["a", "b"]).filter
      (fun peer => (ClusterState.sample "a" ∅).peerStatus peer.1 ≠ .dead) = [("b", "b:3000")] := by
    decide
  change List.map _ (List.filter _ ((ClusterState.sample "a" ∅).allPeerAddrs ["a", "b"])) = _
  rw [alone]
  rfl

end Forwarder

section Bounds

variable [Platform] {reader : UrlReader}

/-- A delete whose forwarded URL is read as a client's delete is forwarded
again. -/
theorem delete_forwarded_again {uuid uuid' : String} {params : LocalParam}
    (named : isBlank uuid = false) (read : reader uuid = some (uuid', params))
    (notLocal : params.isLocal = false) (named' : isBlank uuid' = false) :
    sentAt reader (fun _ => .busy) (.delete .absent uuid) 1 ≠ [] := by
  have sent : ∀ {params uuid}, LocalParam.isLocal params = false → isBlank uuid = false →
      Handling.busy.sends reader (.delete params uuid) =
        [⟨"b:3000", (reader uuid).map fun read => .delete read.2 read.1⟩] := by
    intro params uuid notLocal named
    change Handling.busy.sendsDelete reader params uuid = _
    unfold Handling.sendsDelete
    rw [named]
    exact Handling.busy_fansOut notLocal _
  have below : level reader (fun _ => .busy) (.delete .absent uuid) 1 =
      [([0], .delete params uuid')] := by
    unfold level level
    rw [List.flatMap_singleton, sent rfl named, read]
    rfl
  unfold sentAt
  rw [below, List.flatMap_singleton, sent notLocal named']
  exact List.cons_ne_nil _ _

/-- Whatever the nodes believe about each other, the tree of a client request
stays within its bounds, exactly if the request is not a delete whose UUID turns
the URL of the forwarded delete into that of a client's. -/
theorem within_bounds_iff (root : Request) (client : root.FromClient) :
    (∀ env, WithinBounds reader env root) ↔
      ∀ uuid, root = .delete .absent uuid → ReadsLocal reader uuid := by
  cases root with
  | query params req =>
      obtain rfl : params = .absent := client
      exact ⟨fun _ uuid same => (by cases same), fun _ env => query_within req⟩
  | insert params req =>
      obtain rfl : params = .absent := client
      exact ⟨fun _ uuid same => (by cases same), fun _ env depth deep =>
        sentAt_eq_nil (.insert .absent req) trivial deep⟩
  | invalidate params req =>
      obtain rfl : params = .absent := client
      exact ⟨fun _ uuid same => (by cases same), fun _ env depth deep =>
        sentAt_eq_nil (.invalidate .absent req) trivial deep⟩
  | getEntry => cases client
  | delete params uuid =>
      obtain rfl : params = .absent := client
      constructor
      · intro within uuid' same
        obtain ⟨-, rfl⟩ := Request.delete.inj same
        cases named : isBlank uuid with
        | true => exact .inl named
        | false =>
            refine .inr fun read found => ?_
            by_contra loud
            rw [not_or, Bool.not_eq_true, Bool.not_eq_true] at loud
            exact delete_forwarded_again named found loud.1 loud.2
              (within (fun _ => .busy) 1 (Nat.le_refl 1))
      · intro reads env depth deep
        refine sentAt_eq_nil (.delete .absent uuid) (.inr (reads uuid rfl)) (le_trans ?_ deep)
        unfold Request.reach
        dsimp only
        split
        · decide
        · exact Nat.le_refl 1

end Bounds

section Example

local instance forwardingPlatform : Platform := Platform.sample

/-- A `?` or `#` in the UUID ends the path; what follows is not `local=true`. -/
def sampleReader : UrlReader := fun uuid =>
  let path := uuid.toList.takeWhile fun c => c ≠ '?' && c ≠ '#'
  some (String.ofList path, if path = uuid.toList then ⟨some true, none⟩ else .absent)

theorem within_bounds_iff_plain :
    (Request.delete .absent "u").FromClient ∧ ReadsLocal sampleReader "u" ∧
      WithinBounds sampleReader (fun _ => .busy) (.delete .absent "u") := by
  have reads : ReadsLocal sampleReader "u" := by
    refine .inr fun read found => .inl ?_
    obtain rfl := Option.some.inj found
    decide
  refine ⟨rfl, reads, (within_bounds_iff (.delete .absent "u") rfl).mpr (fun uuid same => ?_) _⟩
  obtain ⟨-, rfl⟩ := Request.delete.inj same
  exact reads

/-- The forwarded delete of `x?y` is a client's delete of `x`, and is forwarded
in its turn. -/
theorem delete_forwarded_twice :
    ¬ ∀ env, WithinBounds sampleReader env (.delete .absent "x?y") := fun within =>
  delete_forwarded_again (by decide) (rfl : sampleReader "x?y" = some ("x", .absent)) rfl
    (by decide) (within (fun _ => .busy) 1 (Nat.le_refl 1))

end Example

end Ferrocache
