import Ferrocache.Cluster.Insert
import Ferrocache.Cluster.Ring

/-!
# A clustered query

`query_handler` and the read repair of `process_query_locally` (`server.rs`): a
query is forwarded to the owner of its embedding or served locally, and a local
miss asks the replicas and copies the entry of the first hit.
-/

namespace Ferrocache

/-- The query parameters of a request. -/
structure LocalParam : Type where
  local_ : Option Bool
  repair : Option Bool
  deriving DecidableEq

namespace LocalParam

def isLocal (self : LocalParam) : Bool := self.local_.getD false

/-- Whether to attempt read repair on a miss. -/
def tryRepair (self : LocalParam) : Bool :=
  match self.repair with
  | some v => v
  | none => !self.isLocal

/-- A request without parameters. -/
def absent : LocalParam := ⟨none, none⟩

end LocalParam

/-- The fields of `AppState` that `query_handler` reads. -/
structure QueryState : Type extends AppState where
  readRepairEnabled : Bool

/-- The fields of a query response that a read repair reads. -/
structure QueryResponse : Type where
  hit : Bool
  id : Option String
  deriving DecidableEq

/-- The checks at the head of `query_handler`. -/
def QueryRequest.isValid [Platform] (req : QueryRequest) : Bool :=
  (validateEmbedding req.embedding).isOk && (validateModelId req.modelId).isOk &&
    (Platform.ge req.threshold 0#32 && Platform.ge Platform.one req.threshold)

/-- What the handler decides before it looks into the index. -/
inductive QueryPlan : Type
  | reject
  /-- the owner is dead: a miss -/
  | deadOwner
  | forward (id addr : String)
  | serve (tryRepair : Bool)
  deriving DecidableEq

namespace QueryState

/-- The owner to forward to: another node, for a request that is not local. -/
def owner (self : QueryState) (params : LocalParam) (embedding : Embedding) :
    Option (ClusterState × String × String) := do
  if params.isLocal then none
  let cluster ← self.cluster
  let (id, addr) ← cluster.getTargetAddr embedding
  if id = cluster.selfNodeId then none
  return (cluster, id, addr)

def plan [Platform] (self : QueryState) (params : LocalParam) (req : QueryRequest) : QueryPlan :=
  if req.isValid then
    match self.owner params req.embedding with
    | some (cluster, id, addr) =>
      if cluster.peerStatus id = .dead then .deadOwner else .forward id addr
    | none => .serve params.tryRepair
  else .reject

/-- The replicas that a read repair asks, if it is attempted. -/
def repairPeers (self : QueryState) (tryRepair : Bool) (embedding : Embedding) :
    List (String × String) :=
  match self.cluster with
  | none => []
  | some cluster =>
    if tryRepair && self.readRepairEnabled && decide (1 < self.replicationFactor) && self.router then
      (cluster.getReplicaAddrs embedding self.replicationFactor).filter fun peer =>
        peer.1 ≠ cluster.selfNodeId ∧ cluster.peerStatus peer.1 ≠ .dead
    else []

end QueryState

/-- `process_query_locally` without read repair; a bad request is `none`. -/
def processQueryLocally [Platform] (idx : SemanticIndex) (req : QueryRequest) (now : Nat) :
    Option QueryResponse :=
  match validateModelId req.modelId with
  | .error _ => none
  | .ok modelId =>
    match (queryLocally idx req modelId now).1 with
    | .ok (some hit) => some ⟨true, some hit.id⟩
    | .ok none => some ⟨false, none⟩
    | .error _ => none

/-- The first replica with a hit; a failed query is `none`. -/
def firstHit (peers : List (String × String)) (results : List (Option QueryResponse)) :
    Option ((String × String) × QueryResponse) :=
  (peers.zip results).findSome? fun
    | (peer, some qr) => if qr.hit then some (peer, qr) else none
    | (_, none) => none

/-- A repair asks no more replicas than there are. -/
theorem QueryState.length_repairPeers (self : QueryState) (tryRepair : Bool)
    (embedding : Embedding) :
    (self.repairPeers tryRepair embedding).length ≤ self.replicationFactor := by
  have replicas : ∀ cluster : ClusterState,
      (cluster.getReplicaAddrs embedding self.replicationFactor).length ≤ self.replicationFactor := by
    intro cluster
    unfold ClusterState.getReplicaAddrs HashRing.getNNodesForEmbedding
    refine le_trans (List.length_filterMap_le _ _) ?_
    rw [HashRing.getNNodes_eq]
    exact List.length_take_le _ _
  unfold repairPeers
  split
  · exact Nat.zero_le _
  · next cluster _ =>
      split
      · exact le_trans (List.length_filter_le _ _) (replicas cluster)
      · exact Nat.zero_le _

end Ferrocache
