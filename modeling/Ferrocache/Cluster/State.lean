import Mathlib.Data.String.Basic
import Ferrocache.Lib.OrderedMap
import Ferrocache.Node

/-!
# The cluster as one node sees it

The consistent-hash ring (`ring.rs`) and the parts of `ClusterState`
(`cluster.rs`) that the request handlers read: the ring, the addresses and the
peer statuses of the failure detector; and the nodes that requests reach.
-/

namespace Ferrocache

/-! ## The ring -/

def fnvOffsetBasis : Nat := 0xcbf29ce484222325

def fnvPrime : Nat := 0x100000001b3

/-- The FNV-1a hash, in wrapping `u64` arithmetic. -/
def fnv1aHash (data : List UInt8) : Nat :=
  data.foldl (fun hash byte => (hash ^^^ byte.toNat) * fnvPrime % 2 ^ 64) fnvOffsetBasis

/-- The first two components, big-endian; a missing one is zero. -/
def embeddingToKey : Embedding → Nat
  | [] => 0
  | [a] => a.toNat * 2 ^ 32
  | a :: b :: _ => a.toNat * 2 ^ 32 + b.toNat

structure HashRing : Type where
  ring : OrderedMap Nat String
  virtualNodes : Nat

namespace HashRing

def new (virtualNodes : Nat) : HashRing := ⟨.empty, max virtualNodes 1⟩

/-- Where the `i`-th virtual node of a node stands. -/
def position (nodeId : String) (i : Nat) : Nat :=
  fnv1aHash ((nodeId ++ "-" ++ toString i).toList.flatMap String.utf8EncodeChar)

def addNode (self : HashRing) (nodeId : String) : HashRing :=
  { self with
    ring := (List.range self.virtualNodes).foldl
      (fun ring i => ring.insert (position nodeId i) nodeId) self.ring }

def removeNode (self : HashRing) (nodeId : String) : HashRing :=
  { self with
    ring := (List.range self.virtualNodes).foldl
      (fun ring i => ring.erase (position nodeId i)) self.ring }

/-- The owner of a key: the first node from it upwards, or else the first of
all. -/
def getNode (self : HashRing) (key : Nat) : Option String :=
  (((self.ring.entries.filter (key ≤ ·.1)).head?).or self.ring.entries.head?).map Prod.snd

def getNodeForEmbedding (self : HashRing) (embedding : Embedding) : Option String :=
  self.getNode (embeddingToKey embedding)

/-- The loop of `get_n_nodes`: collect nodes not seen yet, up to `n`. -/
def collectDistinct (n : Nat) : List String → List String → List String
  | [], out => out
  | node :: walker, out =>
    if node ∈ out then collectDistinct n walker out
    else if out.length + 1 = n then out ++ [node]
    else collectDistinct n walker (out ++ [node])

/-- Up to `n` distinct nodes, walking clockwise from `key`.  The source reserves
room for `n` names first (`Vec::with_capacity(n)`), which an `n` too large for the
address space does not survive. -/
def getNNodes (self : HashRing) (key n : Nat) : List String :=
  if self.ring.entries = [] ∨ n = 0 then []
  else collectDistinct n (self.ring.valuesFrom key) []

def getNNodesForEmbedding (self : HashRing) (embedding : Embedding) (n : Nat) : List String :=
  self.getNNodes (embeddingToKey embedding) n

/-- The nodes in order, collected through a set. -/
def nodes (self : HashRing) : List String :=
  ((self.ring.entries.map Prod.snd).foldl (fun (seen : OrderedMap String Unit) n => seen.insert n ())
    .empty).keys

def nodeCount (self : HashRing) : Nat := self.nodes.length

end HashRing

/-! ## Peers -/

inductive PeerStatus : Type
  | alive
  | suspected
  | dead
  deriving DecidableEq

/-- What a handler reads of the cluster.  A handler asks for the status of a
peer at most once, so `statuses` is what each of these calls reports. -/
structure ClusterState : Type where
  ring : HashRing
  addrs : HashMap String String
  statuses : HashMap String PeerStatus
  selfNodeId : String
  selfApiAddr : String

namespace ClusterState

variable (self : ClusterState)

/-- A peer that the detector does not track is alive. -/
def peerStatus (nodeId : String) : PeerStatus := (self.statuses.lookup nodeId).getD .alive

/-- The owner of an embedding, if it has an address. -/
def getTargetAddr (embedding : Embedding) : Option (String × String) := do
  let id ← self.ring.getNodeForEmbedding embedding
  let addr ← self.addrs.lookup id
  return (id, addr)

/-- The replicas of an embedding that have an address. -/
def getReplicaAddrs (embedding : Embedding) (replicationFactor : Nat) : List (String × String) :=
  (self.ring.getNNodesForEmbedding embedding replicationFactor).filterMap fun id =>
    (if id = self.selfNodeId then some self.selfApiAddr else self.addrs.lookup id).map (id, ·)

/-- Every peer, when the address map is visited in `order`. -/
def allPeerAddrs (order : List String) : List (String × String) :=
  (order.filter (· ≠ self.selfNodeId)).filterMap fun id => (self.addrs.lookup id).map (id, ·)

theorem mem_allPeerAddrs {order : List String} (iter : HashMap.IterOrder self.addrs order)
    {id addr : String} (other : id ≠ self.selfNodeId) (known : self.addrs.lookup id = some addr) :
    (id, addr) ∈ self.allPeerAddrs order := by
  refine List.mem_filterMap.mpr ⟨id, List.mem_filter.mpr ⟨?_, by simpa using other⟩, ?_⟩
  · exact (iter.2 id).mpr (Finmap.mem_of_lookup_eq_some known)
  · rw [known]
    rfl

theorem lookup_of_mem_allPeerAddrs {order : List String} {r : String × String}
    (mem : r ∈ self.allPeerAddrs order) : self.addrs.lookup r.1 = some r.2 := by
  obtain ⟨id, -, found⟩ := List.mem_filterMap.mp mem
  obtain ⟨addr, known, rfl⟩ := Option.map_eq_some_iff.mp found
  exact known

end ClusterState

/-- The nodes of a cluster: their settings, and which of them answers at an
address. -/
structure Fleet : Type where
  config : String → NodeConfig
  conversationTtl : String → Option Nat
  owner : String → String

/-! ## A cluster of two nodes

Nodes `a` and `b`, each at its own address. -/

def Fleet.sample : Fleet where
  config _ := ⟨⟨0, none⟩, 256, 0⟩
  conversationTtl _ := none
  owner addr := if addr = "a:3000" then "a" else "b"

/-- The cluster as `self` sees it. -/
def ClusterState.sample (self : String) (statuses : HashMap String PeerStatus) : ClusterState where
  ring := ((HashRing.new 1).addNode "a").addNode "b"
  addrs := ((∅ : HashMap String String).insert "a" "a:3000").insert "b" "b:3000"
  statuses := statuses
  selfNodeId := self
  selfApiAddr := self ++ ":3000"

end Ferrocache
