import Ferrocache.Cluster.State
import Ferrocache.Lib.Distinct

/-!
# The hash ring as a function of its members

Every position of the ring belongs to one of the virtual nodes of its owner
(`Placed`), and as long as no two nodes share a position the ring is the set of
the positions of its members, whatever the order of joins and departures.  The
walk from a key lists the owners by first occurrence, so leaving a member out of
the ring leaves it out of every walk and changes nothing else.
-/

namespace Ferrocache

/-- One change of membership. -/
inductive RingOp : Type
  | add (nodeId : String)
  | remove (nodeId : String)
  deriving DecidableEq

def RingOp.node : RingOp → String
  | .add nodeId => nodeId
  | .remove nodeId => nodeId

namespace HashRing

def apply (ring : HashRing) : RingOp → HashRing
  | .add nodeId => ring.addNode nodeId
  | .remove nodeId => ring.removeNode nodeId

/-- A new ring after a list of changes. -/
def build (virtualNodes : Nat) (ops : List RingOp) : HashRing := ops.foldl apply (new virtualNodes)

/-- The position is one of the node's virtual nodes. -/
def Holds (virtualNodes : Nat) (nodeId : String) (p : Nat) : Prop :=
  ∃ i < virtualNodes, position nodeId i = p

/-- The two nodes share no position. -/
def Apart (virtualNodes : Nat) (a b : String) : Prop :=
  ∀ p, Holds virtualNodes a p → ¬ Holds virtualNodes b p

instance (virtualNodes : Nat) (a b : String) : Decidable (Apart virtualNodes a b) :=
  decidable_of_iff (∀ i < virtualNodes, ∀ j < virtualNodes, position b j ≠ position a i) <| by
    constructor
    · rintro apart p ⟨i, below, rfl⟩ ⟨j, other, same⟩
      exact apart i below j other same
    · intro apart i below j other same
      exact apart _ ⟨i, below, rfl⟩ ⟨j, other, same⟩

/-! ## Adding and removing -/

theorem addNode_virtualNodes (ring : HashRing) (nodeId : String) :
    (ring.addNode nodeId).virtualNodes = ring.virtualNodes := rfl

theorem mem_foldl_insert {m : OrderedMap Nat String} {nodeId : String} {k : Nat}
    {e : Nat × String} :
    e ∈ ((List.range k).foldl (fun ring i => ring.insert (position nodeId i) nodeId) m).entries ↔
      (Holds k nodeId e.1 ∧ e.2 = nodeId) ∨ (e ∈ m.entries ∧ ¬ Holds k nodeId e.1) := by
  induction k with
  | zero => simp [Holds]
  | succ k ih =>
      have held : ∀ p, Holds (k + 1) nodeId p ↔ p = position nodeId k ∨ Holds k nodeId p := by
        intro p
        unfold Holds
        constructor
        · intro given
          rcases given with ⟨i, below, same⟩
          rcases Nat.lt_succ_iff_lt_or_eq.mp below with earlier | rfl
          · exact .inr ⟨i, earlier, same⟩
          · exact .inl same.symm
        · intro given
          rcases given with same | ⟨i, below, same⟩
          · exact ⟨k, Nat.lt_succ_self k, same.symm⟩
          · exact ⟨i, Nat.lt_succ_of_lt below, same⟩
      rw [List.range_succ, List.foldl_append, List.foldl_cons, List.foldl_nil,
        OrderedMap.mem_insert, ih, held]
      obtain ⟨p, owner⟩ := e
      rw [Prod.mk.injEq]
      tauto

/-- The ring after an addition. -/
theorem mem_addNode {ring : HashRing} {nodeId : String} {e : Nat × String} :
    e ∈ (ring.addNode nodeId).ring.entries ↔
      (Holds ring.virtualNodes nodeId e.1 ∧ e.2 = nodeId) ∨
        (e ∈ ring.ring.entries ∧ ¬ Holds ring.virtualNodes nodeId e.1) :=
  mem_foldl_insert

theorem foldl_erase_entries (m : OrderedMap Nat String) (nodeId : String) (k : Nat) :
    ((List.range k).foldl (fun ring i => ring.erase (position nodeId i)) m).entries =
      m.entries.filter fun e => decide (∀ i < k, e.1 ≠ position nodeId i) := by
  induction k with
  | zero => simp
  | succ k ih =>
      rw [List.range_succ, List.foldl_append, List.foldl_cons, List.foldl_nil]
      change List.filter _ _ = _
      rw [ih, List.filter_filter]
      refine List.filter_congr fun e _ => ?_
      rw [Bool.eq_iff_iff]
      simp only [Bool.and_eq_true, decide_eq_true_eq, Nat.lt_succ_iff_lt_or_eq, or_imp,
        forall_and, forall_eq]
      exact and_comm

/-- The ring after a removal. -/
theorem mem_removeNode {ring : HashRing} {nodeId : String} {e : Nat × String} :
    e ∈ (ring.removeNode nodeId).ring.entries ↔
      e ∈ ring.ring.entries ∧ ¬ Holds ring.virtualNodes nodeId e.1 := by
  unfold removeNode
  rw [foldl_erase_entries, List.mem_filter]
  refine and_congr_right fun _ => ?_
  rw [decide_eq_true_eq]
  unfold Holds
  push Not
  exact forall₂_congr fun i _ => ne_comm

/-! ## Members -/

theorem mem_foldl_seen {l : List String} {seen : OrderedMap String Unit} {n : String} :
    n ∈ (l.foldl (fun (seen : OrderedMap String Unit) n => seen.insert n ()) seen).keys ↔
      n ∈ l ∨ n ∈ seen.keys := by
  induction l generalizing seen with
  | nil => simp
  | cons head l ih =>
      have inserted : n ∈ (seen.insert head ()).keys ↔ n = head ∨ n ∈ seen.keys := by
        unfold OrderedMap.keys
        simp only [List.mem_map, OrderedMap.mem_insert]
        constructor
        · intro given
          rcases given with ⟨e, new | ⟨old, -⟩, rfl⟩
          · exact .inl (congrArg Prod.fst new)
          · exact .inr ⟨e, old, rfl⟩
        · intro given
          rcases given with rfl | ⟨e, old, rfl⟩
          · exact ⟨_, .inl rfl, rfl⟩
          · by_cases same : e.1 = head
            · exact ⟨_, .inl rfl, same.symm⟩
            · exact ⟨e, .inr ⟨old, same⟩, rfl⟩
      rw [List.foldl_cons, ih, inserted, List.mem_cons]
      tauto

/-- The nodes of a ring are the owners of its positions. -/
theorem mem_nodes {ring : HashRing} {n : String} :
    n ∈ ring.nodes ↔ ∃ p, (p, n) ∈ ring.ring.entries := by
  unfold nodes
  rw [mem_foldl_seen]
  constructor
  · intro given
    rcases given with mem | none
    · obtain ⟨e, found, rfl⟩ := List.mem_map.mp mem
      exact ⟨e.1, found⟩
    · cases none
  · intro given
    rcases given with ⟨p, found⟩
    exact .inl (List.mem_map.mpr ⟨(p, n), found, rfl⟩)

theorem nodes_nodup (ring : HashRing) : ring.nodes.Nodup :=
  (OrderedMap.keys_sorted _).imp fun below => ne_of_lt below

/-- The ring after one more change. -/
theorem build_concat (virtualNodes : Nat) (ops : List RingOp) (op : RingOp) :
    build virtualNodes (ops ++ [op]) = (build virtualNodes ops).apply op := by
  unfold build
  rw [List.foldl_append]
  rfl

theorem build_virtualNodes (virtualNodes : Nat) (ops : List RingOp) :
    (build virtualNodes ops).virtualNodes = max virtualNodes 1 := by
  induction ops using List.reverseRecOn with
  | nil => rfl
  | append_singleton ops op ih =>
      rw [build_concat]
      cases op with
      | add nodeId => exact ih
      | remove nodeId => exact ih

/-- Every position belongs to a virtual node of its owner. -/
theorem holds_of_mem_build {virtualNodes : Nat} {ops : List RingOp} {e : Nat × String}
    (mem : e ∈ (build virtualNodes ops).ring.entries) : Holds (max virtualNodes 1) e.2 e.1 := by
  induction ops using List.reverseRecOn with
  | nil => cases mem
  | append_singleton ops op ih =>
      rw [build_concat] at mem
      cases op with
      | add nodeId =>
          rcases mem_addNode.mp mem with ⟨held, named⟩ | ⟨old, -⟩
          · rw [build_virtualNodes] at held
            rw [named]
            exact held
          · exact ih old
      | remove nodeId => exact ih (mem_removeNode.mp mem).1

/-! ## The same members, the same ring -/

/-- The last change that names the node adds it. -/
def LastAdded (ops : List RingOp) (nodeId : String) : Prop :=
  (ops.filter (·.node = nodeId)).getLast? = some (.add nodeId)

instance (ops : List RingOp) (nodeId : String) : Decidable (LastAdded ops nodeId) :=
  inferInstanceAs (Decidable (_ = _))

theorem lastAdded_add (ops : List RingOp) (n nodeId : String) :
    LastAdded (ops ++ [.add n]) nodeId ↔ nodeId = n ∨ LastAdded ops nodeId := by
  unfold LastAdded
  rw [List.filter_append]
  by_cases same : n = nodeId
  · simp [RingOp.node, same]
  · simp [RingOp.node, same, Ne.symm same]

theorem lastAdded_remove (ops : List RingOp) (n nodeId : String) :
    LastAdded (ops ++ [.remove n]) nodeId ↔ nodeId ≠ n ∧ LastAdded ops nodeId := by
  unfold LastAdded
  rw [List.filter_append]
  by_cases same : n = nodeId
  · simp [RingOp.node, same]
  · simp [RingOp.node, same, Ne.symm same]

theorem LastAdded.mem {ops : List RingOp} {nodeId : String} (added : LastAdded ops nodeId) :
    nodeId ∈ ops.map RingOp.node := by
  have listed := List.mem_of_getLast? added
  exact List.mem_map.mpr ⟨.add nodeId, (List.mem_filter.mp listed).1, rfl⟩

/-- Without collisions the ring holds the positions of its members. -/
theorem mem_build_iff {virtualNodes : Nat} {ops : List RingOp}
    (apart : ∀ a ∈ ops.map RingOp.node, ∀ b ∈ ops.map RingOp.node, a ≠ b →
      Apart (max virtualNodes 1) a b) {e : Nat × String} :
    e ∈ (build virtualNodes ops).ring.entries ↔
      LastAdded ops e.2 ∧ Holds (max virtualNodes 1) e.2 e.1 := by
  induction ops using List.reverseRecOn with
  | nil =>
      refine ⟨fun mem => ?_, fun added => ?_⟩
      · cases mem
      · cases added.1
  | append_singleton ops op ih =>
      have named : op.node ∈ (ops ++ [op]).map RingOp.node := by simp
      have before : ∀ {a}, a ∈ ops.map RingOp.node → a ∈ (ops ++ [op]).map RingOp.node := by
        intro a mem
        rw [List.map_append]
        exact List.mem_append_left _ mem
      have earlier := ih fun a memA b memB => apart a (before memA) b (before memB)
      -- what another node held before, the changed node does not hold
      have kept : LastAdded ops e.2 → e.2 ≠ op.node → Holds (max virtualNodes 1) e.2 e.1 →
          ¬ Holds (max virtualNodes 1) op.node e.1 := fun added other held =>
        apart e.2 (before added.mem) op.node named other e.1 held
      rw [build_concat]
      cases op with
      | add n =>
          change e ∈ ((build virtualNodes ops).addNode n).ring.entries ↔ _
          rw [mem_addNode, build_virtualNodes, earlier, lastAdded_add]
          constructor
          · intro given
            rcases given with ⟨held, same⟩ | ⟨⟨added, held⟩, -⟩
            · exact ⟨.inl same, by rw [same]; exact held⟩
            · exact ⟨.inr added, held⟩
          · intro given
            rcases given with ⟨same | added, held⟩
            · exact .inl ⟨by rw [← same]; exact held, same⟩
            · by_cases same : e.2 = n
              · exact .inl ⟨by rw [← same]; exact held, same⟩
              · exact .inr ⟨⟨added, held⟩, kept added same held⟩
      | remove n =>
          change e ∈ ((build virtualNodes ops).removeNode n).ring.entries ↔ _
          rw [mem_removeNode, build_virtualNodes, earlier, lastAdded_remove]
          constructor
          · intro given
            rcases given with ⟨⟨added, held⟩, gone⟩
            refine ⟨⟨fun same => gone ?_, added⟩, held⟩
            rw [← same]
            exact held
          · intro given
            rcases given with ⟨⟨other, added⟩, held⟩
            exact ⟨⟨added, held⟩, kept added other held⟩

/-- The nodes of a ring without collisions are its members. -/
theorem mem_nodes_build {virtualNodes : Nat} {ops : List RingOp}
    (apart : ∀ a ∈ ops.map RingOp.node, ∀ b ∈ ops.map RingOp.node, a ≠ b →
      Apart (max virtualNodes 1) a b) (nodeId : String) :
    nodeId ∈ (build virtualNodes ops).nodes ↔ LastAdded ops nodeId := by
  rw [mem_nodes]
  simp only [mem_build_iff apart]
  exact ⟨fun ⟨p, added, _⟩ => added, fun added =>
    ⟨position nodeId 0, added, 0, Nat.lt_of_lt_of_le Nat.one_pos (Nat.le_max_right _ _), rfl⟩⟩

/-- Two histories with the same members build the same ring, and so route every
key alike; the nodes of a ring are those that were added last. -/
theorem same_members_same_ring {virtualNodes : Nat} {ops ops' : List RingOp}
    (apart : ∀ a ∈ (ops ++ ops').map RingOp.node, ∀ b ∈ (ops ++ ops').map RingOp.node, a ≠ b →
      Apart (max virtualNodes 1) a b) :
    (∀ nodeId, nodeId ∈ (build virtualNodes ops).nodes ↔ LastAdded ops nodeId) ∧
    ((∀ nodeId, LastAdded ops nodeId ↔ LastAdded ops' nodeId) →
      (build virtualNodes ops).ring = (build virtualNodes ops').ring ∧
      (∀ key, (build virtualNodes ops).getNode key = (build virtualNodes ops').getNode key) ∧
      ∀ key n, (build virtualNodes ops).getNNodes key n =
        (build virtualNodes ops').getNNodes key n) := by
  have left : ∀ a ∈ ops.map RingOp.node, ∀ b ∈ ops.map RingOp.node, a ≠ b →
      Apart (max virtualNodes 1) a b := by
    intro a memA b memB
    rw [List.map_append] at apart
    exact apart a (List.mem_append_left _ memA) b (List.mem_append_left _ memB)
  have right : ∀ a ∈ ops'.map RingOp.node, ∀ b ∈ ops'.map RingOp.node, a ≠ b →
      Apart (max virtualNodes 1) a b := by
    intro a memA b memB
    rw [List.map_append] at apart
    exact apart a (List.mem_append_right _ memA) b (List.mem_append_right _ memB)
  refine ⟨mem_nodes_build left, fun same => ?_⟩
  have equal : (build virtualNodes ops).ring = (build virtualNodes ops').ring := by
    refine OrderedMap.ext_mem fun e => ?_
    rw [mem_build_iff left, mem_build_iff right, same]
  refine ⟨equal, fun key => ?_, fun key n => ?_⟩
  · unfold getNode
    rw [equal]
  · unfold getNNodes
    rw [equal]

/-- Nodes `a` and `b`, in either order and with a departure in between. -/
theorem same_members_same_ring_sample :
    (build 2 [.add "a", .add "b"]).ring =
      (build 2 [.remove "a", .add "b", .add "a", .remove "b", .add "b"]).ring :=
  ((same_members_same_ring (by decide +kernel)).2 fun nodeId => by
    by_cases first : nodeId = "a"
    · subst first
      decide
    · by_cases second : nodeId = "b"
      · subst second
        decide
      · simp [LastAdded, RingOp.node, Ne.symm first, Ne.symm second]).1

/-! ## The walk from a key -/

theorem valuesFrom_filter {m m' : OrderedMap Nat String} (q : String → Bool)
    (left : m'.entries = m.entries.filter fun e => q e.2) (key : Nat) :
    m'.valuesFrom key = (m.valuesFrom key).filter q := by
  unfold OrderedMap.valuesFrom
  rw [left, List.filter_map, List.filter_append, List.filter_filter, List.filter_filter,
    List.filter_filter, List.filter_filter]
  congr 2
  · exact List.filter_congr fun e _ => Bool.and_comm _ _
  · exact List.filter_congr fun e _ => Bool.and_comm _ _

/-- The loop takes the first occurrences of the nodes not seen yet. -/
theorem collectDistinct_eq {n : Nat} : ∀ {walker out : List String}, out.length < n →
    collectDistinct n walker out =
      out ++ ((walker.filter fun node => decide (node ∉ out)).eraseDups).take (n - out.length)
  | [], out, _ => by simp [collectDistinct]
  | node :: walker, out, room => by
      unfold collectDistinct
      split
      · next seen =>
          rw [List.filter_cons_of_neg (by simpa using seen)]
          exact collectDistinct_eq room
      · next unseen =>
          have rest : ((walker.filter fun b => decide (b ∉ out)).filter fun b => !b == node) =
              walker.filter fun b => decide (b ∉ out ++ [node]) := by
            rw [List.filter_filter]
            refine List.filter_congr fun b _ => ?_
            rw [Bool.eq_iff_iff]
            simp [and_comm]
          obtain ⟨k, more⟩ : ∃ k, n - out.length = k + 1 := ⟨n - out.length - 1, by omega⟩
          rw [List.filter_cons_of_pos (by simpa using unseen), List.eraseDups_cons, rest, more,
            List.take_succ_cons]
          split
          · next full =>
              have none : k = 0 := by omega
              rw [none, List.take_zero]
          · next notFull =>
              have grown : (out ++ [node]).length < n := by
                rw [List.length_append, List.length_singleton]
                omega
              have left : n - (out ++ [node]).length = k := by
                rw [List.length_append, List.length_singleton]
                omega
              rw [collectDistinct_eq grown, left, List.append_assoc]
              rfl

/-- The replicas of a key are the first nodes of the walk. -/
theorem getNNodes_eq (ring : HashRing) (key n : Nat) :
    ring.getNNodes key n = ((ring.ring.valuesFrom key).eraseDups).take n := by
  unfold getNNodes
  split
  · next none =>
      rcases none with empty | zero
      · unfold OrderedMap.valuesFrom
        rw [empty]
        simp
      · rw [zero, List.take_zero]
  · next some =>
      have room : ([] : List String).length < n :=
        Nat.pos_of_ne_zero fun zero => some (.inr zero)
      rw [collectDistinct_eq room]
      simp

theorem getNode_eq (ring : HashRing) (key : Nat) :
    ring.getNode key = (ring.ring.valuesFrom key).head? := by
  unfold getNode OrderedMap.valuesFrom
  rw [List.head?_map, List.head?_append]
  cases upwards : ring.ring.entries.filter (key ≤ ·.1) with
  | cons e rest => rfl
  | nil =>
      -- all the positions are below the key, so the walk starts with the lowest
      have below : ring.ring.entries.filter (·.1 < key) = ring.ring.entries := by
        refine List.filter_eq_self.mpr fun e mem => ?_
        have low := List.filter_eq_nil_iff.mp upwards e mem
        simpa using low
      rw [below]

/-- The owner of a key is its first replica. -/
theorem getNode_eq_head (ring : HashRing) (key : Nat) :
    ring.getNode key = (ring.ring.valuesFrom key).eraseDups.head? := by
  rw [getNode_eq, List.head?_eraseDups]

theorem mem_valuesFrom {ring : HashRing} {key : Nat} {n : String} :
    n ∈ ring.ring.valuesFrom key ↔ n ∈ ring.nodes := by
  rw [mem_nodes]
  unfold OrderedMap.valuesFrom
  constructor
  · intro mem
    obtain ⟨e, found, rfl⟩ := List.mem_map.mp mem
    rcases List.mem_append.mp found with above | below
    · exact ⟨e.1, List.mem_of_mem_filter above⟩
    · exact ⟨e.1, List.mem_of_mem_filter below⟩
  · intro given
    rcases given with ⟨p, found⟩
    refine List.mem_map.mpr ⟨(p, n), List.mem_append.mpr ?_, rfl⟩
    by_cases above : key ≤ p
    · exact .inl (List.mem_filter.mpr ⟨found, by simpa using above⟩)
    · exact .inr (List.mem_filter.mpr ⟨found, by simpa using above⟩)

/-- The full walk lists every node once. -/
theorem getNNodes_nodeCount (ring : HashRing) (key : Nat) :
    ring.getNNodes key ring.nodeCount = (ring.ring.valuesFrom key).eraseDups := by
  have listed : (ring.ring.valuesFrom key).eraseDups.Perm ring.nodes := by
    refine (List.perm_ext_iff_of_nodup (List.nodup_eraseDups _) ring.nodes_nodup).mpr fun n => ?_
    rw [List.mem_eraseDups, mem_valuesFrom]
  rw [getNNodes_eq]
  exact List.take_of_length_le (le_of_eq listed.length_eq)

/-! ## A departure -/

/-- The ring comes from a new one by joins and departures. -/
def Built (ring : HashRing) : Prop := ∃ virtualNodes ops, ring = build virtualNodes ops

theorem Built.addNode {ring : HashRing} (built : ring.Built) (nodeId : String) :
    (ring.addNode nodeId).Built := by
  obtain ⟨virtualNodes, ops, rfl⟩ := built
  refine ⟨virtualNodes, ops ++ [.add nodeId], ?_⟩
  rw [build_concat]
  rfl

theorem Built.removeNode {ring : HashRing} (built : ring.Built) (nodeId : String) :
    (ring.removeNode nodeId).Built := by
  obtain ⟨virtualNodes, ops, rfl⟩ := built
  refine ⟨virtualNodes, ops ++ [.remove nodeId], ?_⟩
  rw [build_concat]
  rfl

theorem Built.holds {ring : HashRing} (built : ring.Built) {e : Nat × String}
    (mem : e ∈ ring.ring.entries) : Holds ring.virtualNodes e.2 e.1 := by
  obtain ⟨virtualNodes, ops, rfl⟩ := built
  rw [build_virtualNodes]
  exact holds_of_mem_build mem

/-- The positions of the node stay clear of those of the other members. -/
def Clear (ring : HashRing) (c : String) : Prop :=
  ∀ m ∈ ring.nodes, m ≠ c → Apart ring.virtualNodes c m

instance (ring : HashRing) (c : String) : Decidable (Clear ring c) :=
  inferInstanceAs (Decidable (∀ m ∈ ring.nodes, m ≠ c → Apart ring.virtualNodes c m))

section

variable {ring : HashRing} (built : ring.Built)

include built

/-- A departure takes the positions of the node and no others. -/
theorem removeNode_entries {c : String} (clear : ring.Clear c) :
    (ring.removeNode c).ring.entries = ring.ring.entries.filter fun e => decide (e.2 ≠ c) := by
  unfold removeNode
  rw [foldl_erase_entries]
  refine List.filter_congr fun e mem => ?_
  rw [decide_eq_decide]
  constructor
  · rintro untouched rfl
    obtain ⟨i, below, here⟩ := built.holds mem
    exact untouched i below here.symm
  · intro other i below here
    exact clear e.2 (mem_nodes.mpr ⟨e.1, mem⟩) other e.1 ⟨i, below, here.symm⟩ (built.holds mem)

/-- The walk without the departed node. -/
theorem removeNode_walk {c : String} (clear : ring.Clear c) (key : Nat) :
    ((ring.removeNode c).ring.valuesFrom key).eraseDups =
      (ring.ring.valuesFrom key).eraseDups.filter fun n => decide (n ≠ c) := by
  rw [valuesFrom_filter (fun n => decide (n ≠ c)) (removeNode_entries built clear) key,
    List.eraseDups_filter]

/-- A node that joins takes no position from the members: leaving again gives
the ring back. -/
theorem removeNode_addNode {d : String} (absent : d ∉ ring.nodes) (clear : ring.Clear d) :
    ((ring.addNode d).removeNode d).ring = ring.ring := by
  refine OrderedMap.ext_mem fun e => ?_
  rw [mem_removeNode, mem_addNode, addNode_virtualNodes]
  constructor
  · intro given
    rcases given with ⟨⟨held, -⟩ | ⟨old, -⟩, gone⟩
    · exact absurd held gone
    · exact old
  · intro old
    have member : e.2 ∈ ring.nodes := mem_nodes.mpr ⟨e.1, old⟩
    have other : e.2 ≠ d := fun same => absent (same ▸ member)
    have free := fun holds => clear e.2 member other e.1 holds (built.holds old)
    exact ⟨.inr ⟨old, free⟩, free⟩

end

theorem mem_nodes_removeNode {ring : HashRing} {c m : String}
    (mem : m ∈ (ring.removeNode c).nodes) : m ∈ ring.nodes := by
  obtain ⟨p, found⟩ := mem_nodes.mp mem
  exact mem_nodes.mpr ⟨p, (mem_removeNode.mp found).1⟩

theorem Clear.removeNode {ring : HashRing} {c d : String} (clear : ring.Clear d) :
    (ring.removeNode c).Clear d :=
  fun m mem => clear m (mem_nodes_removeNode mem)

theorem Clear.addNode {ring : HashRing} {d : String} (clear : ring.Clear d) :
    (ring.addNode d).Clear d := by
  intro m mem other
  obtain ⟨p, found⟩ := mem_nodes.mp mem
  rcases mem_addNode.mp found with ⟨-, same⟩ | ⟨old, -⟩
  · exact absurd same other
  · exact clear m (mem_nodes.mpr ⟨p, old⟩) other

/-- The walk without several departed nodes. -/
theorem foldl_removeNode_walk {cs : List String} {ring : HashRing} (built : ring.Built)
    (clear : ∀ c ∈ cs, ring.Clear c) (key : Nat) :
    ((cs.foldl HashRing.removeNode ring).ring.valuesFrom key).eraseDups =
      (ring.ring.valuesFrom key).eraseDups.filter fun n => decide (n ∉ cs) := by
  induction cs generalizing ring with
  | nil => simp
  | cons c cs ih =>
      have later : ∀ d ∈ cs, (ring.removeNode c).Clear d := fun d mem =>
        (clear d (List.mem_cons_of_mem _ mem)).removeNode
      rw [List.foldl_cons, ih (built.removeNode c) later,
        removeNode_walk built (clear c List.mem_cons_self), List.filter_filter]
      refine List.filter_congr fun n _ => ?_
      rw [Bool.eq_iff_iff]
      simp [and_comm]

/-- The walk before a node joined is the walk with it, without it. -/
theorem addNode_walk {ring : HashRing} (built : ring.Built) {d : String} (absent : d ∉ ring.nodes)
    (clear : ring.Clear d) (key : Nat) :
    (ring.ring.valuesFrom key).eraseDups =
      ((ring.addNode d).ring.valuesFrom key).eraseDups.filter fun n => decide (n ≠ d) := by
  rw [← removeNode_walk (built.addNode d) clear.addNode key, removeNode_addNode built absent clear]

/-- Leaving the head out leaves the second in front. -/
theorem head?_filter_ne {l : List String} (nodup : l.Nodup) (c : String) :
    (l.head? ≠ some c → (l.filter fun n => decide (n ≠ c)).head? = l.head?) ∧
      (l.head? = some c → (l.filter fun n => decide (n ≠ c)).head? = (l.take 2)[1]?) := by
  cases l with
  | nil => simp
  | cons a l =>
      constructor
      · intro other
        have kept : a ≠ c := fun same => other (by rw [same, List.head?_cons])
        rw [List.filter_cons_of_pos (by simpa using kept)]
        rfl
      · intro first
        obtain rfl : a = c := Option.some.inj first
        obtain ⟨fresh, -⟩ := List.nodup_cons.mp nodup
        have others : l.filter (fun n => decide (n ≠ a)) = l := by
          refine List.filter_eq_self.mpr fun n mem => ?_
          have different : n ≠ a := fun same => fresh (same ▸ mem)
          simpa using different
        rw [List.filter_cons_of_neg (by simp), others]
        cases l with
        | nil => rfl
        | cons b l => rfl

/-- A departure takes the node out of every walk and changes nothing else: the
other keys keep their owner, its keys go to their second replica, and after `f`
departures the owner is one of the first `f + 1` replicas.  Read backwards it says
what a new node takes over. -/
theorem failover {ring : HashRing} (built : ring.Built) :
    (∀ c ∈ ring.nodes, ring.Clear c →
      (∀ key n, (ring.removeNode c).getNNodes key n =
        ((ring.getNNodes key ring.nodeCount).filter fun m => decide (m ≠ c)).take n) ∧
      (∀ key, ring.getNode key ≠ some c →
        (ring.removeNode c).getNode key = ring.getNode key) ∧
      (∀ key, ring.getNode key = some c →
        (ring.removeNode c).getNode key = (ring.getNNodes key 2)[1]?)) ∧
    (∀ cs : List String, (∀ c ∈ cs, c ∈ ring.nodes) → (∀ c ∈ cs, ring.Clear c) →
      ∀ r, cs.length < r → ∀ key,
        (∀ owner, (cs.foldl removeNode ring).getNode key = some owner →
          owner ∈ ring.getNNodes key r) ∧
        ((∃ m ∈ ring.nodes, m ∉ cs) → ((cs.foldl removeNode ring).getNode key).isSome)) ∧
    (∀ d, d ∉ ring.nodes → ring.Clear d →
      (∀ key n, ring.getNNodes key n =
        (((ring.addNode d).getNNodes key (ring.addNode d).nodeCount).filter
          fun m => decide (m ≠ d)).take n) ∧
      (∀ key, (ring.addNode d).getNode key ≠ some d →
        (ring.addNode d).getNode key = ring.getNode key)) := by
  refine ⟨fun c _ clear => ⟨fun key n => ?_, fun key other => ?_, fun key owned => ?_⟩,
    fun cs _ clear r few key => ⟨fun owner found => ?_, fun left => ?_⟩,
    fun d absent clear => ⟨fun key n => ?_, fun key other => ?_⟩⟩
  · rw [getNNodes_nodeCount, getNNodes_eq, removeNode_walk built clear]
  · rw [getNode_eq_head] at other
    rw [getNode_eq_head, getNode_eq_head, removeNode_walk built clear]
    exact (head?_filter_ne (List.nodup_eraseDups _) c).1 other
  · rw [getNode_eq_head] at owned
    rw [getNode_eq_head, getNNodes_eq, removeNode_walk built clear]
    exact (head?_filter_ne (List.nodup_eraseDups _) c).2 owned
  · rw [getNode_eq_head, foldl_removeNode_walk built clear] at found
    rw [getNNodes_eq]
    exact List.head?_filter_mem_take (List.nodup_eraseDups _) found few
  · obtain ⟨m, member, stays⟩ := left
    rw [getNode_eq_head, foldl_removeNode_walk built clear, List.isSome_head?]
    have kept : m ∈ (ring.ring.valuesFrom key).eraseDups.filter fun n => decide (n ∉ cs) :=
      List.mem_filter.mpr ⟨List.mem_eraseDups.mpr (mem_valuesFrom.mpr member), by simpa using stays⟩
    exact List.ne_nil_of_mem kept
  · rw [getNNodes_nodeCount, getNNodes_eq, addNode_walk built absent clear]
  · rw [getNode_eq_head] at other
    rw [getNode_eq_head, getNode_eq_head, addNode_walk built absent clear]
    exact ((head?_filter_ne (List.nodup_eraseDups _) d).1 other).symm

/-- Three nodes of two virtual nodes each, of which one leaves. -/
theorem failover_sample :
    let ring := build 2 [.add "a", .add "b", .add "c"]
    ring.Built ∧ "c" ∈ ring.nodes ∧ ring.Clear "c" ∧
      (ring.removeNode "c").getNNodes 0 2 =
        ((ring.getNNodes 0 ring.nodeCount).filter fun m => decide (m ≠ "c")).take 2 := by
  have built : (build 2 [.add "a", .add "b", .add "c"]).Built :=
    ⟨2, [.add "a", .add "b", .add "c"], rfl⟩
  have member : "c" ∈ (build 2 [.add "a", .add "b", .add "c"]).nodes := by decide +kernel
  have clear : (build 2 [.add "a", .add "b", .add "c"]).Clear "c" := by decide +kernel
  exact ⟨built, member, clear, ((failover built).1 "c" member clear).1 0 2⟩

end HashRing

end Ferrocache
