import Ferrocache.Cluster.Ring

/-!
# The replica walk

What `get_n_nodes` returns, said without the loop: the owners of the ring in the
order in which a walk clockwise from the key meets the first virtual node of
each.  `get_node` is written separately, as a successor lookup that falls back
to the lowest position, and returns the first of them.
-/

namespace Ferrocache

namespace HashRing

/-- A walk clockwise from `key` meets the position `p` before `q`: upwards from
the key itself to the highest position, then from the lowest on. -/
def Clockwise (key p q : Nat) : Prop :=
  key ≤ p ∧ (q < key ∨ p < q) ∨ p < key ∧ q < key ∧ p < q

/-- On the circle of the 64-bit positions, the distance from the key upwards. -/
theorem clockwise_iff_distance {key p q : Nat} (inKey : key < 2 ^ 64) (inP : p < 2 ^ 64)
    (inQ : q < 2 ^ 64) :
    Clockwise key p q ↔ (p + 2 ^ 64 - key) % 2 ^ 64 < (q + 2 ^ 64 - key) % 2 ^ 64 := by
  have distance : ∀ r, r < 2 ^ 64 →
      (r + 2 ^ 64 - key) % 2 ^ 64 = if key ≤ r then r - key else r + 2 ^ 64 - key := by
    intro r inR
    split <;> omega
  rw [distance p inP, distance q inQ]
  unfold Clockwise
  split <;> split <;> omega

/-- The first virtual node of an owner that the walk meets. -/
def FirstMet (ring : HashRing) (key : Nat) (owner : String) (p : Nat) : Prop :=
  (p, owner) ∈ ring.ring.entries ∧
    ∀ q, (q, owner) ∈ ring.ring.entries → q ≠ p → Clockwise key p q

/-- The walk meets the owner `a` before the owner `b`. -/
def MetBefore (ring : HashRing) (key : Nat) (a b : String) : Prop :=
  ∃ p q, ring.FirstMet key a p ∧ ring.FirstMet key b q ∧ Clockwise key p q

/-- The first `n` owners of the walk from a key. -/
structure Walk (ring : HashRing) (key n : Nat) (listed : List String) : Prop where
  nodup : listed.Nodup
  length : listed.length = min n ring.nodeCount
  owners : ∀ a ∈ listed, a ∈ ring.nodes
  ordered : listed.Pairwise (ring.MetBefore key)
  /-- and no other owner is met before one of them -/
  first : ∀ a ∈ listed, ∀ b ∈ ring.nodes, b ∉ listed → ring.MetBefore key a b

variable (ring : HashRing) (key : Nat)

/-- The entries in the order of the walk. -/
def walker : List (Nat × String) :=
  ring.ring.entries.filter (key ≤ ·.1) ++ ring.ring.entries.filter (·.1 < key)

theorem mem_walker {e : Nat × String} : e ∈ ring.walker key ↔ e ∈ ring.ring.entries := by
  unfold walker
  rw [List.mem_append, List.mem_filter, List.mem_filter, ← and_or_left]
  refine and_iff_left ?_
  rcases Nat.lt_or_ge e.1 key with below | above
  · exact .inr (by simpa using below)
  · exact .inl (by simpa using above)

theorem walker_pairwise : (ring.walker key).Pairwise fun e f => Clockwise key e.1 f.1 := by
  unfold walker
  refine List.pairwise_append.mpr ⟨?_, ?_, fun e upper f lower => ?_⟩
  · refine (ring.ring.sorted.filter _).imp_of_mem fun memE _ lt => ?_
    exact .inl ⟨by simpa using (List.mem_filter.mp memE).2, .inr lt⟩
  · refine (ring.ring.sorted.filter _).imp_of_mem fun memE memF lt => ?_
    exact .inr ⟨by simpa using (List.mem_filter.mp memE).2,
      by simpa using (List.mem_filter.mp memF).2, lt⟩
  · exact .inl ⟨by simpa using (List.mem_filter.mp upper).2,
      .inl (by simpa using (List.mem_filter.mp lower).2)⟩

/-- The entry that the walk meets first for an owner. -/
theorem firstMet_of_find {owner : String} {e : Nat × String}
    (found : (ring.walker key).find? (fun f => f.2 == owner) = some e) :
    ring.FirstMet key owner e.1 := by
  obtain ⟨is, before, after, split, passed⟩ := List.find?_eq_some_iff_append.mp found
  have own : e.2 = owner := by simpa using is
  subst own
  refine ⟨(ring.mem_walker key).mp (split ▸ by simp), fun q mem other => ?_⟩
  have ordered := ring.walker_pairwise key
  have there := (ring.mem_walker key).mpr mem
  rw [split] at ordered there
  rcases List.mem_append.mp there with earlier | later
  · simpa using passed _ earlier
  · rcases List.mem_cons.mp later with same | behind
    · exact absurd (congrArg Prod.fst same) other
    · exact (List.pairwise_cons.mp (List.pairwise_append.mp ordered).2.1).1 _ behind

/-- All the owners, in the order of the walk. -/
theorem walk_pairwise : (ring.ring.valuesFrom key).eraseDups.Pairwise (ring.MetBefore key) := by
  refine (List.pairwise_eraseDups_map Prod.snd _ (ring.walker_pairwise key)).imp fun given => ?_
  obtain ⟨x, y, foundX, foundY, before⟩ := given
  exact ⟨x.1, y.1, ring.firstMet_of_find key foundX, ring.firstMet_of_find key foundY, before⟩

theorem getNNodes_walk (n : Nat) : ring.Walk key n (ring.getNNodes key n) := by
  have whole := ring.walk_pairwise key
  have distinct := List.nodup_eraseDups (ring.ring.valuesFrom key)
  have count : (ring.ring.valuesFrom key).eraseDups.length = ring.nodeCount := by
    refine ((List.perm_ext_iff_of_nodup distinct ring.nodes_nodup).mpr fun m => ?_).length_eq
    rw [List.mem_eraseDups, mem_valuesFrom]
  rw [getNNodes_eq]
  refine ⟨distinct.sublist (List.take_sublist _ _), ?_, fun a mem => ?_,
    whole.sublist (List.take_sublist _ _), fun a listed b member unlisted => ?_⟩
  · rw [List.length_take, count]
  · exact mem_valuesFrom.mp (List.mem_eraseDups.mp (List.mem_of_mem_take mem))
  · have there := List.mem_eraseDups.mpr (mem_valuesFrom.mpr member : b ∈ ring.ring.valuesFrom key)
    rw [← List.take_append_drop n (ring.ring.valuesFrom key).eraseDups] at there whole
    rcases List.mem_append.mp there with inside | behind
    · exact absurd inside unlisted
    · exact (List.pairwise_append.mp whole).2.2 a listed b behind

theorem getNNodes_prefix (n : Nat) : ring.getNNodes key n <+: ring.getNNodes key (n + 1) := by
  rw [getNNodes_eq, getNNodes_eq]
  exact List.take_prefix_take_left (Nat.le_succ n)

theorem head?_getNNodes (n : Nat) : (ring.getNNodes key (n + 1)).head? = ring.getNode key := by
  rw [getNNodes_eq, getNode_eq_head, List.head?_take, if_neg (Nat.succ_ne_zero n)]

end HashRing

namespace ClusterState

/-- The node that a query is routed to is the first of the insert's replicas, under
the address that a replica has. -/
theorem head?_getReplicaAddrs (self : ClusterState) {embedding : Embedding} (n : Nat)
    {id addr : String} (target : self.getTargetAddr embedding = some (id, addr)) :
    (self.getReplicaAddrs embedding (n + 1)).head? =
      some (id, if id = self.selfNodeId then self.selfApiAddr else addr) := by
  unfold getTargetAddr HashRing.getNodeForEmbedding at target
  obtain ⟨owner, owned, found⟩ := Option.bind_eq_some_iff.mp target
  obtain ⟨known, lookup, same⟩ := Option.bind_eq_some_iff.mp found
  cases same
  have head := self.ring.head?_getNNodes (embeddingToKey embedding) n
  rw [owned] at head
  obtain ⟨rest, listed⟩ := List.head?_eq_some_iff.mp head
  have addressed : (if id = self.selfNodeId then some self.selfApiAddr else self.addrs.lookup id) =
      some (if id = self.selfNodeId then self.selfApiAddr else addr) := by
    rw [lookup]
    split <;> rfl
  unfold getReplicaAddrs HashRing.getNNodesForEmbedding
  rw [listed, List.filterMap_cons, addressed]
  rfl

end ClusterState

/-- The walk of `get_n_nodes` from any key of any ring, and the routing that rests
on it. -/
theorem replica_walk (ring : HashRing) (key n : Nat) :
    ring.Walk key n (ring.getNNodes key n) ∧
      ring.getNNodes key n <+: ring.getNNodes key (n + 1) ∧
      (0 < n → (ring.getNNodes key n).head? = ring.getNode key) ∧
      ∀ (self : ClusterState) (embedding : Embedding) (id addr : String), 0 < n →
        self.getTargetAddr embedding = some (id, addr) →
        (self.getReplicaAddrs embedding n).head? =
          some (id, if id = self.selfNodeId then self.selfApiAddr else addr) := by
  refine ⟨ring.getNNodes_walk key n, ring.getNNodes_prefix key n, fun positive => ?_,
    fun self embedding id addr positive target => ?_⟩
  · obtain ⟨k, rfl⟩ := Nat.exists_eq_add_one_of_ne_zero (Nat.ne_of_gt positive)
    exact ring.head?_getNNodes key k
  · obtain ⟨k, rfl⟩ := Nat.exists_eq_add_one_of_ne_zero (Nat.ne_of_gt positive)
    exact self.head?_getReplicaAddrs k target

/-- Two nodes, and the key 0, below both positions. -/
theorem replica_walk_sample :
    (ClusterState.sample "b" ∅).getTargetAddr [] = some ("a", "a:3000") ∧
      ((ClusterState.sample "b" ∅).getReplicaAddrs [] 2).head? = some ("a", "a:3000") := by
  have target : (ClusterState.sample "b" ∅).getTargetAddr [] = some ("a", "a:3000") := by
    decide +kernel
  exact ⟨target, (replica_walk (ClusterState.sample "b" ∅).ring 0 2).2.2.2
    (ClusterState.sample "b" ∅) [] "a" "a:3000" (by decide) target⟩

end Ferrocache
