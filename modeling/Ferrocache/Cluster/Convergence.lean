import Mathlib.Order.Filter.AtTopBot.Basic
import Mathlib.Order.Filter.Finite
import Ferrocache.Cluster.Silence
import Ferrocache.Cluster.Walk

/-!
# Convergence of the rings

Every node of a cluster runs a reconciler of its own, at its own times and with
a history of its own.  Once the gossip lists the same members on all of them,
the passes of the nodes bring the rings together, whatever they held before and
however the passes interleave, as long as they remove dead nodes: after two late
passes of each, all nodes route every embedding to the same member and name the
same replicas under the same addresses (`rings_converge`).
-/

namespace Ferrocache

namespace Reconciler

open PhiAccrualDetector

variable {F : Type} (arith : PhiArithmetic F) (selfNodeId selfApiAddr : String)

/-- What the handlers of the node read. -/
def view (self : Reconciler F) (statuses : HashMap String PeerStatus) : ClusterState :=
  ⟨self.ring, self.addrs, statuses, selfNodeId, selfApiAddr⟩

/-- A pass at or after `from_`. -/
def late (from_ : Nat) (pass : ReconcilePass) : Bool := decide (from_ ≤ pass.checkedAt)

/-- Passes of one node that removes dead nodes, while the gossip lists the same
members. -/
inductive Passes (members : HashMap String String) (start : Reconciler F) :
    List ReconcilePass → Reconciler F → Prop
  | nil : Passes members start [] start
  | snoc {passes : List ReconcilePass} {self : Reconciler F} {pass : ReconcilePass} :
    Passes members start passes self → pass.snapshot = members →
    pass.deadNodeRemovalEnabled = true → Admissible arith selfNodeId selfApiAddr self pass →
    Passes members start (passes ++ [pass]) (self.reconcileStep arith selfNodeId selfApiAddr pass)

variable {arith selfNodeId selfApiAddr} {members : HashMap String String} {used : Set String}
  {start self : Reconciler F} {passes : List ReconcilePass}

/-! ## One node -/

theorem Passes.reachable (run : Passes arith selfNodeId selfApiAddr members start passes self)
    (reached : start.Reachable arith selfNodeId selfApiAddr used)
    (named : ∀ id ∈ members, id ∈ used) :
    self.Reachable arith selfNodeId selfApiAddr used ∧
      self.ring.virtualNodes = start.ring.virtualNodes := by
  induction run with
  | nil => exact ⟨reached, rfl⟩
  | snoc run listed enabled admissible ih =>
      refine ⟨.step ih.1 admissible (listed ▸ named), ?_⟩
      rw [reconcileStep_virtualNodes]
      exact ih.2

/-- The passes as calls of the detector; a peer that is no member sends nothing. -/
theorem Passes.calls (run : Passes arith selfNodeId selfApiAddr members start passes self) :
    ∃ later, Calls arith start.failureDetector later self.failureDetector ∧
      (∀ id, id ∉ members → ∀ c ∈ later, c.Quiet id) ∧
      ∀ from_, passes.countP (late from_) ≤ later.countP (Call.late from_) := by
  induction run with
  | nil => exact ⟨[], .nil, fun _ _ c none => absurd none List.not_mem_nil, fun _ => le_rfl⟩
  | @snoc passes self pass run listed enabled admissible ih =>
      obtain ⟨later, calls, quiet, count⟩ := ih
      obtain ⟨beats, more, still⟩ := calls_reconcileStep admissible
      refine ⟨_, calls.append more, fun id away c mem => ?_, fun from_ => ?_⟩
      · rcases List.mem_append.mp mem with old | new
        · exact quiet id away c old
        · have check : Call.Quiet id (.check pass.peerOrder pass.checkedAt) := trivial
          exact quiet_concat (still id (listed ▸ away)) check c new
      · have before := count from_
        simp only [List.countP_append, List.countP_singleton]
        have same : Call.late from_ (.check pass.peerOrder pass.checkedAt) = late from_ pass := rfl
        rw [same]
        omega

/-- The ring never takes up others than the members. -/
theorem Passes.mem_ring (run : Passes arith selfNodeId selfApiAddr members start passes self)
    (reached : start.Reachable arith selfNodeId selfApiAddr used)
    (known : selfNodeId ∈ used) (named : ∀ id ∈ members, id ∈ used)
    (disjoint : Disjoint used start.ring.virtualNodes) {id : String} (mem : id ∈ self.ring.nodes) :
    id ∈ members ∨ id ∈ start.ring.nodes := by
  induction run with
  | nil => exact .inr mem
  | snoc run listed enabled admissible ih =>
      obtain ⟨here, same⟩ := run.reachable reached named
      rw [← same] at disjoint
      obtain ⟨-, -, removed, -, -, nodes, -⟩ := reconcileStep_spec (here.consistent known disjoint)
        disjoint admissible (listed ▸ named)
      rcases ((nodes id).mp mem).2 with member | old
      · exact .inl (listed ▸ member)
      · exact ih old

/-- The addresses after a pass. -/
theorem lookup_addrs_reconcileStep {pass : ReconcilePass}
    (admissible : Admissible arith selfNodeId selfApiAddr self pass) {id : String}
    (listed : id ∈ pass.snapshot)
    (kept : id ∈ (self.reconcileStep arith selfNodeId selfApiAddr pass).addrs) :
    (self.reconcileStep arith selfNodeId selfApiAddr pass).addrs.lookup id =
      if id = selfNodeId then some selfApiAddr else pass.snapshot.lookup id := by
  have discovered : (updateAddrs selfNodeId selfApiAddr self.addrs pass).lookup id =
      if id = selfNodeId then some selfApiAddr else pass.snapshot.lookup id := by
    unfold updateAddrs
    rw [HashMap.lookup_insert_eq]
    refine if_congr Iff.rfl rfl ?_
    obtain ⟨addr, found⟩ := Finmap.mem_iff.mp listed
    have pairs : ∀ e ∈ pass.order.filterMap (fun id => (pass.snapshot.lookup id).map (id, ·)),
        pass.snapshot.lookup e.1 = some e.2 := by
      intro e mem
      obtain ⟨key, -, pair⟩ := List.mem_filterMap.mp mem
      obtain ⟨value, read, rfl⟩ := Option.map_eq_some_iff.mp pair
      exact read
    obtain ⟨before, last, after, split, rfl, unique⟩ := HashMap.exists_last
      (p := fun e : String × String => e.1 = id)
      (l := pass.order.filterMap fun id => (pass.snapshot.lookup id).map (id, ·))
      ⟨(id, addr), List.mem_filterMap.mpr ⟨id, (admissible.visits.2 id).mpr listed, by rw [found]; rfl⟩,
        rfl⟩
    have read := pairs last (split ▸ List.mem_append_right _ List.mem_cons_self)
    rw [split, read]
    refine HashMap.lookup_insertAll_of_last before fun again => ?_
    obtain ⟨e, inAfter, same⟩ := List.mem_map.mp again
    exact unique e inAfter same
  unfold reconcileStep at kept ⊢
  dsimp only at kept ⊢
  split at kept
  · next enabled =>
      rw [if_pos enabled]
      unfold leave at kept ⊢
      obtain ⟨addr, found⟩ := Finmap.mem_iff.mp kept
      dsimp only at found ⊢
      rw [HashMap.lookup_eraseAll] at found ⊢
      split at found
      · cases found
      · next stays =>
          rw [if_neg stays]
          exact discovered
  · next disabled =>
      rw [if_neg disabled]
      exact discovered

/-- The ring and the addresses are those of the members. -/
structure Settled (virtualNodes : Nat) (members : HashMap String String) (node : Reconciler F) :
    Prop where
  entries : ∀ e, e ∈ node.ring.ring.entries ↔ e.2 ∈ members ∧ HashRing.Holds virtualNodes e.2 e.1
  nodes : ∀ id, id ∈ node.ring.nodes ↔ id ∈ members
  addrs : ∀ id, node.addrs.lookup id = members.lookup id

/-- A peer that left is out of the ring after two late passes. -/
theorem Passes.dropped (run : Passes arith selfNodeId selfApiAddr members start passes self)
    (reached : start.Reachable arith selfNodeId selfApiAddr used)
    (named : ∀ id ∈ members, id ∈ used) {id : String} (away : id ∉ members) {state : PeerState}
    (tracked : start.failureDetector.peers.lookup id = some state)
    (history : state.heartbeatHistory ≠ []) {long : Nat}
    (rises : ∀ silence, long ≤ silence →
      arith.ge (arith.computePhi start.failureDetector.minStdDevMs silence state.heartbeatHistory)
        start.failureDetector.phiThreshold = true ∧
      arith.ge (arith.computePhi start.failureDetector.minStdDevMs silence state.heartbeatHistory)
        (arith.double start.failureDetector.phiThreshold) = true)
    (two : 2 ≤ passes.countP (late (state.lastHeartbeat + long))) : id ∉ self.ring.nodes := by
  obtain ⟨later, calls, quiet, count⟩ := run.calls
  obtain ⟨status, found, level⟩ := calls.late_level (quiet id away) tracked history rises
  have enough := count (state.lastHeartbeat + long)
  have dead : status = .dead := by
    rcases status with _ | _ | _
    · change _ ≤ 0 at level
      omega
    · change _ ≤ 1 at level
      omega
    · rfl
  -- the removal is done by the last pass
  cases run with
  | nil => cases two
  | snoc run listed enabled admissible =>
      exact notMem_reconcileStep (run.reachable reached named).1.built admissible enabled found dead

/-- A ring without collisions holds the positions of its nodes. -/
theorem Consistent.mem_entries (consistent : Consistent selfNodeId used self)
    (disjoint : Disjoint used self.ring.virtualNodes) (e : Nat × String) :
    e ∈ self.ring.ring.entries ↔
      e.2 ∈ self.ring.nodes ∧ HashRing.Holds self.ring.virtualNodes e.2 e.1 := by
  obtain ⟨virtualNodes, ops, built, names⟩ := consistent.tracks
  rw [built] at disjoint ⊢
  rw [HashRing.build_virtualNodes] at disjoint ⊢
  have apart := fun a memA b memB => disjoint a (names a memA) b (names b memB)
  rw [HashRing.mem_build_iff apart, HashRing.mem_nodes_build apart]

/-- After two late passes a node holds the members and nobody else. -/
theorem eventually_settled (known : selfNodeId ∈ used)
    (reached : start.Reachable arith selfNodeId selfApiAddr used)
    (named : ∀ id ∈ members, id ∈ used) (disjoint : Disjoint used start.ring.virtualNodes)
    (own : members.lookup selfNodeId = some selfApiAddr)
    (rises : start.failureDetector.Rises arith)
    (heard : ∀ id ∈ start.ring.nodes, id ∉ members →
      ∃ state, start.failureDetector.peers.lookup id = some state ∧ state.heartbeatHistory ≠ []) :
    ∀ᶠ from_ in Filter.atTop, ∀ passes self,
      Passes arith selfNodeId selfApiAddr members start passes self →
      2 ≤ passes.countP (late from_) → Settled start.ring.virtualNodes members self := by
  have gone : ∀ᶠ from_ in Filter.atTop, ∀ id ∈ start.ring.nodes.toFinset, id ∉ members →
      ∀ passes self, Passes arith selfNodeId selfApiAddr members start passes self →
      2 ≤ passes.countP (late from_) → id ∉ self.ring.nodes := by
    refine (Filter.eventually_all_finset _).mpr fun id mem => ?_
    by_cases stays : id ∈ members
    · exact .of_forall fun from_ away => absurd stays away
    · obtain ⟨state, tracked, history⟩ := heard id (List.mem_toFinset.mp mem) stays
      obtain ⟨long, above⟩ := rises state.heartbeatHistory history
      refine Filter.eventually_atTop.mpr ⟨state.lastHeartbeat + long, ?_⟩
      intro from_ later away passes self run two
      refine run.dropped reached named away tracked history above (two.trans ?_)
      refine List.countP_mono_left fun pass _ isLate => ?_
      simp only [late, decide_eq_true_eq] at isLate ⊢
      omega
  filter_upwards [gone] with from_ dropped passes self run two
  obtain ⟨here, virtual⟩ := run.reachable reached named
  have apart : Disjoint used self.ring.virtualNodes := virtual ▸ disjoint
  have consistent := here.consistent known apart
  have nodes : ∀ id, id ∈ self.ring.nodes ↔ id ∈ members := by
    refine fun id => ⟨fun mem => ?_, fun member => ?_⟩
    · by_contra away
      have old := (run.mem_ring reached known named disjoint mem).resolve_left away
      exact dropped id (List.mem_toFinset.mpr old) away passes self run two mem
    · cases run with
      | nil => cases two
      | snoc run listed enabled admissible =>
          obtain ⟨before, same⟩ := run.reachable reached named
          have apart' := same ▸ disjoint
          exact (reconcileStep_spec (before.consistent known apart') apart' admissible
            (listed ▸ named)).2.1 id (listed ▸ member)
  refine ⟨fun e => ?_, nodes, fun id => ?_⟩
  · rw [consistent.mem_entries apart, nodes, virtual]
  · by_cases member : id ∈ members
    · have kept := (consistent.addressed id).mp ((nodes id).mpr member)
      cases run with
      | nil => cases two
      | snoc run listed enabled admissible =>
          rw [lookup_addrs_reconcileStep admissible (listed ▸ member) kept, listed]
          split
          · next self =>
              rw [self]
              exact own.symm
          · rfl
    · have absent : id ∉ self.addrs := fun mem =>
        member ((nodes id).mp ((consistent.addressed id).mpr mem))
      rw [Finmap.lookup_eq_none.mpr absent, Finmap.lookup_eq_none.mpr member]

end Reconciler

/-! ## The cluster -/

section Cluster

open Reconciler

variable {F : Type} (arith : PhiArithmetic F) (apiAddr : String → String)

/-- Passes of the members in any order. -/
inductive GossipRun (members : HashMap String String) (start : String → Reconciler F) :
    List (String × ReconcilePass) → (String → Reconciler F) → Prop
  | nil : GossipRun members start [] start
  | snoc {run : List (String × ReconcilePass)} {all : String → Reconciler F} {id : String}
    {pass : ReconcilePass} : GossipRun members start run all → id ∈ members →
    pass.snapshot = members → pass.deadNodeRemovalEnabled = true →
    Admissible arith id (apiAddr id) (all id) pass →
    GossipRun members start (run ++ [(id, pass)])
      (Function.update all id ((all id).reconcileStep arith id (apiAddr id) pass))

/-- The passes of one node. -/
def passesOf (id : String) (run : List (String × ReconcilePass)) : List ReconcilePass :=
  (run.filter (·.1 = id)).map Prod.snd

variable {arith apiAddr} {members : HashMap String String} {start all : String → Reconciler F}
  {run : List (String × ReconcilePass)}

/-- A node is changed by its own passes only. -/
theorem GossipRun.passes (gossip : GossipRun arith apiAddr members start run all) (id : String) :
    Passes arith id (apiAddr id) members (start id) (passesOf id run) (all id) := by
  induction gossip with
  | nil => exact .nil
  | @snoc run all other pass gossip member listed enabled admissible ih =>
      unfold passesOf at ih ⊢
      rw [List.filter_append, List.map_append]
      by_cases same : other = id
      · subst same
        rw [List.filter_cons_of_pos (by simp), Function.update_self]
        exact ih.snoc listed enabled admissible
      · rw [List.filter_cons_of_neg (by simpa using same), Function.update_of_ne (Ne.symm same)]
        simpa using ih

/-- How a settled node routes an embedding, in terms of the members alone. -/
theorem Reconciler.Settled.route {virtualNodes : Nat} {self : Reconciler F}
    (settled : Settled virtualNodes members self) {id : String}
    (addressed : ∀ id ∈ members, members.lookup id = some (apiAddr id))
    (statuses : HashMap String PeerStatus) (embedding : Embedding) (n : Nat) :
    let view := self.view id (apiAddr id) statuses
    (view.getTargetAddr embedding =
        (self.ring.getNodeForEmbedding embedding).map fun owner => (owner, apiAddr owner)) ∧
      view.getReplicaAddrs embedding n =
        (self.ring.getNNodesForEmbedding embedding n).map fun replica =>
          (replica, apiAddr replica) := by
  have known : ∀ m, m ∈ self.ring.nodes → self.addrs.lookup m = some (apiAddr m) := fun m mem => by
    rw [settled.addrs]
    exact addressed m ((settled.nodes m).mp mem)
  intro view
  constructor
  · change (self.ring.getNodeForEmbedding embedding).bind _ = _
    cases owned : self.ring.getNodeForEmbedding embedding with
    | none => rfl
    | some owner =>
        have mem : owner ∈ self.ring.nodes := by
          unfold HashRing.getNodeForEmbedding at owned
          rw [HashRing.getNode_eq] at owned
          exact HashRing.mem_valuesFrom.mp (List.mem_of_mem_head? owned)
        change (self.addrs.lookup owner).bind _ = _
        rw [known owner mem]
        rfl
  · change (self.ring.getNNodesForEmbedding embedding n).filterMap _ = _
    rw [← List.filterMap_eq_map]
    refine List.filterMap_congr fun replica mem => ?_
    have inside : replica ∈ self.ring.nodes :=
      (self.ring.getNNodes_walk (embeddingToKey embedding) n).owners replica mem
    change (if replica = id then some (apiAddr id) else self.addrs.lookup replica).map _ = _
    split
    · next same =>
        rw [same]
        rfl
    · rw [known replica inside]
      rfl

/-- Once the gossip lists the same members everywhere, any interleaving of passes
in which every member has two late ones leaves all of them with the same ring:
they route every embedding to the same member and name the same replicas under
the same addresses, as many as there are, whatever their rings held before.  Every
pass removes dead nodes, all nodes have the same number of virtual nodes, and no
two of the nodes ever used share a ring position, the departed ones included. -/
theorem rings_converge {used : Set String} {virtualNodes : Nat}
    (disjoint : Reconciler.Disjoint used virtualNodes) (named : ∀ id ∈ members, id ∈ used)
    (addressed : ∀ id ∈ members, members.lookup id = some (apiAddr id))
    (reached : ∀ id ∈ members, (start id).Reachable arith id (apiAddr id) used)
    (sized : ∀ id ∈ members, (start id).ring.virtualNodes = virtualNodes)
    (rises : ∀ id ∈ members, (start id).failureDetector.Rises arith)
    (heard : ∀ id ∈ members, ∀ other ∈ (start id).ring.nodes, other ∉ members →
      ∃ state, (start id).failureDetector.peers.lookup other = some state ∧
        state.heartbeatHistory ≠ []) :
    ∃ from_, ∀ run all, GossipRun arith apiAddr members start run all →
      (∀ id ∈ members, 2 ≤ (passesOf id run).countP (late from_)) →
      ∀ a ∈ members, ∀ b ∈ members, ∀ statuses statuses' embedding n,
        let here := (all a).view a (apiAddr a) statuses
        let there := (all b).view b (apiAddr b) statuses'
        (∃ owner ∈ members, here.getTargetAddr embedding = some (owner, apiAddr owner)) ∧
          here.getTargetAddr embedding = there.getTargetAddr embedding ∧
          (here.getReplicaAddrs embedding n).length = min n members.keys.card ∧
          (∀ r ∈ here.getReplicaAddrs embedding n, r.1 ∈ members ∧ r.2 = apiAddr r.1) ∧
          here.getReplicaAddrs embedding n = there.getReplicaAddrs embedding n := by
  have settles : ∀ᶠ from_ in Filter.atTop, ∀ id ∈ members.keys, ∀ passes self,
      Passes arith id (apiAddr id) members (start id) passes self →
      2 ≤ passes.countP (late from_) → Settled virtualNodes members self := by
    refine (Filter.eventually_all_finset _).mpr fun id mem => ?_
    have member := Finmap.mem_keys.mp mem
    rw [← sized id member] at disjoint ⊢
    exact eventually_settled (named id member) (reached id member) named disjoint
      (addressed id member) (rises id member) (heard id member)
  obtain ⟨from_, settled⟩ := settles.exists
  refine ⟨from_, ?_⟩
  intro run all gossip two a memA b memB statuses statuses' embedding n here there
  have ready : ∀ id ∈ members, Settled virtualNodes members (all id) := fun id mem =>
    settled id (Finmap.mem_keys.mpr mem) _ _ (gossip.passes id) (two id mem)
  have same : (all a).ring.ring = (all b).ring.ring := by
    refine OrderedMap.ext_mem fun e => ?_
    rw [(ready a memA).entries, (ready b memB).entries]
  obtain ⟨target, replicas⟩ := (ready a memA).route addressed statuses embedding n
  obtain ⟨target', replicas'⟩ := (ready b memB).route addressed statuses' embedding n
  have walk := (all a).ring.getNNodes_walk (embeddingToKey embedding) n
  refine ⟨?_, ?_, ?_, ?_, ?_⟩
  · have filled : (all a).ring.ring.valuesFrom (embeddingToKey embedding) ≠ [] :=
      List.ne_nil_of_mem (HashRing.mem_valuesFrom.mpr (((ready a memA).nodes a).mpr memA))
    have owner := List.head_mem filled
    refine ⟨_, ((ready a memA).nodes _).mp (HashRing.mem_valuesFrom.mp owner), ?_⟩
    rw [target]
    unfold HashRing.getNodeForEmbedding
    rw [HashRing.getNode_eq, List.head?_eq_some_head filled]
    rfl
  · rw [target, target']
    unfold HashRing.getNodeForEmbedding HashRing.getNode
    rw [same]
  · have count : (all a).ring.nodeCount = members.keys.card := by
      unfold HashRing.nodeCount
      rw [← List.toFinset_card_of_nodup (all a).ring.nodes_nodup]
      congr 1
      ext id
      rw [List.mem_toFinset, (ready a memA).nodes, Finmap.mem_keys]
    rw [replicas, List.length_map, ← count]
    exact walk.length
  · intro r mem
    rw [replicas] at mem
    obtain ⟨replica, listed, rfl⟩ := List.mem_map.mp mem
    exact ⟨((ready a memA).nodes replica).mp (walk.owners replica listed), rfl⟩
  · rw [replicas, replicas']
    unfold HashRing.getNNodesForEmbedding HashRing.getNNodes
    rw [same]

/-- A node can run a pass at any time, whatever the gossip lists. -/
theorem exists_pass (arith : PhiArithmetic F) (self : Reconciler F) {id : String} (addr : String)
    (member : id ∈ members) (t : Nat) :
    ∃ pass : ReconcilePass, pass.snapshot = members ∧ pass.deadNodeRemovalEnabled = true ∧
      pass.checkedAt = t ∧ Admissible arith id addr self pass := by
  have visits : ∀ {V : Type} (m : HashMap String V), HashMap.IterOrder m m.keys.toList :=
    fun m => ⟨Finset.nodup_toList _, fun k => Finset.mem_toList.trans Finmap.mem_keys⟩
  let first : ReconcilePass := ⟨members, members.keys.toList, fun _ => t, t, [], [], true⟩
  let second : ReconcilePass :=
    { first with peerOrder := (self.discover id addr first).failureDetector.peers.keys.toList }
  let third : ReconcilePass :=
    { second with statusOrder := (self.checked arith id addr second).2.keys.toList }
  exact ⟨third, rfl, rfl, rfl, member, visits _, visits _, visits _⟩

section Example

/-- Nodes `a` and `c`; `a` has heard of `b` twice, and `b` is gone. -/
def pairMembers : HashMap String String :=
  ((∅ : HashMap String String).insert "a" "a:3000").insert "c" "c:3000"

def pairAddr (id : String) : String := if id = "a" then "a:3000" else "c:3000"

def pairStart (id : String) : Reconciler Nat :=
  if id = "a" then seenTwice else Reconciler.new silence id (pairAddr id) 2 8 100 100

theorem mem_pairMembers {id : String} : id ∈ pairMembers ↔ id = "c" ∨ id = "a" := by
  unfold pairMembers
  rw [Finmap.mem_insert, Finmap.mem_insert]
  refine or_congr_right (or_iff_left ?_)
  exact Finmap.notMem_empty

/-- Two passes of each node bring the two rings together. -/
theorem rings_converge_sample :
    "b" ∈ (pairStart "a").ring.nodes ∧ "c" ∉ (pairStart "a").ring.nodes ∧
      ∃ run all, GossipRun silence pairAddr pairMembers pairStart run all ∧
        ∀ statuses embedding n,
          ((all "a").view "a" "a:3000" statuses).getReplicaAddrs embedding n =
            ((all "c").view "c" "c:3000" statuses).getReplicaAddrs embedding n := by
  have disjoint : Reconciler.Disjoint {"a", "b", "c"} 2 := by
    have apart : ∀ a ∈ ["a", "b", "c"], ∀ b ∈ ["a", "b", "c"], a ≠ b → HashRing.Apart 2 a b := by
      decide +kernel
    exact fun a memA b memB => apart a (by simpa using memA) b (by simpa using memB)
  have memA : "a" ∈ pairMembers := mem_pairMembers.mpr (.inr rfl)
  have memC : "c" ∈ pairMembers := mem_pairMembers.mpr (.inl rfl)
  have heardB : seenTwice.failureDetector.peers.lookup "b" = some ⟨[1], 6, .alive⟩ := by
    decide +kernel
  have nodesA : (pairStart "a").ring.nodes = ["a", "b"] := by decide +kernel
  have nodesC : (pairStart "c").ring.nodes = ["c"] := by decide +kernel
  have seen : seenTwice.Reachable silence "a" "a:3000" {"a", "b", "c"} := by
    have listed : ∀ id ∈ firstPass.snapshot, id ∈ ({"a", "b", "c"} : Set String) := by
      intro id mem
      have visited := ((by decide +kernel :
        HashMap.IterOrder firstPass.snapshot firstPass.order).2 id).mpr mem
      rcases List.mem_cons.mp visited with rfl | last
      · exact .inr (.inl rfl)
      · rw [List.mem_singleton.mp last]
        exact .inl rfl
    refine .step (.step (.new 2 8 100 100) ?_ listed) ?_ listed
    · exact ⟨by decide +kernel, by decide +kernel, by decide +kernel, by decide +kernel⟩
    · exact ⟨by decide +kernel, by decide +kernel, by decide +kernel, by decide +kernel⟩
  have named : ∀ id ∈ pairMembers, id ∈ ({"a", "b", "c"} : Set String) := by
    intro id mem
    rcases mem_pairMembers.mp mem with rfl | rfl
    · exact .inr (.inr rfl)
    · exact .inl rfl
  have addressed : ∀ id ∈ pairMembers, pairMembers.lookup id = some (pairAddr id) := by
    intro id mem
    rcases mem_pairMembers.mp mem with rfl | rfl
    · decide +kernel
    · decide +kernel
  have reached : ∀ id ∈ pairMembers,
      (pairStart id).Reachable silence id (pairAddr id) {"a", "b", "c"} := by
    intro id mem
    rcases mem_pairMembers.mp mem with rfl | rfl
    · exact .new 2 8 100 100
    · exact seen
  have sized : ∀ id ∈ pairMembers, (pairStart id).ring.virtualNodes = 2 := by
    intro id mem
    rcases mem_pairMembers.mp mem with rfl | rfl
    · rfl
    · rfl
  have heard : ∀ id ∈ pairMembers, ∀ other ∈ (pairStart id).ring.nodes, other ∉ pairMembers →
      ∃ state, (pairStart id).failureDetector.peers.lookup other = some state ∧
        state.heartbeatHistory ≠ [] := by
    intro id mem other inside away
    rcases mem_pairMembers.mp mem with rfl | rfl
    · rw [nodesC] at inside
      exact absurd (List.mem_singleton.mp inside ▸ memC) away
    · rw [nodesA] at inside
      rcases List.mem_cons.mp inside with rfl | last
      · exact absurd memA away
      · rw [List.mem_singleton.mp last]
        exact ⟨_, heardB, by decide⟩
  obtain ⟨from_, agrees⟩ := rings_converge disjoint named addressed reached sized
    (fun id _ => rises_silence _) heard
  refine ⟨by rw [nodesA]; decide, by rw [nodesA]; decide, ?_⟩
  -- each node runs two passes at that time
  have again : ∀ {run all} id, GossipRun silence pairAddr pairMembers pairStart run all →
      id ∈ pairMembers → ∃ pass all', pass.checkedAt = from_ ∧
        GossipRun silence pairAddr pairMembers pairStart (run ++ [(id, pass)]) all' := by
    intro run all id gossip member
    obtain ⟨pass, listed, enabled, time, admissible⟩ :=
      exists_pass silence (all id) (pairAddr id) member from_
    exact ⟨pass, _, time, gossip.snoc member listed enabled admissible⟩
  obtain ⟨p, _, timeP, gossip⟩ := again "a" .nil memA
  obtain ⟨q, _, timeQ, gossip⟩ := again "c" gossip memC
  obtain ⟨r, _, timeR, gossip⟩ := again "a" gossip memA
  obtain ⟨s, all, timeS, gossip⟩ := again "c" gossip memC
  refine ⟨_, all, gossip, fun statuses embedding n => ?_⟩
  refine (agrees _ all gossip ?_ "a" memA "c" memC statuses statuses embedding n).2.2.2.2
  intro id mem
  rcases mem_pairMembers.mp mem with rfl | rfl
  · simp [passesOf, late, timeQ, timeS]
  · simp [passesOf, late, timeP, timeR]

end Example

end Cluster

end Ferrocache
