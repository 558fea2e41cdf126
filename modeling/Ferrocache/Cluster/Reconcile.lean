import Ferrocache.Cluster.Detector
import Ferrocache.Cluster.Ring

/-!
# Reconciliation of the ring

`reconcile_step` of `cluster.rs`: one pass takes a snapshot of the gossip, adds
what it lists to the ring and drops the peers that the detector has declared
dead.  The ring, the addresses and the set of dead nodes are kept in step
(`Consistent`).
-/

namespace Ferrocache

/-- What the passes of the reconciler change. -/
structure Reconciler (F : Type) : Type where
  ring : HashRing
  addrs : HashMap String String
  deadNodes : Finset String
  failureDetector : PhiAccrualDetector F
  /-- A `u64` counter. -/
  ringChangesTotal : Nat

/-- One call of `reconcile_step`: what it is given, the instants it reads from
the clock, and the orders in which it visits the maps. -/
structure ReconcilePass : Type where
  snapshot : HashMap String String
  order : List String
  beats : String → Nat
  checkedAt : Nat
  peerOrder : List String
  statusOrder : List String
  deadNodeRemovalEnabled : Bool

/-- `fetch_add(1)`. -/
def recordRingChange (total : Nat) : Nat := (total + 1) % 2 ^ 64

namespace Reconciler

variable {F : Type} (arith : PhiArithmetic F) (selfNodeId selfApiAddr : String)

/-- The structures that `ClusterState::new` sets up. -/
def new (virtualNodes : Nat) (phiThreshold : F) (windowSize : Nat) (minStdDevMs : F) :
    Reconciler F where
  ring := (HashRing.new virtualNodes).addNode selfNodeId
  addrs := (∅ : HashMap String String).insert selfNodeId selfApiAddr
  deadNodes := ∅
  failureDetector := .new arith phiThreshold windowSize minStdDevMs
  ringChangesTotal := 0

/-- Step 1: the addresses of the snapshot, and its own. -/
def updateAddrs (addrs : HashMap String String) (pass : ReconcilePass) : HashMap String String :=
  (HashMap.insertAll addrs (pass.order.filterMap fun id =>
    (pass.snapshot.lookup id).map (id, ·))).insert selfNodeId selfApiAddr

/-- Step 2: a heartbeat for every other peer of the snapshot. -/
def heartbeats (detector : PhiAccrualDetector F) (pass : ReconcilePass) : PhiAccrualDetector F :=
  pass.order.foldl (fun detector id =>
    if id ≠ selfNodeId then detector.recordHeartbeatAt id (pass.beats id) else detector) detector

/-- Step 3: what the snapshot lists beyond the ring. -/
def toAdd (ring : HashRing) (pass : ReconcilePass) : List String :=
  pass.order.filter (· ∉ ring.nodes)

/-- Step 5: the peers of the ring that are reported dead. -/
def toRemove (ring : HashRing) (statuses : HashMap String (PeerStatus × F)) (pass : ReconcilePass) :
    List String :=
  pass.statusOrder.filter fun id =>
    (statuses.lookup id).map Prod.fst = some .dead ∧ id ∈ ring.nodes

/-- The ring, the dead nodes and the counter after the additions. -/
def join (self : Reconciler F) (ids : List String) : Reconciler F :=
  { self with
    ring := ids.foldl HashRing.addNode self.ring
    deadNodes := ids.foldl Finset.erase self.deadNodes
    ringChangesTotal := ids.foldl (fun total _ => recordRingChange total) self.ringChangesTotal }

/-- All of them after the removals. -/
def leave (self : Reconciler F) (ids : List String) : Reconciler F :=
  { self with
    ring := ids.foldl HashRing.removeNode self.ring
    addrs := HashMap.eraseAll self.addrs ids
    deadNodes := ids.foldl (fun dead id => insert id dead) self.deadNodes
    ringChangesTotal := ids.foldl (fun total _ => recordRingChange total) self.ringChangesTotal }

/-- Steps 1 to 3. -/
def discover (self : Reconciler F) (pass : ReconcilePass) : Reconciler F :=
  { self with
    addrs := updateAddrs selfNodeId selfApiAddr self.addrs pass
    failureDetector := heartbeats selfNodeId self.failureDetector pass }.join
      (toAdd self.ring pass)

/-- Step 4: what the detector reports after the heartbeats of the pass. -/
def checked (self : Reconciler F) (pass : ReconcilePass) :
    PhiAccrualDetector F × HashMap String (PeerStatus × F) :=
  (self.discover selfNodeId selfApiAddr pass).failureDetector.checkAllAt arith pass.peerOrder
    pass.checkedAt

def reconcileStep (self : Reconciler F) (pass : ReconcilePass) : Reconciler F :=
  let discovered := self.discover selfNodeId selfApiAddr pass
  let check := self.checked arith selfNodeId selfApiAddr pass
  let ticked := { discovered with failureDetector := check.1 }
  if pass.deadNodeRemovalEnabled then ticked.leave (toRemove ticked.ring check.2 pass) else ticked

/-- The snapshot lists the node itself, and the loops visit their maps. -/
structure Admissible (state : Reconciler F) (pass : ReconcilePass) : Prop where
  listsSelf : selfNodeId ∈ pass.snapshot
  visits : HashMap.IterOrder pass.snapshot pass.order
  visitsPeers : HashMap.IterOrder
    (state.discover selfNodeId selfApiAddr pass).failureDetector.peers pass.peerOrder
  visitsStatuses : HashMap.IterOrder (state.checked arith selfNodeId selfApiAddr pass).2
    pass.statusOrder

/-- The states that passes over snapshots of the nodes in `used` lead to. -/
inductive Reachable (used : Set String) : Reconciler F → Prop
  | new (virtualNodes : Nat) (phiThreshold : F) (windowSize : Nat) (minStdDevMs : F) :
    Reachable used (new arith selfNodeId selfApiAddr virtualNodes phiThreshold windowSize minStdDevMs)
  | step {self : Reconciler F} {pass : ReconcilePass} :
    Reachable used self → Admissible arith selfNodeId selfApiAddr self pass →
    (∀ id ∈ pass.snapshot, id ∈ used) →
    Reachable used (self.reconcileStep arith selfNodeId selfApiAddr pass)

/-! ## Members of the ring -/

/-- The ring comes from changes of nodes in `used`. -/
def Tracks (used : Set String) (ring : HashRing) : Prop :=
  ∃ virtualNodes ops, ring = HashRing.build virtualNodes ops ∧
    ∀ nodeId ∈ ops.map RingOp.node, nodeId ∈ used

/-- No two nodes in `used` share a position, on rings as large as this one. -/
def Disjoint (used : Set String) (virtualNodes : Nat) : Prop :=
  ∀ a ∈ used, ∀ b ∈ used, a ≠ b → HashRing.Apart virtualNodes a b

section Members

variable {used : Set String} {ring : HashRing} (tracks : Tracks used ring)
  (disjoint : Disjoint used ring.virtualNodes)

include tracks disjoint

/-- A change of a node in `used` touches only that node. -/
theorem members_apply (op : RingOp) (known : op.node ∈ used) :
    Tracks used (ring.apply op) ∧
      ∃ ops, (∀ m, m ∈ ring.nodes ↔ HashRing.LastAdded ops m) ∧
        ∀ m, m ∈ (ring.apply op).nodes ↔ HashRing.LastAdded (ops ++ [op]) m := by
  obtain ⟨virtualNodes, ops, rfl, names⟩ := tracks
  have names' : ∀ nodeId ∈ (ops ++ [op]).map RingOp.node, nodeId ∈ used := by
    intro nodeId mem
    rw [List.map_append] at mem
    rcases List.mem_append.mp mem with old | new
    · exact names nodeId old
    · rw [List.mem_singleton.mp new]
      exact known
  rw [HashRing.build_virtualNodes] at disjoint
  rw [← HashRing.build_concat]
  refine ⟨⟨virtualNodes, ops ++ [op], rfl, names'⟩, ops, fun m => ?_, fun m => ?_⟩
  · exact HashRing.mem_nodes_build
      (fun a memA b memB => disjoint a (names a memA) b (names b memB)) m
  · exact HashRing.mem_nodes_build
      (fun a memA b memB => disjoint a (names' a memA) b (names' b memB)) m

theorem members_addNode {id : String} (known : id ∈ used) :
    Tracks used (ring.addNode id) ∧ ∀ m, m ∈ (ring.addNode id).nodes ↔ m = id ∨ m ∈ ring.nodes := by
  obtain ⟨tracks', ops, before, after⟩ := members_apply tracks disjoint (.add id) known
  refine ⟨tracks', fun m => ?_⟩
  rw [before m, ← HashRing.lastAdded_add]
  exact after m

theorem members_removeNode {id : String} (known : id ∈ used) :
    Tracks used (ring.removeNode id) ∧
      ∀ m, m ∈ (ring.removeNode id).nodes ↔ m ≠ id ∧ m ∈ ring.nodes := by
  obtain ⟨tracks', ops, before, after⟩ := members_apply tracks disjoint (.remove id) known
  refine ⟨tracks', fun m => ?_⟩
  rw [before m, ← HashRing.lastAdded_remove]
  exact after m

theorem mem_used {m : String} (mem : m ∈ ring.nodes) : m ∈ used := by
  obtain ⟨virtualNodes, ops, rfl, names⟩ := tracks
  rw [HashRing.build_virtualNodes] at disjoint
  exact names m ((HashRing.mem_nodes_build
    (fun a memA b memB => disjoint a (names a memA) b (names b memB)) m).mp mem).mem

end Members

theorem members_foldl_addNode {used : Set String} {ids : List String} {ring : HashRing}
    (tracks : Tracks used ring) (disjoint : Disjoint used ring.virtualNodes)
    (known : ∀ id ∈ ids, id ∈ used) :
    Tracks used (ids.foldl HashRing.addNode ring) ∧
      (ids.foldl HashRing.addNode ring).virtualNodes = ring.virtualNodes ∧
      ∀ m, m ∈ (ids.foldl HashRing.addNode ring).nodes ↔ m ∈ ids ∨ m ∈ ring.nodes := by
  induction ids generalizing ring with
  | nil => exact ⟨tracks, rfl, fun m => by simp⟩
  | cons id ids ih =>
      obtain ⟨tracks', members⟩ := members_addNode tracks disjoint (known id List.mem_cons_self)
      obtain ⟨tracks'', kept, members'⟩ := ih tracks' disjoint fun id' mem =>
        known id' (List.mem_cons_of_mem _ mem)
      refine ⟨tracks'', kept, fun m => ?_⟩
      rw [List.foldl_cons, members', members, List.mem_cons]
      tauto

theorem members_foldl_removeNode {used : Set String} {ids : List String} {ring : HashRing}
    (tracks : Tracks used ring) (disjoint : Disjoint used ring.virtualNodes)
    (known : ∀ id ∈ ids, id ∈ used) :
    Tracks used (ids.foldl HashRing.removeNode ring) ∧
      (ids.foldl HashRing.removeNode ring).virtualNodes = ring.virtualNodes ∧
      ∀ m, m ∈ (ids.foldl HashRing.removeNode ring).nodes ↔ m ∉ ids ∧ m ∈ ring.nodes := by
  induction ids generalizing ring with
  | nil => exact ⟨tracks, rfl, fun m => by simp⟩
  | cons id ids ih =>
      obtain ⟨tracks', members⟩ := members_removeNode tracks disjoint (known id List.mem_cons_self)
      obtain ⟨tracks'', kept, members'⟩ := ih tracks' disjoint fun id' mem =>
        known id' (List.mem_cons_of_mem _ mem)
      refine ⟨tracks'', kept, fun m => ?_⟩
      rw [List.foldl_cons, members', members, List.mem_cons]
      tauto

theorem mem_foldl_erase {ids : List String} {dead : Finset String} {id : String} :
    id ∈ ids.foldl Finset.erase dead ↔ id ∉ ids ∧ id ∈ dead := by
  induction ids generalizing dead with
  | nil => simp
  | cons id' ids ih =>
      rw [List.foldl_cons, ih, Finset.mem_erase, List.mem_cons]
      tauto

theorem mem_foldl_insert {ids : List String} {dead : Finset String} {id : String} :
    id ∈ ids.foldl (fun dead id => insert id dead) dead ↔ id ∈ ids ∨ id ∈ dead := by
  induction ids generalizing dead with
  | nil => simp
  | cons id' ids ih =>
      rw [List.foldl_cons, ih, Finset.mem_insert, List.mem_cons]
      tauto

theorem foldl_recordRingChange (ids : List String) {total : Nat} (below : total < 2 ^ 64) :
    ids.foldl (fun total _ => recordRingChange total) total = (total + ids.length) % 2 ^ 64 := by
  induction ids generalizing total with
  | nil => exact (Nat.mod_eq_of_lt below).symm
  | cons id ids ih =>
      have next : recordRingChange total < 2 ^ 64 := Nat.mod_lt _ (by decide)
      rw [List.foldl_cons, ih next, List.length_cons]
      unfold recordRingChange
      omega

/-! ## The phases of a pass -/

theorem mem_updateAddrs {addrs : HashMap String String} {pass : ReconcilePass}
    (visits : HashMap.IterOrder pass.snapshot pass.order) {id : String} :
    id ∈ updateAddrs selfNodeId selfApiAddr addrs pass ↔
      id = selfNodeId ∨ id ∈ pass.snapshot ∨ id ∈ addrs := by
  have listed : id ∈ (pass.order.filterMap fun id =>
      (pass.snapshot.lookup id).map (id, ·)).map Prod.fst ↔ id ∈ pass.snapshot := by
    constructor
    · intro mem
      obtain ⟨e, entry, rfl⟩ := List.mem_map.mp mem
      obtain ⟨id', -, found⟩ := List.mem_filterMap.mp entry
      obtain ⟨addr, known, rfl⟩ := Option.map_eq_some_iff.mp found
      exact Finmap.mem_of_lookup_eq_some known
    · intro mem
      obtain ⟨addr, known⟩ := Finmap.mem_iff.mp mem
      refine List.mem_map.mpr ⟨(id, addr), List.mem_filterMap.mpr ⟨id, ?_, ?_⟩, rfl⟩
      · exact (visits.2 id).mpr mem
      · rw [known]
        rfl
  unfold updateAddrs
  rw [Finmap.mem_insert, HashMap.mem_insertAll, listed]

theorem mem_toAdd {ring : HashRing} {pass : ReconcilePass}
    (visits : HashMap.IterOrder pass.snapshot pass.order) {id : String} :
    id ∈ toAdd ring pass ↔ id ∈ pass.snapshot ∧ id ∉ ring.nodes := by
  unfold toAdd
  rw [List.mem_filter, visits.2, decide_eq_true_eq]

/-- The heartbeats of a pass: every other peer that is listed is alive, and the
node does not watch itself. -/
theorem foldl_heartbeats (beats : String → Nat) (order : List String)
    {detector : PhiAccrualDetector F} (unwatched : selfNodeId ∉ detector.peers) :
    let after := order.foldl (fun detector id =>
      if id ≠ selfNodeId then detector.recordHeartbeatAt id (beats id) else detector) detector
    selfNodeId ∉ after.peers ∧
      ∀ id, id ≠ selfNodeId → id ∈ order ∨ detector.Alive id → after.Alive id := by
  induction order generalizing detector with
  | nil => exact ⟨unwatched, fun id _ mem => mem.resolve_left List.not_mem_nil⟩
  | cons head order ih =>
      rw [List.foldl_cons]
      by_cases same : head = selfNodeId
      · rw [if_neg (not_not.mpr same)]
        obtain ⟨outside, alive⟩ := ih unwatched
        refine ⟨outside, fun id other mem => alive id other ?_⟩
        rcases mem with listed | before
        · rcases List.mem_cons.mp listed with rfl | later
          · exact absurd same other
          · exact .inl later
        · exact .inr before
      · rw [if_pos same]
        have unwatched' : selfNodeId ∉ (detector.recordHeartbeatAt head (beats head)).peers := by
          rw [← Finmap.lookup_eq_none] at unwatched ⊢
          rw [detector.lookup_recordHeartbeatAt_ne (Ne.symm same)]
          exact unwatched
        obtain ⟨outside, alive⟩ := ih unwatched'
        refine ⟨outside, fun id other mem => alive id other ?_⟩
        rcases mem with listed | before
        · rcases List.mem_cons.mp listed with rfl | later
          · exact .inr (detector.alive_recordHeartbeatAt id _)
          · exact .inl later
        · exact .inr (before.recordHeartbeatAt head _)

/-- What every pass keeps. -/
structure Consistent (used : Set String) (state : Reconciler F) : Prop where
  tracks : Tracks used state.ring
  holdsSelf : selfNodeId ∈ state.ring.nodes
  addressed : ∀ id, id ∈ state.ring.nodes ↔ id ∈ state.addrs
  buried : ∀ id ∈ state.deadNodes, id ∉ state.ring.nodes
  unwatched : selfNodeId ∉ state.failureDetector.peers
  counts : state.ringChangesTotal < 2 ^ 64

section Pass

variable {arith selfNodeId selfApiAddr} {used : Set String} {self : Reconciler F}
  {pass : ReconcilePass}

/-- The state before the check. -/
theorem discover_spec (selfApiAddr : String) (consistent : Consistent selfNodeId used self)
    (disjoint : Disjoint used self.ring.virtualNodes)
    (listsSelf : selfNodeId ∈ pass.snapshot)
    (visits : HashMap.IterOrder pass.snapshot pass.order)
    (named : ∀ id ∈ pass.snapshot, id ∈ used) :
    Consistent selfNodeId used (self.discover selfNodeId selfApiAddr pass) ∧
      (self.discover selfNodeId selfApiAddr pass).ring.virtualNodes = self.ring.virtualNodes ∧
      (∀ id, id ∈ (self.discover selfNodeId selfApiAddr pass).ring.nodes ↔
        id ∈ pass.snapshot ∨ id ∈ self.ring.nodes) ∧
      (∀ id ∈ pass.snapshot, id ≠ selfNodeId →
        (self.discover selfNodeId selfApiAddr pass).failureDetector.Alive id) ∧
      (self.discover selfNodeId selfApiAddr pass).ringChangesTotal =
        (self.ringChangesTotal + (toAdd self.ring pass).length) % 2 ^ 64 := by
  have added : ∀ id ∈ toAdd self.ring pass, id ∈ used := fun id mem =>
    named id ((mem_toAdd visits).mp mem).1
  obtain ⟨tracks, kept, members⟩ := members_foldl_addNode consistent.tracks disjoint added
  obtain ⟨unwatched, alive⟩ := foldl_heartbeats selfNodeId pass.beats pass.order consistent.unwatched
  have grown : ∀ id, id ∈ ((toAdd self.ring pass).foldl HashRing.addNode self.ring).nodes ↔
      id ∈ pass.snapshot ∨ id ∈ self.ring.nodes := by
    intro id
    rw [members, mem_toAdd visits]
    tauto
  have counted := foldl_recordRingChange (toAdd self.ring pass) consistent.counts
  refine ⟨⟨tracks, ?_, ?_, ?_, unwatched, ?_⟩, kept, grown, ?_, counted⟩
  · exact (grown selfNodeId).mpr (.inl listsSelf)
  · intro id
    refine (grown id).trans ?_
    unfold discover join
    rw [mem_updateAddrs selfNodeId selfApiAddr visits, consistent.addressed]
    constructor
    · exact .inr
    · intro given
      rcases given with rfl | known
      · exact .inl listsSelf
      · exact known
  · intro id dead inside
    obtain ⟨notAdded, dead⟩ := mem_foldl_erase.mp dead
    rcases (grown id).mp inside with listed | old
    · exact notAdded ((mem_toAdd visits).mpr ⟨listed, consistent.buried id dead⟩)
    · exact consistent.buried id dead old
  · exact lt_of_eq_of_lt counted (Nat.mod_lt _ (by decide))
  · intro id listed other
    exact alive id other (.inl ((visits.2 id).mpr listed))

theorem mem_toRemove {ring : HashRing} {statuses : HashMap String (PeerStatus × F)}
    (visits : HashMap.IterOrder statuses pass.statusOrder) {id : String} :
    id ∈ toRemove ring statuses pass ↔
      (∃ phi, statuses.lookup id = some (.dead, phi)) ∧ id ∈ ring.nodes := by
  unfold toRemove
  rw [List.mem_filter, visits.2, decide_eq_true_eq, Option.map_eq_some_iff]
  constructor
  · intro given
    rcases given with ⟨-, ⟨⟨status, phi⟩, reported, rfl⟩, inside⟩
    exact ⟨⟨phi, reported⟩, inside⟩
  · intro given
    rcases given with ⟨⟨phi, reported⟩, inside⟩
    exact ⟨Finmap.mem_of_lookup_eq_some reported, ⟨_, reported, rfl⟩, inside⟩

/-- The state after the removals of peers other than the node itself. -/
theorem leave_spec (consistent : Consistent selfNodeId used self)
    (disjoint : Disjoint used self.ring.virtualNodes) {ids : List String}
    (inside : ∀ id ∈ ids, id ∈ self.ring.nodes) (spared : selfNodeId ∉ ids) :
    Consistent selfNodeId used (self.leave ids) ∧
      (∀ id, id ∈ (self.leave ids).ring.nodes ↔ id ∉ ids ∧ id ∈ self.ring.nodes) ∧
      (self.leave ids).ringChangesTotal = (self.ringChangesTotal + ids.length) % 2 ^ 64 := by
  obtain ⟨tracks, -, members⟩ := members_foldl_removeNode consistent.tracks disjoint
    fun id mem => mem_used consistent.tracks disjoint (inside id mem)
  have counted := foldl_recordRingChange ids consistent.counts
  refine ⟨⟨tracks, ?_, ?_, ?_, consistent.unwatched, ?_⟩, members, counted⟩
  · exact (members selfNodeId).mpr ⟨spared, consistent.holdsSelf⟩
  · intro id
    refine (members id).trans ?_
    unfold leave
    rw [consistent.addressed, ← Finmap.lookup_isSome, ← Finmap.lookup_isSome,
      HashMap.lookup_eraseAll]
    by_cases gone : id ∈ ids
    · simp [gone]
    · simp [gone]
  · intro id dead stays
    obtain ⟨kept, member⟩ := (members id).mp stays
    rcases mem_foldl_insert.mp dead with new | old
    · exact kept new
    · exact consistent.buried id old member
  · exact lt_of_eq_of_lt counted (Nat.mod_lt _ (by decide))

/-- What one pass does. -/
theorem reconcileStep_spec (consistent : Consistent selfNodeId used self)
    (disjoint : Disjoint used self.ring.virtualNodes)
    (admissible : Admissible arith selfNodeId selfApiAddr self pass)
    (named : ∀ id ∈ pass.snapshot, id ∈ used) :
    Consistent selfNodeId used (self.reconcileStep arith selfNodeId selfApiAddr pass) ∧
      (∀ id ∈ pass.snapshot,
        id ∈ (self.reconcileStep arith selfNodeId selfApiAddr pass).ring.nodes) ∧
      ∃ removed : List String, removed.Nodup ∧
        (∀ id ∈ removed, id ∈ self.ring.nodes ∧ id ∉ pass.snapshot ∧
          ∃ phi, (self.checked arith selfNodeId selfApiAddr pass).2.lookup id =
            some (.dead, phi)) ∧
        (∀ id, id ∈ (self.reconcileStep arith selfNodeId selfApiAddr pass).ring.nodes ↔
          id ∉ removed ∧ (id ∈ pass.snapshot ∨ id ∈ self.ring.nodes)) ∧
        (self.reconcileStep arith selfNodeId selfApiAddr pass).ringChangesTotal =
          (self.ringChangesTotal + (toAdd self.ring pass).length + removed.length) % 2 ^ 64 := by
  obtain ⟨⟨tracks, holdsSelf, addressed, buried, unwatched, counts⟩, kept, grown, alive, counted⟩ :=
    discover_spec selfApiAddr consistent disjoint admissible.listsSelf admissible.visits named
  -- the check changes the detector only, and the detector still does not watch the node
  have ticked : Consistent selfNodeId used
      { self.discover selfNodeId selfApiAddr pass with
        failureDetector := (self.checked arith selfNodeId selfApiAddr pass).1 } :=
    ⟨tracks, holdsSelf, addressed, buried, fun mem => unwatched
      ((PhiAccrualDetector.mem_checkAllAt arith admissible.visitsPeers selfNodeId).mp mem), counts⟩
  have deadOnly : ∀ {id phi}, (self.checked arith selfNodeId selfApiAddr pass).2.lookup id =
      some (.dead, phi) → id ≠ selfNodeId ∧ id ∉ pass.snapshot := by
    intro id phi reported
    obtain ⟨tracked, notAlive⟩ :=
      PhiAccrualDetector.not_alive_of_reported arith admissible.visitsPeers.1 reported
    have other : id ≠ selfNodeId := fun same => unwatched (same ▸ tracked)
    exact ⟨other, fun listed => notAlive (alive id listed other)⟩
  unfold reconcileStep
  dsimp only
  split
  · generalize chosen : toRemove (self.discover selfNodeId selfApiAddr pass).ring
      (self.checked arith selfNodeId selfApiAddr pass).2 pass = removed
    have dead : ∀ id ∈ removed, (∃ phi, (self.checked arith selfNodeId selfApiAddr pass).2.lookup id =
        some (.dead, phi)) ∧ id ∈ (self.discover selfNodeId selfApiAddr pass).ring.nodes := by
      intro id mem
      rw [← chosen] at mem
      exact (mem_toRemove admissible.visitsStatuses).mp mem
    have unlisted : ∀ id ∈ removed, id ∉ pass.snapshot := by
      intro id mem
      obtain ⟨⟨phi, reported⟩, -⟩ := dead id mem
      exact (deadOnly reported).2
    have spared : selfNodeId ∉ removed := fun mem =>
      unlisted selfNodeId mem admissible.listsSelf
    obtain ⟨after, members, total⟩ := leave_spec ticked (kept ▸ disjoint)
      (fun id mem => (dead id mem).2) spared
    refine ⟨after, fun id listed => ?_, removed, ?_, fun id mem => ?_, fun id => ?_, ?_⟩
    · exact (members id).mpr ⟨fun mem => unlisted id mem listed, (grown id).mpr (.inl listed)⟩
    · rw [← chosen]
      exact admissible.visitsStatuses.1.filter _
    · obtain ⟨reported, inside⟩ := dead id mem
      exact ⟨((grown id).mp inside).resolve_left (unlisted id mem), unlisted id mem, reported⟩
    · rw [members, ← grown]
    · rw [total]
      dsimp only
      rw [counted]
      omega
  · refine ⟨ticked, fun id listed => (grown id).mpr (.inl listed), [], List.nodup_nil, ?_, ?_, ?_⟩
    · intro id none
      cases none
    · intro id
      rw [grown]
      simp
    · exact counted

end Pass

variable {arith selfNodeId selfApiAddr}

theorem reconcileStep_virtualNodes (self : Reconciler F) (pass : ReconcilePass) :
    (self.reconcileStep arith selfNodeId selfApiAddr pass).ring.virtualNodes =
      self.ring.virtualNodes := by
  have added : ∀ (ids : List String) (ring : HashRing),
      (ids.foldl HashRing.addNode ring).virtualNodes = ring.virtualNodes := by
    intro ids ring
    induction ids generalizing ring with
    | nil => rfl
    | cons id ids ih => exact ih _
  have removed : ∀ (ids : List String) (ring : HashRing),
      (ids.foldl HashRing.removeNode ring).virtualNodes = ring.virtualNodes := by
    intro ids ring
    induction ids generalizing ring with
    | nil => rfl
    | cons id ids ih => exact ih _
  unfold reconcileStep
  dsimp only
  split
  · exact (removed _ _).trans (added _ _)
  · exact added _ _

theorem consistent_new {used : Set String} (known : selfNodeId ∈ used) {virtualNodes : Nat}
    (disjoint : Disjoint used (max virtualNodes 1)) (phiThreshold : F) (windowSize : Nat)
    (minStdDevMs : F) :
    Consistent selfNodeId used
      (new arith selfNodeId selfApiAddr virtualNodes phiThreshold windowSize minStdDevMs) := by
  have start : Tracks used (HashRing.new virtualNodes) :=
    ⟨virtualNodes, [], rfl, fun nodeId none => absurd none List.not_mem_nil⟩
  obtain ⟨tracks, members⟩ := members_addNode start disjoint known
  have empty : ∀ m, m ∉ (HashRing.new virtualNodes).nodes := by
    intro m mem
    obtain ⟨p, none⟩ := HashRing.mem_nodes.mp mem
    cases none
  refine ⟨tracks, (members selfNodeId).mpr (.inl rfl), fun id => ?_, fun id none => ?_, ?_, ?_⟩
  · refine (members id).trans ?_
    unfold new
    rw [Finmap.mem_insert]
    exact or_congr_right ⟨fun mem => absurd mem (empty id), fun mem => absurd mem Finmap.notMem_empty⟩
  · cases none
  · exact Finmap.notMem_empty
  · change 0 < 2 ^ 64
    decide

theorem Reachable.consistent {used : Set String} (known : selfNodeId ∈ used) {self : Reconciler F}
    (reached : Reachable arith selfNodeId selfApiAddr used self)
    (disjoint : Disjoint used self.ring.virtualNodes) : Consistent selfNodeId used self := by
  induction reached with
  | new virtualNodes phiThreshold windowSize minStdDevMs =>
      exact consistent_new known disjoint phiThreshold windowSize minStdDevMs
  | step reached admissible named ih =>
      rw [reconcileStep_virtualNodes] at disjoint
      exact (reconcileStep_spec (ih disjoint) disjoint admissible named).1

/-- After every pass the node is in its own ring, the ring and the addresses name
the same nodes, none of them dead and among them all that the snapshot lists; who
left was reported dead, and the counter has grown by what was added and
removed. -/
theorem reconciled {used : Set String} (known : selfNodeId ∈ used) {self : Reconciler F}
    (reached : Reachable arith selfNodeId selfApiAddr used self)
    (disjoint : Disjoint used self.ring.virtualNodes) {pass : ReconcilePass}
    (admissible : Admissible arith selfNodeId selfApiAddr self pass)
    (named : ∀ id ∈ pass.snapshot, id ∈ used) :
    let after := self.reconcileStep arith selfNodeId selfApiAddr pass
    selfNodeId ∈ after.ring.nodes ∧
    (∀ id, id ∈ after.ring.nodes ↔ id ∈ after.addrs) ∧
    (∀ id ∈ after.deadNodes, id ∉ after.ring.nodes) ∧
    (∀ id ∈ pass.snapshot, id ∈ after.ring.nodes) ∧
    (∀ id ∈ self.ring.nodes, id ∉ after.ring.nodes →
      ∃ phi, (self.checked arith selfNodeId selfApiAddr pass).2.lookup id = some (.dead, phi)) ∧
    after.ringChangesTotal =
      (self.ringChangesTotal + (after.ring.nodes.filter (· ∉ self.ring.nodes)).length +
        (self.ring.nodes.filter (· ∉ after.ring.nodes)).length) % 2 ^ 64 := by
  intro after
  obtain ⟨consistent, listed, removed, nodup, dead, members, total⟩ :=
    reconcileStep_spec (reached.consistent known disjoint) disjoint admissible named
  have joined : (after.ring.nodes.filter (· ∉ self.ring.nodes)).Perm (toAdd self.ring pass) := by
    have once : (toAdd self.ring pass).Nodup := admissible.visits.1.filter _
    refine (List.perm_ext_iff_of_nodup (after.ring.nodes_nodup.filter _) once).mpr fun id => ?_
    rw [List.mem_filter, decide_eq_true_eq, members, mem_toAdd admissible.visits]
    constructor
    · intro given
      rcases given with ⟨⟨-, listed | old⟩, new⟩
      · exact ⟨listed, new⟩
      · exact absurd old new
    · intro given
      rcases given with ⟨listed, new⟩
      exact ⟨⟨fun gone => new (dead id gone).1, .inl listed⟩, new⟩
  have left : (self.ring.nodes.filter (· ∉ after.ring.nodes)).Perm removed := by
    refine (List.perm_ext_iff_of_nodup (self.ring.nodes_nodup.filter _) nodup).mpr fun id => ?_
    rw [List.mem_filter, decide_eq_true_eq, members]
    constructor
    · intro given
      rcases given with ⟨old, away⟩
      by_contra stays
      exact away ⟨stays, .inr old⟩
    · intro gone
      exact ⟨(dead id gone).1, fun stays => stays.1 gone⟩
  refine ⟨consistent.holdsSelf, consistent.addressed, consistent.buried, listed, ?_, ?_⟩
  · intro id old away
    refine (dead id ?_).2.2
    by_contra stays
    exact away ((members id).mpr ⟨stays, .inr old⟩)
  · rw [joined.length_eq, left.length_eq]
    exact total

section Example

/-- An arithmetic in which phi is the silence. -/
def silence : PhiArithmetic Nat := ⟨0, 1, fun x => 2 * x, max, fun x y => decide (y ≤ x), fun _ t _ => t⟩

/-- Node `b` shows up. -/
def firstPass : ReconcilePass where
  snapshot := ((∅ : HashMap String String).insert "a" "a:3000").insert "b" "b:3000"
  order := ["b", "a"]
  beats _ := 5
  checkedAt := 6
  peerOrder := ["b"]
  statusOrder := ["b"]
  deadNodeRemovalEnabled := true

theorem reconciled_firstPass :
    let self := new silence "a" "a:3000" 2 8 100 100
    let after := self.reconcileStep silence "a" "a:3000" firstPass
    (∀ id, id ∈ after.ring.nodes ↔ id ∈ after.addrs) ∧
      ∀ id ∈ firstPass.snapshot, id ∈ after.ring.nodes := by
  have disjoint : Disjoint {"a", "b"} 2 := by
    intro a memA b memB other
    have : a = "a" ∧ b = "b" ∨ a = "b" ∧ b = "a" := by
      rcases memA with rfl | rfl <;> rcases memB with rfl | rfl <;> simp_all
    rcases this with ⟨rfl, rfl⟩ | ⟨rfl, rfl⟩
    · decide +kernel
    · decide +kernel
  have admissible : Admissible silence "a" "a:3000" (new silence "a" "a:3000" 2 8 100 100) firstPass :=
    ⟨by decide +kernel, by decide +kernel, by decide +kernel, by decide +kernel⟩
  have named : ∀ id ∈ firstPass.snapshot, id ∈ ({"a", "b"} : Set String) := by
    intro id mem
    have listed : id ∈ firstPass.order :=
      ((by decide +kernel : HashMap.IterOrder firstPass.snapshot firstPass.order).2 id).mpr mem
    simpa [firstPass, or_comm] using listed
  obtain ⟨-, addressed, -, listed, -⟩ :=
    reconciled (.inl rfl) (.new 2 8 100 100) disjoint admissible named
  exact ⟨addressed, listed⟩

end Example

end Reconciler

end Ferrocache
