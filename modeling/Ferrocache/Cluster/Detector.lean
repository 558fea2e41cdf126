import Ferrocache.Cluster.State

/-!
# The failure detector

The states of the peers in `failure_detector.rs`.  Phi is computed in floating
point from the silence and the history of a peer; here it is an arbitrary
function (`PhiArithmetic`), so what follows holds for every value it may take.
-/

namespace Ferrocache

/-- The floating-point side of the detector; times are in nanoseconds. -/
structure PhiArithmetic (F : Type) : Type where
  zero : F
  one : F
  double : F → F
  max : F → F → F
  ge : F → F → Bool
  /-- From the least deviation, the silence and the inter-arrival times. -/
  computePhi : F → Nat → List Nat → F

/-- The inter-arrival times of a peer are listed oldest first. -/
structure PeerState : Type where
  heartbeatHistory : List Nat
  lastHeartbeat : Nat
  status : PeerStatus

structure PhiAccrualDetector (F : Type) : Type where
  peers : HashMap String PeerState
  phiThreshold : F
  windowSize : Nat
  minStdDevMs : F

namespace PhiAccrualDetector

variable {F : Type} (arith : PhiArithmetic F) (self : PhiAccrualDetector F)

def new (phiThreshold : F) (windowSize : Nat) (minStdDevMs : F) : PhiAccrualDetector F :=
  ⟨∅, phiThreshold, Nat.max windowSize 2, arith.max minStdDevMs arith.one⟩

/-- The state of a peer after a heartbeat. -/
def beat (state : PeerState) (at_ : Nat) : PeerState :=
  let elapsed := at_ - state.lastHeartbeat
  let kept :=
    if self.windowSize ≤ state.heartbeatHistory.length then state.heartbeatHistory.tail
    else state.heartbeatHistory
  { heartbeatHistory := if 0 < elapsed then kept ++ [elapsed] else state.heartbeatHistory
    lastHeartbeat := at_
    status := .alive }

def recordHeartbeatAt (nodeId : String) (at_ : Nat) : PhiAccrualDetector F :=
  match self.peers.lookup nodeId with
  | none => { self with peers := self.peers.insert nodeId ⟨[], at_, .alive⟩ }
  | some state => { self with peers := self.peers.insert nodeId (self.beat state at_) }

/-- Phi of a peer; zero while there is no history. -/
def phiOf (state : PeerState) (at_ : Nat) : F :=
  if state.heartbeatHistory = [] then arith.zero
  else arith.computePhi self.minStdDevMs (at_ - state.lastHeartbeat) state.heartbeatHistory

/-- The status of a peer after a check. -/
def judge (state : PeerState) (at_ : Nat) : PeerStatus :=
  let phi := self.phiOf arith state at_
  match state.status with
  | .alive => if arith.ge phi self.phiThreshold then .suspected else .alive
  | .suspected => if arith.ge phi (arith.double self.phiThreshold) then .dead else .suspected
  | .dead => .dead

/-- One pass over the peers in `order`, with what it reports of each. -/
def checkAllAt (order : List String) (at_ : Nat) :
    PhiAccrualDetector F × HashMap String (PeerStatus × F) :=
  let pass := HashMap.forEach (fun id state =>
    ({ state with status := self.judge arith state at_ },
      [(id, self.judge arith state at_, self.phiOf arith state at_)])) order self.peers
  ({ self with peers := pass.1 }, HashMap.insertAll ∅ pass.2)

def removePeer (nodeId : String) : PhiAccrualDetector F :=
  { self with peers := self.peers.erase nodeId }

/-! ## Heartbeats -/

/-- The peer is tracked and alive. -/
def Alive (id : String) : Prop := ∃ state, self.peers.lookup id = some state ∧ state.status = .alive

theorem lookup_recordHeartbeatAt_ne {id nodeId : String} (other : id ≠ nodeId) (at_ : Nat) :
    (self.recordHeartbeatAt nodeId at_).peers.lookup id = self.peers.lookup id := by
  unfold recordHeartbeatAt
  split
  · exact Finmap.lookup_insert_of_ne _ other
  · exact Finmap.lookup_insert_of_ne _ other

/-- A heartbeat brings its peer back to life. -/
theorem alive_recordHeartbeatAt (nodeId : String) (at_ : Nat) :
    (self.recordHeartbeatAt nodeId at_).Alive nodeId := by
  unfold recordHeartbeatAt Alive
  split
  · exact ⟨_, Finmap.lookup_insert _, rfl⟩
  · exact ⟨_, Finmap.lookup_insert _, rfl⟩

variable {self}

theorem Alive.recordHeartbeatAt {id : String} (alive : self.Alive id) (nodeId : String)
    (at_ : Nat) : (self.recordHeartbeatAt nodeId at_).Alive id := by
  by_cases same : id = nodeId
  · subst same
    exact alive_recordHeartbeatAt self id at_
  · unfold Alive
    rw [lookup_recordHeartbeatAt_ne self same]
    exact alive

/-! ## Checks -/

/-- A check that ends in `dead` started from a peer that was not alive. -/
theorem not_alive_of_reported {order : List String} {at_ : Nat} (nodup : order.Nodup) {id : String}
    {phi : F} (reported : (self.checkAllAt arith order at_).2.lookup id = some (.dead, phi)) :
    id ∈ self.peers ∧ ¬ self.Alive id := by
  rcases HashMap.mem_of_lookup_insertAll reported with listed | none
  · obtain ⟨k, -, state, tracked, here⟩ := (HashMap.mem_forEach_out _ nodup _).mp listed
    simp only [List.mem_singleton, Prod.mk.injEq] at here
    obtain ⟨rfl, dead, -⟩ := here
    refine ⟨Finmap.mem_of_lookup_eq_some tracked, ?_⟩
    intro given
    rcases given with ⟨state', found, alive⟩
    obtain rfl : state = state' := Option.some.inj (tracked.symm.trans found)
    -- from `alive` a check gets no further than `suspected`
    unfold judge at dead
    rw [alive] at dead
    dsimp only at dead
    split at dead
    · cases dead
    · cases dead
  · rw [Finmap.lookup_empty] at none
    cases none

/-- A check judges every tracked peer. -/
theorem lookup_checkAllAt {order : List String} (iter : HashMap.IterOrder self.peers order)
    (at_ : Nat) (id : String) :
    (self.checkAllAt arith order at_).1.peers.lookup id =
      (self.peers.lookup id).map fun state =>
        { state with status := self.judge arith state at_ } :=
  HashMap.lookup_forEach _ iter id

/-- The report of a check on a tracked peer: its new status, and the phi that the
check computed. -/
theorem lookup_report {order : List String} (iter : HashMap.IterOrder self.peers order)
    (at_ : Nat) {id : String} {state : PeerState} (tracked : self.peers.lookup id = some state) :
    (self.checkAllAt arith order at_).2.lookup id =
      some (self.judge arith state at_, self.phiOf arith state at_) := by
  have listed : id ∈ order := (iter.2 id).mpr (Finmap.mem_of_lookup_eq_some tracked)
  have reported : id ∈ (self.checkAllAt arith order at_).2 := by
    refine HashMap.mem_insertAll.mpr (.inl ?_)
    exact List.mem_map.mpr ⟨_, (HashMap.mem_forEach_out _ iter.1 _).mpr
      ⟨id, listed, state, tracked, List.mem_singleton.mpr rfl⟩, rfl⟩
  obtain ⟨report, found⟩ := Finmap.mem_iff.mp reported
  rcases HashMap.mem_of_lookup_insertAll found with here | none
  · obtain ⟨k, -, state', tracked', same⟩ := (HashMap.mem_forEach_out _ iter.1 _).mp here
    simp only [List.mem_singleton, Prod.mk.injEq] at same
    obtain ⟨rfl, rfl⟩ := same
    obtain rfl : state = state' := Option.some.inj (tracked.symm.trans tracked')
    exact found
  · rw [Finmap.lookup_empty] at none
    cases none

/-- A check reports on the tracked peers. -/
theorem mem_report {order : List String} (iter : HashMap.IterOrder self.peers order) (at_ : Nat)
    (id : String) : id ∈ (self.checkAllAt arith order at_).2 ↔ id ∈ self.peers := by
  constructor
  · intro reported
    rcases HashMap.mem_insertAll.mp reported with listed | none
    · obtain ⟨report, out, rfl⟩ := List.mem_map.mp listed
      obtain ⟨k, -, state, tracked, here⟩ := (HashMap.mem_forEach_out _ iter.1 _).mp out
      rw [List.mem_singleton.mp here]
      exact Finmap.mem_of_lookup_eq_some tracked
    · exact absurd none Finmap.notMem_empty
  · intro mem
    obtain ⟨state, tracked⟩ := Finmap.mem_iff.mp mem
    exact Finmap.mem_of_lookup_eq_some (lookup_report arith iter at_ tracked)

/-- A check adds no peer. -/
theorem mem_checkAllAt {order : List String} {at_ : Nat}
    (iter : HashMap.IterOrder self.peers order) (id : String) :
    id ∈ (self.checkAllAt arith order at_).1.peers ↔ id ∈ self.peers := by
  rw [← Finmap.lookup_isSome, ← Finmap.lookup_isSome]
  unfold checkAllAt
  rw [HashMap.lookup_forEach _ iter, Option.isSome_map]

end PhiAccrualDetector

end Ferrocache
