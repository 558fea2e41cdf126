import Ferrocache.Cluster.Reconcile

/-!
# Runs of the failure detector

Any sequence of heartbeats, checks and removals, at any times.  Every call acts
on one peer at a time (`callPeer`), so what holds of a peer is shown by going
through the calls with the state of that peer only: its status is as far as two
successive checks since its last heartbeat have brought it, and its history is
the window over its positive inter-arrival times.
-/

namespace Ferrocache

namespace PeerStatus

/-- The steps from `alive`. -/
def level : PeerStatus → Nat
  | .alive => 0
  | .suspected => 1
  | .dead => 2

end PeerStatus

deriving instance DecidableEq for PeerState

namespace PhiAccrualDetector

/-- A call of the detector; a check visits the peers in `order`. -/
inductive Call : Type
  | heartbeat (nodeId : String) (at_ : Nat)
  | check (order : List String) (at_ : Nat)
  | remove (nodeId : String)

variable {F : Type} (arith : PhiArithmetic F) (self : PhiAccrualDetector F)

def call : Call → PhiAccrualDetector F
  | .heartbeat nodeId at_ => self.recordHeartbeatAt nodeId at_
  | .check order at_ => (self.checkAllAt arith order at_).1
  | .remove nodeId => self.removePeer nodeId

/-- A check visits the peers that are tracked. -/
def Admits : Call → Prop
  | .check order _ => HashMap.IterOrder self.peers order
  | _ => True

instance (c : Call) : Decidable (self.Admits c) :=
  match c with
  | .heartbeat _ _ => inferInstanceAs (Decidable True)
  | .check order _ => inferInstanceAs (Decidable (HashMap.IterOrder self.peers order))
  | .remove _ => inferInstanceAs (Decidable True)

/-- The calls lead from the first detector to the last. -/
inductive Calls (start : PhiAccrualDetector F) : List Call → PhiAccrualDetector F → Prop
  | nil : Calls start [] start
  | snoc {calls : List Call} {d : PhiAccrualDetector F} {c : Call} :
    Calls start calls d → d.Admits c → Calls start (calls ++ [c]) (d.call arith c)

/-! ## One peer -/

/-- A call is about neither the heartbeats nor the removal of the peer. -/
def Call.Quiet (id : String) : Call → Prop
  | .heartbeat nodeId _ => nodeId ≠ id
  | .check _ _ => True
  | .remove nodeId => nodeId ≠ id

/-- What a call does to the state of one peer. -/
def callPeer (id : String) (peer : Option PeerState) : Call → Option PeerState
  | .heartbeat nodeId at_ =>
    if nodeId = id then
      match peer with
      | none => some ⟨[], at_, .alive⟩
      | some state => some (self.beat state at_)
    else peer
  | .check _ at_ => peer.map fun state => { state with status := self.judge arith state at_ }
  | .remove nodeId => if nodeId = id then none else peer

theorem lookup_call {c : Call} (admits : self.Admits c) (id : String) :
    (self.call arith c).peers.lookup id = self.callPeer arith id (self.peers.lookup id) c := by
  cases c with
  | heartbeat nodeId at_ =>
      simp only [call, callPeer]
      by_cases same : nodeId = id
      · subst same
        rw [if_pos rfl]
        unfold recordHeartbeatAt
        cases self.peers.lookup nodeId with
        | none => exact Finmap.lookup_insert _
        | some state => exact Finmap.lookup_insert _
      · rw [if_neg same]
        exact self.lookup_recordHeartbeatAt_ne (Ne.symm same) at_
  | check order at_ => exact lookup_checkAllAt arith admits at_ id
  | remove nodeId =>
      simp only [call, callPeer, removePeer]
      rw [HashMap.lookup_erase_eq]
      by_cases same : nodeId = id
      · rw [if_pos same, if_pos same.symm]
      · rw [if_neg same, if_neg (Ne.symm same)]

/-- The settings that the calls leave alone. -/
structure SameSettings (d : PhiAccrualDetector F) : Prop where
  phiThreshold : d.phiThreshold = self.phiThreshold
  windowSize : d.windowSize = self.windowSize
  minStdDevMs : d.minStdDevMs = self.minStdDevMs

variable {arith self}

theorem SameSettings.call {d : PhiAccrualDetector F} (same : self.SameSettings d) (c : Call) :
    self.SameSettings (d.call arith c) := by
  obtain ⟨threshold, window, deviation⟩ := same
  cases c with
  | heartbeat nodeId at_ =>
      simp only [PhiAccrualDetector.call, recordHeartbeatAt]
      split <;> exact ⟨threshold, window, deviation⟩
  | check order at_ => exact ⟨threshold, window, deviation⟩
  | remove nodeId => exact ⟨threshold, window, deviation⟩

theorem Calls.settings {start d : PhiAccrualDetector F} {calls : List Call}
    (run : Calls arith start calls d) : start.SameSettings d := by
  induction run with
  | nil => exact ⟨rfl, rfl, rfl⟩
  | snoc run admits ih => exact ih.call _

/-! ## The history -/

/-- The times between successive heartbeats; zero where the clock does not
advance. -/
def interArrivals : List Nat → List Nat
  | a :: b :: times => (b - a) :: interArrivals (b :: times)
  | _ => []

/-- The last `n` elements. -/
def recent (n : Nat) (l : List Nat) : List Nat := l.drop (l.length - n)

/-- The heartbeats of a peer since it is tracked. -/
def beatTimes (id : String) (calls : List Call) : List Nat :=
  calls.foldl (fun times c =>
    match c with
    | .heartbeat nodeId at_ => if nodeId = id then times ++ [at_] else times
    | .check _ _ => times
    | .remove nodeId => if nodeId = id then [] else times) []

/-- The window over the positive inter-arrival times. -/
def window (n : Nat) (times : List Nat) : List Nat :=
  recent n ((interArrivals times).filter (0 < ·))

theorem interArrivals_concat (times : List Nat) (last at_ : Nat)
    (is : times.getLast? = some last) :
    interArrivals (times ++ [at_]) = interArrivals times ++ [at_ - last] := by
  induction times with
  | nil => cases is
  | cons a times ih =>
      cases times with
      | nil =>
          cases is
          rfl
      | cons b times =>
          rw [List.getLast?_cons_cons] at is
          exact congrArg ((b - a) :: ·) (ih is)

/-- One more element pushes the oldest one out of a full window. -/
theorem recent_concat {n : Nat} (positive : 0 < n) (l : List Nat) (x : Nat) :
    recent n (l ++ [x]) =
      (if n ≤ (recent n l).length then (recent n l).tail else recent n l) ++ [x] := by
  unfold recent
  rw [List.length_append, List.length_singleton, List.length_drop, List.drop_append_of_le_length
    (by omega)]
  congr 1
  split
  case isTrue full =>
    rw [List.tail_drop]
    congr 1
    omega
  case isFalse room =>
    congr 1
    omega

/-- The state of a peer with these heartbeats, whatever its status is. -/
def Follows (n : Nat) (times : List Nat) : Option PeerState → Prop
  | none => times = []
  | some state =>
    times.getLast? = some state.lastHeartbeat ∧ state.heartbeatHistory = window n times

theorem beat_follows {d : PhiAccrualDetector F} (positive : 0 < d.windowSize) {times : List Nat}
    {state : PeerState} (follows : Follows d.windowSize times (some state)) (at_ : Nat) :
    Follows d.windowSize (times ++ [at_]) (some (d.beat state at_)) := by
  obtain ⟨last, history⟩ := follows
  refine ⟨by rw [List.getLast?_concat]; rfl, ?_⟩
  simp only [beat, window]
  rw [interArrivals_concat times _ at_ last, List.filter_append]
  by_cases elapsed : 0 < at_ - state.lastHeartbeat
  · rw [if_pos elapsed, List.filter_cons_of_pos (by simpa using elapsed), List.filter_nil,
      recent_concat positive, history]
    rfl
  · rw [if_neg elapsed, List.filter_cons_of_neg (by simpa using elapsed), List.filter_nil,
      List.append_nil, history]
    rfl

/-- Over a run, the history of a peer is the window over its heartbeats. -/
theorem Calls.follows {start d : PhiAccrualDetector F} {calls : List Call}
    (run : Calls arith start calls d) (positive : 0 < start.windowSize)
    (untracked : start.peers = ∅) (id : String) :
    Follows start.windowSize (beatTimes id calls) (d.peers.lookup id) := by
  induction run with
  | nil =>
      rw [untracked, Finmap.lookup_empty]
      rfl
  | @snoc calls d c run admits ih =>
      rw [lookup_call arith _ admits, beatTimes, List.foldl_concat]
      obtain ⟨-, same, -⟩ := run.settings
      cases c with
      | heartbeat nodeId at_ =>
          simp only [callPeer]
          by_cases own : nodeId = id
          · rw [if_pos own, if_pos own]
            rcases peer : d.peers.lookup id with _ | state
            · rw [peer] at ih
              have none : beatTimes id calls = [] := ih
              unfold beatTimes at none
              rw [none]
              exact ⟨rfl, List.drop_nil.symm⟩
            · rw [peer, ← same] at ih
              rw [← same]
              exact beat_follows (same ▸ positive) ih at_
          · rw [if_neg own, if_neg own]
            exact ih
      | check order at_ =>
          simp only [callPeer]
          rcases peer : d.peers.lookup id with _ | state
          · rw [peer] at ih
            exact ih
          · rw [peer] at ih
            exact ih
      | remove nodeId =>
          simp only [callPeer]
          by_cases own : nodeId = id
          · rw [if_pos own, if_pos own]
            rfl
          · rw [if_neg own, if_neg own]
            exact ih

/-! ## The status -/

variable (arith) in
/-- The check that follows the calls reports a phi of at least `bound` for the
peer. -/
def Reports (start : PhiAccrualDetector F) (id : String) (before : List Call) (order : List String)
    (at_ : Nat) (bound : F) : Prop :=
  ∃ d status phi, Calls arith start before d ∧ d.Admits (.check order at_) ∧
    (d.checkAllAt arith order at_).2.lookup id = some (status, phi) ∧ arith.ge phi bound = true

variable (arith) in
/-- Since the last heartbeat of the peer, a check found it over the threshold. -/
def OverOnce (start : PhiAccrualDetector F) (id : String) (calls : List Call) : Prop :=
  ∃ before order at_ since, calls = before ++ .check order at_ :: since ∧
    (∀ c ∈ since, c.Quiet id) ∧ Reports arith start id before order at_ start.phiThreshold

variable (arith) in
/-- Since then, a later check found it over twice the threshold. -/
def OverTwice (start : PhiAccrualDetector F) (id : String) (calls : List Call) : Prop :=
  ∃ before order at_ since, calls = before ++ .check order at_ :: since ∧
    (∀ c ∈ since, c.Quiet id) ∧ OverOnce arith start id before ∧
    Reports arith start id before order at_ (arith.double start.phiThreshold)

variable (arith) in
/-- What a status rests on. -/
def Escalated (start : PhiAccrualDetector F) (id : String) (calls : List Call) : PeerStatus → Prop
  | .alive => True
  | .suspected => OverOnce arith start id calls
  | .dead => OverTwice arith start id calls

theorem quiet_concat {id : String} {since : List Call} {c : Call} (quiet : ∀ c ∈ since, c.Quiet id)
    (here : c.Quiet id) : ∀ c' ∈ since ++ [c], c'.Quiet id := by
  intro c' mem
  rcases List.mem_append.mp mem with old | new
  · exact quiet c' old
  · rw [List.mem_singleton.mp new]
    exact here

theorem Escalated.concat {start : PhiAccrualDetector F} {id : String} {calls : List Call}
    {status : PeerStatus} {c : Call} (escalated : Escalated arith start id calls status)
    (quiet : c.Quiet id) : Escalated arith start id (calls ++ [c]) status := by
  cases status with
  | alive => exact trivial
  | suspected =>
      obtain ⟨before, order, at_, since, rfl, still, reports⟩ := escalated
      exact ⟨before, order, at_, since ++ [c], by simp, quiet_concat still quiet, reports⟩
  | dead =>
      obtain ⟨before, order, at_, since, rfl, still, above, reports⟩ := escalated
      exact ⟨before, order, at_, since ++ [c], by simp, quiet_concat still quiet, above, reports⟩

variable (arith) in
/-- What a check can do to a peer. -/
theorem judge_cases (d : PhiAccrualDetector F) (state : PeerState) (at_ : Nat) :
    d.judge arith state at_ = state.status ∨
      (state.status = .alive ∧ arith.ge (d.phiOf arith state at_) d.phiThreshold = true ∧
        d.judge arith state at_ = .suspected) ∨
      (state.status = .suspected ∧
        arith.ge (d.phiOf arith state at_) (arith.double d.phiThreshold) = true ∧
        d.judge arith state at_ = .dead) := by
  unfold judge
  rcases state.status with _ | _ | _
  · by_cases above : arith.ge (d.phiOf arith state at_) d.phiThreshold = true
    · exact .inr (.inl ⟨rfl, above, if_pos above⟩)
    · exact .inl (if_neg above)
  · by_cases above : arith.ge (d.phiOf arith state at_) (arith.double d.phiThreshold) = true
    · exact .inr (.inr ⟨rfl, above, if_pos above⟩)
    · exact .inl (if_neg above)
  · exact .inl rfl

/-- A check escalates for the reason that it reports. -/
theorem Escalated.judge {start d : PhiAccrualDetector F} {calls : List Call} {id : String}
    {state : PeerState} {order : List String} {at_ : Nat}
    (escalated : Escalated arith start id calls state.status) (run : Calls arith start calls d)
    (admits : d.Admits (.check order at_)) (tracked : d.peers.lookup id = some state) :
    Escalated arith start id (calls ++ [.check order at_]) (d.judge arith state at_) := by
  obtain ⟨threshold, -, -⟩ := run.settings
  have report := lookup_report arith admits at_ tracked
  rcases judge_cases arith d state at_ with
    stays | ⟨alive, above, suspected⟩ | ⟨suspected, above, dead⟩
  · rw [stays]
    exact escalated.concat trivial
  · rw [suspected]
    exact ⟨calls, order, at_, [], rfl, by simp, d, _, _, run, admits, report, threshold ▸ above⟩
  · rw [suspected] at escalated
    rw [dead]
    exact ⟨calls, order, at_, [], rfl, by simp, escalated, d, _, _, run, admits, report,
      threshold ▸ above⟩

/-- Over a run, the status of a peer is one that the checks since its last
heartbeat account for. -/
theorem Calls.escalated {start d : PhiAccrualDetector F} {calls : List Call}
    (run : Calls arith start calls d) (untracked : start.peers = ∅) (id : String)
    {state : PeerState} (tracked : d.peers.lookup id = some state) :
    Escalated arith start id calls state.status := by
  induction run generalizing state with
  | nil =>
      rw [untracked, Finmap.lookup_empty] at tracked
      cases tracked
  | @snoc calls d c run admits ih =>
      rw [lookup_call arith _ admits] at tracked
      cases c with
      | heartbeat nodeId at_ =>
          simp only [callPeer] at tracked
          split at tracked
          case isTrue own =>
            -- alive, whether it was tracked or not
            have alive : state.status = .alive := by
              split at tracked <;> (cases tracked; rfl)
            rw [alive]
            exact trivial
          case isFalse other => exact (ih tracked).concat other
      | check order at_ =>
          obtain ⟨before, found, rfl⟩ := Option.map_eq_some_iff.mp tracked
          exact (ih found).judge run admits found
      | remove nodeId =>
          simp only [callPeer] at tracked
          split at tracked
          case isTrue own => cases tracked
          case isFalse other => exact (ih tracked).concat other

variable (arith) in
/-- One step at most, and never back. -/
theorem level_judge (d : PhiAccrualDetector F) (state : PeerState) (at_ : Nat) :
    state.status.level ≤ (d.judge arith state at_).level ∧
      (d.judge arith state at_).level ≤ state.status.level + 1 := by
  rcases judge_cases arith d state at_ with
    stays | ⟨alive, -, suspected⟩ | ⟨suspected, -, dead⟩
  · rw [stays]
    exact ⟨Nat.le_refl _, Nat.le_succ _⟩
  · rw [alive, suspected]
    exact ⟨by decide, by decide⟩
  · rw [suspected, dead]
    exact ⟨by decide, by decide⟩

/-- What any sequence of calls, at any times and with any phi, leaves. -/
theorem detector_safety (phiThreshold : F) (windowSize : Nat) (minStdDevMs : F) {calls : List Call}
    {d : PhiAccrualDetector F}
    (run : Calls arith (new arith phiThreshold windowSize minStdDevMs) calls d) :
    let start := new arith phiThreshold windowSize minStdDevMs
    (∀ id state, d.peers.lookup id = some state → state.status = .dead →
      ∃ before order at_ between order' at' after,
        calls = before ++ .check order at_ :: (between ++ .check order' at' :: after) ∧
        (∀ c ∈ between ++ after, c.Quiet id) ∧
        Reports arith start id before order at_ phiThreshold ∧
        Reports arith start id (before ++ .check order at_ :: between) order' at'
          (arith.double phiThreshold)) ∧
    (∀ id at_, (d.recordHeartbeatAt id at_).Alive id) ∧
    (∀ order at_, HashMap.IterOrder d.peers order → ∀ id state, d.peers.lookup id = some state →
      ∃ state', (d.checkAllAt arith order at_).1.peers.lookup id = some state' ∧
        state.status.level ≤ state'.status.level ∧
        state'.status.level ≤ state.status.level + 1) ∧
    ∀ id state, d.peers.lookup id = some state →
      state.heartbeatHistory = window d.windowSize (beatTimes id calls) ∧
      state.heartbeatHistory.length ≤ d.windowSize ∧ ∀ x ∈ state.heartbeatHistory, 0 < x := by
  intro start
  have positive : 0 < start.windowSize := Nat.lt_of_lt_of_le Nat.two_pos (Nat.le_max_right _ _)
  refine ⟨fun id state tracked dead => ?_, d.alive_recordHeartbeatAt,
    fun order at_ visits id state tracked => ?_, fun id state tracked => ?_⟩
  · have escalated := run.escalated rfl id tracked
    rw [dead] at escalated
    obtain ⟨_, order', at', after, rfl, still', once, reports'⟩ := escalated
    obtain ⟨before, order, at_, between, rfl, still, reports⟩ := once
    refine ⟨before, order, at_, between, order', at', after, by simp, fun c mem => ?_, reports,
      reports'⟩
    rcases List.mem_append.mp mem with first | second
    · exact still c first
    · exact still' c second
  · have after := lookup_checkAllAt arith visits at_ id
    rw [tracked] at after
    exact ⟨_, after, level_judge arith d state at_⟩
  · have follows := run.follows positive rfl id
    obtain ⟨-, same, -⟩ := run.settings
    rw [tracked, ← same] at follows
    obtain ⟨-, history⟩ := follows
    refine ⟨history, ?_, fun x mem => ?_⟩
    · rw [history]
      unfold window recent
      rw [List.length_drop]
      omega
    · rw [history] at mem
      simpa using (List.mem_filter.mp (List.mem_of_mem_drop mem)).2

/-- Node `b` sends two heartbeats, and nothing more before two checks. -/
def Call.sample : List Call :=
  [.heartbeat "b" 5, .heartbeat "b" 6, .check ["b"] 100, .check ["b"] 200]

/-- With the silence as phi, the two checks end in `dead`. -/
theorem detector_safety_sample :
    let d := Call.sample.foldl (call Reconciler.silence) (new Reconciler.silence 8 100 100)
    (∃ state, d.peers.lookup "b" = some state ∧ state.status = .dead) ∧
      ∃ before order at_ between order' at' after,
        Call.sample = before ++ .check order at_ :: (between ++ .check order' at' :: after) := by
  have run : Calls Reconciler.silence (new Reconciler.silence 8 100 100) Call.sample
      (Call.sample.foldl (call Reconciler.silence) (new Reconciler.silence 8 100 100)) := by
    exact .snoc (.snoc (.snoc (.snoc .nil (by decide +kernel)) (by decide +kernel))
      (by decide +kernel)) (by decide +kernel)
  have dead : ∃ state, (Call.sample.foldl (call Reconciler.silence)
      (new Reconciler.silence 8 100 100)).peers.lookup "b" = some state ∧ state.status = .dead :=
    ⟨⟨[1], 6, .dead⟩, by decide +kernel, rfl⟩
  obtain ⟨state, tracked, status⟩ := dead
  obtain ⟨before, order, at_, between, order', at', after, split, -⟩ :=
    (detector_safety 8 100 100 run).1 "b" state tracked status
  exact ⟨⟨state, tracked, status⟩, before, order, at_, between, order', at', after, split⟩

end PhiAccrualDetector

end Ferrocache
