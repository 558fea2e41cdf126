import Ferrocache.Cluster.Escalation

/-!
# Silent peers

How far the checks bring a peer that sends no heartbeat.  A peer with a history
is declared dead by the second late check, and the reconciler drops it from the
ring.  A peer that sent a single heartbeat has no history; its phi is zero for
good, and it stays alive.
-/

namespace Ferrocache

namespace PhiAccrualDetector

variable {F : Type} (arith : PhiArithmetic F)

/-- With any history, a long enough silence brings phi over the threshold and over
twice the threshold. -/
def Rises (d : PhiAccrualDetector F) : Prop :=
  ∀ history, history ≠ [] → ∃ long, ∀ silence, long ≤ silence →
    arith.ge (arith.computePhi d.minStdDevMs silence history) d.phiThreshold = true ∧
    arith.ge (arith.computePhi d.minStdDevMs silence history) (arith.double d.phiThreshold) = true

/-- A check at or after `from_`. -/
def Call.late (from_ : Nat) : Call → Bool
  | .check _ at_ => decide (from_ ≤ at_)
  | _ => false

variable {arith} {d d' : PhiAccrualDetector F} {id : String} {state : PeerState} {later : List Call}

variable (arith) in
/-- A quiet call changes the status of a peer at most. -/
theorem lookup_quiet {c : Call} (admits : d.Admits c) (quiet : c.Quiet id)
    (tracked : d.peers.lookup id = some state) :
    ((d.call arith c).peers.lookup id = some state ∧ ∀ from_, c.late from_ = false) ∨
      ∃ order at_, c = .check order at_ ∧ (d.call arith c).peers.lookup id =
        some { state with status := d.judge arith state at_ } := by
  rw [lookup_call arith _ admits, tracked]
  cases c with
  | heartbeat nodeId at_ => exact .inl ⟨if_neg quiet, fun _ => rfl⟩
  | check order at_ => exact .inr ⟨order, at_, rfl, rfl⟩
  | remove nodeId => exact .inl ⟨if_neg quiet, fun _ => rfl⟩

/-- Without a history, phi is zero whatever the silence is. -/
theorem Calls.stays_alive (run : Calls arith d later d') (quiet : ∀ c ∈ later, c.Quiet id)
    (positive : arith.ge arith.zero d.phiThreshold = false)
    (tracked : d.peers.lookup id = some state) (empty : state.heartbeatHistory = [])
    (alive : state.status = .alive) : d'.peers.lookup id = some state := by
  induction run with
  | nil => exact tracked
  | @snoc calls d₁ c run admits ih =>
      have before := ih fun c mem => quiet c (List.mem_append_left _ mem)
      have here := quiet c (List.mem_append_right _ (List.mem_singleton.mpr rfl))
      rcases lookup_quiet arith admits here before with ⟨same, -⟩ | ⟨order, at_, rfl, judged⟩
      · exact same
      · obtain ⟨threshold, -, -⟩ := run.settings
        have stays : d₁.judge arith state at_ = state.status := by
          simp [judge, phiOf, empty, alive, threshold, positive]
        rw [judged, stays]

/-- A check with both comparisons true brings a peer one step further. -/
theorem level_judge_of_over {at_ : Nat}
    (above : arith.ge (d.phiOf arith state at_) d.phiThreshold = true)
    (twice : arith.ge (d.phiOf arith state at_) (arith.double d.phiThreshold) = true) :
    min 2 (state.status.level + 1) ≤ (d.judge arith state at_).level := by
  simp only [judge]
  rcases state.status with _ | _ | _
  · simp only [above, if_true]
    exact Nat.le_refl 1
  · simp only [twice, if_true]
    exact Nat.le_refl 2
  · exact Nat.le_refl 2

/-- Every late check brings a peer with a history one step further. -/
theorem Calls.late_level (run : Calls arith d later d') (quiet : ∀ c ∈ later, c.Quiet id)
    (tracked : d.peers.lookup id = some state) (history : state.heartbeatHistory ≠ []) {long : Nat}
    (rises : ∀ silence, long ≤ silence →
      arith.ge (arith.computePhi d.minStdDevMs silence state.heartbeatHistory)
        d.phiThreshold = true ∧
      arith.ge (arith.computePhi d.minStdDevMs silence state.heartbeatHistory)
        (arith.double d.phiThreshold) = true) :
    ∃ status, d'.peers.lookup id = some { state with status := status } ∧
      min 2 (later.countP (Call.late (state.lastHeartbeat + long))) ≤ status.level := by
  induction run with
  | nil => exact ⟨state.status, tracked, Nat.zero_le _⟩
  | @snoc calls d₁ c run admits ih =>
      obtain ⟨status, before, reached⟩ := ih fun c mem => quiet c (List.mem_append_left _ mem)
      have here := quiet c (List.mem_append_right _ (List.mem_singleton.mpr rfl))
      rw [List.countP_append, List.countP_singleton]
      rcases lookup_quiet arith admits here before with
        ⟨same, other⟩ | ⟨order, at_, rfl, judged⟩
      · refine ⟨status, same, ?_⟩
        rw [other, if_neg Bool.false_ne_true]
        exact reached
      · refine ⟨_, judged, ?_⟩
        obtain ⟨threshold, -, deviation⟩ := run.settings
        by_cases late : state.lastHeartbeat + long ≤ at_
        · obtain ⟨above, twice⟩ := rises (at_ - state.lastHeartbeat) (by omega)
          have phi : d₁.phiOf arith { state with status := status } at_ =
              arith.computePhi d.minStdDevMs (at_ - state.lastHeartbeat)
                state.heartbeatHistory := by
            unfold phiOf
            rw [if_neg history, deviation]
          have further : min 2 (status.level + 1) ≤
              (d₁.judge arith { state with status := status } at_).level :=
            level_judge_of_over (by rw [phi, threshold]; exact above)
              (by rw [phi, threshold]; exact twice)
          rw [if_pos (by simpa [Call.late] using late)]
          omega
        · have kept := (level_judge arith d₁ { state with status := status } at_).1
          rw [if_neg (by simpa [Call.late] using late)]
          exact Nat.le_trans reached kept

theorem Calls.append {d₁ d₂ : PhiAccrualDetector F} {calls calls' : List Call}
    (run : Calls arith d calls d₁) (run' : Calls arith d₁ calls' d₂) :
    Calls arith d (calls ++ calls') d₂ := by
  induction run' with
  | nil =>
      rw [List.append_nil]
      exact run
  | snoc run' admits ih =>
      rw [← List.append_assoc]
      exact ih.snoc admits

end PhiAccrualDetector

namespace Reconciler

open PhiAccrualDetector

variable {F : Type} {arith : PhiArithmetic F} {selfNodeId selfApiAddr : String}

/-! ## Passes -/

variable (arith selfNodeId) in
/-- The heartbeats of a pass as calls of the detector. -/
theorem calls_heartbeats (beats : String → Nat) (order : List String) (d : PhiAccrualDetector F) :
    Calls arith d ((order.filter (· ≠ selfNodeId)).map fun id => .heartbeat id (beats id))
      (order.foldl (fun d id =>
        if id ≠ selfNodeId then d.recordHeartbeatAt id (beats id) else d) d) := by
  induction order generalizing d with
  | nil => exact .nil
  | cons head order ih =>
      rw [List.foldl_cons]
      by_cases own : head = selfNodeId
      · rw [if_neg (not_not.mpr own), List.filter_cons_of_neg (by simpa using own)]
        exact ih d
      · rw [if_pos own, List.filter_cons_of_pos (by simpa using own)]
        have first : Calls arith d ([] ++ [.heartbeat head (beats head)])
            (d.recordHeartbeatAt head (beats head)) := .snoc .nil trivial
        exact first.append (ih _)

theorem failureDetector_reconcileStep (self : Reconciler F) (pass : ReconcilePass) :
    (self.reconcileStep arith selfNodeId selfApiAddr pass).failureDetector =
      ((self.discover selfNodeId selfApiAddr pass).failureDetector).call arith
        (.check pass.peerOrder pass.checkedAt) := by
  simp only [reconcileStep]
  split <;> rfl

/-- A pass calls the detector for the peers of its snapshot, and then checks. -/
theorem calls_reconcileStep {self : Reconciler F} {pass : ReconcilePass}
    (admissible : Admissible arith selfNodeId selfApiAddr self pass) :
    ∃ beats, Calls arith self.failureDetector (beats ++ [.check pass.peerOrder pass.checkedAt])
        (self.reconcileStep arith selfNodeId selfApiAddr pass).failureDetector ∧
      ∀ id, id ∉ pass.snapshot → ∀ c ∈ beats, c.Quiet id := by
  have run : Calls arith self.failureDetector _
      (self.discover selfNodeId selfApiAddr pass).failureDetector :=
    calls_heartbeats arith selfNodeId pass.beats pass.order self.failureDetector
  rw [failureDetector_reconcileStep]
  refine ⟨_, run.snoc admissible.visitsPeers, fun id unlisted c mem => ?_⟩
  obtain ⟨nodeId, listed, rfl⟩ := List.mem_map.mp mem
  have member := (admissible.visits.2 nodeId).mp (List.mem_of_mem_filter listed)
  exact fun same => unlisted (same ▸ member)

theorem built_foldl_addNode {ids : List String} {ring : HashRing} (built : ring.Built) :
    (ids.foldl HashRing.addNode ring).Built := by
  induction ids generalizing ring with
  | nil => exact built
  | cons id ids ih => exact ih (built.addNode id)

/-- A node that is removed is gone, also when it shares positions with others. -/
theorem notMem_removeNode {ring : HashRing} (built : ring.Built) (id : String) :
    id ∉ (ring.removeNode id).nodes := by
  rw [HashRing.mem_nodes]
  intro member
  obtain ⟨p, found⟩ := member
  rw [HashRing.mem_removeNode] at found
  obtain ⟨old, free⟩ := found
  have held := built.holds old
  exact free held

theorem notMem_foldl_removeNode {ids : List String} {ring : HashRing} (built : ring.Built) :
    (ids.foldl HashRing.removeNode ring).Built ∧
      ∀ id, id ∈ ids ∨ id ∉ ring.nodes → id ∉ (ids.foldl HashRing.removeNode ring).nodes := by
  induction ids generalizing ring with
  | nil => exact ⟨built, fun id given => given.resolve_left List.not_mem_nil⟩
  | cons head ids ih =>
      obtain ⟨built', absent⟩ := ih (built.removeNode head)
      refine ⟨built', fun id given => absent id ?_⟩
      rcases given with listed | outside
      · rcases List.mem_cons.mp listed with same | later
        · rw [same]
          exact .inr (notMem_removeNode built head)
        · exact .inl later
      · exact .inr fun member => outside (HashRing.mem_nodes_removeNode member)

theorem built_reconcileStep {self : Reconciler F} (built : self.ring.Built) (pass : ReconcilePass) :
    (self.reconcileStep arith selfNodeId selfApiAddr pass).ring.Built := by
  have joined : (self.discover selfNodeId selfApiAddr pass).ring.Built := built_foldl_addNode built
  simp only [reconcileStep]
  split
  · exact (notMem_foldl_removeNode joined).1
  · exact joined

theorem Reachable.built {used : Set String} {self : Reconciler F}
    (reachable : Reachable arith selfNodeId selfApiAddr used self) : self.ring.Built := by
  induction reachable with
  | new virtualNodes phiThreshold windowSize minStdDevMs =>
      have empty : (HashRing.new virtualNodes).Built := ⟨virtualNodes, [], rfl⟩
      exact empty.addNode selfNodeId
  | step reachable admissible named ih => exact built_reconcileStep ih _

/-- A pass drops every peer that its check declares dead. -/
theorem notMem_reconcileStep {self : Reconciler F} {pass : ReconcilePass} (built : self.ring.Built)
    (admissible : Admissible arith selfNodeId selfApiAddr self pass)
    (enabled : pass.deadNodeRemovalEnabled = true) {id : String} {state : PeerState}
    (tracked : (self.reconcileStep arith selfNodeId selfApiAddr
      pass).failureDetector.peers.lookup id = some state) (dead : state.status = .dead) :
    id ∉ (self.reconcileStep arith selfNodeId selfApiAddr pass).ring.nodes := by
  have joined : (self.discover selfNodeId selfApiAddr pass).ring.Built := built_foldl_addNode built
  simp only [reconcileStep, enabled, if_true] at tracked ⊢
  refine (notMem_foldl_removeNode joined).2 id ?_
  by_cases member : id ∈ (self.discover selfNodeId selfApiAddr pass).ring.nodes
  · refine .inl ((mem_toRemove admissible.visitsStatuses).mpr ⟨?_, member⟩)
    have after := lookup_checkAllAt arith admissible.visitsPeers pass.checkedAt id
    obtain ⟨before, found, rfl⟩ := Option.map_eq_some_iff.mp (after.symm.trans tracked)
    have report := lookup_report arith admissible.visitsPeers pass.checkedAt found
    exact ⟨_, report.trans (congrArg some (Prod.ext dead rfl))⟩
  · exact .inr member

end Reconciler

open PhiAccrualDetector in
/-- A tracked peer with a history is dead after two late checks without a heartbeat
of it, and off the ring after two late passes whose snapshots lack it. -/
theorem silent_peer_dead {F : Type} {arith : PhiArithmetic F} {d : PhiAccrualDetector F}
    (rises : d.Rises arith) {id : String} {state : PeerState}
    (tracked : d.peers.lookup id = some state) (history : state.heartbeatHistory ≠ []) :
    ∃ from_,
      (∀ later d', Calls arith d later d' → (∀ c ∈ later, c.Quiet id) →
        2 ≤ later.countP (Call.late from_) →
        ∃ state', d'.peers.lookup id = some state' ∧ state'.status = .dead) ∧
      ∀ (selfNodeId selfApiAddr : String) (used : Set String) (self : Reconciler F)
        (first second : ReconcilePass),
        self.Reachable arith selfNodeId selfApiAddr used → self.failureDetector = d →
        self.Admissible arith selfNodeId selfApiAddr first →
        (self.reconcileStep arith selfNodeId selfApiAddr first).Admissible arith selfNodeId
          selfApiAddr second →
        first.deadNodeRemovalEnabled = true → second.deadNodeRemovalEnabled = true →
        id ∉ first.snapshot → id ∉ second.snapshot →
        from_ ≤ first.checkedAt → from_ ≤ second.checkedAt →
        id ∉ ((self.reconcileStep arith selfNodeId selfApiAddr first).reconcileStep arith selfNodeId
          selfApiAddr second).ring.nodes := by
  obtain ⟨long, above⟩ := rises state.heartbeatHistory history
  have dies : ∀ later d', Calls arith d later d' → (∀ c ∈ later, c.Quiet id) →
      2 ≤ later.countP (Call.late (state.lastHeartbeat + long)) →
      ∃ state', d'.peers.lookup id = some state' ∧ state'.status = .dead := by
    intro later d' run quiet two
    obtain ⟨status, found, reached⟩ := run.late_level quiet tracked history above
    refine ⟨_, found, ?_⟩
    rw [Nat.min_eq_left two] at reached
    rcases status with _ | _ | _
    · cases reached
    · exact absurd reached (by decide)
    · rfl
  refine ⟨state.lastHeartbeat + long, dies, ?_⟩
  intro selfNodeId selfApiAddr used self first second reachable detector admissible admissible'
    enabled enabled' unlisted unlisted' late late'
  obtain ⟨beats, run, quiet⟩ := Reconciler.calls_reconcileStep admissible
  obtain ⟨beats', run', quiet'⟩ := Reconciler.calls_reconcileStep admissible'
  rw [detector] at run
  obtain ⟨state', found, dead⟩ := dies _ _ (run.append run')
    (by
      intro c mem
      rcases List.mem_append.mp mem with one | two
      · have check : Call.Quiet id (.check first.peerOrder first.checkedAt) := trivial
        exact quiet_concat (quiet id unlisted) check c one
      · have check : Call.Quiet id (.check second.peerOrder second.checkedAt) := trivial
        exact quiet_concat (quiet' id unlisted') check c two)
    (by
      simp only [List.countP_append, List.countP_singleton, Call.late, late, late', decide_true,
        if_true]
      omega)
  exact Reconciler.notMem_reconcileStep (Reconciler.built_reconcileStep reachable.built first)
    admissible' enabled' found dead

section Example

open PhiAccrualDetector Reconciler

/-- The detector of a node that has seen one heartbeat of `b`. -/
def PhiAccrualDetector.seenOnce : PhiAccrualDetector Nat :=
  (new silence 8 100 100).call silence (.heartbeat "b" 5)

theorem rises_silence (d : PhiAccrualDetector Nat) : d.Rises silence := by
  intro history _
  refine ⟨2 * d.phiThreshold, fun t long => ⟨?_, ?_⟩⟩
  · simp only [silence, decide_eq_true_eq]
    omega
  · simp only [silence, decide_eq_true_eq]
    exact long

/-- After a single heartbeat no check suspects the peer, however late it is. -/
theorem single_heartbeat_stays_alive :
    Calls silence (new silence 8 100 100) [.heartbeat "b" 5] seenOnce ∧ seenOnce.Rises silence ∧
      (∃ state, seenOnce.peers.lookup "b" = some state) ∧
      ¬ ∃ from_, ∀ later d', Calls silence seenOnce later d' → (∀ c ∈ later, c.Quiet "b") →
        2 ≤ later.countP (Call.late from_) →
        ∃ state, d'.peers.lookup "b" = some state ∧ state.status = .dead := by
  have tracked : seenOnce.peers.lookup "b" = some ⟨[], 5, .alive⟩ := by decide +kernel
  refine ⟨.snoc .nil trivial, rises_silence _, ⟨_, tracked⟩, fun given => ?_⟩
  obtain ⟨from_, dies⟩ := given
  have visits : HashMap.IterOrder seenOnce.peers ["b"] := by decide +kernel
  have first : Calls silence seenOnce ([] ++ [.check ["b"] from_])
      (seenOnce.call silence (.check ["b"] from_)) := .snoc .nil visits
  have visits' : HashMap.IterOrder (seenOnce.call silence (.check ["b"] from_)).peers ["b"] := by
    refine ⟨visits.1, fun id => (visits.2 id).trans ?_⟩
    exact (mem_checkAllAt silence visits id).symm
  have both := first.snoc (c := .check ["b"] from_) visits'
  have quiet : ∀ c ∈ ([] ++ [.check ["b"] from_]) ++ [.check ["b"] from_], Call.Quiet "b" c := by
    intro c mem
    simp only [List.nil_append, List.mem_append, List.mem_singleton, or_self] at mem
    rw [mem]
    exact trivial
  obtain ⟨state, found, dead⟩ := dies _ _ both quiet (by simp [Call.late])
  have alive := both.stays_alive quiet rfl tracked rfl rfl
  rw [alive] at found
  cases found
  cases dead

/-- A pass at time `t` whose snapshot lists the node itself only. -/
def ReconcilePass.alone (t : Nat) : ReconcilePass where
  snapshot := (∅ : HashMap String String).insert "a" "a:3000"
  order := ["a"]
  beats _ := t
  checkedAt := t
  peerOrder := ["b"]
  statusOrder := ["b"]
  deadNodeRemovalEnabled := true

theorem admissible_alone {self : Reconciler Nat} (t : Nat)
    (visits : HashMap.IterOrder self.failureDetector.peers ["b"]) :
    self.Admissible silence "a" "a:3000" (.alone t) ∧
      HashMap.IterOrder (self.reconcileStep silence "a" "a:3000" (.alone t)).failureDetector.peers
        ["b"] := by
  have same : (self.discover "a" "a:3000" (.alone t)).failureDetector = self.failureDetector := by
    simp [discover, join, heartbeats, ReconcilePass.alone]
  have listed : HashMap.IterOrder ((∅ : HashMap String String).insert "a" "a:3000") ["a"] := by
    decide +kernel
  have own : "a" ∈ (∅ : HashMap String String).insert "a" "a:3000" := by decide +kernel
  refine ⟨⟨own, listed, same ▸ visits, visits.1, fun id => ?_⟩, visits.1, fun id => ?_⟩
  · rw [checked, mem_report silence (same ▸ visits), same]
    exact visits.2 id
  · rw [failureDetector_reconcileStep]
    refine (visits.2 id).trans ?_
    rw [← same]
    exact (mem_checkAllAt silence (same ▸ visits) id).symm

/-- Node `b` shows up in two passes. -/
def Reconciler.seenTwice : Reconciler Nat :=
  ((Reconciler.new silence "a" "a:3000" 2 8 100 100).reconcileStep silence "a" "a:3000"
    firstPass).reconcileStep silence "a" "a:3000" { firstPass with beats := fun _ => 6 }

/-- Two late passes without `b` drop it from the ring. -/
theorem silent_peer_dead_sample :
    "b" ∈ seenTwice.ring.nodes ∧ ∃ from_, ∀ t, from_ ≤ t →
      "b" ∉ ((seenTwice.reconcileStep silence "a" "a:3000" (.alone t)).reconcileStep silence "a"
        "a:3000" (.alone t)).ring.nodes := by
  have tracked : seenTwice.failureDetector.peers.lookup "b" = some ⟨[1], 6, .alive⟩ := by
    decide +kernel
  have visits : HashMap.IterOrder seenTwice.failureDetector.peers ["b"] := by decide +kernel
  have reachable : seenTwice.Reachable silence "a" "a:3000" Set.univ := by
    refine .step (.step (.new 2 8 100 100) ?_ fun _ _ => trivial) ?_ fun _ _ => trivial
    · exact ⟨by decide +kernel, by decide +kernel, by decide +kernel, by decide +kernel⟩
    · exact ⟨by decide +kernel, by decide +kernel, by decide +kernel, by decide +kernel⟩
  have unlisted : ∀ t, "b" ∉ (ReconcilePass.alone t).snapshot := fun _ =>
    (by decide +kernel : "b" ∉ (∅ : HashMap String String).insert "a" "a:3000")
  obtain ⟨from_, -, drops⟩ := silent_peer_dead (rises_silence _) tracked (by decide)
  refine ⟨by decide +kernel, from_, fun t late => ?_⟩
  obtain ⟨first, visits'⟩ := admissible_alone t visits
  exact drops "a" "a:3000" Set.univ seenTwice (.alone t) (.alone t) reachable rfl first
    (admissible_alone t visits').1 rfl rfl (unlisted t) (unlisted t) late late

end Example

end Ferrocache
