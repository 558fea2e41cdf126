import Ferrocache.Cluster.Insert

/-!
# How far a clustered insert has come

At every point of the handler, each replica that it does not skip as dead has
acknowledged the insert or is still ahead of it; so when it answers OK all of
them have (`Reachable.acknowledged`).
-/

namespace Ferrocache

namespace InsertCall

variable (fleet : Fleet) (call : InsertCall)

/-- The replica is not skipped: it is the coordinator, or not dead. -/
def Targets (cluster : ClusterState) (r : String × String) : Prop :=
  r.1 = cluster.selfNodeId ∨ cluster.peerStatus r.1 ≠ .dead

/-- The node that the handler takes a replica to be. -/
def replicaNode (cluster : ClusterState) (r : String × String) : String :=
  if r.1 = cluster.selfNodeId then call.here else fleet.owner r.2

/-- Every target has acknowledged, or is one of the peers `ahead`. -/
def Covered (cluster : ClusterState) (replicas : List (String × String)) (acked : Finset String)
    (ahead : String × String → Prop) : Prop :=
  ∀ r ∈ replicas, Targets cluster r →
    call.replicaNode fleet cluster r ∈ acked ∨ r.1 ≠ cluster.selfNodeId ∧ ahead r

/-- What the handler's position says about who has acknowledged. -/
def Progress (acked : Finset String) : InsertPhase → Prop
  | .storing none => call.plan = .storeLocally
  | .storing (some peers) => ∃ cluster replicas, call.plan = .replicate cluster replicas ∧
      peers = replicas.filter (·.1 ≠ cluster.selfNodeId)
  | .replicating peers => ∃ cluster replicas, call.plan = .replicate cluster replicas ∧
      call.Covered fleet cluster replicas acked (· ∈ peers)
  | .forwarding addr _ rest => ∃ cluster replicas, call.plan = .replicate cluster replicas ∧
      call.Covered fleet cluster replicas acked fun r => r.2 = addr ∨ r ∈ rest
  | .answered (.ok id) => id = call.id ∧
      (call.plan = .storeLocally ∧ call.here ∈ acked ∨
        ∃ cluster replicas, call.plan = .replicate cluster replicas ∧
          ∀ r ∈ replicas, Targets cluster r → call.replicaNode fleet cluster r ∈ acked)
  | _ => True

variable {fleet call} {cluster : ClusterState} {replicas : List (String × String)}
  {acked acked' : Finset String}

theorem Covered.mono {ahead ahead' : String × String → Prop}
    (covered : call.Covered fleet cluster replicas acked ahead) (more : acked ⊆ acked')
    (still : ∀ r, r.1 ≠ cluster.selfNodeId → ahead r → Targets cluster r →
      call.replicaNode fleet cluster r ∈ acked' ∨ ahead' r) :
    call.Covered fleet cluster replicas acked' ahead' := by
  intro r mem target
  rcases covered r mem target with done | ⟨other, later⟩
  · exact .inl (more done)
  · exact (still r other later target).imp_right fun next => ⟨other, next⟩

/-- The position stays true when more nodes acknowledge. -/
theorem Progress.mono {phase : InsertPhase} (progress : call.Progress fleet acked phase)
    (more : acked ⊆ acked') : call.Progress fleet acked' phase := by
  cases phase with
  | received => trivial
  | lost => trivial
  | storing peers =>
      cases peers with
      | none => exact progress
      | some peers => exact progress
  | replicating peers =>
      obtain ⟨cluster, replicas, planned, covered⟩ := progress
      exact ⟨cluster, replicas, planned, covered.mono more fun _ _ ahead _ => .inr ahead⟩
  | forwarding addr attempt rest =>
      obtain ⟨cluster, replicas, planned, covered⟩ := progress
      exact ⟨cluster, replicas, planned, covered.mono more fun _ _ ahead _ => .inr ahead⟩
  | answered reply =>
      cases reply with
      | ok id =>
          obtain ⟨same, ⟨planned, done⟩ | ⟨cluster, replicas, planned, done⟩⟩ := progress
          · exact ⟨same, .inl ⟨planned, more done⟩⟩
          · exact ⟨same, .inr ⟨cluster, replicas, planned, fun r mem target =>
              more (done r mem target)⟩⟩
      | badRequest msg => trivial
      | internalError msg => trivial
      | badGateway msg => trivial

theorem Progress.crash {phase : InsertPhase} (progress : call.Progress fleet acked phase) :
    call.Progress fleet acked phase.crash := by
  unfold InsertPhase.crash
  split
  · exact progress
  · trivial

/-- The handler enters the loop after its own part. -/
theorem Progress.enterLoop (planned : call.plan = .replicate cluster replicas)
    (own : ∀ r ∈ replicas, r.1 = cluster.selfNodeId → call.here ∈ acked) :
    call.Progress fleet acked
      (Insertion.enterLoop call (replicas.filter (·.1 ≠ cluster.selfNodeId))) := by
  unfold Insertion.enterLoop
  split
  · refine ⟨cluster, replicas, planned, fun r mem _ => ?_⟩
    by_cases self : r.1 = cluster.selfNodeId
    · unfold replicaNode
      rw [if_pos self]
      exact .inl (own r mem self)
    · exact .inr ⟨self, List.mem_filter.mpr ⟨mem, decide_eq_true self⟩⟩
  · trivial

end InsertCall

namespace Insertion

variable [Platform] {fleet : Fleet} {call : InsertCall} {s : Insertion}

theorem acked_subset_onNode (p : String) (a : Action) :
    s.acked ⊆ (s.onNode fleet call p a).acked := fun _ mem =>
  World.mem_onNode_acked.mpr (.inl mem)

theorem step_progress (progress : call.Progress fleet s.acked s.phase) {e : InsertEvent}
    (admissible : s.Admissible fleet call e) :
    call.Progress fleet (s.step fleet call e).acked (s.step fleet call e).phase := by
  have moves := step_moves fleet call s e
  generalize s.step fleet call e = s' at moves ⊢
  cases moves with
  | stays => exact progress
  | rejects now planned => trivial
  | storesAlone now planned => exact planned
  | storesFirst now planned inside => exact ⟨_, _, planned, rfl⟩
  | enters now planned outside =>
      exact .enterLoop planned fun r mem self => absurd self (outside r mem)
  | fails reply msg => trivial
  | stored reply phase ok =>
      rw [phase] at progress
      exact ⟨rfl, .inl ⟨progress, admissible (InsertCall.eq_ok_of_flushError ok)⟩⟩
  | continues reply phase ok =>
      rw [phase] at progress
      obtain ⟨cluster, replicas, planned, rfl⟩ := progress
      exact .enterLoop planned fun _ _ _ => admissible (InsertCall.eq_ok_of_flushError ok)
  | ends phase =>
      rw [phase] at progress
      obtain ⟨cluster, replicas, planned, covered⟩ := progress
      refine ⟨rfl, .inr ⟨cluster, replicas, planned, fun r mem target => ?_⟩⟩
      rcases covered r mem target with done | ⟨-, none⟩
      · exact done
      · cases none
  | skips phase planned dead =>
      rw [phase] at progress
      obtain ⟨_, _, same, covered⟩ := progress
      cases same.symm.trans planned
      refine ⟨_, _, planned, covered.mono subset_rfl fun r other mem target => ?_⟩
      rcases List.mem_cons.mp mem with rfl | later
      · exact absurd dead (target.resolve_left other)
      · exact .inr later
  | sends phase planned alive =>
      rw [phase] at progress
      obtain ⟨_, _, same, covered⟩ := progress
      cases same.symm.trans planned
      refine ⟨_, _, planned, covered.mono subset_rfl fun r _ mem _ => ?_⟩
      rcases List.mem_cons.mp mem with rfl | later
      · exact .inr (.inl rfl)
      · exact .inr (.inr later)
  | succeeds phase =>
      rw [phase] at progress
      obtain ⟨cluster, replicas, planned, covered⟩ := progress
      refine ⟨cluster, replicas, planned, covered.mono subset_rfl fun r other ahead _ => ?_⟩
      rcases ahead with rfl | later
      · unfold InsertCall.replicaNode
        rw [if_neg other]
        exact .inl (admissible rfl _ _ _ phase)
      · exact .inr later
  | retries phase =>
      rw [phase] at progress
      exact progress
  | givesUp result => trivial
  | arrives addr now => exact progress.mono (acked_subset_onNode _ _)
  | fetches p => exact progress
  | repairs p full => exact progress.mono (acked_subset_onNode _ _)
  | acts p a =>
      have more : call.Progress fleet (s.onNode fleet call p a).acked s.phase :=
        progress.mono (acked_subset_onNode p a)
      dsimp only
      split
      · exact more.crash
      · exact more

theorem Reachable.progress {guard : InsertEvent → Prop} {start : String → Node}
    (reached : Reachable fleet call guard start s) : call.Progress fleet s.acked s.phase := by
  induction reached with
  | new => trivial
  | step e _ admissible _ ih => exact step_progress ih admissible

/-- An insert is answered OK with its own UUID, and every replica that was not
skipped has acknowledged it; without replication the serving node has. -/
theorem Reachable.acknowledged {guard : InsertEvent → Prop} {start : String → Node}
    (reached : Reachable fleet call guard start s) {id : String}
    (answered : s.phase = .answered (.ok id)) :
    id = call.id ∧ (call.plan = .storeLocally ∧ call.here ∈ s.acked ∨
      ∃ cluster replicas, call.plan = .replicate cluster replicas ∧ ∀ r ∈ replicas,
        InsertCall.Targets cluster r → call.replicaNode fleet cluster r ∈ s.acked) := by
  have progress := reached.progress
  rw [answered] at progress
  exact progress

end Insertion

end Ferrocache
