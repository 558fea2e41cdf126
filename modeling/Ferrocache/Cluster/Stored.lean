import Ferrocache.Cluster.Replicas
import Ferrocache.Node.Sound

/-!
# An insert answered OK is stored somewhere

The handler answers OK at the end of its loop whatever the loop did.  If the
coordinator is outside the replica set and every replica is dead, the loop skips
them all and no node ever sees the insert.  And an embedding with a float that is
not finite is written to the log as a line that does not decode.  These are the
only cases: an insert answered OK has been in the index of some node and, readable,
in its log file exactly when its floats are finite and some replica was not skipped
(`ok_insert_stored_iff`).
-/

namespace Ferrocache

/-- The insert is replicated, but the coordinator is not a replica and every
replica is dead. -/
def InsertCall.AllSkipped (call : InsertCall) : Prop :=
  ∃ cluster replicas, call.plan = .replicate cluster replicas ∧
    ∀ r ∈ replicas, r.1 ≠ cluster.selfNodeId ∧ cluster.peerStatus r.1 = .dead

/-- Every float of the embedding is finite. -/
def InsertCall.Finite (call : InsertCall) : Prop := call.req.embedding.all F32.isFinite = true

instance (call : InsertCall) : Decidable call.Finite :=
  inferInstanceAs (Decidable (call.req.embedding.all F32.isFinite = true))

/-- A record under the UUID has finite floats, or has not. -/
def Floats (uuid : String) (finite : Bool) (_ u : String) (r : Record) : Prop :=
  u = uuid → r.embedding.all F32.isFinite = finite

/-- A UUID that the directory leads to is found. -/
theorem SemanticIndex.getEntryByUuid_isSome {idx : SemanticIndex} {m u : String}
    (home : idx.uuidToNamespace.lookup u = some m) (live : idx.entryAt m u ≠ none) :
    (idx.getEntryByUuid u).isSome := by
  obtain ⟨e, found⟩ := Option.ne_none_iff_exists'.mp live
  obtain ⟨ns, known, stored⟩ := Option.bind_eq_some_iff.mp found
  unfold getEntryByUuid
  simp only [home, known, stored, Option.bind_eq_bind, Option.bind_some]
  rfl

section Stored

variable [Platform]

namespace Node

variable {cfg : NodeConfig} {n : Node}

/-- An insert of the UUID has finite floats. -/
def GivesFinite (uuid : String) : Action → Prop
  | .submit entry => entry.uuid = uuid → entry.isFinite = true
  | _ => True

/-- A node that acknowledges an insert with finite floats has it in its log file and
in its index. -/
theorem acks_stores (sound : Sound n) (wf : n.index.WellFormed) {uuid : String} {a : Action}
    (finite : n.Only (Floats uuid true)) (acked : n.acks uuid a = true) :
    (n.act cfg a).Stores uuid := by
  obtain ⟨line, waits, insert, rfl, log, inserted⟩ := acks_spec wf acked
  refine ⟨⟨line, ?_, insert, rfl⟩, SemanticIndex.getEntryByUuid_isSome (m := line.modelId) ?_ ?_⟩
  · rw [log]
    exact List.mem_filter.mpr ⟨sound.mem_file waits, finite.pending line waits insert rfl⟩
  · rw [inserted.directory, HashMap.lookup_insert_eq]
    exact if_pos rfl
  · rw [inserted.live, if_pos ⟨rfl, rfl⟩]
    exact Option.some_ne_none _

omit [Platform] in
/-- A node that has no line of the UUID with finite floats does not store it. -/
theorem not_stores_of_only {P : String → String → Record → Prop} {uuid : String}
    (only : n.Only P) (none : ∀ m r, P m uuid r → r.embedding.all F32.isFinite = false) :
    ¬ n.Stores uuid := by
  rintro ⟨⟨line, mem, insert, rfl⟩, -⟩
  obtain ⟨inFile, finite⟩ := List.mem_filter.mp mem
  have meets := only.log.file.lines line inFile insert
  exact Bool.false_ne_true ((none line.modelId _ meets).symm.trans finite)

end Node

namespace Insertion

variable {fleet : Fleet} {call : InsertCall} {s : Insertion}

/-- No write is cut inside a line, no other request uses the generated UUID, and one
that uses the same UUID has finite floats. -/
def Orderly (call : InsertCall) : InsertEvent → Prop
  | .node _ a => Node.WholeLines a ∧ Node.Avoids call.newUuid a ∧ Node.GivesFinite call.id a
  | _ => True

/-- Acknowledged inserts were stored. -/
structure Backed (w : World) : Prop where
  sound : ∀ p, (w.nodes p).Sound
  stored : w.acked ⊆ w.stored

theorem Backed.step (backed : Backed s.toWorld) (finite : Restricted (Floats call.id true) s)
    {e : InsertEvent} (admissible : s.Admissible fleet call e) (orderly : Orderly call e) :
    Backed (s.step fleet call e).toWorld := by
  rcases step_world e with same | ⟨p, a, causes, acts⟩
  · rw [same]
    exact backed
  · rw [acts]
    have able := causes.admissible admissible
    have whole : Node.WholeLines a := by
      cases causes with
      | own now first => trivial
      | delivered addr now => trivial
      | repaired p full => trivial
      | runs p a => exact orderly.1
    refine ⟨World.forall_onNode backed.sound ((backed.sound p).act able whole), fun q acked => ?_⟩
    rw [World.mem_onNode_stored]
    rcases World.mem_onNode_acked.mp acked with before | ⟨rfl, now⟩
    · exact .inl (backed.stored before)
    · exact .inr ⟨rfl, Node.acks_stores (backed.sound q) (finite.wellFormed q) (finite.only q) now⟩

/-- When no line of the UUID has finite floats on any node, none stores it. -/
theorem Reachable.stored_eq_empty {guard : InsertEvent → Prop} {start : String → Node}
    {P : String → String → Record → Prop}
    (restricted : ∀ {s}, Reachable fleet call guard start s → Restricted P s)
    (none : ∀ m r, P m call.id r → r.embedding.all F32.isFinite = false)
    (reached : Reachable fleet call guard start s) : s.stored = ∅ := by
  induction reached with
  | new => rfl
  | step e reached admissible guarded ih =>
      have next := (restricted (.step e reached admissible guarded)).only
      rcases step_world e with same | ⟨p, a, -, acts⟩
      · rw [same]
        exact ih
      · rw [acts] at next ⊢
        refine Finset.eq_empty_of_forall_notMem fun q mem => ?_
        rcases World.mem_onNode_stored.mp mem with before | ⟨rfl, now⟩
        · rw [ih] at before
          exact absurd before (Finset.notMem_empty q)
        · have only := next q
          rw [World.onNode_nodes_self] at only
          exact Node.not_stores_of_only only none now

/-- The handler can only skip. -/
def SkipsOnly (cluster : ClusterState) : InsertPhase → Prop
  | .storing _ => False
  | .forwarding _ _ _ => False
  | .replicating peers => ∀ r ∈ peers, cluster.peerStatus r.1 = .dead
  | _ => True

omit [Platform] in
theorem SkipsOnly.crash {cluster : ClusterState} (phase : InsertPhase) :
    SkipsOnly cluster phase.crash := by
  cases phase <;> trivial

/-- The UUID has reached no node and is on its way to none. -/
structure Skipping (call : InsertCall) (cluster : ClusterState) (s : Insertion) : Prop where
  restricted : Restricted (fun _ u _ => u ≠ call.id) s
  sent : s.sent = []
  phase : SkipsOnly cluster s.phase

section Skipped

variable {cluster : ClusterState} {replicas : List (String × String)}
  (planned : call.plan = .replicate cluster replicas)
  (skipped : ∀ r ∈ replicas, r.1 ≠ cluster.selfNodeId ∧ cluster.peerStatus r.1 = .dead)

include planned skipped

omit [Platform] in
theorem not_storesFirst : ¬ StoresFirst call := by
  rintro (elsewhere | ⟨cluster', replicas', same, r, mem, self⟩)
  · cases planned.symm.trans elsewhere
  · cases planned.symm.trans same
    exact (skipped r mem).1 self

/-- Skipping goes on, and nothing is sent. -/
theorem SkipsOnly.step (phase : SkipsOnly cluster s.phase) (e : InsertEvent) :
    SkipsOnly cluster (s.step fleet call e).phase ∧ (s.step fleet call e).sent = s.sent := by
  have moves := step_moves fleet call s e
  generalize s.step fleet call e = s' at moves ⊢
  cases moves with
  | stays => exact ⟨phase, rfl⟩
  | rejects now same => exact ⟨trivial, rfl⟩
  | storesAlone now same => cases planned.symm.trans same
  | storesFirst now same inside =>
      cases planned.symm.trans same
      obtain ⟨r, mem, self⟩ := inside
      exact absurd self (skipped r mem).1
  | enters now same outside =>
      cases planned.symm.trans same
      refine ⟨?_, rfl⟩
      simp only [enterLoop]
      split
      · exact fun r mem => (skipped r (List.mem_filter.mp mem).1).2
      · trivial
  | fails reply msg => exact ⟨trivial, rfl⟩
  | stored reply storing ok =>
      rw [storing] at phase
      exact phase.elim
  | continues reply storing ok =>
      rw [storing] at phase
      exact phase.elim
  | ends ahead => exact ⟨trivial, rfl⟩
  | skips ahead same dead =>
      rw [ahead] at phase
      exact ⟨fun r mem => phase r (List.mem_cons_of_mem _ mem), rfl⟩
  | sends ahead same alive =>
      cases planned.symm.trans same
      rw [ahead] at phase
      exact absurd (phase _ List.mem_cons_self) alive
  | succeeds forwarding =>
      rw [forwarding] at phase
      exact phase.elim
  | retries forwarding =>
      rw [forwarding] at phase
      exact phase.elim
  | givesUp result => exact ⟨trivial, rfl⟩
  | arrives addr now => exact ⟨phase, rfl⟩
  | fetches p => exact ⟨phase, rfl⟩
  | repairs p full => exact ⟨phase, rfl⟩
  | acts p a =>
      refine ⟨?_, rfl⟩
      dsimp only
      split
      · exact .crash s.phase
      · exact phase

theorem Skipping.step (skipping : Skipping call cluster s) {e : InsertEvent}
    (admissible : s.Admissible fleet call e) (orderly : Orderly call e) :
    Skipping call cluster (s.step fleet call e) := by
  obtain ⟨phase, sent⟩ := SkipsOnly.step planned skipped skipping.phase e
  refine ⟨skipping.restricted.step admissible fun p a causes entry same => ?_,
    sent.trans skipping.sent, phase⟩
  cases causes with
  | own now first => exact absurd first (not_storesFirst planned skipped)
  | delivered addr now =>
      have sent : addr ∈ s.sent := admissible
      rw [skipping.sent] at sent
      cases sent
  | repaired p full =>
      cases same
      exact skipping.restricted.copies full admissible
  | runs p a =>
      subst same
      exact fun _ named => orderly.2.1 (named.trans (call.id_of_replicate planned))

end Skipped

section Runs

variable {start : String → Node} (started : ∀ p, Node.Reachable (fleet.config p)
  (fun _ a => Node.WholeLines a ∧ Node.Avoids call.newUuid a ∧ Node.GivesFinite call.id a) (start p))

include started

theorem Reachable.backed (finite : call.Finite)
    (reached : Reachable fleet call (Orderly call) start s) : Backed s.toWorld := by
  have restricted : ∀ {s}, Reachable fleet call (Orderly call) start s →
      Restricted (Floats call.id true) s := fun reached =>
    reached.restricted (fun _ _ _ _ => finite) (fun _ _ orderly _ named => orderly.2.2 named)
      fun p => ⟨(started p).wellFormed, (started p).only fun _ _ guarded _ named =>
        guarded.2.2 named⟩
  induction reached with
  | new => exact ⟨fun p => (started p).sound fun _ _ guarded => guarded.1, Finset.Subset.refl _⟩
  | step e reached admissible orderly ih =>
      exact ih.step (restricted reached) admissible orderly

theorem Reachable.skipping {cluster : ClusterState} {replicas : List (String × String)}
    (planned : call.plan = .replicate cluster replicas)
    (skipped : ∀ r ∈ replicas, r.1 ≠ cluster.selfNodeId ∧ cluster.peerStatus r.1 = .dead)
    (reached : Reachable fleet call (Orderly call) start s) : Skipping call cluster s := by
  have stamped := call.id_of_replicate planned
  induction reached with
  | new =>
      refine ⟨⟨fun p => (started p).wellFormed, fun p => (started p).only ?_, ?_⟩, rfl, trivial⟩
      · exact fun _ entry guarded _ named => guarded.2.1 (named.trans stamped)
      · exact fun _ mem => absurd mem List.not_mem_nil
  | step e _ admissible orderly ih => exact ih.step planned skipped admissible orderly

/-- An embedding that is not finite under a generated UUID is stored nowhere. -/
theorem Reachable.stored_of_not_finite (fresh : call.id = call.newUuid) (infinite : ¬ call.Finite)
    (reached : Reachable fleet call (Orderly call) start s) : s.stored = ∅ := by
  refine reached.stored_eq_empty (P := Floats call.id false) (fun reached => ?_)
    fun _ _ floats => floats rfl
  refine reached.restricted (fun _ _ _ _ => Bool.eq_false_of_not_eq_true infinite) ?_ fun p =>
    ⟨(started p).wellFormed, (started p).only ?_⟩
  · exact fun _ _ orderly _ named => absurd (named.trans fresh) orderly.2.1
  · exact fun _ _ guarded _ named => absurd (named.trans fresh) guarded.2.1

/-- An insert that is answered OK, with finite floats or under a generated UUID, was
in the index and readable in the log file of some node exactly when its floats are
finite and it was stored by the serving node alone, or some replica was not skipped:
the coordinator itself, or a peer that is not dead. -/
theorem ok_insert_stored_iff (reached : Reachable fleet call (Orderly call) start s) {id : String}
    (answered : s.phase = .answered (.ok id)) (given : call.Finite ∨ call.id = call.newUuid) :
    id = call.id ∧ ((∃ p, p ∈ s.stored) ↔ call.Finite ∧ ¬ call.AllSkipped) := by
  obtain ⟨same, acknowledged⟩ := reached.acknowledged answered
  refine ⟨same, fun ⟨p, stored⟩ => ⟨?_, ?_⟩, fun ⟨finite, reaches⟩ => ?_⟩
  · by_contra infinite
    rw [reached.stored_of_not_finite started (given.resolve_left infinite) infinite] at stored
    exact Finset.notMem_empty p stored
  · rintro ⟨cluster, replicas, planned, skipped⟩
    have nowhere : s.stored = ∅ := reached.stored_eq_empty
      (fun reached => (reached.skipping started planned skipped).restricted)
      fun _ _ other => absurd rfl other
    rw [nowhere] at stored
    exact Finset.notMem_empty p stored
  · have backed := reached.backed started finite
    rcases acknowledged with ⟨-, acked⟩ | ⟨cluster, replicas, planned, acked⟩
    · exact ⟨call.here, backed.stored acked⟩
    · obtain ⟨r, mem, target⟩ : ∃ r ∈ replicas, InsertCall.Targets cluster r := by
        by_contra none
        refine reaches ⟨cluster, replicas, planned, fun r mem => ?_⟩
        have skips : ¬ InsertCall.Targets cluster r := fun target => none ⟨r, mem, target⟩
        exact ⟨fun self => skips (.inl self), not_not.mp fun alive => skips (.inr alive)⟩
      exact ⟨_, backed.stored (acked r mem target)⟩

end Runs

end Insertion

end Stored

namespace Insertion

/-! ## Every replica is dead -/

section Example

local instance storedExamplePlatform : Platform := Platform.sample

theorem ok_insert_stored_iff_sample :
    ∃ p, p ∈ (sampleStart.run Fleet.sample sampleCall sampleEvents).stored := by
  have answered : (sampleStart.run Fleet.sample sampleCall sampleEvents).phase =
      .answered (.ok "id") := by
    decide +kernel
  have orderly : ∀ e ∈ sampleEvents, Orderly sampleCall e := by
    simp [sampleEvents, Orderly, Node.WholeLines, Node.Avoids, Node.GivesFinite, WriteOutcome.Whole]
  refine (ok_insert_stored_iff (fun _ => .new)
    (.run .new (allowed_sampleEvents.of_forall orderly)) answered (.inr (by decide))).2.mpr
      ⟨by decide, ?_⟩
  rintro ⟨cluster, replicas, planned, skipped⟩
  cases plan_sampleCall.symm.trans planned
  exact (skipped ("a", "a:3000") (by decide)).1 rfl

/-- `b` coordinates an insert whose only replica is `a`, which is dead. -/
def skippedCall : InsertCall :=
  ⟨"b", ⟨some (ClusterState.sample "b" ((∅ : HashMap String PeerStatus).insert "a" .dead)), true, 1, 3⟩,
    false, sampleRequest, "id"⟩

/-- The insert is answered OK and no node has it. -/
theorem skipped_insert_answered_ok :
    let s := sampleStart.run Fleet.sample skippedCall [.receive 0, .forward, .forward]
    Reachable Fleet.sample skippedCall (Orderly skippedCall) sampleStart.nodes s ∧
      s.phase = .answered (.ok "id") ∧ s.stored = ∅ := by
  refine ⟨.run .new ⟨trivial, trivial, trivial, trivial, trivial, trivial, trivial⟩, ?_, ?_⟩
  · decide +kernel
  · decide +kernel

end Example

end Insertion

end Ferrocache
