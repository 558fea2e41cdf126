import Ferrocache.Cluster.Delete

/-!
# What a clustered delete reaches

The receiver looks the UUID up in its own directory first, and when it does not
find it answers 404 with no fan-out, so that the peers keep the entry.  The
request clears every member exactly when the receiver has the UUID (or nobody
does), no member has it in a second namespace, and the forwarded requests name
it unchanged.
-/

namespace Ferrocache

section Machine

variable [Platform]

namespace Deletion

variable {fleet : Fleet} {call : DeleteCall} {s : Deletion}

/-! ## A receiver that holds the UUID -/

variable {cluster : ClusterState} {members : Set String} {q : String}

omit [Platform] in
variable (fleet call cluster members) in
/-- A request to be fanned out, in a cluster whose members are all alive and
known to the receiver. -/
structure Connected : Prop where
  clustered : call.cluster = some cluster
  routed : call.router = true
  notLocal : call.isLocal = false
  visits : HashMap.IterOrder cluster.addrs call.order
  alive : ∀ id addr, cluster.addrs.lookup id = some addr → cluster.peerStatus id ≠ .dead
  known : ∀ p ∈ members, p = call.here ∨ ∃ id addr, id ≠ cluster.selfNodeId ∧
    cluster.addrs.lookup id = some addr ∧ fleet.owner addr = p

omit [Platform] in
/-- The peers still to visit are peers of the cluster. -/
def Within (peers : List (String × String)) : DeletePhase → Prop
  | .working _ _ _ rest => rest.getD [] ⊆ peers
  | .fanOut ahead => ahead ⊆ peers
  | .answered _ => True

omit [Platform] in
variable (fleet call) in
/-- The handler is still going to remove the UUID from node `q`. -/
def Visits (peers : List (String × String)) (q : String) : DeletePhase → Prop
  | .working p uuid stage rest =>
      (p = q ∧ uuid = call.uuid ∧ ∃ modelId, stage = .remove modelId) ∨
        (call.pathUuid = some call.uuid ∧ ∃ r ∈ rest.getD peers, fleet.owner r.2 = q)
  | .fanOut ahead => call.pathUuid = some call.uuid ∧ ∃ r ∈ ahead, fleet.owner r.2 = q
  | .answered _ => False

omit [Platform] in
/-- The lookup finds the directory's namespace, or answers that there is none. -/
theorem lookupStage_cases {n : Node} {uuid : String} (filled : isBlank uuid = false) :
    (n.index.namespaceFor uuid = none ∧
      lookupStage n uuid = .error (.notFound "entry not found")) ∨
    ∃ modelId, n.index.namespaceFor uuid = some modelId ∧
      lookupStage n uuid = .ok (.remove modelId) := by
  unfold lookupStage
  rw [if_neg (by simp [filled])]
  cases known : n.index.namespaceFor uuid with
  | none => exact .inl ⟨rfl, rfl⟩
  | some modelId => exact .inr ⟨modelId, rfl, rfl⟩

section Cleared

variable (connected : Connected fleet call cluster members)

include connected

theorem within_step (within : Within (cluster.allPeerAddrs call.order) s.phase) (e : DeleteEvent) :
    Within (cluster.allPeerAddrs call.order) (s.step fleet call e).phase := by
  have moves := step_moves fleet call s e
  generalize s.step fleet call e = s' at moves ⊢
  cases moves with
  | stays => exact within
  | removes i phase =>
      rw [phase] at within
      exact within
  | sends i phase =>
      rw [phase] at within
      exact within
  | fails phase => trivial
  | passes phase =>
      rw [phase] at within
      exact within
  | @replies p uuid rest phase =>
      rw [phase] at within
      cases rest with
      | some rest => exact within
      | none =>
          simp only [afterLocal, connected.notLocal, connected.clustered, connected.routed]
          exact List.Subset.refl _
  | ends phase => trivial
  | skips phase clustered missed =>
      rw [phase] at within
      exact List.subset_of_cons_subset within
  | visits phase path found =>
      rw [phase] at within
      exact List.subset_of_cons_subset within
  | acts p a => exact within

/-- A visit to come is still to come, or has removed the UUID. -/
theorem visits_step (calm : Calm call s.nodes) (filled : isBlank call.uuid = false)
    (housed : (s.nodes q).index.HousedAt call.uuid)
    (within : Within (cluster.allPeerAddrs call.order) s.phase)
    (visits : Visits fleet call (cluster.allPeerAddrs call.order) q s.phase) {e : DeleteEvent}
    (admissible : s.Admissible fleet e) (undisturbed : Undisturbed call e) :
    ((s.step fleet call e).nodes q).index.Lacks call.uuid ∨
      Visits fleet call (cluster.allPeerAddrs call.order) q (s.step fleet call e).phase := by
  have moves := step_moves fleet call s e
  generalize s.step fleet call e = s' at moves ⊢
  cases moves with
  | stays => exact .inr visits
  | @removes i p uuid modelId rest phase =>
      rw [phase] at visits
      rcases visits with ⟨rfl, rfl, -⟩ | later
      · refine .inl ?_
        dsimp only
        rw [removeDelete_index (admissible p call.uuid modelId rest phase).2]
        exact housed.lacks (SemanticIndex.removeByUuid_spec (calm.wellFormed p) call.uuid)
      · exact .inr (.inr later)
  | sends i phase =>
      rw [phase] at visits
      rcases visits with ⟨-, -, m, unsent⟩ | later
      · cases unsent
      · exact .inr (.inr later)
  | fails phase => exact undisturbed.elim
  | passes phase => exact undisturbed.elim
  | @replies p uuid rest phase =>
      rw [phase] at visits
      rcases visits with ⟨-, -, m, unsent⟩ | later
      · cases unsent
      · cases rest with
        | some rest => exact .inr later
        | none =>
            simp only [afterLocal, connected.notLocal, connected.clustered, connected.routed]
            exact .inr later
  | ends phase =>
      rw [phase] at visits
      obtain ⟨-, r, mem, -⟩ := visits
      cases mem
  | @skips id addr rest cluster' phase clustered missed =>
      cases connected.clustered.symm.trans clustered
      rw [phase] at visits within
      obtain ⟨path, r, mem, owned⟩ := visits
      rcases List.mem_cons.mp mem with rfl | later
      · -- a live peer is skipped only if its directory does not have the UUID
        cases owned
        have listed : (id, addr) ∈ cluster.allPeerAddrs call.order := within List.mem_cons_self
        have alive := connected.alive id addr (cluster.lookup_of_mem_allPeerAddrs listed)
        obtain ⟨reply, failed⟩ := (missed.resolve_left alive) call.uuid path
        rcases lookupStage_cases (n := s.nodes (fleet.owner addr)) filled with
          ⟨unknown, -⟩ | ⟨modelId, -, found⟩
        · exact .inl (housed.lacks_of_unknown unknown)
        · cases found.symm.trans failed
      · exact .inr ⟨path, r, later, owned⟩
  | @visits id addr rest uuid stage phase path found =>
      rw [phase] at visits
      obtain ⟨same, r, mem, owned⟩ := visits
      cases path.symm.trans same
      rcases List.mem_cons.mp mem with rfl | later
      · rcases lookupStage_cases (n := s.nodes (fleet.owner addr)) filled with
          ⟨-, failed⟩ | ⟨modelId, -, known⟩
        · cases found.symm.trans failed
        · cases found.symm.trans known
          exact .inr (.inl ⟨owned, rfl, modelId, rfl⟩)
      · exact .inr (.inr ⟨path, r, later, owned⟩)
  | acts p a => exact .inr visits

/-- A member that the handler visits lacks the UUID when the request is over. -/
theorem Reachable.visits {start : String → Node} (calm : Calm call start)
    (filled : isBlank call.uuid = false) (housed : (start q).index.HousedAt call.uuid)
    (visits : (start q).index.Lacks call.uuid ∨
      Visits fleet call (cluster.allPeerAddrs call.order) q (Deletion.begin fleet call start).phase)
    (reached : Reachable fleet call (fun _ => Undisturbed call) start s) :
    Within (cluster.allPeerAddrs call.order) s.phase ∧ ((s.nodes q).index.Lacks call.uuid ∨
      Visits fleet call (cluster.allPeerAddrs call.order) q s.phase) := by
  induction reached with
  | begin free =>
      refine ⟨?_, visits.imp_left fun lacks => ?_⟩
      · unfold Deletion.begin
        split
        · trivial
        · exact List.nil_subset _
      · rw [begin_index]
        exact lacks
  | step e before admissible undisturbed ih =>
      obtain ⟨within, left⟩ := ih
      obtain ⟨calm, faded⟩ := before.calm calm
      refine ⟨within_step connected within e, ?_⟩
      rcases left with lacks | visits
      · exact .inl (((calm.step admissible undisturbed).2 q).lacks lacks)
      · exact visits_step connected calm filled ((faded q).housed housed) within visits admissible
          undisturbed

end Cleared

/-! ## An entry that the request does not reach -/

variable (fleet) in
/-- Nothing but the request removes the UUID either. -/
def Untouched (call : DeleteCall) (s : Deletion) (e : DeleteEvent) : Prop :=
  Undisturbed call e ∧
    ∀ p a, e = .node p a → (s.nodes p).removes (fleet.config p) call.uuid a = false

omit [Platform] in
/-- The handler is not going to remove the UUID from node `q`. -/
def Spares (call : DeleteCall) (q : String) : DeletePhase → Prop
  | .working p uuid _ _ => ¬ (p = q ∧ uuid = call.uuid) ∧ call.pathUuid ≠ some call.uuid
  | .fanOut _ => call.pathUuid ≠ some call.uuid
  | .answered _ => True

theorem Spares.step (spares : Spares call q s.phase) (e : DeleteEvent) :
    Spares call q (s.step fleet call e).phase := by
  have moves := step_moves fleet call s e
  generalize s.step fleet call e = s' at moves ⊢
  cases moves with
  | stays => exact spares
  | removes i phase =>
      rw [phase] at spares
      exact spares
  | sends i phase =>
      rw [phase] at spares
      exact spares
  | fails phase => trivial
  | passes phase =>
      rw [phase] at spares
      exact spares.2
  | replies phase =>
      rw [phase] at spares
      simp only [afterLocal]
      split
      · exact spares.2
      · split
        · trivial
        · split
          · exact spares.2
          · trivial
  | ends phase => trivial
  | skips phase clustered missed =>
      rw [phase] at spares
      exact spares
  | visits phase path found =>
      rw [phase] at spares
      refine ⟨fun same => spares ?_, spares⟩
      rw [path, same.2]
  | acts p a => exact spares

/-- Node `q` has the UUID in namespace `m`, where the request does not look: the
directory names another namespace, or the handler spares the node. -/
structure Keeps (call : DeleteCall) (q m : String) (s : Deletion) : Prop where
  calm : Calm call s.nodes
  live : (s.nodes q).index.entryAt m call.uuid ≠ none
  missed : (s.nodes q).index.uuidToNamespace.lookup call.uuid ≠ some m ∨ Spares call q s.phase

variable {m : String}

theorem Keeps.step_live (keeps : Keeps call q m s) {e : DeleteEvent}
    (admissible : s.Admissible fleet e) (untouched : Untouched fleet call s e) :
    ((s.step fleet call e).nodes q).index.entryAt m call.uuid ≠ none := by
  rcases (step_moves fleet call s e).nodes admissible with same | ⟨p, a, runs, acts, able⟩
  · rw [same]
    exact keeps.live
  · rw [acts]
    by_cases other : q = p
    · subst other
      have kept : (s.nodes q).removes (fleet.config q) call.uuid a = false →
          (fleet.act s.nodes q a q).index.entryAt m call.uuid ≠ none := by
        intro unremoved
        unfold Fleet.act
        rw [Function.update_self]
        exact Node.act_entryAt_ne_none (keeps.calm.wellFormed q) able unremoved keeps.live
      cases runs with
      | lookup q uuid => exact kept rfl
      | send i q => exact kept rfl
      | node q a => exact kept (untouched.2 q a rfl)
      | @remove i p uuid modelId rest phase =>
          have found := (admissible q uuid modelId rest phase).2
          rw [removeDelete_index found,
            (SemanticIndex.removeByUuid_spec (keeps.calm.wellFormed q) uuid).live]
          rw [if_neg]
          · exact keeps.live
          · rintro ⟨rfl, home⟩
            rcases keeps.missed with away | spares
            · exact away home
            · rw [phase] at spares
              exact spares.1 ⟨rfl, rfl⟩
    · unfold Fleet.act
      rw [Function.update_of_ne other]
      exact keeps.live

theorem Keeps.step (keeps : Keeps call q m s) {e : DeleteEvent}
    (admissible : s.Admissible fleet e) (untouched : Untouched fleet call s e) :
    Keeps call q m (s.step fleet call e) := by
  obtain ⟨calm, fades⟩ := keeps.calm.step admissible untouched.1
  refine ⟨calm, keeps.step_live admissible untouched, ?_⟩
  rcases keeps.missed with away | spares
  · exact .inl fun home => away ((fades q).directory m home)
  · exact .inr (spares.step e)

theorem Reachable.keeps {start : String → Node} (keeps : Keeps call q m (Deletion.begin fleet call start))
    (reached : Reachable fleet call (Untouched fleet call) start s) : Keeps call q m s := by
  induction reached with
  | begin free => exact keeps
  | step e _ admissible untouched ih => exact ih.step admissible untouched

/-! ## The condition -/

omit [Platform] in
/-- The request clears every member: there is nothing to clear, or the receiver
has the UUID in its directory, no member has it in a second namespace, and it
stands unchanged in the path of the forwarded request (if it is needed there). -/
def Reaches (call : DeleteCall) (members : Set String) (start : String → Node) : Prop :=
  (∀ q ∈ members, (start q).index.Lacks call.uuid) ∨
    (isBlank call.uuid = false ∧ (start call.here).index.namespaceFor call.uuid ≠ none ∧
      (∀ q ∈ members, (start q).index.HousedAt call.uuid) ∧
      (call.pathUuid = some call.uuid ∨
        ∀ q ∈ members, q ≠ call.here → (start q).index.Lacks call.uuid))

theorem Reachable.lacks_of_reaches {start : String → Node}
    (connected : Connected fleet call cluster members) (calm : Calm call start)
    (reached : Reachable fleet call (fun _ => Undisturbed call) start s) {reply : DeleteReply}
    (answered : s.phase = .answered reply) (reaches : Reaches call members start) :
    ∀ q ∈ members, (s.nodes q).index.Lacks call.uuid := by
  intro q mem
  rcases reaches with lacks | ⟨filled, named, housed, path⟩
  · exact ((reached.calm calm).2 q).lacks (lacks q mem)
  · have visits : (start q).index.Lacks call.uuid ∨
        Visits fleet call (cluster.allPeerAddrs call.order) q
          (Deletion.begin fleet call start).phase := by
      obtain ⟨unknown, -⟩ | ⟨modelId, -, found⟩ :=
        lookupStage_cases (n := start call.here) filled
      · exact absurd unknown named
      · unfold Deletion.begin
        rw [found]
        by_cases receiver : q = call.here
        · exact .inr (.inl ⟨receiver.symm, rfl, modelId, rfl⟩)
        · rcases path with path | elsewhere
          · obtain self | ⟨id, addr, other, listed, owned⟩ := connected.known q mem
            · exact absurd self receiver
            · exact .inr (.inr ⟨path, (id, addr),
                cluster.mem_allPeerAddrs connected.visits other listed, owned⟩)
          · exact .inl (elsewhere q mem receiver)
    obtain ⟨-, lacks | left⟩ := reached.visits connected calm filled (housed q mem) visits
    · exact lacks
    · rw [answered] at left
      exact left.elim

/-- An entry of a member that the request misses. -/
theorem exists_keeps {start : String → Node} (calm : Calm call start)
    (free : (start call.here).phase.locked = false) (missed : ¬ Reaches call members start) :
    ∃ q ∈ members, ∃ m, Keeps call q m (begin fleet call start) := by
  have keep : ∀ q m, (start q).index.entryAt m call.uuid ≠ none →
      ((start q).index.uuidToNamespace.lookup call.uuid ≠ some m ∨
        Spares call q (begin fleet call start).phase) →
      Keeps call q m (begin fleet call start) := by
    intro q m live away
    rw [← begin_index fleet call start q] at live away
    have started : Reachable fleet call (fun _ => Undisturbed call) start
        (begin fleet call start) := .begin free
    exact ⟨(started.calm calm).1, live, away⟩
  have some_held : ∃ q ∈ members, ∃ m, (start q).index.entryAt m call.uuid ≠ none := by
    by_contra none
    push Not at none
    exact missed (.inl none)
  cases found : lookupStage (start call.here) call.uuid with
  | error reply =>
      -- the receiver answers at once
      obtain ⟨q, mem, m, live⟩ := some_held
      refine ⟨q, mem, m, keep q m live (.inr ?_)⟩
      unfold begin
      rw [found]
      trivial
  | ok stage =>
      have filled : isBlank call.uuid = false := by
        unfold lookupStage at found
        split at found
        · cases found
        · next blank => exact Bool.eq_false_of_not_eq_true blank
      have named : (start call.here).index.namespaceFor call.uuid ≠ none := by
        rcases lookupStage_cases (n := start call.here) filled with
          ⟨-, failed⟩ | ⟨modelId, known, -⟩
        · cases found.symm.trans failed
        · rw [known]
          exact Option.some_ne_none modelId
      by_cases housed : ∀ q ∈ members, (start q).index.HousedAt call.uuid
      · -- the forwarded requests name another UUID
        have path : call.pathUuid ≠ some call.uuid := fun path =>
          missed (.inr ⟨filled, named, housed, .inl path⟩)
        have elsewhere : ∃ q ∈ members, q ≠ call.here ∧
            ∃ m, (start q).index.entryAt m call.uuid ≠ none := by
          by_contra none
          push Not at none
          exact missed (.inr ⟨filled, named, housed, .inr none⟩)
        obtain ⟨q, mem, other, m, live⟩ := elsewhere
        refine ⟨q, mem, m, keep q m live (.inr ?_)⟩
        unfold begin
        rw [found]
        exact ⟨fun same => other same.1.symm, path⟩
      · -- a second namespace has it
        unfold SemanticIndex.HousedAt at housed
        push Not at housed
        obtain ⟨q, mem, m, live, away⟩ := housed
        exact ⟨q, mem, m, keep q m live (.inl away)⟩

theorem Reachable.mono {guard guard' : Deletion → DeleteEvent → Prop} {start : String → Node}
    (weaker : ∀ s e, guard s e → guard' s e) (reached : Reachable fleet call guard start s) :
    Reachable fleet call guard' start s := by
  induction reached with
  | begin free => exact .begin free
  | step e _ admissible guarded ih => exact .step e ih admissible (weaker _ e guarded)

theorem Reachable.free {guard : Deletion → DeleteEvent → Prop} {start : String → Node}
    (reached : Reachable fleet call guard start s) :
    (start call.here).phase.locked = false := by
  induction reached with
  | begin free => exact free
  | step _ _ _ _ ih => exact ih

/-- A delete that nobody disturbs clears every member if the condition held when
the receiver looked the UUID up; and only then, unless something else removes
it. -/
theorem delete_reaches_all_iff {start : String → Node}
    (connected : Connected fleet call cluster members)
    (started : ∀ p, Node.Reachable (fleet.config p) (fun _ _ => True) (start p))
    (alone : ∀ p, (start p).Awaits fun _ u _ => u ≠ call.uuid) {reply : DeleteReply} :
    (∀ s, Reachable fleet call (fun _ => Undisturbed call) start s →
      s.phase = .answered reply → Reaches call members start →
      ∀ q ∈ members, (s.nodes q).index.Lacks call.uuid) ∧
    (∀ s, Reachable fleet call (Untouched fleet call) start s → s.phase = .answered reply →
      ((∀ q ∈ members, (s.nodes q).index.Lacks call.uuid) ↔ Reaches call members start)) := by
  have calm : Calm call start := ⟨fun p => (started p).wellFormed, alone⟩
  refine ⟨fun s reached answered reaches =>
    reached.lacks_of_reaches connected calm answered reaches, fun s reached answered => ?_⟩
  refine ⟨fun lacks => ?_, fun reaches => ?_⟩
  · by_contra missed
    obtain ⟨q, mem, m, keeps⟩ := exists_keeps calm reached.free missed
    exact (reached.keeps keeps).live (lacks q mem m)
  · have undisturbed : Reachable fleet call (fun _ => Undisturbed call) start s :=
      reached.mono fun _ _ untouched => untouched.1
    exact undisturbed.lacks_of_reaches connected calm answered reaches

end Deletion

end Machine

namespace Deletion

section Example

local instance deleteExamplePlatform : Platform := Platform.sample

/-- A node that has stored one entry. -/
def holder : Node :=
  Node.run ⟨⟨0, none⟩, 256, 0⟩ (Node.new ⟨⟨0, none⟩, 256, 0⟩)
    [.submit ⟨"id", [0x3F800000#32], "r", "q", "m", 0, 0, false, none⟩, .collect 1,
      .write .synced, .acquire, .apply, .apply]

theorem holder_reachable : Node.Reachable ⟨⟨0, none⟩, 256, 0⟩
    (fun _ a => ∀ entry, a = .submit entry → entry.modelId = "m") holder := by
  have other : ∀ a, (∀ entry, a ≠ Action.submit entry) →
      ∀ entry, a = .submit entry → entry.modelId = "m" := fun a differs entry same =>
    absurd same (differs entry)
  refine Node.Reachable.run .new ⟨rfl, fun entry same => ?_, ⟨by decide, by decide⟩,
    other _ (by simp), trivial, other _ (by simp), trivial, other _ (by simp), trivial,
    other _ (by simp), trivial, other _ (by simp), trivial⟩
  cases same
  rfl

theorem holder_housed : holder.index.HousedAt "id" := by
  have only : holder.Only fun m _ _ => m = "m" :=
    holder_reachable.only fun _ entry submitted _ => submitted entry rfl
  intro m live
  obtain ⟨e, found⟩ := Option.ne_none_iff_exists'.mp live
  have named : m = "m" := only.index m "id" e found
  rw [named]
  decide +kernel

theorem holder_awaits {P : String → String → Record → Prop} : holder.Awaits P := by
  have queue : holder.queue = [] := by decide +kernel
  have phase : holder.phase = .flushed false := by decide +kernel
  have outbox : holder.outbox = [] := by decide +kernel
  refine ⟨fun entry mem => ?_, fun entry mem => ?_, fun entry mem => ?_, fun entry mem => ?_⟩
  · rw [queue] at mem
    cases mem
  · rw [outbox] at mem
    cases mem
  · rw [phase] at mem
    cases mem
  · rw [phase] at mem
    cases mem

/-- A delete that `a` receives. -/
def sampleCall : DeleteCall :=
  ⟨"a", some (ClusterState.sample "a" ∅), true, false, "id", ["a", "b"], some "id"⟩

theorem connected_sampleCall :
    Connected Fleet.sample sampleCall (ClusterState.sample "a" ∅) {"a", "b"} where
  clustered := rfl
  routed := rfl
  notLocal := rfl
  visits := by decide +kernel
  alive id addr _ := by
    have untracked : (ClusterState.sample "a" ∅).peerStatus id = .alive := rfl
    rw [untracked]
    decide
  known p mem := by
    rcases mem with rfl | rfl
    · exact .inl rfl
    · exact .inr ⟨"b", "b:3000", by decide, by decide +kernel, by decide⟩

/-- `a` clears itself, then `b`. -/
def sampleEvents : List DeleteEvent :=
  [.remove 0, .send 0, .reply, .forward, .remove 0, .send 0, .reply, .forward]

/-- The state after the first `k` events, when both nodes have the entry. -/
def sampleState (k : Nat) : Deletion :=
  (begin Fleet.sample sampleCall fun _ => holder).run Fleet.sample sampleCall (sampleEvents.take k)

theorem allowed_sampleEvents : Allowed Fleet.sample sampleCall (Untouched Fleet.sample sampleCall)
    (sampleState 0) sampleEvents := by
  have own : ∀ s e, Undisturbed sampleCall e → (∀ p a, e ≠ .node p a) →
      Untouched Fleet.sample sampleCall s e := fun s e undisturbed handler =>
    ⟨undisturbed, fun p a same => absurd same (handler p a)⟩
  have first : (sampleState 0).phase = .working "a" "id" (.remove "m") none := by decide +kernel
  have second : (sampleState 1).phase = .working "a" "id" (.log "m") none := by decide +kernel
  have third : (sampleState 3).phase = .fanOut [("b", "b:3000")] := by decide +kernel
  have fourth : (sampleState 4).phase = .working "b" "id" (.remove "m") (some []) := by
    decide +kernel
  have fifth : (sampleState 5).phase = .working "b" "id" (.log "m") (some []) := by decide +kernel
  have last : (sampleState 7).phase = .fanOut [] := by decide +kernel
  refine ⟨fun p uuid m rest phase => ?_, own _ _ trivial (by simp), ?_⟩
  · cases first.symm.trans phase
    exact ⟨by decide +kernel, by decide +kernel⟩
  refine ⟨fun p uuid m rest phase => ?_, own _ _ trivial (by simp), trivial,
    own _ _ trivial (by simp), fun id addr rest phase => ?_, own _ _ trivial (by simp), ?_⟩
  · cases second.symm.trans phase
    decide +kernel
  · cases third.symm.trans phase
    decide +kernel
  refine ⟨fun p uuid m rest phase => ?_, own _ _ trivial (by simp), ?_⟩
  · cases fourth.symm.trans phase
    exact ⟨by decide +kernel, by decide +kernel⟩
  refine ⟨fun p uuid m rest phase => ?_, own _ _ trivial (by simp), trivial,
    own _ _ trivial (by simp), fun id addr rest phase => ?_, own _ _ trivial (by simp), trivial⟩
  · cases fifth.symm.trans phase
    decide +kernel
  · cases last.symm.trans phase

theorem delete_reaches_all_iff_sample :
    (sampleState 8).phase = .answered .deleted ∧
      ∀ q ∈ ({"a", "b"} : Set String), ((sampleState 8).nodes q).index.Lacks "id" := by
  have answered : (sampleState 8).phase = .answered .deleted := by decide +kernel
  have named : holder.index.namespaceFor "id" = some "m" := by decide +kernel
  have reached : Reachable Fleet.sample sampleCall (Untouched Fleet.sample sampleCall)
      (fun _ => holder) (sampleState 8) :=
    .run (.begin (by decide +kernel)) allowed_sampleEvents
  have cleared := (delete_reaches_all_iff connected_sampleCall
    (fun _ => holder_reachable.mono fun _ _ _ => trivial) fun _ => holder_awaits).2
      (sampleState 8) reached answered
  refine ⟨answered, cleared.mpr (.inr ⟨by decide +kernel, fun unknown => ?_, fun _ _ =>
    holder_housed, .inl rfl⟩)⟩
  cases named.symm.trans unknown

/-- `a` has no replica: it answers 404 at once and `b` keeps the entry. -/
theorem delete_misses_peer :
    let start : String → Node := fun p => if p = "b" then holder else Node.new ⟨⟨0, none⟩, 256, 0⟩
    let s := begin Fleet.sample sampleCall start
    (∀ p, Node.Reachable (Fleet.sample.config p) (fun _ _ => True) (start p)) ∧
      (∀ p, (start p).Awaits fun _ u _ => u ≠ "id") ∧
      Connected Fleet.sample sampleCall (ClusterState.sample "a" ∅) {"a", "b"} ∧
      Reachable Fleet.sample sampleCall (Untouched Fleet.sample sampleCall) start s ∧
      s.phase = .answered (.notFound "entry not found") ∧
      ¬ (s.nodes "b").index.Lacks "id" := by
  refine ⟨fun p => ?_, fun p => ?_, connected_sampleCall, .begin (by decide +kernel),
    by decide +kernel, fun lacks => ?_⟩
  · dsimp only
    split
    · exact holder_reachable.mono fun _ _ _ => trivial
    · exact .new
  · dsimp only
    split
    · exact holder_awaits
    · exact Node.only_new.toAwaits
  · have held : ((begin Fleet.sample sampleCall fun p =>
        if p = "b" then holder else Node.new ⟨⟨0, none⟩, 256, 0⟩).nodes "b").index.entryAt "m" "id" ≠
        none := by
      decide +kernel
    exact held (lacks "m")

end Example

end Deletion

end Ferrocache
