import Ferrocache.Cluster.Delete
import Ferrocache.Node.Doom
import Ferrocache.Node.Sound

/-!
# A delete that is answered

`delete_entry_handler` on the node that received the request: the entry is
removed, its tombstone is put into the channel, the reply of the flush task is
awaited, whatever it is, and the client is told that the entry is deleted.  The
other tasks of the node run in between.

If the tombstone's batch is written and its reply arrives, the log buries the
entry: a crash at any later point recovers under its UUID only what was submitted
after the tombstone was put into the channel.
-/

namespace Ferrocache

/-! ## The log -/

section Log

variable (P : String → String → Record → Prop) (uuid : String)

/-- A startup finds under the UUID only what satisfies `P`: a tombstone is followed
by nothing else, or the snapshot and the lines since hold nothing else. -/
def Log.Buries (log : Log) : Prop :=
  (∃ before tomb after, log.sinceSnapshot = before ++ tomb :: after ∧ tomb.tombstone = true ∧
    tomb.uuid = uuid ∧ ∀ line ∈ after, line.Meets P) ∨
  ∃ snapshot, log.disk.snapshot = some snapshot ∧
    (∀ s ∈ snapshot.entries, P s.modelId s.uuid s.cacheEntry.record) ∧
    ∀ line ∈ log.sinceSnapshot, line.Meets P

variable {P uuid}

theorem Log.Buries.mono {Q : String → String → Record → Prop} (weaker : ∀ m u r, P m u r → Q m u r)
    {log : Log} (buries : log.Buries P uuid) : log.Buries Q uuid := by
  rcases buries with ⟨before, tomb, after, split, kind, same, meets⟩ | ⟨snapshot, taken, only, meets⟩
  · exact .inl ⟨before, tomb, after, split, kind, same, fun line mem insert =>
      weaker _ _ _ (meets line mem insert)⟩
  · exact .inr ⟨snapshot, taken, fun s mem => weaker _ _ _ (only s mem), fun line mem insert =>
      weaker _ _ _ (meets line mem insert)⟩

theorem Log.Buries.extend {log : Log} (buries : log.Buries P uuid) {lines : List WalEntry}
    (meets : ∀ line ∈ lines, line.Meets P) (last : Nat) : (log.extend lines last).Buries P uuid := by
  have more : ∀ old : List WalEntry, (∀ line ∈ old, line.Meets P) →
      ∀ line ∈ old ++ lines, line.Meets P := fun old all line mem =>
    (List.mem_append.mp mem).elim (all line) (meets line)
  rcases buries with ⟨before, tomb, after, split, kind, same, only⟩ | ⟨snapshot, taken, only, since⟩
  · refine .inl ⟨before, tomb, after ++ lines, ?_, kind, same, more after only⟩
    change log.sinceSnapshot ++ lines = _
    rw [split, List.append_assoc, List.cons_append]
  · exact .inr ⟨snapshot, taken, only, more _ since⟩

theorem Log.Buries.flush {log : Log} (buries : log.Buries P uuid)
    (whole : log.disk.file.tail = .whole) {batch : List WalEntry}
    (meets : ∀ entry ∈ batch, entry.Meets P) {outcome : WriteOutcome} (uncut : outcome.Whole) :
    (log.flush batch outcome).1.Buries P uuid := by
  obtain ⟨last, -, ⟨msg, overflow⟩ | ⟨lines, stamped, -, written⟩⟩ :=
    Log.flush_cases whole batch uncut
  · rw [overflow]
    exact buries.extend (fun _ mem => absurd mem List.not_mem_nil) last
  · have all := stamped.meets meets
    rcases written with ⟨-, synced⟩ | ⟨kept, msg, -, failed⟩
    · rw [synced]
      exact buries.extend all last
    · rw [failed]
      exact buries.extend (fun line mem => all line (List.mem_of_mem_take mem)) last

theorem Log.Buries.compact {log : Log} (buries : log.Buries P uuid) {entries : List SnapshotEntry}
    (meets : ∀ s ∈ entries, P s.modelId s.uuid s.cacheEntry.record) (outcome : Log.CompactOutcome) :
    (log.compact entries outcome).Buries P uuid := by
  cases outcome with
  | unwritten => exact buries
  | compacted => exact .inr ⟨_, rfl, meets, fun _ mem => absurd mem List.not_mem_nil⟩
  | untruncated emptied => exact .inr ⟨_, rfl, meets, fun _ mem => absurd mem List.not_mem_nil⟩

variable [Platform] {home : String}

/-- What a startup recovers from a log that buries the UUID. -/
theorem Log.Buries.recover {log : Log} (buries : log.Buries P uuid) (concerns : Concerns P uuid)
    (wellCut : log.WellCut) (only : log.Only (LivesIn uuid home)) {cfg : HnswConfig} {r : Recovery}
    (read : Ferrocache.recover cfg log.disk = .ok r) : r.index.Only P := by
  rw [wellCut.recover_eq cfg] at read
  cases read
  rw [Recovery.foldl_replay_index]
  rcases buries with ⟨before, tomb, after, split, kind, same, meets⟩ | ⟨snapshot, taken, kept, meets⟩
  · have lines : ∀ line ∈ before, line.Meets (LivesIn uuid home) := by
      intro line mem
      obtain ⟨earlier, whole, -⟩ := wellCut.cut
      refine only.file.lines line ?_
      rw [whole, split]
      exact List.mem_append_right _ (List.mem_append_left _ mem)
    have homed := (SemanticIndex.Homed.loadSnapshot cfg only.snapshot).replayLines lines
    have cleared :=
      Node.only_replayEntry_tombstone concerns homed.wellFormed homed.housed kind same
    rw [split, List.foldl_append, List.foldl_cons]
    exact cleared.replayLines (homed.wellFormed.replayEntry tomb) meets
  · rw [taken]
    obtain ⟨wf, loaded⟩ := SemanticIndex.Only.loadSnapshot cfg kept
    exact loaded.replayLines wf meets

/-- What an action, or a crash in it, does to the log of a node that has nothing
else of the UUID. -/
theorem Log.Buries.change {n : Node} (buries : n.log.Buries P uuid) (sound : n.Sound)
    (wf : n.index.WellFormed) (buried : n.Buried P) {whole : Prop} (uncut : whole) {log : Log}
    (change : Node.LogChange n whole log) : log.Buries P uuid := by
  cases change with
  | stays => exact buries
  | flushes batch outcome due keeps =>
      refine buries.flush sound.log.whole (fun entry mem => ?_) (keeps uncut)
      rcases due entry mem with batched | tomb
      · have waits : entry.unstamped ∈ n.waiting := by
          unfold Node.waiting
          exact List.mem_map_of_mem
            (List.mem_append_left _ (List.mem_append_right _ batched))
        have meets : entry.Meets P := buried.waiting entry.unstamped waits
        exact meets
      · exact .of_tombstone tomb.tombstone
  | snapshots order visits outcome =>
      exact buries.compact (buried.index.snapshotEntries wf visits) outcome

end Log

/-! ## The request -/

/-- Where the handler is. -/
inductive RequestStage : Type
  | working (stage : DeleteStage)
  /-- the tombstone waits behind `ahead` entries -/
  | waits (ahead : Nat)
  /-- what the flush task answered; nothing if it dropped the reply -/
  | replied (answer : Option Answer)
  | answered (reply : DeleteReply)
  deriving DecidableEq

/-- A node that serves one delete request.  `later` is not in the code: what was
submitted since the tombstone was put into the channel. -/
structure DeleteRequest : Type where
  node : Node
  stage : RequestStage
  later : List WalEntry

inductive RequestEvent : Type
  | remove (i : Nat)
  | send (i : Nat)
  /-- the WAL channel is closed -/
  | closed
  /-- the flush task drops the reply -/
  | drop
  /-- the handler goes on after the reply, and its fan-out is over -/
  | respond
  | node (a : Action)

namespace DeleteRequest

section Machine

variable [Platform] (cfg : NodeConfig) (uuid : String) (s : DeleteRequest)

/-- The handler up to its lookup. -/
def begin (n : Node) : DeleteRequest :=
  match lookupStage n uuid with
  | .error reply => ⟨n, .answered reply, []⟩
  | .ok stage => ⟨n.act cfg (.lookupDelete uuid), .working stage, []⟩

def remove (i : Nat) : DeleteRequest :=
  match s.stage with
  | .working (.remove modelId) =>
    { s with node := s.node.act cfg (.removeDelete i), stage := .working (.log modelId) }
  | _ => s

def send (i : Nat) : DeleteRequest :=
  match s.stage with
  | .working (.log _) => ⟨s.node.act cfg (.send i), .waits s.node.waiting.length, []⟩
  | _ => s

omit [Platform] in
def closed : DeleteRequest :=
  match s.stage with
  | .working (.log _) => { s with stage := .answered (.internalError "persistence failed") }
  | _ => s

omit [Platform] in
def drop : DeleteRequest :=
  match s.stage with
  | .waits _ => { s with stage := .replied none }
  | _ => s

omit [Platform] in
/-- The reply is ignored. -/
def respond : DeleteRequest :=
  match s.stage with
  | .replied _ => { s with stage := .answered .deleted }
  | _ => s

omit [Platform] in
/-- The stage after a step of another task. -/
def stageAfter (a : Action) : RequestStage :=
  match s.stage with
  | .waits ahead =>
    match s.node.fate ahead a with
    | .waits ahead => .waits ahead
    | .answered answer => .replied (some answer)
  | stage => stage

def other (a : Action) : DeleteRequest where
  node := s.node.act cfg a
  stage := s.stageAfter a
  later := match a with
    | .submit entry => s.later ++ [entry]
    | _ => s.later

def step : RequestEvent → DeleteRequest
  | .remove i => s.remove cfg i
  | .send i => s.send cfg i
  | .closed => s.closed
  | .drop => s.drop
  | .respond => s.respond
  | .node a => s.other cfg a

/-- When an event can happen; a crash ends the request. -/
def Admissible : RequestEvent → Prop
  | .remove i => ∀ modelId, s.stage = .working (.remove modelId) →
      s.node.phase.locked = false ∧ s.node.deleting[i]? = some (uuid, modelId)
  | .send i => ∀ modelId, s.stage = .working (.log modelId) →
      s.node.outbox[i]? = some (.tombstoneEntry uuid modelId)
  | .node a => s.node.Admissible cfg a ∧ Node.crashes a = false
  | _ => True

/-- The states reached by events that all meet `guard`, when the request arrives
at a node reached by actions that all meet `before`. -/
inductive Reachable (before : Node → Action → Prop) (guard : DeleteRequest → RequestEvent → Prop) :
    DeleteRequest → Prop
  | begin {n : Node} : n.Reachable cfg before → n.phase.locked = false →
    Reachable before guard (begin cfg uuid n)
  | step {s : DeleteRequest} (e : RequestEvent) : Reachable before guard s →
    s.Admissible cfg uuid e → guard s e → Reachable before guard (s.step cfg e)

/-- The state after a list of events. -/
def run (events : List RequestEvent) : DeleteRequest := events.foldl (step cfg) s

/-- Every event of the list can happen and meets `guard` when its turn comes. -/
def Allowed (guard : DeleteRequest → RequestEvent → Prop) (s : DeleteRequest) :
    List RequestEvent → Prop
  | [] => True
  | e :: events => s.Admissible cfg uuid e ∧ guard s e ∧ Allowed guard (s.step cfg e) events

variable {cfg uuid s}

theorem Reachable.run {before : Node → Action → Prop}
    {guard : DeleteRequest → RequestEvent → Prop} (reached : Reachable cfg uuid before guard s)
    {events : List RequestEvent} (allowed : Allowed cfg uuid guard s events) :
    Reachable cfg uuid before guard (s.run cfg events) := by
  induction events generalizing s with
  | nil => exact reached
  | cons e events ih =>
      obtain ⟨admissible, guarded, rest⟩ := allowed
      exact ih (reached.step e admissible guarded) rest

/-! ## The property and the condition -/

omit [Platform] in
variable (uuid s) in
/-- Content that was submitted under the UUID after the tombstone. -/
def InsertedSince (m : String) (record : Record) : Prop :=
  ∃ entry ∈ s.later, entry.tombstone = false ∧ entry.uuid = uuid ∧ entry.modelId = m ∧
    entry.cacheEntry.record = record

variable (cfg uuid s) in
/-- The startup would replay a tombstone of the UUID, or load a snapshot without
the entry; and after a crash at this point it does not bring the entry back. -/
def Durable : Prop :=
  ((∃ line ∈ s.node.log.disk.file.lines, skips s.node.log.disk.snapshot line = false ∧
      line.tombstone = true ∧ line.uuid = uuid) ∨
    ∃ snapshot, s.node.log.disk.snapshot = some snapshot ∧
      ∀ e ∈ snapshot.entries, e.uuid = uuid → s.InsertedSince uuid e.modelId e.cacheEntry.record) ∧
  ∀ cut, (∀ order, cut = .rename order → SemanticIndex.Visits order s.node.index) →
    ∀ r, recover cfg.hnsw (s.node.crashLog cfg cut).disk = .ok r →
      ∀ m e, r.index.entryAt m uuid = some e → s.InsertedSince uuid m e.record

omit [Platform] in
/-- No write is cut inside a line, and the UUID is only inserted into its home. -/
def Tidy (uuid home : String) (a : Action) : Prop :=
  Node.WholeLines a ∧ ∀ entry, a = .submit entry → entry.Meets (LivesIn uuid home)

omit [Platform] in
/-- The reply is not dropped, and the batch with the tombstone is written: its
write succeeds, and the sequence counter does not overflow. -/
def Flushed (uuid home : String) (s : DeleteRequest) : RequestEvent → Prop
  | .drop => False
  | .node a => Tidy uuid home a ∧ ∀ ahead batch compact outcome, s.stage = .waits ahead →
      s.node.phase = .collected batch compact → ahead < batch.length → a = .write outcome →
        outcome = .synced ∧ s.node.log.sequence + batch.length ≤ u64Max
  | _ => True

/-! ## What the steps keep -/

omit [Platform] in
variable (uuid s) in
/-- What the node may still hold of the UUID. -/
def Since (m u : String) (record : Record) : Prop := u = uuid → s.InsertedSince uuid m record

omit [Platform] in
theorem concerns_since : Concerns (s.Since uuid) uuid := fun _ _ _ other same => absurd same other

omit [Platform] in
theorem Since.mono {t : DeleteRequest} (more : s.later ⊆ t.later) (m u : String) (record : Record)
    (since : s.Since uuid m u record) : t.Since uuid m u record := by
  intro same
  obtain ⟨entry, mem, rest⟩ := since same
  exact ⟨entry, more mem, rest⟩

omit [Platform] in
variable (uuid s) in
/-- Node and log have nothing else of the UUID. -/
def Erased : Prop := s.node.Buried (s.Since uuid) ∧ s.node.log.Buries (s.Since uuid) uuid

omit [Platform] in
variable (uuid s) in
/-- What is known at each stage. -/
def StageHolds : Prop :=
  match s.stage with
  | .working _ => True
  | .waits ahead => s.node.Dooms (s.Since uuid) uuid ahead
  | .replied _ => s.Erased uuid
  | .answered .deleted => s.Erased uuid
  | .answered _ => True

/-- The invariant of a run. -/
structure Tracks (uuid home : String) (s : DeleteRequest) : Prop where
  homed : s.node.Homed uuid home
  sound : s.node.Sound
  stage : s.StageHolds uuid

variable {home : String}

omit [Platform] in
/-- A tombstone that is being applied is in the log, with the lines behind it. -/
theorem buries_of_applying {P : String → String → Record → Prop} {n : Node} (sound : n.Sound)
    {line : WalEntry} {lines : List WalEntry} {compact : Bool}
    (phase : n.phase = .applying (line :: lines) compact) (tomb : line.tombstone = true)
    (same : line.uuid = uuid) (meets : ∀ l ∈ lines, l.Meets P) : n.log.Buries P uuid := by
  obtain ⟨before, split⟩ := sound.pending
  rw [phase] at split
  exact .inl ⟨before, line, lines, split.symm, tomb, same, meets⟩

/-- When the tombstone is applied, node and log are rid of the UUID. -/
theorem erased_of_applied {P : String → String → Record → Prop} {n : Node}
    (concerns : Concerns P uuid) (homed : n.Homed uuid home) (sound : n.Sound) {ahead : Nat}
    (dooms : n.Dooms P uuid ahead) (fated : n.fate ahead .apply = .answered .ok)
    {line : WalEntry} {lines : List WalEntry} {compact : Bool}
    (phase : n.phase = .applying (line :: lines) compact) :
    (n.act cfg .apply).Buried P ∧ (n.act cfg .apply).log.Buries P uuid := by
  have applied : (n.act cfg .apply).Buried P :=
    (dooms.act concerns homed.index.wellFormed homed.outbox (homed.clears .apply) rfl fun _ eq => by
      cases eq).2 fated
  refine ⟨applied, ?_⟩
  have first : ahead = 0 := by
    by_contra more
    simp only [Node.fate, phase, if_neg more] at fated
    cases fated
  obtain ⟨before, tomb, after, whole, length, kind, same, meets⟩ := dooms
  rw [first, List.length_eq_zero_iff] at length
  have head : n.waiting = line.unstamped :: (lines ++ queued n.queue).map WalEntry.unstamped := by
    unfold Node.waiting
    rw [phase]
    simp [Phase.pending, Phase.batch]
  rw [head, length, List.nil_append] at whole
  obtain ⟨rfl, rfl⟩ := List.cons.inj whole
  have log : (n.act cfg .apply).log = n.log := by
    change n.apply.log = n.log
    unfold Node.apply
    rw [phase]
    dsimp only
    rcases n.index.replayEntry line with ⟨index, _ | _⟩
    · rfl
    · rfl
  rw [log]
  refine buries_of_applying sound phase kind same fun l mem => ?_
  have behind : l.unstamped.Meets P :=
    meets l.unstamped (List.mem_map_of_mem (List.mem_append_left _ mem))
  exact behind

theorem Erased.act (erased : s.Erased uuid) (homed : s.node.Homed uuid home)
    (sound : s.node.Sound) {t : DeleteRequest} {a : Action} (node : t.node = s.node.act cfg a)
    (more : s.later ⊆ t.later) (admissible : s.node.Admissible cfg a)
    (alive : Node.crashes a = false) (uncut : Node.WholeLines a)
    (submitted : ∀ entry, a = .submit entry → entry.Meets (t.Since uuid)) : t.Erased uuid := by
  obtain ⟨buried, buries⟩ := erased
  have wf := homed.index.wellFormed
  have kept := buried.mono (Since.mono more)
  unfold Erased
  rw [node]
  refine ⟨kept.act wf admissible alive homed.outbox submitted, ?_⟩
  rcases Node.act_log admissible with ⟨change, -⟩ | ⟨crashed, r, change, started, -⟩
  · exact (buries.mono (Since.mono more)).change sound wf kept uncut change
  · obtain ⟨-, disk, since⟩ := Log.restart_recover started
    have changed := (buries.mono (Since.mono more)).change sound wf kept uncut change
    unfold Log.Buries at changed ⊢
    rw [disk, since]
    exact changed

theorem Tracks.node (tracks : s.Tracks uuid home) {a : Action} (admissible : s.node.Admissible cfg a)
    (alive : Node.crashes a = false) (flushed : s.Flushed uuid home (.node a)) :
    (s.other cfg a).Tracks uuid home := by
  obtain ⟨⟨uncut, homely⟩, written⟩ := flushed
  have more : s.later ⊆ (s.other cfg a).later := by
    unfold other
    dsimp only
    split
    · exact List.subset_append_left _ _
    · exact List.Subset.refl _
  have submitted : ∀ entry, a = .submit entry → entry.Meets ((s.other cfg a).Since uuid) := by
    intro entry same insert here
    subst same
    exact ⟨entry, List.mem_append_right _ List.mem_cons_self, insert, here, rfl, rfl⟩
  refine ⟨tracks.homed.act admissible homely, tracks.sound.act admissible uncut, ?_⟩
  have known := tracks.stage
  unfold StageHolds at known ⊢
  change match s.stageAfter a with
    | .working _ => True
    | .waits ahead => (s.other cfg a).node.Dooms ((s.other cfg a).Since uuid) uuid ahead
    | .replied _ => (s.other cfg a).Erased uuid
    | .answered .deleted => (s.other cfg a).Erased uuid
    | .answered _ => True
  unfold stageAfter
  cases stage : s.stage with
  | working stage => trivial
  | waits ahead =>
      rw [stage] at known
      have dooms := known.mono (Since.mono more)
      have moved : ∀ k, s.node.fate ahead a = .waits k →
          (s.node.act cfg a).Dooms ((s.other cfg a).Since uuid) uuid k :=
        (dooms.act concerns_since tracks.homed.index.wellFormed tracks.homed.outbox
          (tracks.homed.clears a) alive submitted).1
      rcases s.node.fate_cases ahead a with ⟨k, fated⟩ | ⟨fated, rfl, line, lines, compact, phase⟩ |
          ⟨fated, outcome, batch, compact, msg, rfl, phase, lost, failed⟩
      · dsimp only
        rw [fated]
        exact moved k fated
      · dsimp only
        rw [fated]
        have erased : (s.node.act cfg .apply).Buried _ ∧ (s.node.act cfg .apply).log.Buries _ uuid :=
          erased_of_applied concerns_since tracks.homed tracks.sound dooms fated phase
        exact erased
      · -- the batch of the tombstone is written
        obtain ⟨rfl, room⟩ := written ahead batch compact outcome stage phase lost rfl
        rw [Log.flush_synced room] at failed
        cases failed
  | replied answer =>
      rw [stage] at known
      exact known.act tracks.homed tracks.sound rfl more admissible alive uncut submitted
  | answered reply =>
      rw [stage] at known
      cases reply with
      | deleted => exact known.act tracks.homed tracks.sound rfl more admissible alive uncut submitted
      | _ => trivial

/-- A startup after a crash inside a line reads what it would read after a crash
between two lines. -/
theorem recover_crashLog {n : Node} (whole : n.log.disk.file.tail = .whole) {cut : Cut}
    {r : Recovery} (read : recover cfg.hnsw (n.crashLog cfg cut).disk = .ok r) :
    ∃ cut', Node.WholeLines (.restart cut' ⟨[], fun _ => []⟩ 0) ∧
      (∀ order, cut' = .rename order → cut = .rename order) ∧
        recover cfg.hnsw (n.crashLog cfg cut').disk = .ok r := by
  cases cut with
  | none => exact ⟨.none, trivial, fun _ => id, read⟩
  | rename order => exact ⟨.rename order, trivial, fun _ => id, read⟩
  | write kept fragment =>
      have between : ∃ kept', recover cfg.hnsw (n.crashLog cfg (.write kept' .none)).disk = .ok r := by
        unfold Node.crashLog at read ⊢
        cases phase : n.phase with
        | collected batch compact =>
            rw [phase] at read
            exact Log.recover_flush_failed whole batch kept fragment read
        | evicted out compact =>
            rw [phase] at read
            exact Log.recover_flush_failed whole _ kept fragment read
        | _ =>
            rw [phase] at read
            exact ⟨0, read⟩
      obtain ⟨kept', same⟩ := between
      exact ⟨.write kept' .none, rfl, fun _ eq => (by cases eq), same⟩

theorem Tracks.step (tracks : s.Tracks uuid home) {e : RequestEvent}
    (admissible : s.Admissible cfg uuid e) (flushed : s.Flushed uuid home e) :
    (s.step cfg e).Tracks uuid home := by
  cases e with
  | remove i =>
      change (s.remove cfg i).Tracks uuid home
      unfold DeleteRequest.remove
      split
      · next modelId stage =>
          have able : s.node.Admissible cfg (.removeDelete i) := (admissible modelId stage).1
          exact ⟨tracks.homed.act able (fun _ eq => by cases eq), tracks.sound.act able trivial,
            trivial⟩
      · exact tracks
  | send i =>
      change (s.send cfg i).Tracks uuid home
      unfold DeleteRequest.send
      split
      · next modelId stage =>
          have found := admissible modelId stage
          have able : s.node.Admissible cfg (.send i) := trivial
          refine ⟨tracks.homed.act able (fun _ eq => by cases eq), tracks.sound.act able trivial, ?_⟩
          have last : (s.node.act cfg (.send i)).waiting =
              s.node.waiting ++ [WalEntry.tombstoneEntry uuid modelId] := Node.waiting_send found
          exact ⟨s.node.waiting, _, [], last, rfl, rfl, rfl, fun _ mem => absurd mem List.not_mem_nil⟩
      · exact tracks
  | closed =>
      change s.closed.Tracks uuid home
      unfold DeleteRequest.closed
      split
      · exact ⟨tracks.homed, tracks.sound, trivial⟩
      · exact tracks
  | drop => exact flushed.elim
  | respond =>
      change s.respond.Tracks uuid home
      unfold DeleteRequest.respond
      split
      · next answer stage =>
          have known := tracks.stage
          unfold StageHolds at known
          rw [stage] at known
          exact ⟨tracks.homed, tracks.sound, known⟩
      · exact tracks
  | node a => exact tracks.node admissible.1 admissible.2 flushed

theorem Reachable.tracks
    (reached : Reachable cfg uuid (fun _ => Tidy uuid home) (Flushed uuid home) s) :
    s.Tracks uuid home := by
  induction reached with
  | @begin n arrives free =>
      have homed : n.Homed uuid home := arrives.homed fun _ entry tidy => tidy.2 entry rfl
      have sound : n.Sound := arrives.sound fun _ _ tidy => tidy.1
      unfold DeleteRequest.begin
      split
      · next reply refused =>
          refine ⟨homed, sound, ?_⟩
          -- nothing is deleted yet
          unfold lookupStage at refused
          split at refused
          · cases refused
            trivial
          · split at refused
            · cases refused
              trivial
            · cases refused
      · have able : n.Admissible cfg (.lookupDelete uuid) := free
        exact ⟨homed.act able (fun _ eq => by cases eq), sound.act able trivial, trivial⟩
  | step e _ admissible flushed ih => exact ih.step admissible flushed

/-- If the handler answers that the entry is deleted, its tombstone is in the log,
or the snapshot is without the entry, and a crash does not bring it back, as long
as the tombstone's batch is written and its reply arrives. -/
theorem deleted_is_durable
    (reached : Reachable cfg uuid (fun _ => Tidy uuid home) (Flushed uuid home) s)
    (answered : s.stage = .answered .deleted) : s.Durable cfg uuid := by
  have tracks := reached.tracks
  have erased : s.Erased uuid := by
    have known := tracks.stage
    unfold StageHolds at known
    rw [answered] at known
    exact known
  obtain ⟨buried, buries⟩ := erased
  refine ⟨?_, fun cut visits r read => ?_⟩
  · rcases buries with ⟨before, tomb, after, split, kind, same, -⟩ | ⟨snapshot, taken, only, -⟩
    · obtain ⟨earlier, whole, -, replayed⟩ := tracks.sound.log.cut
      have mem : tomb ∈ s.node.log.sinceSnapshot := by
        rw [split]
        exact List.mem_append_right _ List.mem_cons_self
      refine .inl ⟨tomb, ?_, replayed tomb mem, kind, same⟩
      rw [whole]
      exact List.mem_append_right _ mem
    · exact .inr ⟨snapshot, taken, fun e mem => only e mem⟩
  · obtain ⟨cut', uncut, renames, same⟩ := recover_crashLog tracks.sound.log.whole read
    have change : Node.LogChange s.node (Node.WholeLines (.restart cut' ⟨[], fun _ => []⟩ 0))
        (s.node.crashLog cfg cut') :=
      Node.crashLog_change fun order eq => visits order (renames order eq)
    have wf := tracks.homed.index.wellFormed
    have only := (buries.change tracks.sound wf buried uncut change).recover concerns_since
      (tracks.sound.wellCut uncut change) (tracks.homed.only.change wf change) same
    exact fun m e live => only m uuid e live rfl

end Machine

section Example

local instance durableExamplePlatform : Platform := Platform.sample

/-- An entry with UUID `u` is inserted and flushed. -/
def storedU : List Action :=
  [.submit ⟨"u", [1#32], "r", "q", "m", 0, 0, false, none⟩, .collect 1, .write .synced, .acquire,
    .apply, .apply, .evict [] ⟨[], fun _ => []⟩, .settle ⟨["m"], fun _ => [0]⟩ .compacted]

theorem allowed_storedU {guard : Node → Action → Prop} (met : ∀ n, ∀ a ∈ storedU, guard n a) :
    Node.Allowed ⟨⟨0, none⟩, 256, 0⟩ guard (.new ⟨⟨0, none⟩, 256, 0⟩) storedU := by
  refine ⟨rfl, met _ _ (by simp [storedU]), ⟨by decide, by decide⟩, met _ _ (by simp [storedU]),
    trivial, met _ _ (by simp [storedU]), trivial, met _ _ (by simp [storedU]), trivial,
    met _ _ (by simp [storedU]), trivial, met _ _ (by simp [storedU]), fun _ capped => ?_,
    met _ _ (by simp [storedU]), ?_, met _ _ (by simp [storedU]), trivial⟩
  · cases capped
  · change SemanticIndex.Visits _ _
    decide +kernel

/-- The delete of `u`, when the write of its tombstone ends with `outcome`. -/
def deleteU (outcome : WriteOutcome) : List RequestEvent :=
  [.remove 0, .send 0, .node (.collect 1), .node (.write outcome)]

/-- The handler's removal and its message are allowed. -/
theorem allowed_deleteU {guard : DeleteRequest → RequestEvent → Prop}
    (met : ∀ (s : DeleteRequest) (e : RequestEvent), (∀ a, e ≠ .node a) → e ≠ .drop → guard s e)
    {events : List RequestEvent}
    (rest : Allowed ⟨⟨0, none⟩, 256, 0⟩ "u" guard
      (run ⟨⟨0, none⟩, 256, 0⟩ (begin ⟨⟨0, none⟩, 256, 0⟩ "u"
        (Node.run ⟨⟨0, none⟩, 256, 0⟩ (.new ⟨⟨0, none⟩, 256, 0⟩) storedU)) [.remove 0, .send 0])
      events) :
    Allowed ⟨⟨0, none⟩, 256, 0⟩ "u" guard (begin ⟨⟨0, none⟩, 256, 0⟩ "u"
      (Node.run ⟨⟨0, none⟩, 256, 0⟩ (.new ⟨⟨0, none⟩, 256, 0⟩) storedU))
      (.remove 0 :: .send 0 :: events) := by
  refine ⟨fun modelId stage => ?_, met _ _ (by simp) (by simp), fun modelId stage => ?_,
    met _ _ (by simp) (by simp), rest⟩
  · have known : (begin ⟨⟨0, none⟩, 256, 0⟩ "u" (Node.run ⟨⟨0, none⟩, 256, 0⟩
        (.new ⟨⟨0, none⟩, 256, 0⟩) storedU)).stage = .working (.remove "m") := by
      decide +kernel
    cases known.symm.trans stage
    decide +kernel
  · have known : (step ⟨⟨0, none⟩, 256, 0⟩ (begin ⟨⟨0, none⟩, 256, 0⟩ "u" (Node.run
        ⟨⟨0, none⟩, 256, 0⟩ (.new ⟨⟨0, none⟩, 256, 0⟩) storedU)) (.remove 0)).stage =
          .working (.log "m") := by
      decide +kernel
    cases known.symm.trans stage
    decide +kernel

theorem deleted_is_durable_flushed :
    let cfg : NodeConfig := ⟨⟨0, none⟩, 256, 0⟩
    let s := run cfg (begin cfg "u" ((Node.new cfg).run cfg storedU))
      (deleteU .synced ++ [.node .acquire, .node .apply, .respond])
    s.stage = .answered .deleted ∧ s.Durable cfg "u" := by
  refine ⟨by decide +kernel, ?_⟩
  refine @deleted_is_durable _ _ _ _ "m" (Reachable.run (.begin (Node.Reachable.run .new ?_) ?_) ?_)
    (by decide +kernel)
  · refine allowed_storedU fun n a mem => ⟨?_, fun entry same => ?_⟩
    · simp only [storedU, List.mem_cons, List.not_mem_nil, or_false] at mem
      rcases mem with rfl | rfl | rfl | rfl | rfl | rfl | rfl | rfl <;> trivial
    · subst same
      simp only [storedU, List.mem_cons, List.not_mem_nil, or_false, reduceCtorEq] at mem
      obtain rfl := Action.submit.inj mem
      exact fun _ _ => rfl
  · decide +kernel
  · have quiet : ∀ {a : Action}, (∀ entry, a ≠ .submit entry) → ∀ entry, a = .submit entry →
        entry.Meets (LivesIn "u" "m") := fun other entry same => absurd same (other entry)
    refine allowed_deleteU (fun s e other kept => ?_) ⟨⟨⟨by decide, by decide⟩, rfl⟩,
      ⟨⟨trivial, quiet (by simp)⟩, fun _ _ _ _ _ _ _ eq => (by cases eq)⟩, ⟨trivial, rfl⟩,
      ⟨⟨trivial, quiet (by simp)⟩, fun ahead batch compact outcome _ phase _ eq => ?_⟩,
      ⟨trivial, rfl⟩, ⟨⟨trivial, quiet (by simp)⟩, fun _ _ _ _ _ _ _ eq => (by cases eq)⟩,
      ⟨trivial, rfl⟩, ⟨⟨trivial, quiet (by simp)⟩, fun _ _ _ _ _ _ _ eq => (by cases eq)⟩,
      trivial, trivial, trivial⟩
    · cases e with
      | node a => exact absurd rfl (other a)
      | drop => exact absurd rfl kept
      | _ => trivial
    · cases eq
      have known : (run ⟨⟨0, none⟩, 256, 0⟩ (begin ⟨⟨0, none⟩, 256, 0⟩ "u" (Node.run
          ⟨⟨0, none⟩, 256, 0⟩ (.new ⟨⟨0, none⟩, 256, 0⟩) storedU))
          [.remove 0, .send 0, .node (.collect 1)]).node.phase =
            .collected [.tombstoneEntry "u" "m"] false := by
        decide +kernel
      cases known.symm.trans phase
      exact ⟨rfl, by decide +kernel⟩

/-- The write of the tombstone fails; the handler answers that the entry is
deleted, and a crash brings it back. -/
theorem deleted_comes_back :
    let cfg : NodeConfig := ⟨⟨0, none⟩, 256, 0⟩
    let s := run cfg (begin cfg "u" ((Node.new cfg).run cfg storedU))
      (deleteU (.failed 0 .none) ++ [.respond])
    Reachable cfg "u" (fun _ _ => True) (fun _ _ => True) s ∧ s.stage = .answered .deleted ∧
      ¬ s.Durable cfg "u" := by
  refine ⟨Reachable.run (.begin (Node.Reachable.run .new ?_) ?_) ?_, by decide +kernel, ?_⟩
  · exact allowed_storedU fun _ _ _ => trivial
  · decide +kernel
  · exact allowed_deleteU (fun _ _ _ _ => trivial) ⟨⟨⟨by decide, by decide⟩, rfl⟩, trivial,
      ⟨trivial, rfl⟩, trivial, trivial, trivial, trivial⟩
  · intro durable
    have recovered : (recover ⟨0, none⟩ ((run ⟨⟨0, none⟩, 256, 0⟩ (begin ⟨⟨0, none⟩, 256, 0⟩ "u"
        (Node.run ⟨⟨0, none⟩, 256, 0⟩ (.new ⟨⟨0, none⟩, 256, 0⟩) storedU))
        (deleteU (.failed 0 .none) ++ [.respond])).node.crashLog ⟨⟨0, none⟩, 256, 0⟩ .none).disk).map
          (fun r => (r.index.entryAt "m" "u").isSome) = .ok true := by
      decide +kernel
    cases read : recover ⟨0, none⟩ ((run ⟨⟨0, none⟩, 256, 0⟩ (begin ⟨⟨0, none⟩, 256, 0⟩ "u"
        (Node.run ⟨⟨0, none⟩, 256, 0⟩ (.new ⟨⟨0, none⟩, 256, 0⟩) storedU))
        (deleteU (.failed 0 .none) ++ [.respond])).node.crashLog ⟨⟨0, none⟩, 256, 0⟩ .none).disk with
    | error msg =>
        rw [read] at recovered
        cases recovered
    | ok r =>
        rw [read] at recovered
        obtain ⟨e, found⟩ := Option.isSome_iff_exists.mp (Except.ok.inj recovered)
        obtain ⟨entry, mem, -⟩ := durable.2 .none (fun _ eq => by cases eq) r read "m" e found
        cases mem

end Example

end DeleteRequest

end Ferrocache
