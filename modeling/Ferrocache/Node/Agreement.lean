import Ferrocache.Node.Effect
import Ferrocache.Node.Tame

/-!
# Recovery equals the running cache

Memory and disk of one node in step: outside the UUIDs whose removal is not
logged yet, the running index has the records that replaying the applied lines
over the snapshot gives.  Every action of the machine keeps this
(`Simulates.act`), so a node that is between two flush iterations and has no
removal left to log recovers to the cache it runs (`recovery_eq_running`).
-/

namespace Ferrocache.Node

section Agreement

variable [Platform] (cfg : NodeConfig) (home : String → String) (dim : String → Nat)

/-- Memory and disk of a node in step. -/
structure Simulates (n : Node) : Prop where
  log : n.log.WellCut
  index : Tame home dim n.index
  base : Tame home dim (loadSnapshot cfg.hnsw n.log.disk.snapshot)
  lines : ∀ line ∈ n.log.sinceSnapshot, line.Keeps home dim
  batch : ∀ entry ∈ n.phase.batch, entry.Keeps home dim
  queued : ∀ entry, .insert entry ∈ n.queue → entry.Keeps home dim
  outbox : ∀ entry ∈ n.outbox, entry.tombstone = true
  agrees : ∃ applied, n.log.sinceSnapshot = applied ++ n.phase.pending ∧
    Set.EqOn (recordOf home n.index)
      (Edit.replay (recordOf home (loadSnapshot cfg.hnsw n.log.disk.snapshot))
        (applied.map WalEntry.edit)) (↑n.unlogged)ᶜ
  gone : ∀ out compact, n.phase = .evicted out compact →
    ∀ e ∈ out, recordOf home n.index e.uuid = none

omit [Platform] in
/-- No I/O error, no line torn by a crash, and every insertion keeps the rules. -/
def Orderly : Action → Prop
  | .submit entry => entry.Keeps home dim
  | .write outcome => outcome = .synced
  | .writeTombstones outcome => outcome = .synced
  | .restart (.write _ fragment) _ _ => fragment = .none
  | _ => True

omit [Platform] in
instance (a : Action) : Decidable (Orderly home dim a) :=
  match a with
  | .submit entry => inferInstanceAs (Decidable (entry.Keeps home dim))
  | .write outcome => inferInstanceAs (Decidable (outcome = .synced))
  | .writeTombstones outcome => inferInstanceAs (Decidable (outcome = .synced))
  | .restart (.write _ fragment) _ _ => inferInstanceAs (Decidable (fragment = .none))
  | .restart .none _ _ => isTrue trivial
  | .restart (.rename _) _ _ => isTrue trivial
  | .requestCompact => isTrue trivial
  | .lookupDelete _ => isTrue trivial
  | .removeDelete _ => isTrue trivial
  | .invalidate _ _ _ _ _ => isTrue trivial
  | .reap _ _ _ _ => isTrue trivial
  | .access _ _ _ => isTrue trivial
  | .send _ => isTrue trivial
  | .collect _ => isTrue trivial
  | .acquire => isTrue trivial
  | .apply => isTrue trivial
  | .evict _ _ => isTrue trivial
  | .settle _ _ => isTrue trivial
  | .compact _ _ => isTrue trivial

variable {cfg home dim} {n : Node}

omit [Platform] in
theorem keeps_of_tombstone {entry : WalEntry} (tomb : entry.tombstone = true) :
    entry.Keeps home dim := fun insert => by
  rw [tomb] at insert
  cases insert

omit [Platform] in
/-- Stamping keeps the rules. -/
theorem keeps_of_stamped {first last : Nat} {batch lines : List WalEntry}
    (stamped : Stamped first last batch lines) (keeps : ∀ entry ∈ batch, entry.Keeps home dim) :
    ∀ line ∈ lines, line.Keeps home dim := by
  intro line mem
  obtain ⟨entry, inBatch, same⟩ := stamped.origin mem
  rw [same]
  exact keeps entry inBatch

theorem simulates_new : Simulates cfg home dim (new cfg) where
  log := .fresh
  index := tame_new _
  base := tame_new _
  lines _ mem := absurd mem List.not_mem_nil
  batch _ mem := absurd mem List.not_mem_nil
  queued _ mem := absurd mem List.not_mem_nil
  outbox _ mem := absurd mem List.not_mem_nil
  agrees := ⟨[], rfl, fun _ _ => rfl⟩
  gone _ _ phase := by cases phase

namespace Simulates

/-- Fields the simulation does not look at. -/
theorem frame (sim : Simulates cfg home dim n) (deleting : List (String × String)) (inserts : Nat)
    (answers : Nat → Option Answer) :
    Simulates cfg home dim { n with
      deleting := deleting, insertsSinceCompact := inserts, answers := answers } :=
  ⟨sim.log, sim.index, sim.base, sim.lines, sim.batch, sim.queued, sim.outbox, sim.agrees,
    sim.gone⟩

/-! ## Handlers and reaper -/

/-- A removal in memory, with its tombstones due. -/
theorem removed (sim : Simulates cfg home dim n) {index : SemanticIndex}
    {gone : List (String × String)} (lost : SemanticIndex.Loses n.index index gone)
    {due : List WalEntry} (tombs : ∀ entry ∈ due, entry.tombstone = true) {uuids : List String}
    (covered : gone.map Prod.fst ⊆ uuids) :
    Simulates cfg home dim (n.removed index due uuids) := by
  obtain ⟨tame, kept, absent⟩ := sim.index.loses lost
  refine ⟨sim.log, tame, sim.base, sim.lines, sim.batch, sim.queued, ?_, ?_, ?_⟩
  · intro entry mem
    rcases List.mem_append.mp mem with old | new
    · exact sim.outbox entry old
    · exact tombs entry new
  · obtain ⟨applied, split, agree⟩ := sim.agrees
    refine ⟨applied, split, ?_⟩
    have less := Edit.eqOn_of_loss agree {u | u ∈ uuids} fun u out =>
      kept u fun mem => out (covered mem)
    intro u outside
    refine less fun inside => outside (Finset.mem_coe.mpr (Finset.mem_union.mpr ?_))
    rcases inside with before | now
    · exact .inl before
    · exact .inr (List.mem_toFinset.mpr now)
  · intro out compact phase e mem
    exact absent e.uuid (sim.gone out compact phase e mem)

theorem removeDelete (sim : Simulates cfg home dim n) (i : Nat) :
    Simulates cfg home dim (n.removeDelete i) := by
  unfold Node.removeDelete
  cases n.deleting[i]? with
  | none => exact sim
  | some pair =>
      obtain ⟨uuid, modelId⟩ := pair
      obtain ⟨gone, lost, uuids⟩ :=
        SemanticIndex.Loses.removeByUuid sim.index.wellFormed uuid
      have tombs : ∀ entry ∈ [WalEntry.tombstoneEntry uuid modelId], entry.tombstone = true := by
        simp [WalEntry.tombstoneEntry]
      exact (sim.removed lost tombs (by rw [uuids]; exact List.Subset.refl _)).frame _ _ _

theorem invalidate (sim : Simulates cfg home dim n) (order : List Nat) (embedding : Embedding)
    (threshold : F32) (modelId : String) (now : Nat) :
    Simulates cfg home dim (n.invalidate order embedding threshold modelId now) := by
  have removed := SemanticIndex.Removed.invalidateSimilar sim.index.wellFormed order embedding
    threshold modelId now
  refine sim.removed (.of_removed removed) (fun _ mem => tombstone_of_mem_tombstones mem) ?_
  rw [List.map_map]
  intro u mem
  obtain ⟨v, inside, rfl⟩ := List.mem_map.mp mem
  exact inside

theorem reap (sim : Simulates cfg home dim n) {expireOrder rebuildOrder : PassOrder} {now : Nat}
    {pruneOrder : List String} (expires : SemanticIndex.Visits expireOrder n.index)
    (rebuilds : SemanticIndex.Visits rebuildOrder (n.index.collectExpired expireOrder now).1) :
    Simulates cfg home dim (n.reap expireOrder now rebuildOrder pruneOrder) := by
  have expired := SemanticIndex.Loses.of_removed
    (SemanticIndex.Removed.collectExpired sim.index.wellFormed expires.1 now)
  have rebuilt := SemanticIndex.Loses.rebuildDirtyNamespaces expired.wellFormed rebuilds
  have pruned := SemanticIndex.Loses.pruneEmptyNamespaces rebuilt.wellFormed pruneOrder
  exact sim.removed ((expired.trans rebuilt).trans pruned)
    (fun _ mem => tombstone_of_mem_tombstones mem) (List.Subset.refl _)

theorem access (sim : Simulates cfg home dim n) (modelId : String) (internalId now : Nat) :
    Simulates cfg home dim { n with index := n.index.recordAccess modelId internalId now } := by
  have kept := SemanticIndex.Loses.recordAccess sim.index.wellFormed modelId internalId now
  have noneDue : ∀ entry ∈ ([] : List WalEntry), entry.tombstone = true := by simp
  simpa [Node.removed] using sim.removed kept noneDue (List.Subset.refl _)

theorem send (sim : Simulates cfg home dim n) (i : Nat) : Simulates cfg home dim (n.send i) := by
  unfold Node.send
  cases found : n.outbox[i]? with
  | none => exact sim
  | some entry =>
      have tomb := sim.outbox entry (List.mem_of_getElem? found)
      refine ⟨sim.log, sim.index, sim.base, sim.lines, sim.batch, ?_, ?_, sim.agrees, sim.gone⟩
      · intro e mem
        rcases List.mem_append.mp mem with old | new
        · exact sim.queued e old
        · cases List.mem_singleton.mp new
          exact keeps_of_tombstone tomb
      · exact fun e mem => sim.outbox e (List.mem_of_mem_eraseIdx mem)

theorem submit (sim : Simulates cfg home dim n) {command : Command}
    (keeps : ∀ entry, command = .insert entry → entry.Keeps home dim) :
    Simulates cfg home dim { n with queue := n.queue ++ [command] } := by
  refine ⟨sim.log, sim.index, sim.base, sim.lines, sim.batch, ?_, sim.outbox, sim.agrees, sim.gone⟩
  intro entry mem
  rcases List.mem_append.mp mem with old | new
  · exact sim.queued entry old
  · exact keeps entry (List.mem_singleton.mp new).symm

/-! ## Flush task -/

/-- A change of phase that moves no line. -/
theorem move (sim : Simulates cfg home dim n) (phase : Phase)
    (pending : phase.pending = n.phase.pending) (batch : ∀ e ∈ phase.batch, e.Keeps home dim)
    (gone : ∀ out compact, phase = .evicted out compact → ∀ e ∈ out,
      recordOf home n.index e.uuid = none) {queue : List Command}
    (queued : ∀ command ∈ queue, command ∈ n.queue) :
    Simulates cfg home dim { n with phase := phase, queue := queue } := by
  refine ⟨sim.log, sim.index, sim.base, sim.lines, batch, ?_, sim.outbox, ?_, gone⟩
  · exact fun entry mem => sim.queued entry (queued _ mem)
  · obtain ⟨applied, split, agree⟩ := sim.agrees
    exact ⟨applied, by rw [pending]; exact split, agree⟩

theorem collect (sim : Simulates cfg home dim n) (size : Nat) :
    Simulates cfg home dim (n.collect size) := by
  obtain ⟨taken, left⟩ := mem_takeBatch size n.queue
  unfold Node.collect
  split
  · next phase found =>
      rw [found] at left
      exact sim.move .compacting (by rw [phase]; rfl) (fun _ mem => absurd mem List.not_mem_nil)
        (fun _ _ evicted => by cases evicted) left
  · next entry batch compact queue phase found =>
      rw [found] at taken left
      exact sim.move (.collected (entry :: batch) compact) (by rw [phase]; rfl)
        (fun e mem => sim.queued e (taken e mem)) (fun _ _ evicted => by cases evicted) left
  · exact sim

/-- Lines appended to the log, all of them still to apply. -/
theorem extend (sim : Simulates cfg home dim n) (idle : n.phase.pending = []) {last : Nat}
    {batch lines : List WalEntry} (grows : n.log.sequence ≤ last)
    (stamped : Stamped n.log.sequence last batch lines)
    (keeps : ∀ entry ∈ batch, entry.Keeps home dim) {phase : Phase}
    (pending : phase.pending = lines) (collected : phase.batch = [])
    (gone : ∀ out compact, phase ≠ .evicted out compact) :
    Simulates cfg home dim { n with log := n.log.extend lines last, phase := phase } := by
  refine ⟨sim.log.extend grows stamped, sim.index, sim.base, ?_, ?_, sim.queued, sim.outbox, ?_, ?_⟩
  · intro line mem
    rcases List.mem_append.mp mem with old | new
    · exact sim.lines line old
    · exact keeps_of_stamped stamped keeps line new
  · rw [show phase.batch = [] from collected]
    exact fun _ mem => absurd mem List.not_mem_nil
  · obtain ⟨applied, split, agree⟩ := sim.agrees
    rw [idle, List.append_nil] at split
    refine ⟨applied, ?_, agree⟩
    change n.log.sinceSnapshot ++ lines = applied ++ phase.pending
    rw [split, pending]
  · exact fun out compact evicted => absurd evicted (gone out compact)

theorem write (sim : Simulates cfg home dim n) :
    Simulates cfg home dim (n.write .synced) := by
  unfold Node.write
  split
  · next batch compact phase =>
      have idle : n.phase.pending = [] := by rw [phase]; rfl
      have keeps : ∀ entry ∈ batch, entry.Keeps home dim := by
        have kept := sim.batch
        rw [phase] at kept
        exact kept
      obtain ⟨last, grows, ⟨msg, overflow⟩ | ⟨lines, stamped, -, written⟩⟩ :=
        Log.flush_cases sim.log.whole batch (show WriteOutcome.Whole .synced from trivial)
      · have same := sim.extend idle grows (.nil _ _) (by simp)
          (show (Phase.flushed compact).pending = [] from rfl) rfl (by simp)
        rw [overflow]
        exact same.frame _ _ _
      · rcases written with ⟨-, synced⟩ | ⟨kept, msg, failed, -⟩
        · have more := sim.extend idle grows stamped keeps
            (show (Phase.written lines compact).pending = lines from rfl) rfl (by simp)
          rw [synced]
          exact more.frame _ _ _
        · cases failed
  · exact sim

theorem acquire (sim : Simulates cfg home dim n) : Simulates cfg home dim n.acquire := by
  unfold Node.acquire
  split
  · next lines compact phase =>
      exact sim.move (.applying lines compact) (by rw [phase]; rfl)
        (fun _ mem => absurd mem List.not_mem_nil) (fun _ _ evicted => by cases evicted)
        fun _ mem => mem
  · exact sim

/-- The same edit on both sides; a flushed tombstone settles its UUID. -/
theorem apply (sim : Simulates cfg home dim n) : Simulates cfg home dim n.apply := by
  unfold Node.apply
  split
  · next compact phase =>
      exact sim.move (.flushed compact) (by rw [phase]; rfl)
        (fun _ mem => absurd mem List.not_mem_nil) (fun _ _ evicted => by cases evicted)
        fun _ mem => mem
  · next line lines compact phase =>
      obtain ⟨applied, split, agree⟩ := sim.agrees
      rw [phase] at split
      have keeps := sim.lines line (by rw [split]; exact List.mem_append_right _ List.mem_cons_self)
      obtain ⟨tame, edited, ok⟩ := sim.index.replayEntry keeps
      rcases result : n.index.replayEntry line with ⟨index, outcome⟩
      rw [result] at tame edited ok
      dsimp only at tame edited ok
      subst ok
      dsimp only
      refine ⟨sim.log, tame, sim.base, sim.lines, fun _ mem => absurd mem List.not_mem_nil,
        sim.queued, sim.outbox, ⟨applied ++ [line], ?_, ?_⟩, fun _ _ evicted => by cases evicted⟩
      · rw [split]
        simp [Phase.pending]
      · rw [List.map_append, Edit.replay_append]
        change Set.EqOn (recordOf home index) (Edit.apply _ line.edit) _
        dsimp only
        rw [edited]
        cases tomb : line.tombstone with
        | false =>
            rw [if_neg Bool.false_ne_true]
            exact Edit.apply_eqOn agree _
        | true =>
            rw [if_pos rfl, WalEntry.edit, if_pos tomb, Finset.coe_erase]
            exact Edit.apply_del_eqOn agree line.uuid
  · exact sim

theorem evict (sim : Simulates cfg home dim n) {order : List String} {rebuildOrder : PassOrder}
    (visits : ∀ maxEntries, cfg.hnsw.maxEntriesPerNamespace = some maxEntries →
      HashMap.IterOrder n.index.namespaces order ∧
        SemanticIndex.Visits rebuildOrder (n.index.evictToCap order maxEntries).1) :
    Simulates cfg home dim (n.evict cfg order rebuildOrder) := by
  unfold Node.evict
  split
  · next compact phase =>
      split
      · exact sim.move (.settled compact) (by rw [phase]; rfl)
          (fun _ mem => absurd mem List.not_mem_nil) (fun _ _ evicted => by cases evicted)
          fun _ mem => mem
      · next maxEntries capped =>
          obtain ⟨evicts, rebuilds⟩ := visits maxEntries capped
          have removed := SemanticIndex.Removed.evictToCap sim.index.wellFormed evicts maxEntries
          have rebuilt := SemanticIndex.Loses.rebuildDirtyNamespaces removed.wellFormed rebuilds
          have evictedTame := (sim.index.loses (.of_removed removed)).1
          have lost := (SemanticIndex.Loses.of_removed removed).trans rebuilt
          have noneDue : ∀ entry ∈ ([] : List WalEntry), entry.tombstone = true := by simp
          have shrunk := sim.removed lost noneDue (List.Subset.refl _)
          have moved := shrunk.move (.evicted (n.index.evictToCap order maxEntries).2 compact)
            (by change [] = n.phase.pending; rw [phase]; rfl)
            (fun _ mem => absurd mem List.not_mem_nil) ?_ (fun _ mem => mem)
          · simpa [Node.removed, Function.comp_def] using moved
          · intro out flag same e mem
            cases same
            refine (evictedTame.loses rebuilt).2.2 e.uuid ?_
            exact sim.index.recordOf_removed removed
              (List.mem_map.mpr ⟨e, mem, rfl⟩ : (e.uuid, e.modelId) ∈ _)
  · exact sim

omit [Platform] in
/-- The edits of stamped tombstones are deletions. -/
theorem edit_stamped_tombstones {first last : Nat} {gone : List (String × String)}
    {lines : List WalEntry} (stamped : Stamped first last (tombstones gone) lines) :
    lines.map WalEntry.edit = (gone.map Prod.fst).map .del := by
  have same := stamped.same
  clear stamped
  induction gone generalizing lines with
  | nil =>
      cases same
      rfl
  | cons e gone ih =>
      cases same with
      | cons head tail =>
          rw [List.map_cons, ih tail, head]
          rfl

theorem writeTombstones (sim : Simulates cfg home dim n) :
    Simulates cfg home dim (n.writeTombstones .synced) := by
  unfold Node.writeTombstones
  split
  · next compact phase =>
      exact sim.move (.settled compact) (by rw [phase]; rfl)
        (fun _ mem => absurd mem List.not_mem_nil) (fun _ _ evicted => by cases evicted)
        fun _ mem => mem
  · next e out compact phase =>
      have idle : n.phase.pending = [] := by rw [phase]; rfl
      have keeps : ∀ entry ∈ evictedTombstones (e :: out), entry.Keeps home dim :=
        fun entry mem => keeps_of_tombstone (tombstone_of_mem_tombstones mem)
      obtain ⟨last, grows, ⟨msg, overflow⟩ | ⟨lines, stamped, -, written⟩⟩ := Log.flush_cases
        sim.log.whole (evictedTombstones (e :: out)) (show WriteOutcome.Whole .synced from trivial)
      · have same := sim.extend idle grows (.nil _ _) (by simp)
          (show (Phase.settled compact).pending = [] from rfl) rfl (by simp)
        rw [overflow]
        exact same
      · rcases written with ⟨-, synced⟩ | ⟨kept, msg, failed, -⟩
        · have more := sim.extend idle grows stamped keeps
            (show (Phase.written lines compact).pending = lines from rfl) rfl (by simp)
          rw [synced]
          dsimp only
          refine ⟨more.log, sim.index, sim.base, more.lines,
            fun _ mem => absurd mem List.not_mem_nil, sim.queued, sim.outbox, ?_,
            fun _ _ evicted => by cases evicted⟩
          obtain ⟨applied, split, agree⟩ := sim.agrees
          rw [idle, List.append_nil] at split
          refine ⟨applied ++ lines, ?_, ?_⟩
          · change n.log.sinceSnapshot ++ lines = applied ++ lines ++ []
            rw [split, List.append_nil]
          · -- the evicted entries are gone on both sides, the others are as they were
            rw [List.map_append, Edit.replay_append, edit_stamped_tombstones stamped]
            intro u outside
            refine Eq.trans ?_ (Edit.replay_del _ _ u).symm
            have uuids : ((e :: out).map fun e => (e.uuid, e.modelId)).map Prod.fst =
                (e :: out).map (·.uuid) := by
              simp [Function.comp_def]
            rw [uuids]
            split
            · next inside =>
                obtain ⟨x, mem, rfl⟩ := List.mem_map.mp inside
                exact sim.gone (e :: out) compact phase x mem
            · next notEvicted =>
                refine agree fun inside => outside ?_
                exact Finset.mem_coe.mpr (Finset.mem_sdiff.mpr
                  ⟨inside, fun mem => notEvicted (List.mem_toFinset.mp mem)⟩)
        · cases failed
  · exact sim

/-! ## Compaction -/

/-- A snapshot of a node that has applied all its lines. -/
theorem compacted (sim : Simulates cfg home dim n) (idle : n.phase.pending = [])
    {order : PassOrder} (visits : SemanticIndex.Visits order n.index)
    (outcome : Log.CompactOutcome) :
    Simulates cfg home dim
      { n with log := n.log.compact (n.index.snapshotEntries order) outcome } := by
  obtain ⟨loaded, records⟩ := sim.index.loadSnapshot cfg.hnsw visits n.log.sequence
  have renamed : ∀ file, Log.WellCut ⟨⟨file, some ⟨n.index.snapshotEntries order, n.log.sequence⟩⟩,
      n.log.sequence, []⟩ → Simulates cfg home dim { n with
        log := ⟨⟨file, some ⟨n.index.snapshotEntries order, n.log.sequence⟩⟩, n.log.sequence, []⟩ } := by
    intro file wellCut
    refine ⟨wellCut, sim.index, loaded, fun _ mem => absurd mem List.not_mem_nil, sim.batch,
      sim.queued, sim.outbox, ⟨[], ?_, ?_⟩, sim.gone⟩
    · change [] = [] ++ n.phase.pending
      rw [idle]
      rfl
    · intro u _
      exact (congrFun records u).symm
  have wellCut := sim.log.compact (n.index.snapshotEntries order) outcome
  cases outcome with
  | unwritten => exact sim
  | compacted => exact renamed _ wellCut
  | untruncated emptied => exact renamed _ wellCut

theorem settle (sim : Simulates cfg home dim n) {order : PassOrder}
    (visits : SemanticIndex.Visits order n.index) (outcome : Log.CompactOutcome) :
    Simulates cfg home dim (n.settle cfg order outcome) := by
  unfold Node.settle
  split
  · next compact phase =>
      have idle : n.phase.pending = [] := by rw [phase]; rfl
      have next : ∀ m : Node, Simulates cfg home dim m → m.phase.pending = [] →
          Simulates cfg home dim { m with phase := if compact then .compacting else .idle } := by
        intro m simulated rest
        cases compact with
        | true =>
            exact simulated.move .compacting (by rw [rest]; rfl)
              (fun _ mem => absurd mem List.not_mem_nil) (fun _ _ evicted => by cases evicted)
              fun _ mem => mem
        | false =>
            exact simulated.move .idle (by rw [rest]; rfl)
              (fun _ mem => absurd mem List.not_mem_nil) (fun _ _ evicted => by cases evicted)
              fun _ mem => mem
      split
      · exact next _ ((sim.compacted idle visits outcome).frame _ _ _) idle
      · exact next _ sim idle
  · exact sim

theorem runCompact (sim : Simulates cfg home dim n) {order : PassOrder}
    (visits : SemanticIndex.Visits order n.index) (outcome : Log.CompactOutcome) :
    Simulates cfg home dim (n.runCompact order outcome) := by
  unfold Node.runCompact
  split
  · next phase =>
      have idle : n.phase.pending = [] := by rw [phase]; rfl
      have done := (sim.compacted idle visits outcome).frame n.deleting 0 n.answers
      exact done.move .idle (by change [] = n.phase.pending; rw [idle])
        (fun _ mem => absurd mem List.not_mem_nil) (fun _ _ evicted => by cases evicted)
        fun _ mem => mem
  · exact sim

/-! ## Crash and startup -/

/-- A startup from a log in order. -/
theorem boot {log log' : Log} {r : Recovery} (wellCut : log.WellCut)
    (base : Tame home dim (Ferrocache.loadSnapshot cfg.hnsw log.disk.snapshot))
    (lines : ∀ line ∈ log.sinceSnapshot, line.Keeps home dim)
    (started : log.restart cfg.hnsw = .ok (r, log')) {expireOrder : PassOrder}
    (visits : SemanticIndex.Visits expireOrder r.index) {answers : Nat → Option Answer}
    {now : Nat} {m : Node} (booted : Node.boot cfg log answers expireOrder now = some m) :
    Simulates cfg home dim m := by
  rw [boot_of_restart started] at booted
  cases booted
  obtain ⟨-, disk, since⟩ := Log.restart_recover started
  obtain ⟨tame, replayed⟩ := base.replayLines lines
  rw [← wellCut.restart_index started] at tame replayed
  have expired := SemanticIndex.Removed.collectExpired tame.wellFormed visits.1 now
  obtain ⟨left, kept, -⟩ := tame.loses (.of_removed expired)
  refine ⟨wellCut.restart started, left, ?_, ?_, fun _ mem => absurd mem List.not_mem_nil,
    fun _ mem => absurd mem List.not_mem_nil, fun _ mem => tombstone_of_mem_tombstones mem,
    ⟨log.sinceSnapshot, ?_, ?_⟩, fun _ _ evicted => by cases evicted⟩
  · rw [disk]
    exact base
  · rw [since]
    exact lines
  · exact since.trans (List.append_nil _).symm
  · rw [disk]
    intro u outside
    refine (kept u fun mem => outside ?_).trans (congrFun replayed u)
    exact Finset.mem_coe.mpr (List.mem_toFinset.mpr mem)

/-- A batch of which a crash left some lines. -/
theorem cutBatch (sim : Simulates cfg home dim n) {batch : List WalEntry}
    (keeps : ∀ entry ∈ batch, entry.Keeps home dim) (kept : Nat) :
    (n.log.flush batch (.failed kept .none)).1.WellCut ∧
      Tame home dim (Ferrocache.loadSnapshot cfg.hnsw
        (n.log.flush batch (.failed kept .none)).1.disk.snapshot) ∧
        ∀ line ∈ (n.log.flush batch (.failed kept .none)).1.sinceSnapshot,
          line.Keeps home dim := by
  have whole : WriteOutcome.Whole (.failed kept .none) := rfl
  refine ⟨sim.log.flush batch whole, ?_⟩
  obtain ⟨last, grows, ⟨msg, overflow⟩ | ⟨lines, stamped, -, ⟨impossible, -⟩ | ⟨k, msg, -, failed⟩⟩⟩ :=
    Log.flush_cases sim.log.whole batch whole
  · rw [overflow]
    refine ⟨sim.base, fun line mem => sim.lines line ?_⟩
    exact (List.append_nil n.log.sinceSnapshot) ▸ mem
  · cases impossible
  · rw [failed]
    refine ⟨sim.base, fun line mem => ?_⟩
    rcases List.mem_append.mp mem with old | new
    · exact sim.lines line old
    · exact keeps_of_stamped stamped keeps line (List.mem_of_mem_take new)

/-- The log that a crash leaves is in order. -/
theorem crashLog (sim : Simulates cfg home dim n) {cut : Cut}
    (noFragment : ∀ kept fragment, cut = .write kept fragment → fragment = .none)
    (visits : ∀ order, cut = .rename order → SemanticIndex.Visits order n.index) :
    (n.crashLog cfg cut).WellCut ∧
      Tame home dim (Ferrocache.loadSnapshot cfg.hnsw (n.crashLog cfg cut).disk.snapshot) ∧
        ∀ line ∈ (n.crashLog cfg cut).sinceSnapshot, line.Keeps home dim := by
  have same := And.intro sim.log (And.intro sim.base sim.lines)
  unfold Node.crashLog
  split
  · next kept fragment batch compact phase =>
      cases noFragment kept fragment rfl
      have keeps := sim.batch
      rw [phase] at keeps
      exact sim.cutBatch keeps kept
  · next kept fragment out compact phase =>
      cases noFragment kept fragment rfl
      exact sim.cutBatch (fun entry mem => keeps_of_tombstone (tombstone_of_mem_tombstones mem)) kept
  · next order phase =>
      have snap := sim.compacted (by rw [phase]; rfl) (visits order rfl) (.untruncated false)
      exact ⟨snap.log, snap.base, snap.lines⟩
  · next order compact phase =>
      split
      · have snap := sim.compacted (by rw [phase]; rfl) (visits order rfl) (.untruncated false)
        exact ⟨snap.log, snap.base, snap.lines⟩
      · exact same
  · exact same

/-! ## Runs -/

theorem act (sim : Simulates cfg home dim n) {a : Action} (admissible : n.Admissible cfg a)
    (orderly : Orderly home dim a) : Simulates cfg home dim (n.act cfg a) := by
  cases a with
  | submit entry =>
      exact sim.submit fun e same => by
        cases same
        exact orderly
  | requestCompact => exact sim.submit fun e same => by cases same
  | lookupDelete uuid =>
      change Simulates cfg home dim (n.lookupDelete uuid)
      unfold Node.lookupDelete
      split
      · exact sim
      · exact sim.frame _ n.insertsSinceCompact n.answers
  | removeDelete i => exact sim.removeDelete i
  | invalidate order embedding threshold modelId now =>
      exact sim.invalidate order embedding threshold modelId now
  | reap expireOrder now rebuildOrder pruneOrder =>
      exact sim.reap admissible.2.1 admissible.2.2.1
  | access modelId internalId now => exact sim.access modelId internalId now
  | send i => exact sim.send i
  | collect size => exact sim.collect size
  | write outcome =>
      cases (show outcome = .synced from orderly)
      exact sim.write
  | acquire => exact sim.acquire
  | apply => exact sim.apply
  | evict order rebuildOrder => exact sim.evict admissible
  | writeTombstones outcome =>
      cases (show outcome = .synced from orderly)
      exact sim.writeTombstones
  | settle order outcome => exact sim.settle admissible outcome
  | compact order outcome => exact sim.runCompact admissible outcome
  | restart cut expireOrder now =>
      obtain ⟨renames, r, log, started, visits⟩ := admissible
      have noFragment : ∀ kept fragment, cut = .write kept fragment → fragment = .none := by
        intro kept fragment same
        subst same
        exact orderly
      obtain ⟨wellCut, base, lines⟩ := sim.crashLog noFragment renames
      change Simulates cfg home dim ((n.restart cfg cut expireOrder now).getD n)
      cases booted : n.restart cfg cut expireOrder now with
      | none => exact sim
      | some m => exact Simulates.boot wellCut base lines started visits booted

end Simulates

theorem Reachable.simulates (reached : Reachable cfg (fun _ a => Orderly home dim a) n) :
    Simulates cfg home dim n := by
  induction reached with
  | new => exact simulates_new
  | act a _ admissible orderly ih => exact ih.act admissible orderly

/-- Between two flush iterations, with no removal left to log, the startup
procedure rebuilds the live entries of the running index: the same UUIDs, each
with the same namespace and record. -/
theorem recovery_eq_running (reached : Reachable cfg (fun _ a => Orderly home dim a) n)
    (idle : n.phase = .idle) (logged : n.unlogged = ∅) :
    ∃ r, recover cfg.hnsw n.log.disk = .ok r ∧ ∀ m u,
      (r.index.entryAt m u).map (·.record) = (n.index.entryAt m u).map (·.record) := by
  have sim := reached.simulates
  refine ⟨_, sim.log.recover_eq cfg.hnsw, fun m u => ?_⟩
  obtain ⟨applied, split, agree⟩ := sim.agrees
  have nothing : n.phase.pending = [] := by rw [idle]; rfl
  rw [nothing, List.append_nil] at split
  obtain ⟨tame, replayed⟩ := sim.base.replayLines sim.lines
  rw [Recovery.foldl_replay_index]
  by_cases here : m = home u
  · subst here
    have outside : u ∈ (↑n.unlogged : Set String)ᶜ := by simp [logged]
    refine (congrFun replayed u).trans ?_
    rw [split]
    exact (agree outside).symm
  · -- away from its home a UUID is live on neither side
    have absent : ∀ idx, Tame home dim idx → idx.entryAt m u = none := fun idx good => by
      by_contra live
      exact here (good.housed m u live)
    rw [absent _ tame, absent _ sim.index]

end Agreement

section Example

local instance agreementExamplePlatform : Platform := Platform.sample

def insertM (uuid : String) : Action :=
  .submit ⟨uuid, [1#32], "r", "q", "m", 0, 0, false, none⟩

/-- Two insertions, a deletion with its tombstone, a compaction, and an insertion
over the snapshot. -/
def compactedThenInserted : List Action :=
  insertM "a" :: (flushOne ⟨["m"], fun _ => [0]⟩ ++
    (insertM "b" :: (flushOne ⟨["m"], fun _ => [0, 1]⟩ ++
      (.lookupDelete "a" :: .removeDelete 0 :: .send 0 :: (flushOne ⟨["m"], fun _ => [1]⟩ ++
        (.requestCompact :: .collect 1 :: .compact ⟨["m"], fun _ => [1]⟩ .compacted ::
          insertM "c" :: flushOne ⟨["m"], fun _ => [1, 2]⟩))))))

theorem recovery_eq_running_sample :
    let cfg : NodeConfig := ⟨⟨0, none⟩, 256, 0⟩
    let n := run cfg (new cfg) compactedThenInserted
    n.log.disk.snapshot.isSome ∧ n.log.sinceSnapshot ≠ [] ∧ n.index.entryAt "m" "a" = none ∧
      n.index.entryAt "m" "c" ≠ none ∧ ∃ r, recover cfg.hnsw n.log.disk = .ok r ∧ ∀ m u,
        (r.index.entryAt m u).map (·.record) = (n.index.entryAt m u).map (·.record) := by
  refine ⟨by decide +kernel, by decide +kernel, by decide +kernel, by decide +kernel, ?_⟩
  have reached : Reachable ⟨⟨0, none⟩, 256, 0⟩
      (fun _ a => Orderly (fun _ => "m") (fun _ => 1) a)
      (run ⟨⟨0, none⟩, 256, 0⟩ (new ⟨⟨0, none⟩, 256, 0⟩) compactedThenInserted) :=
    Reachable.run .new (by decide +kernel)
  exact recovery_eq_running reached (by decide +kernel) (by decide +kernel)

end Example

end Ferrocache.Node
