import Ferrocache.Index.Loss
import Ferrocache.Node

/-!
# What a step does to the index, to the log and to the channel

`act_moves` lists what the seventeen actions can lead to.  Only three things
happen to the index (it loses entries, it takes in one line, it is rebuilt by a
startup) and three to the log (a batch is written, a snapshot is taken, it is
reopened): `act_index`, `act_log` and `act_channel` say which action does what,
and the invariants of the later modules are derived from them.
-/

namespace Ferrocache.Node

/-- The UUID is not submitted. -/
def Avoids (uuid : String) : Action → Prop
  | .submit entry => entry.uuid ≠ uuid
  | _ => True

/-- The node crashes. -/
def crashes : Action → Bool
  | .restart _ _ _ => true
  | _ => false

variable [Platform] (cfg : NodeConfig) (n : Node)

/-! ## The actions -/

/-- What an action can lead to: it happens, or it is not its turn. -/
inductive Moves : Action → Node → Prop
  | waits (a : Action)
    (noBatch : ∀ outcome batch compact, a = .write outcome → n.phase ≠ .collected batch compact)
    (noLine : ∀ line lines compact, a = .apply → n.phase ≠ .applying (line :: lines) compact)
    (noStart : ∀ cut expireOrder now, a = .restart cut expireOrder now →
      ∀ started, (n.crashLog cfg cut).restart cfg.hnsw ≠ .ok started) : Moves a n
  | submits (entry : WalEntry) : Moves (.submit entry) { n with queue := n.queue ++ [.insert entry] }
  | asksCompact : Moves .requestCompact { n with queue := n.queue ++ [.compact] }
  | looksUp (uuid : String) {modelId : String} (named : n.index.namespaceFor uuid = some modelId) :
    Moves (.lookupDelete uuid) { n with deleting := n.deleting ++ [(uuid, modelId)] }
  | deletes (i : Nat) {uuid modelId : String} (found : n.deleting[i]? = some (uuid, modelId)) :
    Moves (.removeDelete i)
      { n.removed (n.index.removeByUuid uuid).1 [.tombstoneEntry uuid modelId]
          (if (n.index.removeByUuid uuid).2 then [uuid] else []) with
        deleting := n.deleting.eraseIdx i }
  | invalidates (order : List Nat) (embedding : Embedding) (threshold : F32) (modelId : String)
    (now : Nat) : Moves (.invalidate order embedding threshold modelId now)
      (n.invalidate order embedding threshold modelId now)
  | reaps (expireOrder : PassOrder) (now : Nat) (rebuildOrder : PassOrder)
    (pruneOrder : List String) : Moves (.reap expireOrder now rebuildOrder pruneOrder)
      (n.reap expireOrder now rebuildOrder pruneOrder)
  | accesses (modelId : String) (internalId now : Nat) : Moves (.access modelId internalId now)
      { n with index := n.index.recordAccess modelId internalId now }
  | sends (i : Nat) {entry : WalEntry} (found : n.outbox[i]? = some entry) : Moves (.send i)
      { n with outbox := n.outbox.eraseIdx i, queue := n.queue ++ [.insert entry] }
  | collects (size : Nat) {entry : WalEntry} {batch : List WalEntry} {compact : Bool}
    {queue : List Command} (idle : n.phase = .idle)
    (taken : takeBatch size n.queue = (entry :: batch, compact, queue)) : Moves (.collect size)
      { n with queue := queue, phase := .collected (entry :: batch) compact }
  | collectsCompact (size : Nat) {queue : List Command} (idle : n.phase = .idle)
    (taken : takeBatch size n.queue = ([], true, queue)) : Moves (.collect size)
      { n with queue := queue, phase := .compacting }
  | writes (outcome : WriteOutcome) {batch lines : List WalEntry} {compact : Bool} {log : Log}
    (phase : n.phase = .collected batch compact)
    (flushed : n.log.flush batch outcome = (log, .ok lines)) : Moves (.write outcome)
      { n with
        log := log
        phase := .written lines compact
        answers := answer n.answers lines none }
  | failsWrite (outcome : WriteOutcome) {batch : List WalEntry} {compact : Bool} {log : Log}
    {msg : String} (phase : n.phase = .collected batch compact)
    (flushed : n.log.flush batch outcome = (log, .error msg)) : Moves (.write outcome)
      { n with
        log := log
        phase := .flushed compact
        answers := answer n.answers (n.stampedLines batch) (some .wal) }
  | acquires {lines : List WalEntry} {compact : Bool} (phase : n.phase = .written lines compact) :
    Moves .acquire { n with phase := .applying lines compact }
  | endsLoop {compact : Bool} (phase : n.phase = .applying [] compact) :
    Moves .apply { n with phase := .flushed compact }
  | applies {line : WalEntry} {lines : List WalEntry} {compact : Bool} {index : SemanticIndex}
    (phase : n.phase = .applying (line :: lines) compact)
    (replayed : n.index.replayEntry line = (index, .ok ())) : Moves .apply
      { n with
        index := index
        insertsSinceCompact := saturatingAdd n.insertsSinceCompact 1
        phase := .applying lines compact
        unlogged := if line.tombstone then n.unlogged.erase line.uuid else n.unlogged
        answers := answer n.answers [line] (some .ok) }
  | rejects {line : WalEntry} {lines : List WalEntry} {compact : Bool} {index : SemanticIndex}
    {msg : String} (phase : n.phase = .applying (line :: lines) compact)
    (replayed : n.index.replayEntry line = (index, .error msg)) : Moves .apply
      { n with
        index := index
        phase := .applying lines compact
        answers := answer n.answers [line] (some .index) }
  | keepsAll (order : List String) (rebuildOrder : PassOrder) {compact : Bool}
    (phase : n.phase = .flushed compact) (uncapped : cfg.hnsw.maxEntriesPerNamespace = none) :
    Moves (.evict order rebuildOrder) { n with phase := .settled compact }
  | evicts (order : List String) (rebuildOrder : PassOrder) {compact : Bool} {maxEntries : Nat}
    (phase : n.phase = .flushed compact)
    (capped : cfg.hnsw.maxEntriesPerNamespace = some maxEntries) : Moves (.evict order rebuildOrder)
      { n with
        index := ((n.index.evictToCap order maxEntries).1.rebuildDirtyNamespaces rebuildOrder).1
        phase := .evicted (n.index.evictToCap order maxEntries).2 compact
        unlogged := n.unlogged ∪ ((n.index.evictToCap order maxEntries).2.map (·.uuid)).toFinset }
  | writesNone (outcome : WriteOutcome) {compact : Bool} (phase : n.phase = .evicted [] compact) :
    Moves (.writeTombstones outcome) { n with phase := .settled compact }
  | writesTombstones (outcome : WriteOutcome) {out : List EvictedEntry} {compact : Bool} {log : Log}
    {lines : List WalEntry} (phase : n.phase = .evicted out compact)
    (flushed : n.log.flush (evictedTombstones out) outcome = (log, .ok lines)) :
    Moves (.writeTombstones outcome)
      { n with
        log := log
        phase := .settled compact
        unlogged := n.unlogged \ (out.map (·.uuid)).toFinset }
  | failsTombstones (outcome : WriteOutcome) {out : List EvictedEntry} {compact : Bool} {log : Log}
    {msg : String} (phase : n.phase = .evicted out compact)
    (flushed : n.log.flush (evictedTombstones out) outcome = (log, .error msg)) :
    Moves (.writeTombstones outcome) { n with log := log, phase := .settled compact }
  | settles (order : PassOrder) (outcome : Log.CompactOutcome) {compact : Bool}
    (phase : n.phase = .settled compact) (notDue : n.autoCompacts cfg = false) :
    Moves (.settle order outcome) { n with phase := if compact then .compacting else .idle }
  | settlesCompact (order : PassOrder) (outcome : Log.CompactOutcome) {compact : Bool}
    (phase : n.phase = .settled compact) (due : n.autoCompacts cfg = true) :
    Moves (.settle order outcome)
      { n.snapshotCompact order outcome with phase := if compact then .compacting else .idle }
  | compacts (order : PassOrder) (outcome : Log.CompactOutcome) (phase : n.phase = .compacting) :
    Moves (.compact order outcome) { n.snapshotCompact order outcome with phase := .idle }
  | boots (cut : Cut) (expireOrder : PassOrder) (now : Nat) {r : Recovery} {log : Log}
    (started : (n.crashLog cfg cut).restart cfg.hnsw = .ok (r, log)) :
    Moves (.restart cut expireOrder now)
      ⟨(r.index.collectExpired expireOrder now).1, log, 0, [], .idle, [],
        tombstones (r.index.collectExpired expireOrder now).2,
        ((r.index.collectExpired expireOrder now).2.map Prod.fst).toFinset,
        answer n.answers (n.stampedLines n.phase.batch) none⟩

section Moves

variable {cfg n}

theorem Moves.blocked {a : Action} (noWrite : ∀ outcome, a ≠ .write outcome)
    (noApply : a ≠ .apply) (alive : crashes a = false) : Moves cfg n a n := by
  refine .waits a (fun outcome _ _ same => absurd same (noWrite outcome))
    (fun _ _ _ same => absurd same noApply) fun cut expireOrder now same => ?_
  subst same
  cases alive

theorem act_moves (a : Action) : Moves cfg n a (n.act cfg a) := by
  cases a with
  | submit entry => exact .submits entry
  | requestCompact => exact .asksCompact
  | lookupDelete uuid =>
      simp only [act, Node.lookupDelete]
      split
      · exact .blocked (by simp) (by simp) rfl
      · next named => exact .looksUp uuid named
  | removeDelete i =>
      simp only [act, Node.removeDelete]
      split
      · exact .blocked (by simp) (by simp) rfl
      · next found => exact .deletes i found
  | invalidate order embedding threshold modelId now =>
      exact .invalidates order embedding threshold modelId now
  | reap expireOrder now rebuildOrder pruneOrder =>
      exact .reaps expireOrder now rebuildOrder pruneOrder
  | access modelId internalId now => exact .accesses modelId internalId now
  | send i =>
      simp only [act, Node.send]
      split
      · exact .blocked (by simp) (by simp) rfl
      · next found => exact .sends i found
  | collect size =>
      simp only [act, Node.collect]
      split
      · next idle taken => exact .collectsCompact size idle taken
      · next idle taken => exact .collects size idle taken
      · exact .blocked (by simp) (by simp) rfl
  | write outcome =>
      simp only [act, Node.write]
      split
      · next phase =>
          split
          · next flushed => exact .failsWrite outcome phase flushed
          · next flushed => exact .writes outcome phase flushed
      · next other =>
          exact .waits _ (fun _ batch compact _ => other batch compact)
            (fun _ _ _ same => by cases same) fun _ _ _ same => by cases same
  | acquire =>
      simp only [act, Node.acquire]
      split
      · next phase => exact .acquires phase
      · exact .blocked (by simp) (by simp) rfl
  | apply =>
      simp only [act, Node.apply]
      split
      · next phase => exact .endsLoop phase
      · next phase =>
          split
          · next replayed => exact .applies phase replayed
          · next replayed => exact .rejects phase replayed
      · next more =>
          exact .waits _ (fun _ _ _ same => by cases same)
            (fun line lines compact _ => more line lines compact) fun _ _ _ same => by cases same
  | evict order rebuildOrder =>
      simp only [act, Node.evict]
      split
      · next phase =>
          split
          · next uncapped => exact .keepsAll order rebuildOrder phase uncapped
          · next capped => exact .evicts order rebuildOrder phase capped
      · exact .blocked (by simp) (by simp) rfl
  | writeTombstones outcome =>
      simp only [act, Node.writeTombstones]
      split
      · next phase => exact .writesNone outcome phase
      · next phase =>
          split
          · next flushed => exact .failsTombstones outcome phase flushed
          · next flushed => exact .writesTombstones outcome phase flushed
      · exact .blocked (by simp) (by simp) rfl
  | settle order outcome =>
      simp only [act, Node.settle]
      split
      · next phase =>
          split
          · next due => exact .settlesCompact order outcome phase due
          · next notDue => exact .settles order outcome phase (Bool.eq_false_of_not_eq_true notDue)
      · exact .blocked (by simp) (by simp) rfl
  | compact order outcome =>
      simp only [act, Node.runCompact]
      split
      · next phase => exact .compacts order outcome phase
      · exact .blocked (by simp) (by simp) rfl
  | restart cut expireOrder now =>
      simp only [act, Node.restart, Node.boot]
      cases started : (n.crashLog cfg cut).restart cfg.hnsw with
      | error msg =>
          refine .waits _ (fun _ _ _ same => by cases same) (fun _ _ _ same => by cases same)
            fun _ _ _ same result ok => ?_
          cases same
          cases started.symm.trans ok
      | ok result => exact .boots cut expireOrder now started

end Moves

/-! ## The index -/

/-- The action removes the UUID from the index: it is deleted, invalidated,
expired or evicted, its tombstone is applied, or the node crashes. -/
def removes (uuid : String) : Action → Bool
  | .removeDelete i => (n.deleting[i]?).any fun pair => pair.1 = uuid
  | .invalidate order embedding threshold modelId now =>
      decide (uuid ∈ (n.index.invalidateSimilar order embedding threshold modelId now).2)
  | .reap expireOrder now _ _ =>
      decide (uuid ∈ (n.index.collectExpired expireOrder now).2.map Prod.fst)
  | .apply => match n.phase with
      | .applying (line :: _) _ => line.tombstone && decide (line.uuid = uuid)
      | _ => false
  | .evict order _ => match n.phase, cfg.hnsw.maxEntriesPerNamespace with
      | .flushed _, some maxEntries =>
          decide (uuid ∈ (n.index.evictToCap order maxEntries).2.map (·.uuid))
      | _, _ => false
  | .restart _ _ _ => true
  | _ => false

/-- What an action can do to the index. -/
inductive IndexEffect (a : Action) : SemanticIndex → Prop
  | loses {index : SemanticIndex} {gone : List (String × String)}
    (lost : SemanticIndex.Loses n.index index gone)
    (named : ∀ pair ∈ gone, n.removes cfg pair.1 a = true) : IndexEffect a index
  | takes (line : WalEntry) (lines : List WalEntry) (compact : Bool) (runs : a = .apply)
    (phase : n.phase = .applying (line :: lines) compact) :
    IndexEffect a (n.index.replayEntry line).1
  | boots (cut : Cut) (expireOrder : PassOrder) (now : Nat) (runs : a = .restart cut expireOrder now)
    (r : Recovery) (read : recover cfg.hnsw (n.crashLog cfg cut).disk = .ok r)
    (visits : SemanticIndex.Visits expireOrder r.index) :
    IndexEffect a (r.index.collectExpired expireOrder now).1

variable {cfg n}

theorem IndexEffect.same {a : Action} {index : SemanticIndex} (wf : n.index.WellFormed)
    (same : index = n.index) : IndexEffect cfg n a index := by
  subst same
  exact .loses (.refl wf) fun _ mem => absurd mem List.not_mem_nil

/-- The action may change the index. -/
def changesIndex : Action → Bool
  | .removeDelete _ => true
  | .invalidate _ _ _ _ _ => true
  | .reap _ _ _ _ => true
  | .access _ _ _ => true
  | .apply => true
  | .evict _ _ => true
  | .restart _ _ _ => true
  | _ => false

theorem act_index_eq {a : Action} (quiet : changesIndex a = false) :
    (n.act cfg a).index = n.index := by
  have moves : Moves cfg n a (n.act cfg a) := act_moves a
  generalize n.act cfg a = m at moves ⊢
  cases moves with
  | deletes => cases quiet
  | invalidates => cases quiet
  | reaps => cases quiet
  | accesses => cases quiet
  | applies => cases quiet
  | rejects => cases quiet
  | evicts => cases quiet
  | boots => cases quiet
  | _ => rfl

variable (cfg n) in
/-- What a handler, the reaper or an eviction takes out of the index, as pairs of
UUID and namespace. -/
def drops : Action → List (String × String)
  | .removeDelete i => match n.deleting[i]? with
      | none => []
      | some pair => (n.index.uuidToNamespace.lookup pair.1).toList.map fun m => (pair.1, m)
  | .invalidate order embedding threshold modelId now =>
      (n.index.invalidateSimilar order embedding threshold modelId now).2.map fun u => (u, modelId)
  | .reap expireOrder now _ _ => (n.index.collectExpired expireOrder now).2
  | .evict order _ => match n.phase, cfg.hnsw.maxEntriesPerNamespace with
      | .flushed _, some maxEntries =>
          (n.index.evictToCap order maxEntries).2.map fun e => (e.uuid, e.modelId)
      | _, _ => []
  | _ => []

theorem removes_of_mem_drops {a : Action} {pair : String × String} (mem : pair ∈ n.drops cfg a) :
    n.removes cfg pair.1 a = true := by
  cases a with
  | removeDelete i =>
      unfold drops at mem
      dsimp only at mem
      cases found : n.deleting[i]? with
      | none =>
          rw [found] at mem
          cases mem
      | some deleted =>
          rw [found] at mem
          obtain ⟨m, -, same⟩ := List.mem_map.mp mem
          simp [removes, found, ← same]
  | invalidate order embedding threshold modelId now =>
      obtain ⟨u, gone, same⟩ := List.mem_map.mp mem
      rw [← same]
      exact decide_eq_true gone
  | reap expireOrder now rebuildOrder pruneOrder => exact decide_eq_true (List.mem_map_of_mem mem)
  | evict order rebuildOrder =>
      unfold drops at mem
      dsimp only at mem
      unfold removes
      dsimp only
      split at mem
      · obtain ⟨e, out, same⟩ := List.mem_map.mp mem
        rw [← same]
        exact decide_eq_true (List.mem_map_of_mem out)
      · cases mem
  | _ => cases mem

/-- An action that neither applies a line nor restarts the node loses what it
drops. -/
theorem act_loses (wf : n.index.WellFormed) {a : Action} (admissible : n.Admissible cfg a)
    (other : a ≠ .apply) (alive : crashes a = false) :
    SemanticIndex.Loses n.index (n.act cfg a).index (n.drops cfg a) := by
  have quiet : ∀ {a : Action}, changesIndex a = false → n.drops cfg a = [] →
      SemanticIndex.Loses n.index (n.act cfg a).index (n.drops cfg a) := by
    intro a untouched none
    rw [act_index_eq untouched, none]
    exact .refl wf
  cases a with
  | submit entry => exact quiet rfl rfl
  | requestCompact => exact quiet rfl rfl
  | lookupDelete uuid => exact quiet rfl rfl
  | removeDelete i =>
      change SemanticIndex.Loses n.index (n.removeDelete i).index _
      unfold Node.removeDelete drops
      dsimp only
      cases n.deleting[i]? with
      | none => exact .refl wf
      | some pair => exact .removeByUuid_home wf pair.1
  | invalidate order embedding threshold modelId now =>
      exact .of_removed (SemanticIndex.Removed.invalidateSimilar wf order embedding threshold
        modelId now)
  | reap expireOrder now rebuildOrder pruneOrder =>
      obtain ⟨-, expires, rebuilds, -⟩ := admissible
      have expired := SemanticIndex.Loses.of_removed
        (SemanticIndex.Removed.collectExpired wf expires.1 now)
      have rebuilt := SemanticIndex.Loses.rebuildDirtyNamespaces expired.wellFormed rebuilds
      have pruned := SemanticIndex.Loses.pruneEmptyNamespaces rebuilt.wellFormed pruneOrder
      exact (expired.trans rebuilt).trans pruned
  | access modelId internalId now => exact .recordAccess wf modelId internalId now
  | send i => exact quiet rfl rfl
  | collect size => exact quiet rfl rfl
  | write outcome => exact quiet rfl rfl
  | acquire => exact quiet rfl rfl
  | apply => exact absurd rfl other
  | evict order rebuildOrder =>
      change SemanticIndex.Loses n.index (n.evict cfg order rebuildOrder).index _
      unfold Node.evict drops
      dsimp only
      cases phase : n.phase with
      | flushed compact =>
          cases capped : cfg.hnsw.maxEntriesPerNamespace with
          | none => exact .refl wf
          | some maxEntries =>
              obtain ⟨iter, visits⟩ := admissible maxEntries capped
              have evicted := SemanticIndex.Loses.of_removed
                (SemanticIndex.Removed.evictToCap wf iter maxEntries)
              exact evicted.trans (.rebuildDirtyNamespaces evicted.wellFormed visits)
      | _ => exact .refl wf
  | writeTombstones outcome => exact quiet rfl rfl
  | settle order outcome => exact quiet rfl rfl
  | compact order outcome => exact quiet rfl rfl
  | restart cut expireOrder now => cases alive

theorem apply_index {line : WalEntry} {lines : List WalEntry} {compact : Bool}
    (phase : n.phase = .applying (line :: lines) compact) :
    n.apply.index = (n.index.replayEntry line).1 := by
  unfold Node.apply
  rw [phase]
  dsimp only
  rcases n.index.replayEntry line with ⟨index, _ | _⟩
  · rfl
  · rfl

/-- Applying takes in the next line, or ends the loop. -/
theorem apply_index_cases (n : Node) :
    n.apply.index = n.index ∨ ∃ line lines compact,
      n.phase = .applying (line :: lines) compact ∧
        n.apply.index = (n.index.replayEntry line).1 := by
  by_cases more : ∃ line lines compact, n.phase = .applying (line :: lines) compact
  · obtain ⟨line, lines, compact, phase⟩ := more
    exact .inr ⟨line, lines, compact, phase, apply_index phase⟩
  · refine .inl ?_
    unfold Node.apply
    split
    · rfl
    · next line lines compact phase => exact absurd ⟨line, lines, compact, phase⟩ more
    · rfl

theorem act_index (wf : n.index.WellFormed) {a : Action} (admissible : n.Admissible cfg a) :
    IndexEffect cfg n a (n.act cfg a).index := by
  by_cases applies : a = .apply
  · subst applies
    change IndexEffect cfg n .apply n.apply.index
    rcases apply_index_cases n with same | ⟨line, lines, compact, phase, taken⟩
    · exact .same wf same
    · rw [taken]
      exact .takes line lines compact rfl phase
  cases alive : crashes a with
  | false =>
      exact .loses (act_loses wf admissible applies alive) fun _ mem => removes_of_mem_drops mem
  | true =>
      cases a with
      | restart cut expireOrder now =>
          obtain ⟨-, r, log, started, visits⟩ := admissible
          have read := (Log.restart_recover started).1
          have after : (n.act cfg (.restart cut expireOrder now)).index =
              (r.index.collectExpired expireOrder now).1 := by
            change ((n.restart cfg cut expireOrder now).getD n).index = _
            unfold Node.restart
            rw [boot_of_restart started]
            rfl
          rw [after]
          exact .boots cut expireOrder now rfl r read visits
      | _ => cases alive

theorem IndexEffect.wellFormed {a : Action} {index : SemanticIndex} (wf : n.index.WellFormed)
    (effect : IndexEffect cfg n a index) : index.WellFormed := by
  cases effect with
  | loses lost named => exact lost.wellFormed
  | takes line lines compact runs phase => exact wf.replayEntry line
  | boots cut expireOrder now runs r read visits =>
      exact (SemanticIndex.Removed.collectExpired (wellFormed_of_recover read) visits.1
        now).wellFormed

/-- An entry that an action does not remove stays. -/
theorem act_entryAt_ne_none (wf : n.index.WellFormed) {a : Action}
    (admissible : n.Admissible cfg a) {m u : String} (kept : n.removes cfg u a = false)
    (live : n.index.entryAt m u ≠ none) : (n.act cfg a).index.entryAt m u ≠ none := by
  have effect := act_index wf admissible
  generalize (n.act cfg a).index = index at effect ⊢
  cases effect with
  | loses lost named =>
      have same := lost.live m u
      rw [if_neg fun gone => by rw [named _ gone] at kept; cases kept] at same
      rw [ne_eq, ← Option.map_eq_none_iff, same, Option.map_eq_none_iff]
      exact live
  | takes line lines compact runs phase =>
      subst runs
      cases kind : line.tombstone with
      | true =>
          have other : u ≠ line.uuid := fun same => by
            simp [removes, phase, kind, same] at kept
          rw [SemanticIndex.replayEntry_of_tombstone kind,
            (SemanticIndex.removeByUuid_spec wf line.uuid).live, if_neg fun hit => other hit.1]
          exact live
      | false =>
          rw [SemanticIndex.replayEntry_of_insert kind]
          by_cases accepted : NamespacedIndex.Accepts (n.index.dimensionOf line.modelId)
              line.cacheEntry.embedding.length
          · rw [(SemanticIndex.insertInto_of_accepts wf accepted).1.live]
            split
            · exact Option.some_ne_none _
            · exact live
          · obtain ⟨msg, rejected⟩ := SemanticIndex.insertInto_of_not_accepts accepted
            rw [rejected]
            exact live
  | boots cut expireOrder now runs r read visits =>
      subst runs
      cases kept

theorem Reachable.wellFormed {guard : Node → Action → Prop} (reached : Reachable cfg guard n) :
    n.index.WellFormed := by
  induction reached with
  | new => exact SemanticIndex.wellFormed_new _
  | act a _ admissible _ ih => exact (act_index ih admissible).wellFormed ih

/-! ## The log -/

omit [Platform] in
/-- No write is cut inside a line. -/
def WholeLines : Action → Prop
  | .write outcome => outcome.Whole
  | .writeTombstones outcome => outcome.Whole
  | .restart (.write _ fragment) _ _ => fragment = .none
  | _ => True

/-- What the flush task writes: its batch, or eviction tombstones. -/
def Due (n : Node) (batch : List WalEntry) : Prop :=
  ∀ entry ∈ batch, entry ∈ n.phase.batch ∨ entry.IsTombstone

/-- What an action can write to the files: a batch or a snapshot. -/
inductive LogChange (n : Node) (whole : Prop) : Log → Prop
  | stays : LogChange n whole n.log
  | flushes (batch : List WalEntry) (outcome : WriteOutcome) (due : n.Due batch)
    (uncut : whole → outcome.Whole) : LogChange n whole (n.log.flush batch outcome).1
  | snapshots (order : PassOrder) (visits : SemanticIndex.Visits order n.index)
    (outcome : Log.CompactOutcome) :
    LogChange n whole (n.log.compact (n.index.snapshotEntries order) outcome)

/-- The lines that wait to be applied after an action: those that waited before,
none, or those it wrote. -/
def Leaves (n : Node) (log : Log) (pending : List WalEntry) : Prop :=
  (log = n.log ∧ pending <:+ n.phase.pending) ∨ pending = [] ∨
    ∃ batch outcome, n.Due batch ∧ n.log.flush batch outcome = (log, .ok pending)

omit [Platform] in
/-- What a crash leaves in the files. -/
theorem crashLog_change {cut : Cut} {expireOrder : PassOrder} {now : Nat}
    (visits : ∀ order, cut = .rename order → SemanticIndex.Visits order n.index) :
    LogChange n (WholeLines (.restart cut expireOrder now)) (n.crashLog cfg cut) := by
  unfold Node.crashLog
  split
  · next kept fragment batch compact phase =>
      refine .flushes batch _ (fun entry mem => .inl ?_) id
      rw [phase]
      exact mem
  · next kept fragment out compact phase =>
      exact .flushes _ _ (fun entry mem => .inr (isTombstone_of_mem_tombstones mem)) id
  · next order phase => exact .snapshots order (visits order rfl) _
  · next order compact phase =>
      split
      · exact .snapshots order (visits order rfl) _
      · exact .stays
  · exact .stays

/-- What an action does to the files and leaves to be applied.  A startup first
reads what the crash left. -/
theorem act_log {a : Action} (admissible : n.Admissible cfg a) :
    (LogChange n (WholeLines a) (n.act cfg a).log ∧
      Leaves n (n.act cfg a).log (n.act cfg a).phase.pending) ∨
    ∃ crashed r, LogChange n (WholeLines a) crashed ∧
      crashed.restart cfg.hnsw = .ok (r, (n.act cfg a).log) ∧ (n.act cfg a).phase.pending = [] := by
  have keeps : ∀ m : Node, m.log = n.log → m.phase.pending <:+ n.phase.pending →
      LogChange n (WholeLines a) m.log ∧ Leaves n m.log m.phase.pending := by
    intro m same fewer
    rw [same]
    exact ⟨.stays, .inl ⟨rfl, fewer⟩⟩
  have flushes : ∀ {batch : List WalEntry} {outcome : WriteOutcome} {log : Log}
      {result : Except String (List WalEntry)}, n.Due batch →
      (WholeLines a → outcome.Whole) → n.log.flush batch outcome = (log, result) →
      LogChange n (WholeLines a) log := by
    intro batch outcome log result due uncut flushed
    have change : LogChange n (WholeLines a) (n.log.flush batch outcome).1 :=
      .flushes batch outcome due uncut
    rw [flushed] at change
    exact change
  have moves : Moves cfg n a (n.act cfg a) := act_moves a
  generalize n.act cfg a = m at moves ⊢
  cases moves with
  | collects => exact .inl (keeps _ rfl List.nil_suffix)
  | collectsCompact => exact .inl (keeps _ rfl List.nil_suffix)
  | @writes outcome batch lines compact log phase flushed =>
      have due : n.Due batch := fun entry mem => .inl (by rw [phase]; exact mem)
      exact .inl ⟨flushes due id flushed, .inr (.inr ⟨batch, outcome, due, flushed⟩)⟩
  | @failsWrite outcome batch compact log msg phase flushed =>
      have due : n.Due batch := fun entry mem => .inl (by rw [phase]; exact mem)
      exact .inl ⟨flushes due id flushed, .inr (.inl rfl)⟩
  | acquires phase =>
      refine .inl (keeps _ rfl ?_)
      rw [phase]
      exact List.suffix_rfl
  | endsLoop => exact .inl (keeps _ rfl List.nil_suffix)
  | applies phase replayed =>
      refine .inl (keeps _ rfl ?_)
      rw [phase]
      exact List.suffix_cons _ _
  | rejects phase replayed =>
      refine .inl (keeps _ rfl ?_)
      rw [phase]
      exact List.suffix_cons _ _
  | keepsAll => exact .inl (keeps _ rfl List.nil_suffix)
  | evicts => exact .inl (keeps _ rfl List.nil_suffix)
  | writesNone => exact .inl (keeps _ rfl List.nil_suffix)
  | @writesTombstones outcome out compact log lines phase flushed =>
      have due : n.Due (evictedTombstones out) := fun entry mem =>
        .inr (isTombstone_of_mem_tombstones mem)
      exact .inl ⟨flushes due id flushed, .inr (.inl rfl)⟩
  | @failsTombstones outcome out compact log msg phase flushed =>
      have due : n.Due (evictedTombstones out) := fun entry mem =>
        .inr (isTombstone_of_mem_tombstones mem)
      exact .inl ⟨flushes due id flushed, .inr (.inl rfl)⟩
  | @settles order outcome compact phase notDue =>
      cases compact with
      | true => exact .inl ⟨.stays, .inr (.inl rfl)⟩
      | false => exact .inl ⟨.stays, .inr (.inl rfl)⟩
  | @settlesCompact order outcome compact phase due =>
      cases compact with
      | true => exact .inl ⟨.snapshots order admissible outcome, .inr (.inl rfl)⟩
      | false => exact .inl ⟨.snapshots order admissible outcome, .inr (.inl rfl)⟩
  | compacts order outcome phase =>
      exact .inl ⟨.snapshots order admissible outcome, .inr (.inl rfl)⟩
  | boots cut expireOrder now started =>
      exact .inr ⟨n.crashLog cfg cut, _, crashLog_change admissible.1, started, rfl⟩
  | _ => exact .inl (keeps _ rfl List.suffix_rfl)

/-! ## The channel -/

omit [Platform] in
theorem mem_takeBatch (size : Nat) (queue : List Command) :
    (∀ entry ∈ (takeBatch size queue).1, .insert entry ∈ queue) ∧
      ∀ command ∈ (takeBatch size queue).2.2, command ∈ queue := by
  induction size generalizing queue with
  | zero => exact ⟨by simp [takeBatch], fun _ mem => mem⟩
  | succ size ih =>
      cases queue with
      | nil => simp [takeBatch]
      | cons command queue =>
          cases command with
          | compact =>
              exact ⟨by simp [takeBatch], fun _ mem => List.mem_cons_of_mem _ mem⟩
          | insert entry =>
              obtain ⟨taken, left⟩ := ih queue
              refine ⟨fun e mem => ?_, fun c mem => List.mem_cons_of_mem _ (left c mem)⟩
              rcases List.mem_cons.mp mem with rfl | later
              · exact List.mem_cons_self
              · exact List.mem_cons_of_mem _ (taken e later)

omit [Platform] in
/-- A batch is what stands first in the channel, with the compaction that ended
it. -/
theorem takeBatch_append (size : Nat) (queue : List Command) :
    queue = (takeBatch size queue).1.map .insert ++
      ((if (takeBatch size queue).2.1 then [.compact] else []) ++ (takeBatch size queue).2.2) := by
  induction size generalizing queue with
  | zero => rfl
  | succ size ih =>
      cases queue with
      | nil => rfl
      | cons command queue =>
          cases command with
          | compact => rfl
          | insert entry => exact congrArg (.insert entry :: ·) (ih queue)

/-- What waits in the channel, in the batch and in the outbox after an action was
waiting before, is a tombstone, or is submitted now. -/
structure ChannelEffect (n : Node) (a : Action) (m : Node) : Prop where
  queue : ∀ entry, .insert entry ∈ m.queue →
    .insert entry ∈ n.queue ∨ entry ∈ n.outbox ∨ a = .submit entry
  outbox : ∀ entry ∈ m.outbox, entry ∈ n.outbox ∨ entry.IsTombstone
  batch : ∀ entry ∈ m.phase.batch, entry ∈ n.phase.batch ∨ .insert entry ∈ n.queue

theorem act_channel (a : Action) : ChannelEffect n a (n.act cfg a) := by
  -- an action that at most puts tombstones into the outbox and drops the batch
  have keeps : ∀ (m : Node) (due : List WalEntry), (∀ entry ∈ due, entry.IsTombstone) →
      m.queue = n.queue → m.outbox = n.outbox ++ due →
      (m.phase.batch = [] ∨ m.phase = n.phase) → ChannelEffect n a m := by
    intro m due tombs queue outbox batch
    refine ⟨fun entry mem => .inl (queue ▸ mem), fun entry mem => ?_, fun entry mem => ?_⟩
    · rw [outbox] at mem
      exact (List.mem_append.mp mem).imp_right (tombs entry)
    · rcases batch with none | same
      · rw [none] at mem
        cases mem
      · exact .inl (same ▸ mem)
  have frame : ∀ m : Node, m.queue = n.queue → m.outbox = n.outbox →
      (m.phase.batch = [] ∨ m.phase = n.phase) → ChannelEffect n a m := fun m queue outbox =>
    keeps m [] (fun _ mem => absurd mem List.not_mem_nil) queue
      (outbox.trans (List.append_nil _).symm)
  have moves : Moves cfg n a (n.act cfg a) := act_moves a
  generalize n.act cfg a = m at moves ⊢
  cases moves with
  | submits entry =>
      refine ⟨fun e mem => ?_, fun e mem => .inl mem, fun e mem => .inl mem⟩
      rcases List.mem_append.mp mem with old | new
      · exact .inl old
      · cases List.mem_singleton.mp new
        exact .inr (.inr rfl)
  | asksCompact =>
      refine ⟨fun e mem => ?_, fun e mem => .inl mem, fun e mem => .inl mem⟩
      rcases List.mem_append.mp mem with old | new
      · exact .inl old
      · cases List.mem_singleton.mp new
  | deletes i found =>
      refine keeps _ _ (fun entry mem => ?_) rfl rfl (.inr rfl)
      rw [List.mem_singleton.mp mem]
      exact ⟨_, _, rfl⟩
  | invalidates =>
      exact keeps _ _ (fun _ mem => isTombstone_of_mem_tombstones mem) rfl rfl (.inr rfl)
  | reaps => exact keeps _ _ (fun _ mem => isTombstone_of_mem_tombstones mem) rfl rfl (.inr rfl)
  | sends i found =>
      refine ⟨fun e mem => ?_, fun e mem => .inl (List.mem_of_mem_eraseIdx mem), fun e mem => .inl mem⟩
      rcases List.mem_append.mp mem with old | new
      · exact .inl old
      · cases List.mem_singleton.mp new
        exact .inr (.inl (List.mem_of_getElem? found))
  | collects size idle taken =>
      have origin := mem_takeBatch size n.queue
      rw [taken] at origin
      exact ⟨fun e mem => .inl (origin.2 _ mem), fun e mem => .inl mem, fun e mem =>
        .inr (origin.1 e mem)⟩
  | collectsCompact size idle taken =>
      have origin := mem_takeBatch size n.queue
      rw [taken] at origin
      exact ⟨fun e mem => .inl (origin.2 _ mem), fun e mem => .inl mem, fun e mem =>
        absurd mem List.not_mem_nil⟩
  | waits => exact frame _ rfl rfl (.inr rfl)
  | looksUp => exact frame _ rfl rfl (.inr rfl)
  | accesses => exact frame _ rfl rfl (.inr rfl)
  | @settles order outcome compact phase notDue =>
      cases compact with
      | true => exact frame _ rfl rfl (.inl rfl)
      | false => exact frame _ rfl rfl (.inl rfl)
  | @settlesCompact order outcome compact phase due =>
      cases compact with
      | true => exact frame _ rfl rfl (.inl rfl)
      | false => exact frame _ rfl rfl (.inl rfl)
  | boots =>
      exact ⟨fun e mem => absurd mem List.not_mem_nil,
        fun e mem => .inr (isTombstone_of_mem_tombstones mem),
        fun e mem => absurd mem List.not_mem_nil⟩
  | _ => exact frame _ rfl rfl (.inl rfl)

/-- Only tombstones wait for their sender. -/
def SendsTombstones (n : Node) : Prop := ∀ entry ∈ n.outbox, entry.tombstone = true

theorem SendsTombstones.act (outbox : n.SendsTombstones) (a : Action) :
    (n.act cfg a).SendsTombstones := fun entry mem =>
  ((act_channel a).outbox entry mem).elim (outbox entry) (·.tombstone)

theorem Reachable.outbox {guard : Node → Action → Prop} (reached : Reachable cfg guard n) :
    n.SendsTombstones := by
  induction reached with
  | new => exact fun _ mem => absurd mem List.not_mem_nil
  | act a _ _ _ ih => exact ih.act a

end Ferrocache.Node
