import Ferrocache.Node.Dimension
import Ferrocache.Node.Legible

/-!
# What recovery makes of the answers

The run-level account of the two decisions about a line: what its caller was
told when it was flushed, and what a startup does with it.
`rejected_iff_answered_index` says on which runs the two agree in every state;
`pruned_dimension_drops_acknowledged` is a run that leaves that condition, an
acknowledged insertion that the next startup drops.  A line with a float that is
not finite claims a length in the index but is skipped by the startup, so the runs
are those that submit finite floats.
-/

namespace Ferrocache

/-- The line that the loop under the index lock takes next. -/
def Phase.next : Phase → Option WalEntry
  | .applying (line :: _) _ => some line
  | _ => none

theorem Phase.next_eq_some {phase : Phase} {line : WalEntry} :
    phase.next = some line ↔ ∃ lines compact, phase = .applying (line :: lines) compact := by
  cases phase with
  | applying lines compact => cases lines <;> simp [next]
  | _ => simp [next]

namespace Node

open NamespacedIndex (Accepts)

section Answers

/-! ## Two memories of a dimension -/

/-- The files and the running index do not remember different dimensions. -/
def Compatible (filed running : Option Nat) : Prop :=
  filed = none ∨ running = none ∨ filed = running

/-- When one side has forgotten the dimension, the length is the one that the
other side remembers. -/
def Remembered (filed running : Option Nat) (length : Nat) : Prop :=
  (running = none → ∀ d, filed = some d → length = d) ∧
    (filed = none → ∀ d, running = some d → length = d)

instance (filed running : Option Nat) (length : Nat) :
    Decidable (Remembered filed running length) :=
  inferInstanceAs (Decidable ((running = none → ∀ d ∈ filed, length = d) ∧
    (filed = none → ∀ d ∈ running, length = d)))

theorem Compatible.accepts_iff {filed running : Option Nat} (compatible : Compatible filed running)
    (length : Nat) :
    (Accepts filed length ↔ Accepts running length) ↔ Remembered filed running length := by
  cases filed with
  | none =>
      cases running with
      | none => simp [Accepts, Remembered]
      | some d => simp [Accepts, Remembered, eq_comm]
  | some d =>
      cases running with
      | none => simp [Accepts, Remembered, eq_comm]
      | some d' =>
          have same : some d = some d' := by simpa [Compatible] using compatible
          simp [same, Remembered]

/-- After the length was claimed on both sides they remember the same. -/
theorem Compatible.getD_eq {filed running : Option Nat} (compatible : Compatible filed running)
    {length : Nat} (remembered : Remembered filed running length) :
    filed.getD length = running.getD length := by
  cases filed with
  | none =>
      cases running with
      | none => rfl
      | some d => exact remembered.2 rfl d rfl
  | some d =>
      cases running with
      | none => exact (remembered.1 rfl d rfl).symm
      | some d' =>
          have same : some d = some d' := by simpa [Compatible] using compatible
          cases same
          rfl

/-! ## Answers -/

/-- Every answer about one of the lines is what the lengths before it decide. -/
def Decided (snapshot : Option Snapshot) (answers : Nat → Option Answer)
    (lines : List WalEntry) : Prop :=
  ∀ pre line post, lines = pre ++ line :: post → line.tombstone = false →
    ∀ a, answers line.sequence = some a →
      a = if Accepts (filedDimension snapshot pre line.modelId) line.embedding.length then .ok
        else .index

namespace Decided

variable {snapshot : Option Snapshot} {answers answers' : Nat → Option Answer}
  {lines : List WalEntry}

theorem congr (decided : Decided snapshot answers lines)
    (same : ∀ line ∈ lines, answers' line.sequence = answers line.sequence) :
    Decided snapshot answers' lines := by
  intro pre line post split insert a told
  have mem : line ∈ lines := by
    rw [split]
    exact List.mem_append_right _ List.mem_cons_self
  rw [same line mem] at told
  exact decided pre line post split insert a told

theorem concat (decided : Decided snapshot answers lines) {last : WalEntry}
    (here : last.tombstone = false → ∀ a, answers last.sequence = some a →
      a = if Accepts (filedDimension snapshot lines last.modelId) last.embedding.length then .ok
        else .index) :
    Decided snapshot answers (lines ++ [last]) := by
  intro pre line post split insert a told
  rcases List.eq_nil_or_concat post with rfl | ⟨front, end_, rfl⟩
  · obtain ⟨rfl, same⟩ := List.append_inj' split rfl
    cases same
    exact here insert a told
  · have shorter : lines = pre ++ line :: front := by
      have inits : lines ++ [last] = (pre ++ line :: front) ++ [end_] := by
        rw [split]
        simp
      exact (List.append_inj' inits rfl).1
    exact decided pre line front shorter insert a told

/-- Lines that are tombstones or were never answered may follow. -/
theorem append (decided : Decided snapshot answers lines) {more : List WalEntry}
    (silent : ∀ line ∈ more, line.tombstone = true ∨ answers line.sequence = none) :
    Decided snapshot answers (lines ++ more) := by
  induction more generalizing lines with
  | nil => rwa [List.append_nil]
  | cons line more ih =>
      have one : Decided snapshot answers (lines ++ [line]) := by
        refine decided.concat fun insert a told => ?_
        rcases silent line List.mem_cons_self with tomb | unanswered
        · rw [tomb] at insert
          cases insert
        · rw [unanswered] at told
          cases told
      have all := ih one fun l mem => silent l (List.mem_cons_of_mem _ mem)
      rwa [List.append_assoc] at all

end Decided

theorem answer_of_notMem {answers : Nat → Option Answer} {lines : List WalEntry}
    {value : Option Answer} {sequence : Nat} (away : sequence ∉ lines.map (·.sequence)) :
    answer answers lines value sequence = answers sequence := if_neg away

theorem answer_of_mem {answers : Nat → Option Answer} {lines : List WalEntry}
    {value : Option Answer} {line : WalEntry} (mem : line ∈ lines) :
    answer answers lines value line.sequence = value :=
  if_pos (List.mem_map.mpr ⟨line, mem, rfl⟩)

/-- Lines of a new batch leave the answers of older lines alone. -/
theorem answer_of_le {answers : Nat → Option Answer} {lines : List WalEntry}
    {value : Option Answer} {bound sequence : Nat} (above : ∀ line ∈ lines, bound < line.sequence)
    (old : sequence ≤ bound) : answer answers lines value sequence = answers sequence := by
  refine answer_of_notMem fun mem => ?_
  obtain ⟨line, inLines, same⟩ := List.mem_map.mp mem
  have := above line inLines
  omega

theorem stampedLines_above (n : Node) (batch : List WalEntry) :
    ∀ line ∈ n.stampedLines batch, n.log.sequence < line.sequence := by
  intro line mem
  unfold stampedLines at mem
  split at mem
  · next lines ok => exact ((stampBatch_spec n.log.sequence batch).2 lines ok).above line mem
  · cases mem

/-! ## The invariant -/

variable [Platform] (cfg : NodeConfig)

/-- Memory, files and answers of a node in step, with the lines applied since
the snapshot. -/
structure Consistent (n : Node) (applied : List WalEntry) : Prop where
  log : n.log.WellCut
  wellFormed : n.index.WellFormed
  split : n.log.sinceSnapshot = applied ++ n.phase.pending
  compatible : ∀ m, Compatible (filedDimension n.log.disk.snapshot applied m)
    (n.index.dimensionOf m)
  decided : Decided n.log.disk.snapshot n.answers applied
  unanswered : ∀ line ∈ n.phase.pending, n.answers line.sequence = none

omit [Platform] in
/-- The lines since the snapshot that the index has applied. -/
def applied (n : Node) : List WalEntry :=
  n.log.sinceSnapshot.take (n.log.sinceSnapshot.length - n.phase.pending.length)

omit [Platform] in
/-- Every float submitted is finite; a line is applied to a namespace that neither
side has forgotten, or with the length that the other side remembers; a failed
write leaves no insertion in the file; and no write is cut inside a line. -/
def Remembers (n : Node) : Action → Prop
  | .submit entry => entry.isFinite = true
  | .apply => ∀ line lines compact, n.phase = .applying (line :: lines) compact →
      line.tombstone = false →
        Remembered (filedDimension n.log.disk.snapshot n.applied line.modelId)
          (n.index.dimensionOf line.modelId) line.embedding.length
  | .write outcome => outcome.Whole ∧ ∀ kept fragment batch compact,
      outcome = .failed kept fragment → n.phase = .collected batch compact →
        ∀ entry ∈ batch.take kept, entry.tombstone = true
  | .writeTombstones outcome => outcome.Whole
  | .restart (.write _ fragment) _ _ => fragment = .none
  | _ => True

variable {cfg} {n : Node} {done : List WalEntry}

omit [Platform] in
theorem remembers_apply_iff : n.Remembers .apply ↔ ∀ line ∈ n.phase.next, line.tombstone = false →
    Remembered (filedDimension n.log.disk.snapshot n.applied line.modelId)
      (n.index.dimensionOf line.modelId) line.embedding.length := by
  constructor
  · intro remembers line next
    obtain ⟨lines, compact, phase⟩ := Phase.next_eq_some.mp next
    exact remembers line lines compact phase
  · intro remembers line lines compact phase
    exact remembers line (Phase.next_eq_some.mpr ⟨lines, compact, phase⟩)

omit [Platform] in
theorem remembers_write_iff {kept : Nat} {fragment : Fragment} :
    n.Remembers (.write (.failed kept fragment)) ↔
      fragment = .none ∧ ∀ entry ∈ n.phase.batch.take kept, entry.tombstone = true := by
  refine and_congr_right fun _ => ⟨fun failures entry mem => ?_, fun failures => ?_⟩
  · cases phase : n.phase with
    | collected batch compact =>
        rw [phase] at mem
        exact failures kept fragment batch compact rfl phase entry mem
    | _ =>
        rw [phase] at mem
        simp [Phase.batch] at mem
  · intro kept' fragment' batch compact same phase
    cases same
    rw [phase] at failures
    exact failures

instance (outcome : WriteOutcome) : Decidable outcome.Whole :=
  match outcome with
  | .synced => isTrue trivial
  | .failed _ fragment => inferInstanceAs (Decidable (fragment = .none))

instance (n : Node) (a : Action) : Decidable (n.Remembers a) :=
  match a with
  | .submit entry => inferInstanceAs (Decidable (entry.isFinite = true))
  | .apply => decidable_of_iff _ remembers_apply_iff.symm
  | .write .synced => isTrue ⟨trivial, fun _ _ _ _ failed => by cases failed⟩
  | .write (.failed _ _) => decidable_of_iff _ remembers_write_iff.symm
  | .writeTombstones outcome => inferInstanceAs (Decidable outcome.Whole)
  | .restart (.write _ fragment) _ _ => inferInstanceAs (Decidable (fragment = .none))
  | .restart .none _ _ => isTrue trivial
  | .restart (.rename _) _ _ => isTrue trivial
  | .requestCompact => isTrue trivial
  | .lookupDelete _ => isTrue trivial
  | .removeDelete _ => isTrue trivial
  | .invalidate _ _ _ _ _ => isTrue trivial
  | .reap _ _ _ _ => isTrue trivial
  | .access _ _ _ => isTrue trivial
  | .send _ => isTrue trivial
  | .collect _ => isTrue trivial
  | .acquire => isTrue trivial
  | .evict _ _ => isTrue trivial
  | .settle _ _ => isTrue trivial
  | .compact _ _ => isTrue trivial

omit [Platform] in
theorem Remembers.submitsFinite {a : Action} (remembers : n.Remembers a) : SubmitsFinite a := by
  cases a with
  | submit entry => exact remembers
  | _ => trivial

namespace Consistent

theorem applied_eq (con : Consistent n done) : n.applied = done := by
  unfold applied
  rw [con.split, List.length_append, Nat.add_sub_cancel, List.take_left]

theorem bounded (con : Consistent n done) {line : WalEntry}
    (mem : line ∈ n.log.sinceSnapshot) : line.sequence ≤ n.log.sequence := by
  obtain ⟨before, split, -⟩ := con.log.cut
  refine con.log.bounded line ?_
  rw [split]
  exact List.mem_append_right _ mem

theorem increasing (con : Consistent n done) :
    (done ++ n.phase.pending).Pairwise (·.sequence < ·.sequence) := by
  obtain ⟨before, split, -⟩ := con.log.cut
  have all := con.log.increasing
  rw [split, con.split] at all
  exact (List.pairwise_append.mp all).2.1

/-- Fields the invariant does not look at. -/
theorem frame (con : Consistent n done) (queue : List Command) (inserts : Nat)
    (deleting : List (String × String)) (outbox : List WalEntry) (unlogged : Finset String) :
    Consistent { n with
      queue := queue, insertsSinceCompact := inserts, deleting := deleting, outbox := outbox,
      unlogged := unlogged } done :=
  ⟨con.log, con.wellFormed, con.split, con.compatible, con.decided, con.unanswered⟩

/-- An index that only lost entries. -/
theorem loses (con : Consistent n done) {index : SemanticIndex} {gone : List (String × String)}
    (lost : SemanticIndex.Loses n.index index gone) : Consistent { n with index := index } done := by
  refine ⟨con.log, lost.wellFormed, con.split, fun m => ?_, con.decided, con.unanswered⟩
  rcases lost.dimension m with forgotten | kept
  · exact .inr (.inl forgotten)
  · dsimp only
    rw [kept]
    exact con.compatible m

/-- A change of phase that moves no line. -/
theorem move (con : Consistent n done) (phase : Phase) (same : phase.pending = n.phase.pending) :
    Consistent { n with phase := phase } done := by
  refine ⟨con.log, con.wellFormed, ?_, con.compatible, con.decided, ?_⟩
  · dsimp only
    rw [same]
    exact con.split
  · dsimp only
    rw [same]
    exact con.unanswered

theorem removed (con : Consistent n done) {index : SemanticIndex} {gone : List (String × String)}
    (lost : SemanticIndex.Loses n.index index gone) (due : List WalEntry) (uuids : List String) :
    Consistent (n.removed index due uuids) done :=
  (con.loses lost).frame _ _ _ _ _

/-! ## Handlers, reaper and eviction -/

theorem removeDelete (con : Consistent n done) (i : Nat) : Consistent (n.removeDelete i) done := by
  unfold Node.removeDelete
  cases n.deleting[i]? with
  | none => exact con
  | some pair =>
      obtain ⟨uuid, modelId⟩ := pair
      obtain ⟨gone, lost, -⟩ := SemanticIndex.Loses.removeByUuid con.wellFormed uuid
      exact (con.removed lost _ _).frame _ _ _ _ _

theorem reap (con : Consistent n done) {expireOrder rebuildOrder : PassOrder} {now : Nat}
    {pruneOrder : List String} (expires : SemanticIndex.Visits expireOrder n.index)
    (rebuilds : SemanticIndex.Visits rebuildOrder (n.index.collectExpired expireOrder now).1) :
    Consistent (n.reap expireOrder now rebuildOrder pruneOrder) done := by
  have expired := SemanticIndex.Loses.of_removed
    (SemanticIndex.Removed.collectExpired con.wellFormed expires.1 now)
  have rebuilt := SemanticIndex.Loses.rebuildDirtyNamespaces expired.wellFormed rebuilds
  have pruned := SemanticIndex.Loses.pruneEmptyNamespaces rebuilt.wellFormed pruneOrder
  exact con.removed ((expired.trans rebuilt).trans pruned) _ _

theorem evict (con : Consistent n done) {order : List String} {rebuildOrder : PassOrder}
    (visits : ∀ maxEntries, cfg.hnsw.maxEntriesPerNamespace = some maxEntries →
      HashMap.IterOrder n.index.namespaces order ∧
        SemanticIndex.Visits rebuildOrder (n.index.evictToCap order maxEntries).1) :
    Consistent (n.evict cfg order rebuildOrder) done := by
  unfold Node.evict
  split
  · next compact phase =>
      split
      · exact con.move (.settled compact) (by rw [phase]; rfl)
      · next maxEntries capped =>
          obtain ⟨evicts, rebuilds⟩ := visits maxEntries capped
          have removed := SemanticIndex.Removed.evictToCap con.wellFormed evicts maxEntries
          have rebuilt := SemanticIndex.Loses.rebuildDirtyNamespaces removed.wellFormed rebuilds
          have lost := (SemanticIndex.Loses.of_removed removed).trans rebuilt
          have moved := (con.loses lost).move
            (.evicted (n.index.evictToCap order maxEntries).2 compact) (by rw [phase]; rfl)
          exact moved.frame _ _ _ _ _
  · exact con

/-! ## Flush task -/

theorem collect (con : Consistent n done) (size : Nat) : Consistent (n.collect size) done := by
  unfold Node.collect
  split
  · next phase _ =>
      exact (con.move .compacting (by rw [phase]; rfl)).frame _ n.insertsSinceCompact n.deleting
        n.outbox n.unlogged
  · next entry batch compact queue phase _ =>
      exact (con.move (.collected (entry :: batch) compact) (by rw [phase]; rfl)).frame _
        n.insertsSinceCompact n.deleting n.outbox n.unlogged
  · exact con

/-- Tombstones appended to the log change no dimension and no answer. -/
theorem extendTombstones (con : Consistent n done) (idle : n.phase.pending = [])
    {last : Nat} {batch lines : List WalEntry} (grows : n.log.sequence ≤ last)
    (stamped : Stamped n.log.sequence last batch lines)
    (tombs : ∀ line ∈ lines, line.tombstone = true) {phase : Phase} (settled : phase.pending = []) :
    Consistent { n with log := n.log.extend lines last, phase := phase } (done ++ lines) := by
  refine ⟨con.log.extend grows stamped, con.wellFormed, ?_, fun m => ?_,
    con.decided.append fun line mem => .inl (tombs line mem), ?_⟩
  · have split := con.split
    rw [idle, List.append_nil] at split
    change n.log.sinceSnapshot ++ lines = done ++ lines ++ phase.pending
    rw [split, settled, List.append_nil]
  · change Compatible (filedDimension n.log.disk.snapshot (done ++ lines) m) _
    rw [filedDimension_append_tombstones _ _ tombs]
    exact con.compatible m
  · dsimp only
    rw [settled]
    exact fun _ mem => absurd mem List.not_mem_nil

/-- Answers about lines above the counter are none of the older lines'. -/
theorem reanswer (con : Consistent n done) {lines : List WalEntry}
    (above : ∀ line ∈ lines, n.log.sequence < line.sequence) (value : Option Answer) :
    Consistent { n with answers := answer n.answers lines value } done := by
  have old : ∀ line ∈ n.log.sinceSnapshot,
      answer n.answers lines value line.sequence = n.answers line.sequence := fun line mem =>
    answer_of_le above (con.bounded mem)
  refine ⟨con.log, con.wellFormed, con.split, con.compatible, con.decided.congr ?_, ?_⟩
  · intro line mem
    exact old line (by rw [con.split]; exact List.mem_append_left _ mem)
  · intro line mem
    dsimp only
    rw [old line (by rw [con.split]; exact List.mem_append_right _ mem)]
    exact con.unanswered line mem

theorem write (con : Consistent n done) {outcome : WriteOutcome}
    (remembers : n.Remembers (.write outcome)) : ∃ done', Consistent (n.write outcome) done' := by
  obtain ⟨whole, failures⟩ := remembers
  unfold Node.write
  split
  · next batch compact phase =>
      have idle : n.phase.pending = [] := by rw [phase]; rfl
      obtain ⟨last, grows, ⟨msg, overflow⟩ | ⟨lines, stamped, -, written⟩⟩ :=
        Log.flush_cases con.log.whole batch whole
      · have told := con.reanswer (stampedLines_above n batch) (some .wal)
        have moved := told.extendTombstones idle grows (.nil _ _) (by simp)
          (show (Phase.flushed compact).pending = [] from rfl)
        rw [overflow]
        exact ⟨_, moved⟩
      · rcases written with ⟨-, synced⟩ | ⟨kept, msg, outcomeEq, failed⟩
        · have told := con.reanswer stamped.above none
          have split := con.split
          rw [idle, List.append_nil] at split
          rw [synced]
          refine ⟨done, told.log.extend grows stamped, con.wellFormed, ?_, con.compatible,
            told.decided, fun line mem => answer_of_mem mem⟩
          change n.log.sinceSnapshot ++ lines = done ++ lines
          rw [split]
        · have tombs : ∀ line ∈ lines.take kept, line.tombstone = true := by
            intro line mem
            obtain ⟨entry, inBatch, same⟩ := (stamped.take kept).origin mem
            rw [same]
            exact failures kept .none batch compact outcomeEq phase entry inBatch
          have told := con.reanswer (stampedLines_above n batch) (some .wal)
          have moved := told.extendTombstones idle grows (stamped.take kept) tombs
            (show (Phase.flushed compact).pending = [] from rfl)
          rw [failed]
          exact ⟨_, moved⟩
  · exact ⟨done, con⟩

theorem acquire (con : Consistent n done) : Consistent n.acquire done := by
  unfold Node.acquire
  split
  · next lines compact phase => exact con.move (.applying lines compact) (by rw [phase]; rfl)
  · exact con

theorem writeTombstones (con : Consistent n done) {outcome : WriteOutcome}
    (whole : outcome.Whole) : ∃ done', Consistent (n.writeTombstones outcome) done' := by
  unfold Node.writeTombstones
  split
  · next compact phase => exact ⟨done, con.move (.settled compact) (by rw [phase]; rfl)⟩
  · next e out compact phase =>
      have idle : n.phase.pending = [] := by rw [phase]; rfl
      have settled : (Phase.settled compact).pending = [] := rfl
      obtain ⟨last, grows, ⟨msg, overflow⟩ | ⟨lines, stamped, -, written⟩⟩ :=
        Log.flush_cases con.log.whole (evictedTombstones (e :: out)) whole
      · rw [overflow]
        exact ⟨_, con.extendTombstones idle grows (.nil _ _) (by simp) settled⟩
      · have tombs : ∀ line ∈ lines, line.tombstone = true := fun _ => stamped.tombstone
        rcases written with ⟨-, synced⟩ | ⟨kept, msg, -, failed⟩
        · rw [synced]
          exact ⟨_, (con.extendTombstones idle grows stamped tombs settled).frame _ _ _ _ _⟩
        · rw [failed]
          exact ⟨_, con.extendTombstones idle grows (stamped.take kept)
            (fun line mem => tombs line (List.mem_of_mem_take mem)) settled⟩
  · exact ⟨done, con⟩

/-- The head of the pending lines, with the lengths before it. -/
theorem pendingHead (con : Consistent n done) {line : WalEntry} {lines : List WalEntry}
    {compact : Bool} (phase : n.phase = .applying (line :: lines) compact) :
    n.log.sinceSnapshot = (done ++ [line]) ++ lines ∧
      (∀ old ∈ done, old.sequence < line.sequence) ∧
        ∀ later ∈ lines, line.sequence < later.sequence := by
  have pending : n.phase.pending = line :: lines := by rw [phase]; rfl
  have split := con.split
  have increasing := con.increasing
  rw [pending] at split increasing
  obtain ⟨-, tail, across⟩ := List.pairwise_append.mp increasing
  refine ⟨by rw [split]; simp, fun old mem => across old mem line List.mem_cons_self, ?_⟩
  exact (List.pairwise_cons.mp tail).1

/-- One line applied on both sides: the lengths it leaves, and the answer. -/
theorem applyLine (con : Consistent n done) {line : WalEntry} {lines : List WalEntry}
    {compact : Bool} (phase : n.phase = .applying (line :: lines) compact)
    (remembered : line.tombstone = false →
      Remembered (filedDimension n.log.disk.snapshot done line.modelId)
        (n.index.dimensionOf line.modelId) line.embedding.length)
    {told : Answer} (right : line.tombstone = false → told =
      if Accepts (n.index.dimensionOf line.modelId) line.embedding.length then .ok else .index) :
    Consistent { n with
      index := (n.index.replayEntry line).1
      phase := .applying lines compact
      answers := answer n.answers [line] (some told) } (done ++ [line]) := by
  obtain ⟨split, older, later⟩ := con.pendingHead phase
  have pending : n.phase.pending = line :: lines := by rw [phase]; rfl
  have others : ∀ sequence, sequence ≠ line.sequence →
      answer n.answers [line] (some told) sequence = n.answers sequence := fun sequence other =>
    answer_of_notMem (by simpa using other)
  refine ⟨con.log, con.wellFormed.replayEntry line, split, fun m => ?_, ?_, fun l mem => ?_⟩
  · -- a claimed length is remembered on both sides, any other namespace is as before
    dsimp only
    rw [replayEntry_dimensionOf con.wellFormed, filedDimension_append, List.flatMap_cons,
      List.flatMap_nil, List.append_nil]
    have before := con.compatible m
    unfold WalEntry.lengths
    cases kind : line.tombstone with
    | true => exact before
    | false =>
        change Compatible (if m = line.modelId then some _ else _)
          (if m = line.modelId then some _ else _)
        by_cases here : m = line.modelId
        · subst here
          rw [if_pos rfl, if_pos rfl, before.getD_eq (remembered kind)]
          exact .inr (.inr rfl)
        · rw [if_neg here, if_neg here]
          exact before
  · have kept : Decided n.log.disk.snapshot (answer n.answers [line] (some told)) done :=
      con.decided.congr fun old mem => others _ (Nat.ne_of_lt (older old mem))
    refine kept.concat fun insert a said => ?_
    rw [answer_of_mem List.mem_cons_self] at said
    cases said
    rw [right insert]
    have same := ((con.compatible line.modelId).accepts_iff line.embedding.length).mpr
      (remembered insert)
    exact if_congr same.symm rfl rfl
  · dsimp only
    rw [others l.sequence (Nat.ne_of_gt (later l mem))]
    exact con.unanswered l (by rw [pending]; exact List.mem_cons_of_mem _ mem)

theorem apply (con : Consistent n done) (remembers : n.Remembers .apply) :
    ∃ done', Consistent n.apply done' := by
  unfold Node.apply
  split
  · next compact phase => exact ⟨done, con.move (.flushed compact) (by rw [phase]; rfl)⟩
  · next line lines compact phase =>
      have remembered := remembers line lines compact phase
      rw [con.applied_eq] at remembered
      have decision := fun insert => @replayEntry_ok_iff _ n.index con.wellFormed line insert
      rcases result : n.index.replayEntry line with ⟨index, outcome⟩
      have index_eq : index = (n.index.replayEntry line).1 := by rw [result]
      rw [result] at decision
      cases outcome with
      | ok _ =>
          dsimp only
          rw [index_eq]
          refine ⟨_, (con.applyLine phase remembered fun insert => ?_).frame _ _ _ _ _⟩
          rw [if_pos ((decision insert).mp rfl)]
      | error msg =>
          dsimp only
          rw [index_eq]
          refine ⟨_, con.applyLine phase remembered fun insert => ?_⟩
          rw [if_neg fun accepted => by cases (decision insert).mpr accepted]
  · exact ⟨done, con⟩

/-! ## Compaction, crash and startup -/

theorem compacted (con : Consistent n done) (idle : n.phase.pending = []) {order : PassOrder}
    (visits : SemanticIndex.Visits order n.index) (outcome : Log.CompactOutcome) :
    ∃ done', Consistent
      { n with log := n.log.compact (n.index.snapshotEntries order) outcome } done' := by
  have wellCut := con.log.compact (n.index.snapshotEntries order) outcome
  have renamed : ∀ file, Log.WellCut ⟨⟨file, some ⟨n.index.snapshotEntries order, n.log.sequence⟩⟩,
      n.log.sequence, []⟩ → Consistent { n with
        log := ⟨⟨file, some ⟨n.index.snapshotEntries order, n.log.sequence⟩⟩, n.log.sequence, []⟩ }
      [] := by
    intro file good
    refine ⟨good, con.wellFormed, ?_, fun m => ?_, ?_, con.unanswered⟩
    · change [] = [] ++ n.phase.pending
      rw [idle]
      rfl
    · rcases filedDimension_snapshotEntries con.wellFormed visits n.log.sequence m with
        forgotten | same
      · exact .inl forgotten
      · exact .inr (.inr same)
    · intro pre line post split
      exact absurd split.symm (by simp)
  cases outcome with
  | unwritten => exact ⟨done, con⟩
  | compacted => exact ⟨[], renamed _ wellCut⟩
  | untruncated emptied => exact ⟨[], renamed _ wellCut⟩

theorem settle (con : Consistent n done) {order : PassOrder}
    (visits : SemanticIndex.Visits order n.index) (outcome : Log.CompactOutcome) :
    ∃ done', Consistent (n.settle cfg order outcome) done' := by
  unfold Node.settle
  split
  · next compact phase =>
      have idle : n.phase.pending = [] := by rw [phase]; rfl
      have next : (if compact then Phase.compacting else .idle).pending = [] := by
        cases compact <;> rfl
      split
      · obtain ⟨done', snap⟩ := con.compacted idle visits outcome
        have reset := snap.frame n.queue 0 n.deleting n.outbox n.unlogged
        exact ⟨done', reset.move _ (by rw [next]; exact idle.symm)⟩
      · exact ⟨done, con.move _ (by rw [next, idle])⟩
  · exact ⟨done, con⟩

theorem runCompact (con : Consistent n done) {order : PassOrder}
    (visits : SemanticIndex.Visits order n.index) (outcome : Log.CompactOutcome) :
    ∃ done', Consistent (n.runCompact order outcome) done' := by
  unfold Node.runCompact
  split
  · next phase =>
      have idle : n.phase.pending = [] := by rw [phase]; rfl
      obtain ⟨done', snap⟩ := con.compacted idle visits outcome
      have reset := snap.frame n.queue 0 n.deleting n.outbox n.unlogged
      exact ⟨done', reset.move .idle idle.symm⟩
  · exact ⟨done, con⟩

/-- A startup remembers exactly what the files hold. -/
theorem boot {log log' : Log} {r : Recovery} {answers : Nat → Option Answer}
    (wellCut : log.WellCut) (decided : Decided log.disk.snapshot answers log.sinceSnapshot)
    (started : log.restart cfg.hnsw = .ok (r, log')) {expireOrder : PassOrder}
    (visits : SemanticIndex.Visits expireOrder r.index) {now : Nat} {m : Node}
    (booted : Node.boot cfg log answers expireOrder now = some m) :
    Consistent m log.sinceSnapshot := by
  rw [boot_of_restart started] at booted
  cases booted
  obtain ⟨-, disk, since⟩ := Log.restart_recover started
  obtain ⟨good, dims⟩ := recovered_dimensionOf cfg.hnsw log.disk.snapshot log.sinceSnapshot
  rw [← wellCut.restart_index started] at good dims
  have expired := SemanticIndex.Removed.collectExpired good visits.1 now
  refine ⟨wellCut.restart started, expired.wellFormed, ?_, fun m => .inr (.inr ?_), ?_,
    fun _ mem => absurd mem List.not_mem_nil⟩
  · exact since.trans (List.append_nil _).symm
  · rw [disk]
    exact ((expired.dimension m).trans (congrFun dims m)).symm
  · rw [disk]
    exact decided

/-- The lines whose answers a crash drops have none. -/
theorem decided_crash (con : Consistent n done) :
    Decided n.log.disk.snapshot (answer n.answers (n.stampedLines n.phase.batch) none)
      n.log.sinceSnapshot := by
  have told := con.reanswer (stampedLines_above n n.phase.batch) none
  rw [con.split]
  exact told.decided.append fun line mem => .inr (told.unanswered line mem)

/-- A batch of which a crash left some lines. -/
theorem cutBatch (con : Consistent n done) {batch : List WalEntry}
    (silent : ∀ lines, (stampBatch n.log.sequence batch).2 = .ok lines → ∀ line ∈ lines,
      line.tombstone = true ∨
        answer n.answers (n.stampedLines n.phase.batch) none line.sequence = none) (kept : Nat) :
    (n.log.flush batch (.failed kept .none)).1.WellCut ∧
      Decided (n.log.flush batch (.failed kept .none)).1.disk.snapshot
        (answer n.answers (n.stampedLines n.phase.batch) none)
          (n.log.flush batch (.failed kept .none)).1.sinceSnapshot := by
  have noTear : WriteOutcome.Whole (.failed kept .none) := rfl
  refine ⟨con.log.flush batch noTear, ?_⟩
  obtain ⟨last, grows, ⟨msg, overflow⟩ |
      ⟨lines, stamped, ran, ⟨impossible, -⟩ | ⟨k, msg, -, failed⟩⟩⟩ :=
    Log.flush_cases con.log.whole batch noTear
  · rw [overflow]
    change Decided n.log.disk.snapshot _ (n.log.sinceSnapshot ++ [])
    rw [List.append_nil]
    exact con.decided_crash
  · cases impossible
  · rw [failed]
    refine con.decided_crash.append fun line mem => silent lines (by rw [ran]) line ?_
    exact List.mem_of_mem_take mem

/-- What a crash leaves in the log was answered as the lengths decide, or not
answered. -/
theorem crashLog (con : Consistent n done) {cut : Cut}
    (noFragment : ∀ kept fragment, cut = .write kept fragment → fragment = .none) :
    (n.crashLog cfg cut).WellCut ∧
      Decided (n.crashLog cfg cut).disk.snapshot
        (answer n.answers (n.stampedLines n.phase.batch) none)
          (n.crashLog cfg cut).sinceSnapshot := by
  unfold Node.crashLog
  split
  · next kept fragment batch compact phase =>
      cases noFragment kept fragment rfl
      refine con.cutBatch (fun lines ran line mem => .inr (answer_of_mem ?_)) kept
      rw [phase]
      show line ∈ n.stampedLines batch
      unfold stampedLines
      rw [ran]
      exact mem
  · next kept fragment out compact phase =>
      cases noFragment kept fragment rfl
      refine con.cutBatch (fun lines ran line mem => .inl ?_) kept
      have stamped := (stampBatch_spec n.log.sequence (evictedTombstones out)).2 lines ran
      exact stamped.tombstone mem
  · next order phase =>
      refine ⟨con.log.compact _ _, fun pre line post split => ?_⟩
      exact absurd split.symm (by simp [Log.compact])
  · next order compact phase =>
      split
      · refine ⟨con.log.compact _ _, fun pre line post split => ?_⟩
        exact absurd split.symm (by simp [Log.compact])
      · exact ⟨con.log, con.decided_crash⟩
  · exact ⟨con.log, con.decided_crash⟩

/-! ## Runs -/

theorem act (con : Consistent n done) {a : Action} (admissible : n.Admissible cfg a)
    (remembers : n.Remembers a) : ∃ done', Consistent (n.act cfg a) done' := by
  cases a with
  | submit entry =>
      exact ⟨done, con.frame _ n.insertsSinceCompact n.deleting n.outbox n.unlogged⟩
  | requestCompact =>
      exact ⟨done, con.frame _ n.insertsSinceCompact n.deleting n.outbox n.unlogged⟩
  | lookupDelete uuid =>
      change ∃ done', Consistent (n.lookupDelete uuid) done'
      unfold Node.lookupDelete
      split
      · exact ⟨done, con⟩
      · exact ⟨done, con.frame n.queue n.insertsSinceCompact _ n.outbox n.unlogged⟩
  | removeDelete i => exact ⟨done, con.removeDelete i⟩
  | invalidate order embedding threshold modelId now =>
      have removed := SemanticIndex.Removed.invalidateSimilar con.wellFormed order embedding
        threshold modelId now
      exact ⟨done, con.removed (.of_removed removed) _ _⟩
  | reap expireOrder now rebuildOrder pruneOrder =>
      exact ⟨done, con.reap admissible.2.1 admissible.2.2.1⟩
  | access modelId internalId now =>
      exact ⟨done, con.loses (.recordAccess con.wellFormed modelId internalId now)⟩
  | send i =>
      change ∃ done', Consistent (n.send i) done'
      unfold Node.send
      split
      · exact ⟨done, con⟩
      · exact ⟨done, con.frame _ n.insertsSinceCompact n.deleting _ n.unlogged⟩
  | collect size => exact ⟨done, con.collect size⟩
  | write outcome => exact con.write remembers
  | acquire => exact ⟨done, con.acquire⟩
  | apply => exact con.apply remembers
  | evict order rebuildOrder => exact ⟨done, con.evict admissible⟩
  | writeTombstones outcome => exact con.writeTombstones remembers
  | settle order outcome => exact con.settle admissible outcome
  | compact order outcome => exact con.runCompact admissible outcome
  | restart cut expireOrder now =>
      obtain ⟨-, r, log, started, visits⟩ := admissible
      have noFragment : ∀ kept fragment, cut = .write kept fragment → fragment = .none := by
        intro kept fragment same
        subst same
        exact remembers
      obtain ⟨wellCut, decided⟩ := con.crashLog noFragment
      change ∃ done', Consistent ((n.restart cfg cut expireOrder now).getD n) done'
      cases booted : n.restart cfg cut expireOrder now with
      | none => exact ⟨done, con⟩
      | some m => exact ⟨_, Consistent.boot wellCut decided started visits booted⟩

end Consistent

theorem consistent_new : Consistent (new cfg) [] where
  log := .fresh
  wellFormed := SemanticIndex.wellFormed_new _
  split := rfl
  compatible _ := .inl rfl
  decided pre line post split := absurd split.symm (by simp)
  unanswered _ mem := absurd mem List.not_mem_nil

theorem Reachable.consistent (reached : Reachable cfg Remembers n) : ∃ done, Consistent n done := by
  induction reached with
  | new => exact ⟨[], consistent_new⟩
  | act a _ admissible remembers ih =>
      obtain ⟨done, con⟩ := ih
      exact con.act admissible remembers

variable (cfg) in
/-- Of the lines that a startup replays, it would reject an insertion exactly when
its caller was told that the index refused it, and so accepts no insertion whose
caller was told that it failed. -/
def RecoversAsAnswered (n : Node) : Prop :=
  ∃ r, recover cfg.hnsw n.log.disk.decoded = .ok r ∧
    ∀ line ∈ n.log.disk.decoded.file.lines, skips n.log.disk.snapshot line = false →
      line.tombstone = false → ∀ told, n.answers line.sequence = some told →
        (line ∈ r.rejected ↔ told = .index) ∧ (line ∉ r.rejected → told = .ok)

/-- A line is rejected by a startup when the lengths before it in the files are
others. -/
theorem mem_rejected_iff (snapshot : Option Snapshot) (maxSeq : Nat) (lines : List WalEntry)
    {line : WalEntry} (insert : line.tombstone = false) :
    line ∈ (lines.foldl Recovery.replay ⟨loadSnapshot cfg.hnsw snapshot, maxSeq, []⟩).rejected ↔
      ∃ pre post, lines = pre ++ line :: post ∧
        ¬ Accepts (filedDimension snapshot pre line.modelId) line.embedding.length := by
  rw [Recovery.mem_foldl_replay_rejected]
  simp only [List.not_mem_nil, false_or]
  refine exists_congr fun pre => exists_congr fun post => and_congr_right fun _ => ?_
  obtain ⟨good, dims⟩ := recovered_dimensionOf cfg.hnsw snapshot pre
  rw [ne_eq, replayEntry_ok_iff good insert, dims]

theorem Consistent.recoversAsAnswered (con : Consistent n done) (legible : n.Legible) :
    n.RecoversAsAnswered cfg := by
  unfold RecoversAsAnswered
  rw [legible.decoded]
  refine ⟨_, con.log.recover_eq cfg.hnsw, fun line mem kept insert told said => ?_⟩
  have decided : Decided n.log.disk.snapshot n.answers n.log.sinceSnapshot := by
    rw [con.split]
    exact con.decided.append fun l pending => .inr (con.unanswered l pending)
  have replayed : line ∈ n.log.sinceSnapshot := by
    obtain ⟨before, -, -, eq⟩ := con.log.filter_skips
    rw [← eq]
    exact List.mem_filter.mpr ⟨mem, by simp [kept]⟩
  rw [mem_rejected_iff _ _ _ insert]
  obtain ⟨pre, post, split⟩ := List.append_of_mem replayed
  have answered := decided pre line post split insert told said
  by_cases accepted : Accepts (filedDimension n.log.disk.snapshot pre line.modelId)
      line.embedding.length
  · rw [if_pos accepted] at answered
    subst answered
    refine ⟨⟨?_, by simp⟩, fun _ => rfl⟩
    rintro ⟨pre', post', split', refused⟩
    have again := decided pre' line post' split' insert _ said
    rw [if_neg refused] at again
    cases again
  · rw [if_neg accepted] at answered
    subst answered
    exact ⟨⟨fun _ => rfl, fun _ => ⟨pre, post, split, accepted⟩⟩,
      fun notRejected => absurd ⟨pre, post, split, accepted⟩ notRejected⟩

/-- Applying a line that one side has forgotten, with another length, is found
out by the next startup. -/
theorem Consistent.remembers_of_recovers (con : Consistent n done) (legible : n.Legible)
    (recovers : n.apply.RecoversAsAnswered cfg) : n.Remembers .apply := by
  intro line lines compact phase insert
  obtain ⟨split, older, later⟩ := con.pendingHead phase
  rw [List.append_assoc, List.singleton_append] at split
  rw [con.applied_eq, ← (con.compatible line.modelId).accepts_iff]
  have decision := replayEntry_ok_iff con.wellFormed insert
  -- what the apply step leaves: the same log, and the answer of the index
  have after : n.apply.log = n.log ∧ n.apply.answers line.sequence =
      some (if Accepts (n.index.dimensionOf line.modelId) line.embedding.length then .ok
        else .index) := by
    unfold Node.apply
    rw [phase]
    dsimp only
    rcases result : n.index.replayEntry line with ⟨index, _ | _⟩
    · rw [result] at decision
      have refused : ¬ Accepts (n.index.dimensionOf line.modelId) line.embedding.length :=
        fun accepted => by cases decision.mpr accepted
      rw [if_neg refused]
      exact ⟨rfl, answer_of_mem List.mem_cons_self⟩
    · rw [result] at decision
      rw [if_pos (decision.mp rfl)]
      exact ⟨rfl, answer_of_mem List.mem_cons_self⟩
  obtain ⟨before, file, -, replayed⟩ := con.log.filter_skips
  have here : line ∈ n.log.sinceSnapshot := by rw [split]; simp
  obtain ⟨inFile, kept⟩ := List.mem_filter.mp (show line ∈ n.log.disk.file.lines.filter
    (fun line => !skips n.log.disk.snapshot line) by rw [replayed]; exact here)
  obtain ⟨r, recovered, asAnswered⟩ := recovers
  rw [after.1, legible.decoded, con.log.recover_eq cfg.hnsw] at recovered
  cases recovered
  rw [after.1, legible.decoded] at asAnswered
  obtain ⟨agree, -⟩ := asAnswered line inFile (by simpa using kept) insert _ after.2
  -- the line occurs once, so the lengths before it are those of the applied lines
  have once : (∃ pre post, n.log.sinceSnapshot = pre ++ line :: post ∧
      ¬ Accepts (filedDimension n.log.disk.snapshot pre line.modelId) line.embedding.length) ↔
        ¬ Accepts (filedDimension n.log.disk.snapshot done line.modelId) line.embedding.length := by
    constructor
    · rintro ⟨pre, post, again, refused⟩
      rw [split] at again
      have notOlder : line ∉ done := fun mem => lt_irrefl _ (older line mem)
      have notLater : line ∉ lines := fun mem => lt_irrefl _ (later line mem)
      obtain ⟨rfl, -⟩ := (List.append_cons_inj_of_notMem notOlder notLater).mp again
      exact refused
    · exact fun refused => ⟨done, lines, split, refused⟩
  rw [mem_rejected_iff _ _ _ insert, once] at agree
  by_cases accepted : Accepts (n.index.dimensionOf line.modelId) line.embedding.length
  · rw [if_pos accepted] at agree
    exact iff_of_true (not_not.mp fun refused => by cases agree.mp refused) accepted
  · rw [if_neg accepted] at agree
    exact iff_of_false (agree.mpr rfl) accepted

/-- In every run that submits finite floats, applies no line of another length to a
namespace whose dimension one side has forgotten, leaves no insertion of a failed
write in the file and tears no line, every state recovers as its callers were
answered; and from such a state a line can only be applied in this way. -/
theorem rejected_iff_answered_index (reached : Reachable cfg Remembers n) :
    n.RecoversAsAnswered cfg ∧
      ((n.act cfg .apply).RecoversAsAnswered cfg ↔ n.Remembers .apply) := by
  obtain ⟨done, con⟩ := reached.consistent
  have legible := reached.legible fun _ _ => Remembers.submitsFinite
  refine ⟨con.recoversAsAnswered legible, con.remembers_of_recovers legible, fun remembers => ?_⟩
  obtain ⟨done', applied⟩ := con.apply remembers
  exact applied.recoversAsAnswered (legible.act (show n.Admissible cfg .apply from trivial) trivial)

end Answers

/-! ## A pruned namespace -/

section Example

local instance answersExamplePlatform : Platform := Platform.sample

def conversationLine (uuid : String) (embedding : Embedding) : WalEntry :=
  ⟨uuid, embedding, "r", "q", "m::conv_1", 0, 0, false, some 1⟩

/-- A conversation expires and is pruned; then an embedding of another length is
inserted into it and acknowledged. -/
def prunedThenReused : List Action :=
  .submit (conversationLine "a" [1#32]) :: (flushOne ⟨["m::conv_1"], fun _ => [0]⟩ ++
    (.reap ⟨["m::conv_1"], fun _ => [0]⟩ 5 ⟨["m::conv_1"], fun _ => []⟩ ["m::conv_1"] ::
      .send 0 :: (flushOne ⟨[], fun _ => []⟩ ++
        (.submit (conversationLine "b" [1#32, 2#32]) ::
          (flushOne ⟨["m::conv_1"], fun _ => [0]⟩ ++ [])))))

/-- The same with a compaction before the second insertion, and then a restart. -/
def prunedThenCompacted : List Action :=
  .submit (conversationLine "a" [1#32]) :: (flushOne ⟨["m::conv_1"], fun _ => [0]⟩ ++
    (.reap ⟨["m::conv_1"], fun _ => [0]⟩ 5 ⟨["m::conv_1"], fun _ => []⟩ ["m::conv_1"] ::
      .send 0 :: (flushOne ⟨[], fun _ => []⟩ ++
        (.requestCompact :: .collect 1 :: .compact ⟨[], fun _ => []⟩ .compacted ::
          .submit (conversationLine "b" [1#32, 2#32]) ::
            (flushOne ⟨["m::conv_1"], fun _ => [0]⟩ ++
              [.restart .none ⟨["m::conv_1"], fun _ => [0]⟩ 0])))))

theorem rejected_iff_answered_index_sample :
    let cfg : NodeConfig := ⟨⟨0, none⟩, 256, 0⟩
    (run cfg (new cfg) prunedThenCompacted).RecoversAsAnswered cfg := by
  exact (rejected_iff_answered_index (Reachable.run .new (by decide +kernel))).1

/-- An acknowledged insertion that the next startup rejects. -/
theorem pruned_dimension_drops_acknowledged :
    let cfg : NodeConfig := ⟨⟨0, none⟩, 256, 0⟩
    let n := run cfg (new cfg) prunedThenReused
    Reachable cfg (fun _ _ => True) n ∧ ¬ n.RecoversAsAnswered cfg := by
  constructor
  · exact Reachable.run .new (by decide +kernel)
  · rintro ⟨r, recovered, asAnswered⟩
    have rejects : (recover ⟨0, none⟩ (run ⟨⟨0, none⟩, 256, 0⟩ (new ⟨⟨0, none⟩, 256, 0⟩)
        prunedThenReused).log.disk.decoded).map (·.rejected) =
          .ok [{ conversationLine "b" [1#32, 2#32] with sequence := 3 }] := by
      decide +kernel
    rw [recovered] at rejects
    have rejected : r.rejected = [{ conversationLine "b" [1#32, 2#32] with sequence := 3 }] :=
      Except.ok.inj rejects
    have agree := asAnswered { conversationLine "b" [1#32, 2#32] with sequence := 3 }
      (by decide +kernel) (by decide +kernel) rfl .ok (by decide +kernel)
    rw [rejected] at agree
    exact absurd (agree.1.mp List.mem_cons_self) (by decide)

end Example

end Node

end Ferrocache
