import Ferrocache.Node.Home
import Ferrocache.Node.Waiting

/-!
# A tombstone on its way

A tombstone in the channel moves forward with the entries ahead of it until it is
applied, or its batch cannot be written.  When it has been applied, what the node
has under its UUID, now and later, comes from insertions that stood behind it.
-/

namespace Ferrocache

variable (P : String → String → Record → Prop) (uuid : String)

/-- `P` says something about one UUID only. -/
def Concerns : Prop := ∀ m u r, u ≠ uuid → P m u r

namespace Node

/-- The tombstone of the UUID waits behind `ahead` entries, and what is inserted
behind it satisfies `P`. -/
def Dooms (ahead : Nat) (n : Node) : Prop :=
  ∃ before tomb after, n.waiting = before ++ tomb :: after ∧ before.length = ahead ∧
    tomb.tombstone = true ∧ tomb.uuid = uuid ∧ ∀ entry ∈ after, entry.Meets P

/-- Everything that is live or waits satisfies `P`. -/
structure Buried (n : Node) : Prop where
  index : n.index.Only P
  waiting : ∀ entry ∈ n.waiting, entry.Meets P

section Runs

variable [Platform] {P uuid} {home : String} {cfg : NodeConfig} {n : Node} {a : Action}

/-! ## One step -/

theorem Buried.act (buried : n.Buried P) (wf : n.index.WellFormed)
    (admissible : n.Admissible cfg a) (alive : crashes a = false)
    (outbox : n.SendsTombstones) (submitted : ∀ entry, a = .submit entry → entry.Meets P) :
    (n.act cfg a).Buried P := by
  have more : ∀ entry : WalEntry, entry.Meets P → ∀ e ∈ n.waiting ++ [entry.unstamped], e.Meets P := by
    intro entry meets e mem
    rcases List.mem_append.mp mem with old | new
    · exact buried.waiting e old
    · rw [List.mem_singleton.mp new]
      exact meets
  refine ⟨?_, ?_⟩
  · have effect := act_index wf admissible
    generalize (n.act cfg a).index = index at effect ⊢
    cases effect with
    | loses lost _ => exact buried.index.loses lost
    | takes line lines compact runs phase =>
        have waits : line.unstamped ∈ n.waiting := by
          unfold Node.waiting
          rw [phase]
          exact List.mem_cons_self
        have meets : line.Meets P := buried.waiting line.unstamped waits
        exact buried.index.replayEntry wf meets
    | boots cut expireOrder now runs r read visits =>
        subst runs
        cases alive
  · have step : WaitingStep n a (n.act cfg a).waiting := act_waiting alive
    generalize (n.act cfg a).waiting = after at step ⊢
    cases step with
    | stays => exact buried.waiting
    | submits entry => exact more entry (submitted entry rfl)
    | sends i found => exact more _ (.of_tombstone (outbox _ (List.mem_of_getElem? found)))
    | applies phase head =>
        intro e mem
        refine buried.waiting e ?_
        rw [head]
        exact List.mem_cons_of_mem _ mem
    | fails outcome phase failed split =>
        intro e mem
        refine buried.waiting e ?_
        rw [split]
        exact List.mem_append_right _ mem

omit [Platform] in
theorem Buried.mono {Q : String → String → Record → Prop} (weaker : ∀ m u r, P m u r → Q m u r)
    (buried : n.Buried P) : n.Buried Q :=
  ⟨fun m u e live => weaker _ _ _ (buried.index m u e live), fun entry mem insert =>
    weaker _ _ _ (buried.waiting entry mem insert)⟩

omit [Platform] in
theorem Dooms.mono {Q : String → String → Record → Prop} (weaker : ∀ m u r, P m u r → Q m u r)
    {ahead : Nat} (dooms : n.Dooms P uuid ahead) : n.Dooms Q uuid ahead := by
  obtain ⟨before, tomb, after, split, length, kind, same, meets⟩ := dooms
  exact ⟨before, tomb, after, split, length, kind, same, fun entry mem insert =>
    weaker _ _ _ (meets entry mem insert)⟩

omit [Platform] in
/-- Another entry behind the tombstone. -/
theorem Dooms.append {ahead : Nat} {m : Node} (dooms : n.Dooms P uuid ahead) {entry : WalEntry}
    (meets : entry.Meets P) (more : m.waiting = n.waiting ++ [entry]) : m.Dooms P uuid ahead := by
  obtain ⟨before, tomb, after, split, length, kind, same, behind⟩ := dooms
  refine ⟨before, tomb, after ++ [entry], ?_, length, kind, same, fun e mem => ?_⟩
  · rw [more, split, List.append_assoc, List.cons_append]
  · rcases List.mem_append.mp mem with old | new
    · exact behind e old
    · rw [List.mem_singleton.mp new]
      exact meets

omit [Platform] in
/-- The entries ahead of the tombstone leave. -/
theorem Dooms.drop {ahead : Nat} {m : Node} (dooms : n.Dooms P uuid ahead) {gone : List WalEntry}
    (fewer : gone.length ≤ ahead) (split : n.waiting = gone ++ m.waiting) :
    m.Dooms P uuid (ahead - gone.length) := by
  obtain ⟨before, tomb, after, whole, length, kind, same, behind⟩ := dooms
  rw [split] at whole
  have start : gone <+: before := by
    refine List.prefix_of_prefix_length_le ⟨m.waiting, whole⟩ (List.prefix_append _ _) ?_
    omega
  obtain ⟨rest, rfl⟩ := start
  rw [List.append_assoc, List.append_cancel_left_eq] at whole
  refine ⟨rest, tomb, after, whole, ?_, kind, same, behind⟩
  rw [List.length_append] at length
  omega

/-- Applying the tombstone of a UUID that is housed leaves nothing of it. -/
theorem only_replayEntry_tombstone (concerns : Concerns P uuid) {idx : SemanticIndex}
    (wf : idx.WellFormed) (housed : idx.HousedAt uuid) {line : WalEntry}
    (tomb : line.tombstone = true) (same : line.uuid = uuid) :
    (idx.replayEntry line).1.Only P := by
  have removed := SemanticIndex.removeByUuid_spec wf uuid
  rw [SemanticIndex.replayEntry_of_tombstone tomb, same]
  intro m u e live
  refine concerns m u e.record fun here => ?_
  subst here
  rw [removed.live] at live
  split at live
  · cases live
  · next kept =>
      exact kept ⟨rfl, housed m (by rw [live]; exact Option.some_ne_none e)⟩

omit [Platform] in
variable (uuid) in
/-- If the action applies a tombstone of the UUID, no second namespace has it. -/
def Clears (n : Node) (a : Action) : Prop :=
  ∀ line lines compact, a = .apply → n.phase = .applying (line :: lines) compact →
    line.tombstone = true → line.uuid = uuid → n.index.HousedAt uuid

theorem Homed.clears (homed : n.Homed uuid home) (a : Action) : n.Clears uuid a :=
  fun _ _ _ _ _ _ _ => homed.index.housed

/-- Where the tombstone is after an action, and what it leaves when it is applied. -/
theorem Dooms.act {ahead : Nat} (dooms : n.Dooms P uuid ahead) (concerns : Concerns P uuid)
    (wf : n.index.WellFormed) (outbox : n.SendsTombstones) (clears : n.Clears uuid a)
    (alive : crashes a = false)
    (submitted : ∀ entry, a = .submit entry → entry.Meets P) :
    (∀ k, n.fate ahead a = .waits k → (n.act cfg a).Dooms P uuid k) ∧
      (n.fate ahead a = .answered .ok → (n.act cfg a).Buried P) := by
  have step : WaitingStep n a (n.act cfg a).waiting := act_waiting alive
  generalize eq : (n.act cfg a).waiting = after at step
  cases step with
  | stays _ same =>
      rw [same]
      refine ⟨fun k fated => ?_, fun fated => by cases fated⟩
      cases fated
      unfold Dooms
      rw [eq]
      exact dooms
  | submits entry =>
      refine ⟨fun k fated => ?_, fun fated => by cases fated⟩
      cases fated
      have meets : entry.unstamped.Meets P := submitted entry rfl
      exact dooms.append meets eq
  | @sends i entry found =>
      refine ⟨fun k fated => ?_, fun fated => by cases fated⟩
      cases fated
      have tomb : entry.unstamped.tombstone = true :=
        outbox entry (List.mem_of_getElem? found)
      exact dooms.append (.of_tombstone tomb) eq
  | @applies line lines compact rest phase head =>
      have fated : n.fate ahead .apply =
          if ahead = 0 then .answered .ok else .waits (ahead - 1) := by
        unfold fate
        rw [phase]
      rw [fated]
      by_cases first : ahead = 0
      · rw [if_pos first]
        refine ⟨fun k fated => (by cases fated), fun _ => ?_⟩
        obtain ⟨before, tomb, behind, whole, length, kind, same, meets⟩ := dooms
        rw [first, List.length_eq_zero_iff] at length
        rw [head, length, List.nil_append] at whole
        obtain ⟨rfl, rfl⟩ := List.cons.inj whole
        refine ⟨?_, ?_⟩
        · change n.apply.index.Only P
          rw [apply_index phase]
          have housed := clears line lines compact rfl phase kind same
          exact only_replayEntry_tombstone concerns wf housed kind same
        · rw [eq]
          exact meets
      · rw [if_neg first]
        refine ⟨fun k fated => ?_, fun fated => by cases fated⟩
        cases fated
        have split : n.waiting = [line.unstamped] ++ (n.act cfg .apply).waiting := by
          rw [eq]
          exact head
        have one : [line.unstamped].length ≤ ahead := Nat.one_le_iff_ne_zero.mpr first
        exact dooms.drop one split
  | @fails outcome batch compact rest log msg phase failed split =>
      have fated : n.fate ahead (.write outcome) =
          if ahead < batch.length then .answered .wal else .waits (ahead - batch.length) := by
        simp only [fate, phase, failed]
      rw [fated]
      by_cases lost : ahead < batch.length
      · rw [if_pos lost]
        exact ⟨fun k fated => (by cases fated), fun fated => by cases fated⟩
      · rw [if_neg lost]
        refine ⟨fun k fated => ?_, fun fated => by cases fated⟩
        cases fated
        have length : (batch.map WalEntry.unstamped).length = batch.length := List.length_map _
        rw [← eq] at split
        have dropped := dooms.drop (by omega) split
        rw [length] at dropped
        exact dropped

/-! ## A UUID that does not come back -/

omit [Platform] in
variable (uuid) in
/-- Another UUID than this one. -/
def Other (_ u : String) (_ : Record) : Prop := u ≠ uuid

omit [Platform] in
theorem concerns_other : Concerns (Other uuid) uuid := fun _ _ _ other => other

omit [Platform] in
variable (uuid) in
/-- No insertion of the UUID is left, or its tombstone stands behind them all. -/
def Gone (n : Node) : Prop := (∃ ahead, n.Dooms (Other uuid) uuid ahead) ∨ n.Buried (Other uuid)

omit [Platform] in
/-- If the action writes a batch, the write succeeds and the sequence counter
does not overflow. -/
def WritesBatch (n : Node) (a : Action) : Prop :=
  ∀ batch compact outcome, n.phase = .collected batch compact → a = .write outcome →
    outcome = .synced ∧ n.log.sequence + batch.length ≤ u64Max

omit [Platform] in
variable (uuid) in
/-- What keeps a UUID that is gone from coming back. -/
structure Benign (n : Node) (a : Action) : Prop where
  alive : crashes a = false
  writes : n.WritesBatch a
  clears : n.Clears uuid a
  submitted : ∀ entry, a = .submit entry → entry.Meets (Other uuid)

omit [Platform] in
/-- An action that leaves channel and flush task alone. -/
theorem Benign.of_other (submits : ∀ entry, a ≠ .submit entry)
    (writes : ∀ outcome, a ≠ .write outcome) (applies : a ≠ .apply) (alive : crashes a = false) :
    n.Benign uuid a where
  alive := alive
  writes _ _ outcome _ same := absurd same (writes outcome)
  clears _ _ _ same := absurd same applies
  submitted entry same := absurd same (submits entry)

theorem Gone.act (gone : n.Gone uuid) (wf : n.index.WellFormed) (outbox : n.SendsTombstones)
    (admissible : n.Admissible cfg a) (benign : n.Benign uuid a) : (n.act cfg a).Gone uuid := by
  obtain ⟨alive, writes, clears, submitted⟩ := benign
  rcases gone with ⟨ahead, dooms⟩ | buried
  · obtain ⟨waits, applied⟩ := dooms.act concerns_other wf outbox clears alive submitted
    rcases n.fate_cases ahead a with ⟨k, fated⟩ | ⟨fated, -⟩ |
        ⟨-, outcome, batch, compact, msg, same, phase, -, failed⟩
    · exact .inl ⟨k, waits k fated⟩
    · exact .inr (applied fated)
    · obtain ⟨rfl, room⟩ := writes batch compact outcome phase same
      rw [Log.flush_synced room] at failed
      cases failed
  · exact .inr (buried.act wf admissible alive outbox submitted)

omit [Platform] in
/-- The tombstone was just put into the channel. -/
theorem gone_of_last {before : List WalEntry} {tomb : WalEntry}
    (last : n.waiting = before ++ [tomb]) (kind : tomb.tombstone = true)
    (same : tomb.uuid = uuid) : n.Gone uuid :=
  .inl ⟨before.length, before, tomb, [], last, rfl, kind, same, fun _ mem =>
    absurd mem List.not_mem_nil⟩

omit [Platform] in
/-- When nothing waits any more, no namespace has the UUID. -/
theorem Gone.entryAt (gone : n.Gone uuid) (quiet : n.waiting = []) (m : String) :
    n.index.entryAt m uuid = none := by
  rcases gone with ⟨ahead, before, tomb, after, split, -⟩ | buried
  · rw [quiet] at split
    exact absurd split.symm (List.append_ne_nil_of_right_ne_nil _ (List.cons_ne_nil _ _))
  · by_contra live
    obtain ⟨e, found⟩ := Option.ne_none_iff_exists'.mp live
    exact buried.index m uuid e found rfl

end Runs

end Node

end Ferrocache
