import Ferrocache.Node.Waiting

/-!
# Acknowledged insertions and older removals

A handler, the reaper and an eviction drop an entry first; its tombstone reaches
the index again through the channel, and then removes whatever its UUID names.
As long as no insertion of a UUID is applied while a removal of it is under way,
a tombstone that waits names nothing, and an entry stays until something is
asked to remove it.
-/

namespace Ferrocache.Node

/-! ## Removals under way -/

/-- A tombstone of the UUID waits. -/
def Retiring (n : Node) (u : String) : Prop :=
  ∃ entry, (entry ∈ n.outbox ∨ entry ∈ n.waiting) ∧ entry.tombstone = true ∧ entry.uuid = u

/-- A delete handler is between lookup and removal, or a tombstone waits. -/
def Removing (n : Node) (u : String) : Prop := u ∈ n.deleting.map Prod.fst ∨ n.Retiring u

section Runs

variable [Platform] {cfg : NodeConfig} {n : Node}

theorem act_deleting {a : Action} {pair : String × String}
    (mem : pair ∈ (n.act cfg a).deleting) : pair ∈ n.deleting ∨ a = .lookupDelete pair.1 := by
  have moves : Moves cfg n a (n.act cfg a) := act_moves a
  generalize n.act cfg a = m at moves mem
  cases moves with
  | looksUp uuid named =>
      rcases List.mem_append.mp mem with old | new
      · exact .inl old
      · rw [List.mem_singleton.mp new]
        exact .inr rfl
  | deletes => exact .inl (List.mem_of_mem_eraseIdx mem)
  | boots => cases mem
  | _ => exact .inl mem

/-- A tombstone that an action adds to the outbox names nothing any more. -/
theorem act_outbox (wf : n.index.WellFormed) {a : Action} (admissible : n.Admissible cfg a)
    {entry : WalEntry} (mem : entry ∈ (n.act cfg a).outbox) :
    (crashes a = false ∧ entry ∈ n.outbox) ∨
      (n.act cfg a).index.uuidToNamespace.lookup entry.uuid = none := by
  have unnamed : ∀ {gone : List (String × String)} {idx idx' idx'' : SemanticIndex},
      SemanticIndex.Removed idx idx' gone → SemanticIndex.Loses idx' idx'' [] →
      entry ∈ tombstones gone → idx''.uuidToNamespace.lookup entry.uuid = none := by
    intro gone idx idx' idx'' removed kept due
    obtain ⟨pair, dropped, same⟩ := List.mem_map.mp due
    have away : entry.uuid ∈ gone.map Prod.fst := by
      rw [← same]
      exact List.mem_map_of_mem dropped
    rw [Option.eq_none_iff_forall_ne_some]
    intro m named
    have before := kept.directory _ m named
    rw [removed.directory, if_pos away] at before
    cases before
  have moves : Moves cfg n a (n.act cfg a) := act_moves a
  generalize n.act cfg a = m at moves mem ⊢
  cases moves with
  | waits a noBatch noLine noStart =>
      cases alive : crashes a with
      | false => exact .inl ⟨rfl, mem⟩
      | true =>
          -- a startup that fails is no action
          cases a with
          | restart cut expireOrder now =>
              obtain ⟨-, r, log, started, -⟩ := admissible
              exact absurd started (noStart cut expireOrder now rfl _)
          | _ => cases alive
  | @deletes i uuid modelId found =>
      rcases List.mem_append.mp mem with old | new
      · exact .inl ⟨rfl, old⟩
      · rw [List.mem_singleton.mp new]
        refine .inr (((SemanticIndex.removeByUuid_spec wf uuid).directory uuid).trans ?_)
        exact if_pos rfl
  | invalidates order embedding threshold modelId now =>
      have removed := SemanticIndex.Removed.invalidateSimilar wf order embedding threshold modelId
        now
      rcases List.mem_append.mp mem with old | new
      · exact .inl ⟨rfl, old⟩
      · exact .inr (unnamed removed (.refl removed.wellFormed) new)
  | reaps expireOrder now rebuildOrder pruneOrder =>
      obtain ⟨-, expires, rebuilds, -⟩ := admissible
      have removed := SemanticIndex.Removed.collectExpired wf expires.1 now
      have rebuilt := SemanticIndex.Loses.rebuildDirtyNamespaces removed.wellFormed rebuilds
      rcases List.mem_append.mp mem with old | new
      · exact .inl ⟨rfl, old⟩
      · exact .inr (unnamed removed
          (rebuilt.trans (.pruneEmptyNamespaces rebuilt.wellFormed pruneOrder)) new)
  | sends => exact .inl ⟨rfl, List.mem_of_mem_eraseIdx mem⟩
  | boots cut expireOrder now started =>
      obtain ⟨-, r, log, read, visits⟩ := admissible
      cases started.symm.trans read
      have recovered := wellFormed_of_recover (Log.restart_recover started).1
      have removed := SemanticIndex.Removed.collectExpired recovered visits.1 now
      exact .inr (unnamed removed (.refl removed.wellFormed) mem)
  | _ => exact .inl ⟨rfl, mem⟩

theorem waiting_restart {cut : Cut} {expireOrder : PassOrder} {now : Nat}
    (admissible : n.Admissible cfg (.restart cut expireOrder now)) :
    (n.act cfg (.restart cut expireOrder now)).waiting = [] := by
  obtain ⟨-, r, log, started, -⟩ := admissible
  change ((n.restart cfg cut expireOrder now).getD n).waiting = []
  unfold Node.restart
  rw [boot_of_restart started]
  rfl

/-- A tombstone that waits after an action waited before, or names nothing. -/
theorem act_retiring (wf : n.index.WellFormed) {a : Action} (admissible : n.Admissible cfg a)
    {u : String} (retiring : (n.act cfg a).Retiring u) :
    (crashes a = false ∧ n.Retiring u) ∨ (n.act cfg a).index.uuidToNamespace.lookup u = none := by
  obtain ⟨entry, waits, tomb, same⟩ := retiring
  rcases waits with out | waits
  · rcases act_outbox wf admissible out with ⟨alive, old⟩ | unnamed
    · exact .inl ⟨alive, entry, .inl old, tomb, same⟩
    · rw [same] at unnamed
      exact .inr unnamed
  · refine .inl ?_
    cases alive : crashes a with
    | true =>
        cases a with
        | restart cut expireOrder now =>
            rw [waiting_restart admissible] at waits
            cases waits
        | _ => cases alive
    | false =>
        refine ⟨rfl, ?_⟩
        have step : WaitingStep n a (n.act cfg a).waiting := act_waiting alive
        generalize (n.act cfg a).waiting = after at step waits
        cases step with
        | stays => exact ⟨entry, .inr waits, tomb, same⟩
        | submits submitted =>
            rcases List.mem_append.mp waits with old | new
            · exact ⟨entry, .inr old, tomb, same⟩
            · -- only insertions are submitted
              have insert : submitted.tombstone = false := admissible
              rw [List.mem_singleton.mp new] at tomb
              exact absurd (insert.symm.trans tomb) Bool.false_ne_true
        | sends i found =>
            rcases List.mem_append.mp waits with old | new
            · exact ⟨entry, .inr old, tomb, same⟩
            · rw [List.mem_singleton.mp new] at tomb same
              exact ⟨_, .inl (List.mem_of_getElem? found), tomb, same⟩
        | applies phase head =>
            refine ⟨entry, .inr ?_, tomb, same⟩
            rw [head]
            exact List.mem_cons_of_mem _ waits
        | fails outcome phase failed split =>
            refine ⟨entry, .inr ?_, tomb, same⟩
            rw [split]
            exact List.mem_append_right _ waits

/-- The next line is an insertion of the UUID that the index accepts. -/
def Inserting (n : Node) (u : String) : Prop :=
  ∃ line lines compact, n.phase = .applying (line :: lines) compact ∧ line.tombstone = false ∧
    line.uuid = u ∧ (n.index.replayEntry line).2 = .ok ()

/-- Only an insertion fills a directory slot. -/
theorem act_directory (wf : n.index.WellFormed) {a : Action} (admissible : n.Admissible cfg a)
    (alive : crashes a = false) {u m : String}
    (named : (n.act cfg a).index.uuidToNamespace.lookup u = some m) :
    n.index.uuidToNamespace.lookup u = some m ∨ a = .apply ∧ n.Inserting u := by
  by_cases applies : a = .apply
  · subst applies
    change n.apply.index.uuidToNamespace.lookup u = some m at named
    rcases apply_index_cases n with same | ⟨line, lines, compact, phase, taken⟩
    · rw [same] at named
      exact .inl named
    · rw [taken] at named
      cases kind : line.tombstone with
      | true =>
          rw [SemanticIndex.replayEntry_of_tombstone kind] at named
          exact .inl ((SemanticIndex.removeByUuid_spec wf line.uuid).directory_of_some named)
      | false =>
          by_cases accepted : NamespacedIndex.Accepts (n.index.dimensionOf line.modelId)
              line.cacheEntry.embedding.length
          · have inserted := SemanticIndex.insertInto_of_accepts wf accepted
            by_cases here : u = line.uuid
            · refine .inr ⟨rfl, line, lines, compact, phase, kind, here.symm, ?_⟩
              rw [SemanticIndex.replayEntry_of_insert kind]
              exact inserted.2
            · have other : u ≠ line.cacheEntry.uuid := here
              rw [SemanticIndex.replayEntry_of_insert kind, inserted.1.directory,
                HashMap.lookup_insert_eq, if_neg other] at named
              exact .inl named
          · obtain ⟨msg, rejected⟩ := SemanticIndex.insertInto_of_not_accepts accepted
            rw [SemanticIndex.replayEntry_of_insert kind, rejected] at named
            exact .inl named
  · exact .inl ((act_loses wf admissible applies alive).directory u m named)

/-! ## Runs without a race -/

omit [Platform] in
/-- No tombstone that waits names an entry. -/
def Forgotten (n : Node) : Prop := ∀ u, n.Retiring u → n.index.uuidToNamespace.lookup u = none

/-- No insertion of a UUID is applied while a removal of it is under way. -/
def Unraced (n : Node) : Action → Prop
  | .apply => ∀ u, n.Inserting u → ¬ n.Removing u
  | _ => True

theorem Forgotten.act (forgotten : Forgotten n) (wf : n.index.WellFormed) {a : Action}
    (admissible : n.Admissible cfg a) (unraced : n.Unraced a) : Forgotten (n.act cfg a) := by
  intro u retiring
  rcases act_retiring wf admissible retiring with ⟨alive, before⟩ | unnamed
  · rw [Option.eq_none_iff_forall_ne_some]
    intro m named
    rcases act_directory wf admissible alive named with old | ⟨rfl, inserting⟩
    · rw [forgotten u before] at old
      cases old
    · exact unraced u inserting (.inr before)
  · exact unnamed

theorem Reachable.forgotten (reached : Reachable cfg Unraced n) : Forgotten n := by
  induction reached with
  | new =>
      intro u retiring
      obtain ⟨entry, out | waits, -, -⟩ := retiring
      · cases out
      · cases waits
  | act a before admissible unraced ih => exact ih.act before.wellFormed admissible unraced

/-! ## One entry -/

/-- Nothing is asked to remove the entry of UUID `u` in namespace `m`: no DELETE of
the UUID starts, no invalidation and no LRU eviction drops the entry, its deadline
has not passed, and the node does not crash. -/
def Spares (cfg : NodeConfig) (m u : String) (record : Record) (n : Node) : Action → Prop
  | .lookupDelete uuid => uuid ≠ u
  | .removeDelete _ => True
  | .reap _ now _ _ => ∀ exp, record.expiresAt = some exp → now ≤ exp
  | .restart _ _ _ => False
  | a => (u, m) ∉ n.drops cfg a

omit [Platform] in
/-- The entry is live with its record, and no delete handler is about to remove
it. -/
structure Keeps (n : Node) (m u : String) (record : Record) : Prop where
  live : (n.index.entryAt m u).map (·.record) = some record
  undeleted : u ∉ n.deleting.map Prod.fst

variable {m u : String} {record : Record}

theorem Keeps.notMem_drops (keeps : n.Keeps m u record) (wf : n.index.WellFormed) {a : Action}
    (admissible : n.Admissible cfg a) (spares : n.Spares cfg m u record a) :
    (u, m) ∉ n.drops cfg a := by
  cases a with
  | removeDelete i =>
      intro mem
      unfold drops at mem
      dsimp only at mem
      cases found : n.deleting[i]? with
      | none =>
          rw [found] at mem
          cases mem
      | some pair =>
          rw [found] at mem
          obtain ⟨m', -, same⟩ := List.mem_map.mp mem
          obtain ⟨rfl, -⟩ := Prod.mk.inj same
          exact keeps.undeleted (List.mem_map_of_mem (List.mem_of_getElem? found))
  | reap expireOrder now rebuildOrder pruneOrder =>
      intro mem
      obtain ⟨-, visits, -, -⟩ := admissible
      obtain ⟨e, found, expired⟩ := SemanticIndex.expired_of_mem_collectExpired wf visits mem
      have live := keeps.live
      rw [found] at live
      obtain rfl := Option.some.inj live
      unfold CacheEntry.liveAt at expired
      split at expired
      · cases expired
      · next exp deadline => exact absurd (spares exp deadline) (of_decide_eq_false expired)
  | lookupDelete uuid => exact List.not_mem_nil
  | restart cut expireOrder now => exact List.not_mem_nil
  | _ => exact spares

/-- A line of the log never takes the entry away: a tombstone names nothing, and an
insertion of the UUID into the namespace finds it there. -/
theorem Keeps.replayEntry (keeps : n.Keeps m u record) (wf : n.index.WellFormed)
    (forgotten : Forgotten n) {line : WalEntry} {lines : List WalEntry} {compact : Bool}
    (phase : n.phase = .applying (line :: lines) compact) :
    ((n.index.replayEntry line).1.entryAt m u).map (·.record) = some record := by
  cases kind : line.tombstone with
  | true =>
      have waits : line.unstamped ∈ n.waiting := by
        unfold waiting
        rw [phase]
        exact List.mem_cons_self
      have unnamed := forgotten line.uuid ⟨line.unstamped, .inr waits, kind, rfl⟩
      rw [SemanticIndex.replayEntry_of_tombstone kind,
        (SemanticIndex.removeByUuid_spec wf line.uuid).live, unnamed,
        if_neg fun both => Option.some_ne_none m both.2.symm]
      exact keeps.live
  | false =>
      rw [SemanticIndex.replayEntry_of_insert kind]
      by_cases accepted : NamespacedIndex.Accepts (n.index.dimensionOf line.modelId)
          line.cacheEntry.embedding.length
      · rw [(SemanticIndex.insertInto_of_accepts wf accepted).1.live]
        obtain ⟨e, found, same⟩ := Option.map_eq_some_iff.mp keeps.live
        split
        · rw [found]
          exact congrArg some same
        · exact keeps.live
      · obtain ⟨msg, rejected⟩ := SemanticIndex.insertInto_of_not_accepts accepted
        rw [rejected]
        exact keeps.live

theorem Keeps.act (keeps : n.Keeps m u record) (wf : n.index.WellFormed) (forgotten : Forgotten n)
    {a : Action} (admissible : n.Admissible cfg a) (spares : n.Spares cfg m u record a) :
    (n.act cfg a).Keeps m u record := by
  have alive : crashes a = false := by
    cases a <;> first | rfl | exact spares.elim
  refine ⟨?_, ?_⟩
  · by_cases applies : a = .apply
    · subst applies
      change (n.apply.index.entryAt m u).map _ = _
      rcases apply_index_cases n with same | ⟨line, lines, compact, phase, taken⟩
      · rw [same]
        exact keeps.live
      · rw [taken]
        exact keeps.replayEntry wf forgotten phase
    · rw [(act_loses wf admissible applies alive).live,
        if_neg (keeps.notMem_drops wf admissible spares)]
      exact keeps.live
  · intro mem
    obtain ⟨pair, inside, same⟩ := List.mem_map.mp mem
    rcases act_deleting inside with old | rfl
    · exact keeps.undeleted (same ▸ List.mem_map_of_mem old)
    · exact spares same

/-- An insertion that is answered `Ok` because it creates an entry leaves it there. -/
theorem Keeps.of_applied (wf : n.index.WellFormed) {line : WalEntry} {lines : List WalEntry}
    {compact : Bool} (phase : n.phase = .applying (line :: lines) compact)
    (insert : line.tombstone = false)
    (absent : n.index.entryAt line.modelId line.uuid = none)
    (answered : n.apply.answers line.sequence = some .ok) (unraced : n.Unraced .apply) :
    (n.act cfg .apply).Keeps line.modelId line.uuid line.cacheEntry.record := by
  have ok : (n.index.replayEntry line).2 = .ok () := by
    unfold Node.apply at answered
    rw [phase] at answered
    dsimp only at answered
    rcases result : n.index.replayEntry line with ⟨index, msg | done⟩
    · rw [result] at answered
      simp [answer] at answered
    · rfl
  have undeleted : line.uuid ∉ n.deleting.map Prod.fst := fun mem =>
    unraced line.uuid ⟨line, lines, compact, phase, insert, rfl, ok⟩ (.inl mem)
  refine ⟨?_, ?_⟩
  · change (n.apply.index.entryAt _ _).map _ = _
    rw [apply_index phase, SemanticIndex.replayEntry_of_insert insert]
    by_cases accepted : NamespacedIndex.Accepts (n.index.dimensionOf line.modelId)
        line.cacheEntry.embedding.length
    · rw [(SemanticIndex.insertInto_of_accepts wf accepted).1.live, if_pos ⟨rfl, rfl⟩, absent]
      rfl
    · obtain ⟨msg, rejected⟩ := SemanticIndex.insertInto_of_not_accepts accepted
      rw [SemanticIndex.replayEntry_of_insert insert, rejected] at ok
      cases ok
  · intro mem
    obtain ⟨pair, held, same⟩ := List.mem_map.mp mem
    rcases act_deleting held with old | looked
    · exact undeleted (List.mem_map.mpr ⟨pair, old, same⟩)
    · cases looked

/-- An insertion that was answered `Ok` because it created an entry stays live with
its content until something is asked to remove it, in every run in which no
insertion of a UUID is applied while a removal of it is under way. -/
theorem acknowledged_insert_stays (reached : Reachable cfg Unraced n) {line : WalEntry}
    {lines : List WalEntry} {compact : Bool}
    (phase : n.phase = .applying (line :: lines) compact) (insert : line.tombstone = false)
    (absent : n.index.entryAt line.modelId line.uuid = none)
    (answered : n.apply.answers line.sequence = some .ok) (unraced : n.Unraced .apply)
    {actions : List Action}
    (since : Allowed cfg (fun n a => n.Unraced a ∧
      n.Spares cfg line.modelId line.uuid line.cacheEntry.record a) n.apply actions) :
    ((n.apply.run cfg actions).index.entryAt line.modelId line.uuid).map (·.record) =
      some line.cacheEntry.record := by
  have keeps : (n.act cfg .apply).Keeps line.modelId line.uuid line.cacheEntry.record :=
    Keeps.of_applied reached.wellFormed phase insert absent answered unraced
  change n.apply.Keeps _ _ _ at keeps
  have after : Reachable cfg Unraced n.apply := reached.act .apply trivial unraced
  clear phase absent answered unraced reached
  generalize n.apply = m at since keeps after ⊢
  induction actions generalizing m with
  | nil => exact keeps.live
  | cons a actions ih =>
      obtain ⟨admissible, ⟨unraced, spares⟩, rest⟩ := since
      exact ih (m.act cfg a) rest (keeps.act after.wellFormed after.forgotten admissible spares)
        (after.act a admissible unraced)

end Runs

section Example

local instance acknowledgedPlatform : Platform := Platform.sample

/-- An insertion of UUID `u`, up to the step that applies it. -/
def insertU (response : String) (expiresAt : Option Nat) : List Action :=
  [.submit ⟨"u", [1#32], response, "q", "m", 0, 0, false, expiresAt⟩, .collect 1, .write .synced,
    .acquire]

/-- The rest of the flush iteration, in an index visited in `order`. -/
def finishFlush (order : PassOrder) : List Action :=
  [.apply, .evict [] ⟨[], fun _ => []⟩, .settle order .compacted]

/-- A tick of the reaper, on an index with namespace `m` only. -/
def reapM (before after : List Nat) : Action :=
  .reap ⟨["m"], fun _ => before⟩ 5 ⟨["m"], fun _ => after⟩ ["m"]

/-- A node without deletes and tombstones. -/
theorem unraced_of_quiet {n : Node} (deletes : n.deleting = []) (out : n.outbox = [])
    (waits : ∀ e ∈ n.waiting, e.tombstone = false) : n.Unraced .apply := by
  intro u _ removing
  rcases removing with mem | ⟨entry, sent | waiting, tomb, -⟩
  · rw [deletes] at mem
    cases mem
  · rw [out] at sent
    cases sent
  · rw [waits entry waiting] at tomb
    cases tomb

theorem acknowledged_insert_stays_throughReap :
    let cfg : NodeConfig := ⟨⟨0, none⟩, 256, 0⟩
    let n := run cfg (new cfg) (insertU "r" (some 9))
    ((n.apply.run cfg (finishFlush ⟨["m"], fun _ => [0]⟩ ++ [reapM [0] [0]])).index.entryAt "m"
      "u").map (·.record) = some ⟨[1#32], "r", "q", 0, some 9⟩ := by
  have phase : (run ⟨⟨0, none⟩, 256, 0⟩ (new ⟨⟨0, none⟩, 256, 0⟩) (insertU "r" (some 9))).phase =
      .applying [⟨"u", [1#32], "r", "q", "m", 1, 0, false, some 9⟩] false := by
    decide +kernel
  have quiet : (run ⟨⟨0, none⟩, 256, 0⟩ (new ⟨⟨0, none⟩, 256, 0⟩)
      (insertU "r" (some 9))).Unraced .apply :=
    unraced_of_quiet (by decide +kernel) (by decide +kernel) (by decide +kernel)
  refine acknowledged_insert_stays (Reachable.run .new ?_) phase rfl (by decide +kernel)
    (by decide +kernel) quiet ?_
  · exact ⟨rfl, trivial, ⟨by decide, by decide⟩, trivial, trivial, trivial, trivial, trivial, trivial⟩
  · refine ⟨trivial, ⟨unraced_of_quiet ?_ ?_ ?_, ?_⟩, fun _ capped => (by cases capped),
      ⟨trivial, ?_⟩, ?_, ⟨trivial, ?_⟩, ⟨?_, ?_, ?_, ?_⟩, ⟨trivial, fun exp deadline => ?_⟩, trivial⟩
    · decide +kernel
    · decide +kernel
    · decide +kernel
    · exact List.not_mem_nil
    · change ("u", "m") ∉ Node.drops _ _ _
      decide +kernel
    · change SemanticIndex.Visits _ _
      decide +kernel
    · exact List.not_mem_nil
    · decide +kernel
    · decide +kernel
    · decide +kernel
    · decide +kernel
    · cases deadline
      decide

/-- The entry expires and the reaper drops it; it is inserted again, without a
deadline, and answered `Ok`; then the reaper's tombstone is flushed. -/
theorem tombstone_erases_later_insert :
    let cfg : NodeConfig := ⟨⟨0, none⟩, 256, 0⟩
    let n := run cfg (new cfg) (insertU "r" (some 1) ++ (.apply :: finishFlush ⟨["m"], fun _ => [0]⟩
      ++ (reapM [0] [] :: insertU "s" none)))
    let later := finishFlush ⟨["m"], fun _ => [0]⟩ ++ [.send 0, .collect 1, .write .synced, .acquire,
      .apply]
    let line : WalEntry := ⟨"u", [1#32], "s", "q", "m", 2, 0, false, none⟩
    Reachable cfg (fun _ _ => True) n ∧ n.phase = .applying [line] false ∧
      n.index.entryAt "m" "u" = none ∧ n.apply.answers 2 = some .ok ∧
      Allowed cfg (fun n a => n.Spares cfg "m" "u" line.cacheEntry.record a) n.apply later ∧
      (n.apply.run cfg later).index.entryAt "m" "u" = none := by
  refine ⟨Reachable.run .new ?_, by decide +kernel, by decide +kernel, by decide +kernel, ?_,
    by decide +kernel⟩
  · refine ⟨rfl, trivial, ⟨by decide, by decide⟩, trivial, trivial, trivial, trivial, trivial, trivial,
      trivial, trivial, trivial, fun _ capped => (by cases capped), trivial, ?_, trivial,
      ⟨?_, ?_, ?_, ?_⟩, trivial, rfl, trivial, ⟨by decide, by decide⟩, trivial, trivial, trivial,
      trivial, trivial, trivial⟩
    · change SemanticIndex.Visits _ _
      decide +kernel
    · decide +kernel
    · decide +kernel
    · decide +kernel
    · decide +kernel
  · refine ⟨trivial, List.not_mem_nil, fun _ capped => (by cases capped), ?_, ?_, List.not_mem_nil,
      trivial, List.not_mem_nil, ⟨by decide, by decide⟩, List.not_mem_nil, trivial, List.not_mem_nil,
      trivial, List.not_mem_nil, trivial, List.not_mem_nil, trivial⟩
    · change ("u", "m") ∉ Node.drops _ _ _
      decide +kernel
    · change SemanticIndex.Visits _ _
      decide +kernel

end Example

end Ferrocache.Node
