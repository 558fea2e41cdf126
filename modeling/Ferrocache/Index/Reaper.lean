import Ferrocache.Index.Ids
import Ferrocache.Index.Loss
import Ferrocache.Index.Restore

/-!
# A pass of the expiry reaper

The three sweeps of `expiry_reaper_loop` (`main.rs`), under one write lock:
`collect_expired`, `rebuild_dirty_namespaces`, `prune_empty_namespaces`.  A
namespace that the first sweep drains has only ghosts, so the second one rebuilds
it, and only then does the third find it empty.
-/

namespace Ferrocache

namespace NamespacedIndex

variable {ns : NamespacedIndex}

/-- The ghosts are at most one fifth of the ids on record. -/
def FewGhosts (ns : NamespacedIndex) : Prop :=
  5 * ns.evictedIds.card ≤ HashMap.len ns.entries + ns.evictedIds.card

theorem fewGhosts_of_clean (clean : ns.needsRebuild = false) : ns.FewGhosts := by
  unfold needsRebuild at clean
  unfold FewGhosts
  dsimp only at clean
  split at clean
  case isTrue none => omega
  case isFalse some =>
    have few := of_decide_eq_false clean
    omega

theorem fewGhosts_of_noGhost (none : ns.evictedIds = ∅) : ns.FewGhosts := by
  unfold FewGhosts
  rw [none, Finset.card_empty]
  omega

/-- Without live entries, few ghosts are none. -/
theorem FewGhosts.noGhost (few : ns.FewGhosts) (empty : HashMap.len ns.entries = 0) :
    ns.evictedIds = ∅ := by
  unfold FewGhosts at few
  exact Finset.card_eq_zero.mp (by omega)

end NamespacedIndex

namespace SemanticIndex

section Reaper

variable [Platform] {cfg : HnswConfig} {idx : SemanticIndex}

/-! ## The sweeps -/

/-- The expiry sweep reports every entry past its deadline, and each one once. -/
theorem mem_collectExpired (wf : idx.WellFormed) {order : PassOrder} (visits : Visits order idx)
    (now : Nat) (u m : String) :
    (u, m) ∈ (idx.collectExpired order now).2 ↔
      ∃ e, idx.entryAt m u = some e ∧ e.liveAt now = false := by
  constructor
  · exact expired_of_mem_collectExpired wf visits
  · intro given
    obtain ⟨e, found, expired⟩ := given
    obtain ⟨ns, known, live⟩ := Option.bind_eq_some_iff.mp found
    unfold collectExpired
    dsimp only
    rw [HashMap.mem_forEach_out _ visits.1.1]
    refine ⟨m, (visits.1.2 m).mpr (Finmap.mem_of_lookup_eq_some known), ns, known, ?_⟩
    have dropped := ((wf m ns known).mem_collectExpiredWithin (visits.2 m ns known) u).mpr
      ⟨e, live, expired⟩
    obtain ⟨pair, inside, rfl⟩ := List.mem_map.mp dropped
    exact List.mem_map.mpr ⟨pair, inside, rfl⟩

theorem nodup_collectExpired (wf : idx.WellFormed) {order : PassOrder} (visits : Visits order idx)
    (now : Nat) : (idx.collectExpired order now).2.Nodup := by
  unfold collectExpired
  dsimp only
  have keyed : ∀ (m : String) (ns : NamespacedIndex),
      ∀ pair ∈ ((ns.collectExpiredWithin (order.entries m) now).2.map fun e => (e.1, m)),
        pair.2 = m := by
    intro m ns pair mem
    obtain ⟨e, -, rfl⟩ := List.mem_map.mp mem
    rfl
  refine HashMap.nodup_forEach_out keyed visits.1.1 fun m _ ns known => ?_
  have removed := NamespacedIndex.Removed.dropAll (wf m ns known)
    (ns.expiredIds (order.entries m) now)
  have paired := removed.nodup.map (f := fun u => (u, m)) fun u u' same => congrArg Prod.fst same
  rw [List.map_map] at paired
  exact paired

omit [Platform] in
/-- The namespaces after a rebuild pass. -/
theorem lookup_rebuildDirty {order : PassOrder} (visits : Visits order idx) (m : String) :
    (idx.rebuildDirtyNamespaces order).1.namespaces.lookup m =
      (idx.namespaces.lookup m).map fun ns =>
        if ns.needsRebuild then ns.rebuild (order.entries m) else ns := by
  unfold rebuildDirtyNamespaces
  dsimp only
  rw [HashMap.lookup_forEach _ visits.1]
  congr 1
  funext ns
  split <;> rfl

/-- A rebuild pass leaves few ghosts everywhere. -/
theorem fewGhosts_rebuildDirty (wf : idx.WellFormed) {order : PassOrder}
    (visits : Visits order idx) {m : String} {ns : NamespacedIndex}
    (known : (idx.rebuildDirtyNamespaces order).1.namespaces.lookup m = some ns) :
    ns.FewGhosts := by
  rw [lookup_rebuildDirty visits] at known
  obtain ⟨before, found, rfl⟩ := Option.map_eq_some_iff.mp known
  split
  case isTrue dirty =>
    have dense := ((wf m before found).rebuild_spec (visits.2 m before found)).1
    exact NamespacedIndex.fewGhosts_of_noGhost dense.noGhost
  case isFalse clean =>
    exact NamespacedIndex.fewGhosts_of_clean (Bool.eq_false_iff.mpr clean)

omit [Platform] in
/-- The namespaces after the pruning sweep. -/
theorem lookup_pruneEmpty {order : List String} (iter : HashMap.IterOrder idx.namespaces order)
    {m : String} {ns : NamespacedIndex} :
    (idx.pruneEmptyNamespaces order).1.namespaces.lookup m = some ns ↔
      idx.namespaces.lookup m = some ns ∧
        ¬ (isConversationKey m = true ∧ HashMap.len ns.entries = 0 ∧ ns.evictedIds = ∅) := by
  have pruned : idx.namespaces.lookup m = some ns → (m ∈ idx.prunable order ↔
      isConversationKey m = true ∧ HashMap.len ns.entries = 0 ∧ ns.evictedIds = ∅) := by
    intro known
    have listed := (iter.2 m).mpr (Finmap.mem_of_lookup_eq_some known)
    simp [prunable, List.mem_filter, listed, known]
  unfold pruneEmptyNamespaces
  dsimp only
  rw [HashMap.lookup_eraseAll]
  constructor
  · intro given
    split at given
    case isTrue => cases given
    case isFalse kept => exact ⟨given, fun empty => kept ((pruned given).mpr empty)⟩
  · intro given
    obtain ⟨known, kept⟩ := given
    rw [if_neg fun gone => kept ((pruned known).mp gone)]
    exact known

/-! ## UUIDs that are used in one namespace -/

/-- If the call inserts the UUID `u`, it does so into namespace `m`. -/
def Op.InsertsAt (u m : String) : Op → Prop
  | .replayEntry entry => entry.tombstone = false → entry.uuid = u → entry.modelId = m
  | .replaySnapshotEntry entry => entry.uuid = u → entry.modelId = m
  | _ => True

/-- The states after any sequence of calls and query hits that uses `u` in `m`
only. -/
inductive UsedIn (cfg : HnswConfig) (u m : String) : SemanticIndex → Prop
  | new : UsedIn cfg u m (new cfg)
  | call {idx : SemanticIndex} (op : Op) : UsedIn cfg u m idx → idx.Admissible op →
    op.InsertsAt u m → UsedIn cfg u m (idx.apply op)
  | access {idx : SemanticIndex} (modelId : String) (internalId now : Nat) : UsedIn cfg u m idx →
    UsedIn cfg u m (idx.recordAccess modelId internalId now)

/-- The UUID is live in `m` at most, and the directory says so. -/
def HousedIn (idx : SemanticIndex) (u m : String) : Prop :=
  idx.HousedAt u ∧ ∀ m', idx.entryAt m' u ≠ none → m' = m

variable {u m : String}

theorem HousedIn.of_loses {idx' : SemanticIndex} {gone : List (String × String)}
    (housed : idx.HousedIn u m) (loses : Loses idx idx' gone) : idx'.HousedIn u m := by
  refine ⟨loses.housed u housed.1, fun m' live => housed.2 m' fun none => live ?_⟩
  have records := loses.live m' u
  rw [none, Option.map_none, ite_self] at records
  exact Option.map_eq_none_iff.mp records

theorem HousedIn.insertInto (housed : idx.HousedIn u m) (wf : idx.WellFormed) {modelId : String}
    {entry : CacheEntry} (home : entry.uuid = u → modelId = m) :
    (idx.insertInto modelId entry).1.HousedIn u m := by
  by_cases accepted : NamespacedIndex.Accepts (idx.dimensionOf modelId) entry.embedding.length
  · have inserted := (insertInto_of_accepts wf accepted).1
    by_cases same : u = entry.uuid
    · obtain rfl := home same.symm
      have within : ∀ m', (idx.insertInto modelId entry).1.entryAt m' u ≠ none → m' = modelId := by
        intro m' live
        by_contra other
        rw [inserted.live, if_neg fun both => other both.1] at live
        exact other (housed.2 m' live)
      refine ⟨fun m' live => ?_, within⟩
      rw [inserted.directory, HashMap.lookup_insert_eq, if_pos same, within m' live]
    · have kept : ∀ m', (idx.insertInto modelId entry).1.entryAt m' u = idx.entryAt m' u := by
        intro m'
        rw [inserted.live, if_neg fun both => same both.2]
      refine ⟨fun m' live => ?_, fun m' live => housed.2 m' (kept m' ▸ live)⟩
      rw [inserted.directory, HashMap.lookup_insert_eq, if_neg same]
      exact housed.1 m' (kept m' ▸ live)
  · obtain ⟨msg, rejected⟩ := insertInto_of_not_accepts accepted
    rw [rejected]
    exact housed

theorem HousedIn.apply (housed : idx.HousedIn u m) (wf : idx.WellFormed) {op : Op}
    (admissible : idx.Admissible op) (home : op.InsertsAt u m) : (idx.apply op).HousedIn u m := by
  cases op with
  | replayEntry entry =>
      simp only [SemanticIndex.apply, replayEntry]
      split
      case isTrue tombstone => exact housed.of_loses (Loses.removeByUuid_home wf entry.uuid)
      case isFalse insertion =>
        exact housed.insertInto wf (home (Bool.eq_false_iff.mpr insertion))
  | replaySnapshotEntry entry => exact housed.insertInto wf home
  | removeByUuid uuid => exact housed.of_loses (Loses.removeByUuid_home wf uuid)
  | evictToCap order maxEntries =>
      exact housed.of_loses (.of_removed (Removed.evictToCap wf admissible maxEntries))
  | collectExpired order now =>
      exact housed.of_loses (.of_removed (Removed.collectExpired wf admissible.1 now))
  | invalidateSimilar order embedding threshold modelId now =>
      exact housed.of_loses
        (.of_removed (Removed.invalidateSimilar wf order embedding threshold modelId now))
  | rebuildDirtyNamespaces order =>
      exact housed.of_loses (Loses.rebuildDirtyNamespaces wf admissible)
  | pruneEmptyNamespaces order => exact housed.of_loses (Loses.pruneEmptyNamespaces wf order)

theorem UsedIn.housedIn (used : UsedIn cfg u m idx) : idx.WellFormed ∧ idx.HousedIn u m := by
  induction used with
  | new =>
      refine ⟨wellFormed_new cfg, fun m' live => ?_, fun m' live => ?_⟩
      · exact absurd (entryAt_of_absent (Finmap.lookup_empty m') u) live
      · exact absurd (entryAt_of_absent (Finmap.lookup_empty m') u) live
  | call op _ admissible home ih => exact ⟨ih.1.apply admissible, ih.2.apply ih.1 admissible home⟩
  | access modelId internalId now _ ih =>
      exact ⟨(recordAccess_spec ih.1 modelId internalId now).1,
        ih.2.of_loses (Loses.recordAccess ih.1 modelId internalId now)⟩

/-! ## The pass -/

/-- The index after one tick of the reaper. -/
def reaped (idx : SemanticIndex) (expireOrder : PassOrder) (now : Nat) (rebuildOrder : PassOrder)
    (pruneOrder : List String) : SemanticIndex :=
  let collected := (idx.collectExpired expireOrder now).1
  let rebuilt := (collected.rebuildDirtyNamespaces rebuildOrder).1
  (rebuilt.pruneEmptyNamespaces pruneOrder).1

/-- The outcome of a tick, with the pairs of UUID and namespace that it returns. -/
structure Reaped (idx after : SemanticIndex) (expired : List (String × String)) (now : Nat) :
    Prop where
  /-- the expired entries are gone, and the others unchanged -/
  live : ∀ m u, after.entryAt m u = (idx.entryAt m u).filter (·.liveAt now)
  once : expired.Nodup
  reported : ∀ u m, (u, m) ∈ expired ↔ ∃ e, idx.entryAt m u = some e ∧ e.liveAt now = false
  occupied : ∀ m ns, after.namespaces.lookup m = some ns → isConversationKey m = true →
    ∃ u e, after.entryAt m u = some e
  standing : ∀ m, m ∈ idx.namespaces → isConversationKey m = false → m ∈ after.namespaces
  fewGhosts : ∀ m ns, after.namespaces.lookup m = some ns → ns.FewGhosts

section Pass

variable {expireOrder rebuildOrder : PassOrder} {pruneOrder : List String} {now : Nat}
  (wf : idx.WellFormed) (expires : Visits expireOrder idx)
  (rebuilds : Visits rebuildOrder (idx.collectExpired expireOrder now).1)
  (prunes : HashMap.IterOrder ((idx.collectExpired expireOrder now).1.rebuildDirtyNamespaces
    rebuildOrder).1.namespaces pruneOrder)

include wf expires rebuilds

/-- The three sweeps lose what the first one reports. -/
theorem loses_reaped : Loses idx (idx.reaped expireOrder now rebuildOrder pruneOrder)
    (idx.collectExpired expireOrder now).2 := by
  have collected := Loses.of_removed (Removed.collectExpired wf expires.1 now)
  have rebuilt := Loses.rebuildDirtyNamespaces collected.wellFormed rebuilds
  exact (collected.trans rebuilt).trans (Loses.pruneEmptyNamespaces rebuilt.wellFormed pruneOrder)

theorem entryAt_reaped (m u : String) :
    (idx.reaped expireOrder now rebuildOrder pruneOrder).entryAt m u =
      (idx.entryAt m u).filter (·.liveAt now) := by
  have removed := Removed.collectExpired wf expires.1 now
  have rebuilt := (rebuildDirtyNamespaces_spec removed.wellFormed rebuilds).1
  have pruned := (pruneEmptyNamespaces_spec rebuilt.wellFormed pruneOrder).1
  refine (pruned.live m u).trans ((rebuilt.live m u).trans ?_)
  rw [removed.live]
  have reported := mem_collectExpired wf expires now u m
  cases found : idx.entryAt m u with
  | none => rw [ite_self, Option.filter_none]
  | some e =>
      rw [found] at reported
      cases live : e.liveAt now with
      | true =>
          have kept : (u, m) ∉ (idx.collectExpired expireOrder now).2 := by
            intro gone
            obtain ⟨e', same, expired⟩ := reported.mp gone
            cases same
            rw [live] at expired
            cases expired
          rw [if_neg kept]
          simp [Option.filter, live]
      | false =>
          rw [if_pos (reported.mpr ⟨e, rfl, live⟩)]
          simp [Option.filter, live]

include prunes

theorem reaped_spec : Reaped idx (idx.reaped expireOrder now rebuildOrder pruneOrder)
    (idx.collectExpired expireOrder now).2 now := by
  have collected := (Removed.collectExpired wf expires.1 now).wellFormed
  have few : ∀ m ns,
      (idx.reaped expireOrder now rebuildOrder pruneOrder).namespaces.lookup m = some ns →
        ns.FewGhosts := by
    intro m ns known
    exact fewGhosts_rebuildDirty collected rebuilds ((lookup_pruneEmpty prunes).mp known).1
  refine ⟨entryAt_reaped wf expires rebuilds, nodup_collectExpired wf expires now,
    mem_collectExpired wf expires now, fun m ns known conversation => ?_, ?_, few⟩
  · -- an empty namespace would have few ghosts, so none, and would have been pruned
    obtain ⟨-, kept⟩ := (lookup_pruneEmpty prunes).mp known
    have filled : HashMap.len ns.entries ≠ 0 := fun empty =>
      kept ⟨conversation, empty, (few m ns known).noGhost empty⟩
    obtain ⟨i, e, found⟩ : ∃ i e, ns.entries.lookup i = some e := by
      by_contra none
      refine filled (HashMap.len_eq_zero.mpr fun i => Option.eq_none_iff_forall_ne_some.mpr ?_)
      exact fun e found => none ⟨i, e, found⟩
    have good := (loses_reaped wf expires rebuilds).wellFormed m ns known
    refine ⟨e.uuid, e, ?_⟩
    rw [entryAt_of_lookup known]
    exact good.getByUuid_of_entry found
  · intro m member base
    obtain ⟨ns, known⟩ := Finmap.mem_iff.mp member
    obtain ⟨ns', swept, -⟩ := lookup_collectExpired known expires.1 now
    have rebuilt := lookup_rebuildDirty rebuilds m
    rw [swept, Option.map_some] at rebuilt
    have after := (lookup_pruneEmpty prunes).mpr ⟨rebuilt, fun empty => by simp [base] at empty⟩
    exact Finmap.mem_of_lookup_eq_some after

end Pass

/-- One tick of the reaper on an index in use. -/
theorem reaper_pass (used : Used cfg idx) {expireOrder rebuildOrder : PassOrder}
    {pruneOrder : List String} {now : Nat} (expires : Visits expireOrder idx)
    (rebuilds : Visits rebuildOrder (idx.collectExpired expireOrder now).1)
    (prunes : HashMap.IterOrder ((idx.collectExpired expireOrder now).1.rebuildDirtyNamespaces
      rebuildOrder).1.namespaces pruneOrder) :
    let after := idx.reaped expireOrder now rebuildOrder pruneOrder
    Reaped idx after (idx.collectExpired expireOrder now).2 now ∧
      ∀ u m e, UsedIn cfg u m idx → after.entryAt m u = some e →
        after.getEntryByUuid u = some ⟨e.uuid, e.embedding, e.response, e.queryText, m,
          e.insertedAt, e.lastAccessedAt, e.accessCount, e.expiresAt⟩ := by
  have wf := used.wellFormed
  refine ⟨reaped_spec wf expires rebuilds prunes, fun u m e usedIn live => ?_⟩
  have loses : Loses idx (idx.reaped expireOrder now rebuildOrder pruneOrder) _ :=
    loses_reaped wf expires rebuilds
  have housed := usedIn.housedIn.2.of_loses loses
  refine getEntryByUuid_of_slot (housed.1 m ?_) live
  rw [live]
  exact Option.some_ne_none e

end Reaper

section Example

local instance reaperExamplePlatform : Platform := Platform.sample

/-- A line with a deadline. -/
def reaperLine (uuid modelId : String) (expiresAt : Option Nat) : WalEntry :=
  ⟨uuid, [1#32], "r", uuid, modelId, 1, 7, false, expiresAt⟩

/-- A conversation whose only entry has expired at 9, and a base namespace. -/
def reaperSample : SemanticIndex :=
  ((((new ⟨64, none⟩).replayEntry (reaperLine "a" "m::1::conv_x" (some 8))).1).replayEntry
    (reaperLine "b" "m::1" none)).1

/-- The orders of the two loops over entries; one table is empty by the second. -/
def reaperOrder : PassOrder := ⟨["m::1", "m::1::conv_x"], fun _ => [0]⟩

def reaperRebuildOrder : PassOrder :=
  ⟨["m::1", "m::1::conv_x"], fun m => if m = "m::1" then [0] else []⟩

/-- The pass reports the expired entry and drops its namespace. -/
theorem reaper_pass_sample :
    let after := reaperSample.reaped reaperOrder 9 reaperRebuildOrder reaperOrder.namespaces
    (reaperSample.collectExpired reaperOrder 9).2 = [("a", "m::1::conv_x")] ∧
      "m::1::conv_x" ∉ after.namespaces ∧ "m::1" ∈ after.namespaces ∧
      (after.getEntryByUuid "b").map (·.modelId) = some "m::1" := by
  have used : Used ⟨64, none⟩ reaperSample :=
    .call (.replayEntry (reaperLine "b" "m::1" none))
      (.call (.replayEntry (reaperLine "a" "m::1::conv_x" (some 8))) .new trivial) trivial
  have usedIn : UsedIn ⟨64, none⟩ "b" "m::1" reaperSample := by
    refine .call (.replayEntry (reaperLine "b" "m::1" none))
      (.call (.replayEntry (reaperLine "a" "m::1::conv_x" (some 8))) .new trivial ?_) trivial ?_
    · intro _ other
      exact absurd other (by decide)
    · exact fun _ _ => rfl
  obtain ⟨spec, found⟩ := reaper_pass used (by decide +kernel : Visits reaperOrder reaperSample)
    (by decide +kernel : Visits reaperRebuildOrder (reaperSample.collectExpired reaperOrder 9).1)
    (by decide +kernel : HashMap.IterOrder ((reaperSample.collectExpired reaperOrder
      9).1.rebuildDirtyNamespaces reaperRebuildOrder).1.namespaces reaperOrder.namespaces)
  have live : (reaperSample.reaped reaperOrder 9 reaperRebuildOrder reaperOrder.namespaces).entryAt
      "m::1" "b" = some (reaperLine "b" "m::1" none).cacheEntry := by
    rw [spec.live]
    decide +kernel
  refine ⟨by decide +kernel, by decide +kernel, spec.standing "m::1" (by decide +kernel)
    (by decide +kernel), ?_⟩
  rw [found "b" "m::1" _ usedIn live]
  rfl

end Example

end SemanticIndex

end Ferrocache
