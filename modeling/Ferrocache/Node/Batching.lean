import Ferrocache.Index.Survivors
import Ferrocache.Node.GroupCommit

/-!
# Batches and eviction

The flush task writes and applies the inserts in batches and evicts down to the
cap after each of them.  How the inserts are split into batches is up to the
batch size and the timeout, and so is which entries are present together when
an eviction takes place.  As long as the timestamps tell the entries apart, the
survivors do not depend on it: an entry that is evicted early would not have
survived a later eviction either.
-/

namespace Ferrocache

/-- The entries that a list of inserts adds. -/
def added (lines : List WalEntry) : Finset CacheEntry := (lines.map (·.cacheEntry)).toFinset

theorem mem_added {lines : List WalEntry} {e : CacheEntry} :
    e ∈ added lines ↔ ∃ line ∈ lines, line.cacheEntry = e := by
  unfold added
  rw [List.mem_toFinset, List.mem_map]

theorem added_append (first second : List WalEntry) :
    added (first ++ second) = added first ∪ added second := by
  unfold added
  rw [List.map_append, List.toFinset_append]

/-- A tombstone of the UUID is among the lines. -/
def Tombstoned (lines : List WalEntry) (u : String) : Prop :=
  ∃ line ∈ lines, line.tombstone = true ∧ line.uuid = u

theorem tombstoned_append {first second : List WalEntry} {u : String} :
    Tombstoned (first ++ second) u ↔ Tombstoned first u ∨ Tombstoned second u := by
  unfold Tombstoned
  simp only [List.mem_append, or_and_right, exists_or]

namespace Node

section Batching

variable [Platform] {cfg : NodeConfig} {n n' last : Node} {home : String} {d maxEntries : Nat}
  {batch rest : List WalEntry} {batches : List (List WalEntry)}

/-- `flush_insert_batch`, whose write succeeds. -/
def flushInsertBatch (n : Node) (batch : List WalEntry) : Node :=
  ({ n with phase := .collected batch false }.write .synced).acquire.applyAll

/-- `flush_insert_batch` and `evict_to_cap_step`, with writes that succeed. -/
def flushBatch (cfg : NodeConfig) (n : Node) (batch : List WalEntry) (evictOrder : List String)
    (rebuildOrder : PassOrder) : Node :=
  ((n.flushInsertBatch batch).evict cfg evictOrder rebuildOrder).writeTombstones .synced

/-- The UUIDs with a tombstone among the lines written since an earlier state. -/
def tombstonedSince (n last : Node) : Finset String :=
  (((last.log.disk.file.lines.drop n.log.disk.file.lines.length).filter (·.tombstone)).map
    (·.uuid)).toFinset

/-- A round of the loop that takes inserts is such a batch, up to the compaction. -/
theorem flushRound_eq_flushBatch {r : Round} (idle : n.phase = .idle) {entry : WalEntry}
    {queue : List Command} (taken : takeBatch r.size n.queue = (entry :: batch, false, queue))
    (synced : r.outcome = .synced) (tombstonesSynced : r.tombstoneOutcome = .synced) :
    n.flushRound cfg r = ({ n with queue := queue }.flushBatch cfg (entry :: batch) r.evictOrder
      r.rebuildOrder).settle cfg r.autoOrder r.autoOutcome := by
  have collected : n.collect r.size =
      { n with queue := queue, phase := .collected (entry :: batch) false } := by
    unfold collect
    rw [idle, taken]
  unfold flushRound
  dsimp only
  rw [collected, synced, tombstonesSynced]
  rfl

/-- Batches one after the other, each followed by an eviction.  A batch is not
empty, the passes visit their tables, and the sequence counter has room. -/
inductive Flushed (cfg : NodeConfig) (maxEntries : Nat) : Node → List (List WalEntry) → Node → Prop
  | nil (n : Node) : Flushed cfg maxEntries n [] n
  | cons {n last : Node} {batch : List WalEntry} {batches : List (List WalEntry)}
    (evictOrder : List String) (rebuildOrder : PassOrder) : batch ≠ [] →
    (n.flushInsertBatch batch).Admissible cfg (.evict evictOrder rebuildOrder) →
    n.log.sequence + batch.length +
      ((n.flushInsertBatch batch).index.evictToCap evictOrder maxEntries).2.length ≤ u64Max →
    Flushed cfg maxEntries (n.flushBatch cfg batch evictOrder rebuildOrder) batches last →
    Flushed cfg maxEntries n (batch :: batches) last

/-- Inserts into one namespace, of its dimension and under new UUIDs, such that
the timestamps tell all its entries apart. -/
structure Fresh (idx : SemanticIndex) (home : String) (d : Nat) (inserts : List WalEntry) :
    Prop where
  placed : ∀ line ∈ inserts, line.tombstone = false ∧ line.modelId = home ∧
    line.embedding.length = d
  accepts : NamespacedIndex.Accepts (idx.dimensionOf home) d
  distinct : inserts.Pairwise fun line line' => line.uuid ≠ line'.uuid
  unknown : ∀ line ∈ inserts, idx.entryAt home line.uuid = none
  differ : Set.InjOn CacheEntry.recency (idx.held home ∪ added inserts : Finset CacheEntry)

/-! ## Inserts -/

/-- What is left of the inserts is still new after some of them. -/
theorem Fresh.later {idx idx' : SemanticIndex} (fresh : Fresh idx home d (batch ++ rest))
    (wf : idx.WellFormed) (wf' : idx'.WellFormed)
    (accepts : NamespacedIndex.Accepts (idx'.dimensionOf home) d)
    (subset : idx'.held home ⊆ idx.held home ∪ added batch) : Fresh idx' home d rest := by
  obtain ⟨-, distinct, between⟩ := List.pairwise_append.mp fresh.distinct
  constructor
  case placed => exact fun line mem => fresh.placed line (List.mem_append_right _ mem)
  case accepts => exact accepts
  case distinct => exact distinct
  case unknown =>
    intro line mem
    by_contra live
    obtain ⟨e, there, named⟩ := wf'.entryAt_ne_none.mp live
    rcases Finset.mem_union.mp (subset there) with old | new
    · exact wf.entryAt_ne_none.mpr ⟨e, old, named⟩
        (fresh.unknown line (List.mem_append_right _ mem))
    · obtain ⟨line', mem', rfl⟩ := mem_added.mp new
      exact between line' mem' line mem named
  case differ =>
    refine fresh.differ.mono (Finset.coe_subset.mpr ?_)
    rw [added_append, ← Finset.union_assoc]
    exact Finset.union_subset_union_left subset

omit [Platform] in
theorem Fresh.first {idx : SemanticIndex} (fresh : Fresh idx home d (batch ++ rest)) :
    Fresh idx home d batch := by
  constructor
  case placed => exact fun line mem => fresh.placed line (List.mem_append_left _ mem)
  case accepts => exact fresh.accepts
  case distinct => exact (List.pairwise_append.mp fresh.distinct).1
  case unknown => exact fun line mem => fresh.unknown line (List.mem_append_left _ mem)
  case differ =>
    refine fresh.differ.mono (Finset.coe_subset.mpr ?_)
    rw [added_append]
    exact Finset.union_subset_union_right Finset.subset_union_left

/-- Later inserts are none of the entries there are before them. -/
theorem Fresh.disjoint {idx : SemanticIndex} (fresh : Fresh idx home d (batch ++ rest))
    (wf : idx.WellFormed) : Disjoint (idx.held home ∪ added batch) (added rest) := by
  obtain ⟨-, -, between⟩ := List.pairwise_append.mp fresh.distinct
  refine Finset.disjoint_left.mpr fun e before after => ?_
  obtain ⟨line, mem, rfl⟩ := mem_added.mp after
  rcases Finset.mem_union.mp before with old | new
  · exact wf.entryAt_ne_none.mpr ⟨_, old, rfl⟩
      (fresh.unknown line (List.mem_append_right _ mem))
  · obtain ⟨line', mem', same⟩ := mem_added.mp new
    exact between line' mem' line mem (congrArg CacheEntry.uuid same)

/-- The index after the stamped lines of new inserts. -/
theorem Fresh.replayAll {idx : SemanticIndex} (fresh : Fresh idx home d batch)
    (wf : idx.WellFormed) (sequence : Nat) :
    let idx' := replayAll idx (stampFrom sequence batch)
    idx'.WellFormed ∧ NamespacedIndex.Accepts (idx'.dimensionOf home) d ∧
      idx'.held home = idx.held home ∪ added batch ∧
      ∀ m, m ≠ home → idx'.namespaceMut m = idx.namespaceMut m := by
  induction batch generalizing idx sequence with
  | nil => exact ⟨wf, fresh.accepts, (Finset.union_empty _).symm, fun _ _ => rfl⟩
  | cons line batch ih =>
      obtain ⟨insert, target, size⟩ := fresh.placed line List.mem_cons_self
      have first : idx.replayEntry { line with sequence := sequence + 1 } =
          idx.insertInto home line.cacheEntry :=
        (SemanticIndex.replayEntry_of_insert insert).trans
          (congrArg (idx.insertInto · line.cacheEntry) target)
      have accepted : NamespacedIndex.Accepts (idx.dimensionOf home)
          line.cacheEntry.embedding.length := by
        have accepts := fresh.accepts
        rw [← size] at accepts
        exact accepts
      obtain ⟨inserted, -⟩ := SemanticIndex.insertInto_of_accepts wf accepted
      have held := inserted.held wf (fresh.unknown line List.mem_cons_self)
      have sized := inserted.dimension home
      rw [if_pos rfl] at sized
      have single : added [line] = {line.cacheEntry} := rfl
      have joined : (idx.insertInto home line.cacheEntry).1.held home =
          idx.held home ∪ added [line] := by
        rw [held, single, Finset.union_comm, Finset.insert_eq]
      have later : Fresh (idx.insertInto home line.cacheEntry).1 home d batch := by
        have split : Fresh idx home d ([line] ++ batch) := fresh
        refine split.later wf inserted.wellFormed (.inr ?_) joined.le
        exact sized.trans (congrArg some size)
      obtain ⟨good, accepts, all, others⟩ := ih later inserted.wellFormed (sequence + 1)
      have unfolded : Node.replayAll idx (stampFrom sequence (line :: batch)) =
          Node.replayAll (idx.insertInto home line.cacheEntry).1
            (stampFrom (sequence + 1) batch) := by
        rw [← first]
        rfl
      rw [unfolded]
      refine ⟨good, accepts, ?_, fun m other => ?_⟩
      · rw [all, joined, Finset.union_assoc, ← added_append, List.singleton_append]
      · rw [others m other, SemanticIndex.namespaceMut_insertInto, if_neg other]

/-! ## One batch -/

omit [Platform] in
/-- Whatever stands at the end of the file, a batch adds some of its lines, and
the last of them is whole. -/
theorem lines_append (file : File) {lines : List WalEntry} (nonempty : lines ≠ []) :
    (file.append lines).tail = .whole ∧
      ∃ kept, (file.append lines).lines = file.lines ++ kept ∧ kept ⊆ lines := by
  cases lines with
  | nil => exact absurd rfl nonempty
  | cons line lines =>
      unfold File.append
      cases file.tail with
      | whole => exact ⟨rfl, _, rfl, fun _ mem => mem⟩
      | torn => exact ⟨rfl, _, rfl, List.subset_cons_self _ _⟩
      | bare entry => exact ⟨rfl, _, rfl, List.subset_cons_self _ _⟩
      | cut => exact ⟨rfl, _, rfl, List.subset_cons_self _ _⟩

omit [Platform] in
theorem tombstoned_stampFrom (sequence : Nat) (out : List EvictedEntry) (u : String) :
    Tombstoned (stampFrom sequence (evictedTombstones out)) u ↔ ∃ m, ⟨u, m⟩ ∈ out := by
  unfold Tombstoned
  induction out generalizing sequence with
  | nil => simp [evictedTombstones, tombstones, stampFrom]
  | cons e out ih =>
      have unfolded : stampFrom sequence (evictedTombstones (e :: out)) =
          { WalEntry.tombstoneEntry e.uuid e.modelId with sequence := sequence + 1 } ::
            stampFrom (sequence + 1) (evictedTombstones out) := rfl
      rw [unfolded]
      simp only [List.mem_cons, exists_eq_or_imp, ih, exists_or]
      refine or_congr_left ?_
      constructor
      · intro given
        rcases given with ⟨-, rfl⟩
        exact ⟨e.modelId, rfl⟩
      · intro given
        rcases given with ⟨m, rfl⟩
        exact ⟨rfl, rfl⟩

omit [Platform] in
/-- The lines of a batch of inserts and of the tombstones after it: the first of
them may be lost at the end of a damaged file, the tombstones are all there. -/
theorem lines_flushed (file : File) {sequence : Nat} (fits : sequence + batch.length ≤ u64Max)
    (nonempty : batch ≠ []) (inserts : ∀ line ∈ batch, line.tombstone = false) {next : Nat}
    {out : List EvictedEntry} {after : File}
    (written : after = (file.append (stampFrom sequence batch)).append
      (stampFrom next (evictedTombstones out))) :
    ∃ lines, after.lines = file.lines ++ lines ∧
      ∀ u, Tombstoned lines u ↔ ∃ m, ⟨u, m⟩ ∈ out := by
  have stamped := (stampBatch_spec sequence batch).2 _ (by rw [stampBatch_eq fits])
  have some : stampFrom sequence batch ≠ [] := by
    cases batch with
    | nil => exact absurd rfl nonempty
    | cons line batch => exact List.cons_ne_nil _ _
  obtain ⟨whole, lines, appended, subset⟩ := lines_append file some
  rw [File.append_whole whole] at written
  refine ⟨_, by rw [written, appended, List.append_assoc], fun u => ?_⟩
  have silent : ¬ Tombstoned lines u := by
    intro tombstoned
    rcases tombstoned with ⟨line, mem, tomb, -⟩
    obtain ⟨entry, inside, eq⟩ := stamped.origin (subset mem)
    rw [eq] at tomb
    exact absurd tomb (by rw [inserts entry inside]; exact Bool.false_ne_true)
  rw [tombstoned_append, tombstoned_stampFrom, or_iff_right silent]

theorem flushInsertBatch_spec (room : n.log.sequence + batch.length ≤ u64Max) :
    (n.flushInsertBatch batch).phase = .flushed false ∧
      (n.flushInsertBatch batch).index =
        Node.replayAll n.index (stampFrom n.log.sequence batch) ∧
      (n.flushInsertBatch batch).log.sequence = n.log.sequence + batch.length ∧
      (n.flushInsertBatch batch).log.disk.file =
        n.log.disk.file.append (stampFrom n.log.sequence batch) := by
  have collected : { n with phase := .collected batch false }.phase =
      .collected batch false := rfl
  obtain ⟨-, -, phase, -, index, log⟩ := applyBatch_spec collected room
  refine ⟨phase, index, ?_, ?_⟩
  · exact congrArg Log.sequence log
  · exact congrArg (fun log => log.disk.file) log

/-- The index and the file after a batch and the eviction. -/
theorem flushBatch_spec (cap : cfg.hnsw.maxEntriesPerNamespace = some maxEntries)
    {evictOrder : List String} (rebuildOrder : PassOrder)
    (room : n.log.sequence + batch.length +
      ((n.flushInsertBatch batch).index.evictToCap evictOrder maxEntries).2.length ≤ u64Max) :
    let flushed := n.flushInsertBatch batch
    let pass := flushed.index.evictToCap evictOrder maxEntries
    (n.flushBatch cfg batch evictOrder rebuildOrder).index =
        (pass.1.rebuildDirtyNamespaces rebuildOrder).1 ∧
      (n.flushBatch cfg batch evictOrder rebuildOrder).log.disk.file =
        flushed.log.disk.file.append
          (stampFrom flushed.log.sequence (evictedTombstones pass.2)) := by
  intro flushed pass
  obtain ⟨phase, -, sequence, -⟩ := flushInsertBatch_spec
    (le_trans (Nat.le_add_right _ _) room)
  have evicted : flushed.evict cfg evictOrder rebuildOrder =
      { flushed with
        index := (pass.1.rebuildDirtyNamespaces rebuildOrder).1
        phase := .evicted pass.2 false
        unlogged := flushed.unlogged ∪ (pass.2.map (·.uuid)).toFinset } := by
    unfold evict
    rw [phase]
    dsimp only
    rw [cap]
  have fits : flushed.log.sequence + (evictedTombstones pass.2).length ≤ u64Max := by
    rw [sequence]
    simpa [evictedTombstones, tombstones] using room
  unfold flushBatch
  rw [evicted]
  unfold writeTombstones
  dsimp only
  cases out : pass.2 with
  | nil => exact ⟨rfl, rfl⟩
  | cons e out' =>
      rw [out] at fits
      dsimp only
      rw [Log.flush_synced fits]
      exact ⟨rfl, rfl⟩

/-- What a batch and the eviction after it leave behind. -/
structure Batched (home : String) (d maxEntries : Nat) (n : Node) (batch : List WalEntry)
    (n' : Node) : Prop where
  wellFormed : n'.index.WellFormed
  accepts : NamespacedIndex.Accepts (n'.index.dimensionOf home) d
  kept : Finset.Top CacheEntry.recency maxEntries (n.index.held home ∪ added batch)
    (n'.index.held home)
  others : ∀ m, m ≠ home → n'.index.held m = HashMap.values ((n.index.namespaceMut m).evictDownTo m
    maxEntries (n.index.namespaceMut m).entryCount).1.entries
  within : ∀ m, (n'.index.held m).card ≤ maxEntries
  live : ∀ m u, n'.index.entryAt m u ≠ none →
    n.index.entryAt m u ≠ none ∨ m = home ∧ ∃ line ∈ batch, line.uuid = u
  written : ∃ lines, n'.log.disk.file.lines = n.log.disk.file.lines ++ lines ∧
    ∀ u, Tombstoned lines u ↔ ∃ m, (n.index.entryAt m u ≠ none ∨
      m = home ∧ ∃ line ∈ batch, line.uuid = u) ∧ n'.index.entryAt m u = none

/-- A UUID is live after new inserts if it was before or is one of theirs. -/
theorem Fresh.live_replayAll {idx : SemanticIndex} (fresh : Fresh idx home d batch)
    (wf : idx.WellFormed) (sequence : Nat) (m u : String) :
    (Node.replayAll idx (stampFrom sequence batch)).entryAt m u ≠ none ↔
      idx.entryAt m u ≠ none ∨ m = home ∧ ∃ line ∈ batch, line.uuid = u := by
  obtain ⟨good, -, all, others⟩ := fresh.replayAll wf sequence
  by_cases here : m = home
  · subst here
    rw [good.entryAt_ne_none, all, wf.entryAt_ne_none]
    simp only [Finset.mem_union, mem_added, or_and_right, exists_or, true_and]
    refine or_congr_right ?_
    constructor
    · intro given
      rcases given with ⟨e, ⟨line, mem, rfl⟩, named⟩
      exact ⟨line, mem, named⟩
    · intro given
      rcases given with ⟨line, mem, named⟩
      exact ⟨_, ⟨line, mem, rfl⟩, named⟩
  · rw [← SemanticIndex.namespaceMut_getByUuid, others m here,
      SemanticIndex.namespaceMut_getByUuid]
    simp [here]

theorem batched_flushBatch (cap : cfg.hnsw.maxEntriesPerNamespace = some maxEntries)
    (wf : n.index.WellFormed) (fresh : Fresh n.index home d batch) (nonempty : batch ≠ [])
    {evictOrder : List String} {rebuildOrder : PassOrder}
    (admissible : (n.flushInsertBatch batch).Admissible cfg (.evict evictOrder rebuildOrder))
    (room : n.log.sequence + batch.length +
      ((n.flushInsertBatch batch).index.evictToCap evictOrder maxEntries).2.length ≤ u64Max) :
    Batched home d maxEntries n batch (n.flushBatch cfg batch evictOrder rebuildOrder) := by
  have fits : n.log.sequence + batch.length ≤ u64Max := le_trans (Nat.le_add_right _ _) room
  obtain ⟨-, applied, -, written⟩ := flushInsertBatch_spec fits
  obtain ⟨index, file⟩ := flushBatch_spec cap rebuildOrder room
  obtain ⟨iter, visits⟩ := admissible maxEntries cap
  rw [applied] at iter visits index file
  obtain ⟨good, accepts, all, others⟩ := fresh.replayAll wf n.log.sequence
  have removed := SemanticIndex.Removed.evictToCap good iter maxEntries
  obtain ⟨same, dimensions⟩ := SemanticIndex.rebuildDirtyNamespaces_spec removed.wellFormed visits
  have kept : ∀ m, (n.flushBatch cfg batch evictOrder rebuildOrder).index.held m =
      ((Node.replayAll n.index (stampFrom n.log.sequence batch)).evictToCap evictOrder
        maxEntries).1.held m := by
    intro m
    rw [index]
    exact removed.wellFormed.held_congr same.wellFormed (same.live m)
  constructor
  case wellFormed =>
    rw [index]
    exact same.wellFormed
  case accepts =>
    rw [index, dimensions, removed.dimension]
    exact accepts
  case kept =>
    rw [kept, ← all]
    refine SemanticIndex.top_evictToCap good iter maxEntries ?_
    rw [all]
    exact fresh.differ
  case others =>
    intro m other
    rw [kept]
    unfold SemanticIndex.held
    rw [SemanticIndex.namespaceMut_evictToCap iter, others m other]
  case within =>
    intro m
    rw [kept]
    exact SemanticIndex.card_held_evictToCap good iter maxEntries
  case live =>
    intro m u live
    rw [index, same.live, removed.live] at live
    rw [← fresh.live_replayAll wf n.log.sequence]
    split at live
    · exact absurd rfl live
    · exact live
  case written =>
    have inserts : ∀ line ∈ batch, line.tombstone = false := fun line mem =>
      (fresh.placed line mem).1
    rw [written] at file
    obtain ⟨lines, appended, tombs⟩ := lines_flushed n.log.disk.file fits nonempty inserts file
    refine ⟨lines, appended, fun u => (tombs u).trans (exists_congr fun m => ?_)⟩
    rw [SemanticIndex.mem_evictToCap good iter, fresh.live_replayAll wf, index, same.live]

/-! ## Batch after batch -/

/-- Batches as their steps see them: what is still to come is new to each. -/
inductive Batches (home : String) (d maxEntries : Nat) : Node → List (List WalEntry) → Node → Prop
  | nil (n : Node) : Batches home d maxEntries n [] n
  | cons {n n' last : Node} {batch : List WalEntry} {batches : List (List WalEntry)} :
    n.index.WellFormed → Fresh n.index home d (batch ++ batches.flatten) →
    Batched home d maxEntries n batch n' → Batches home d maxEntries n' batches last →
    Batches home d maxEntries n (batch :: batches) last

theorem Flushed.steps (cap : cfg.hnsw.maxEntriesPerNamespace = some maxEntries)
    (run : Flushed cfg maxEntries n batches last) (wf : n.index.WellFormed)
    (fresh : Fresh n.index home d batches.flatten) : Batches home d maxEntries n batches last := by
  induction run with
  | nil n => exact .nil n
  | cons evictOrder rebuildOrder nonempty admissible room _ ih =>
      rw [List.flatten_cons] at fresh
      have batched := batched_flushBatch cap wf fresh.first nonempty admissible room
      have later := fresh.later wf batched.wellFormed batched.accepts batched.kept.subset
      exact .cons wf fresh batched (ih batched.wellFormed later)

namespace Batches

theorem wellFormed (run : Batches home d maxEntries n batches last) (wf : n.index.WellFormed) :
    last.index.WellFormed := by
  induction run with
  | nil => exact wf
  | cons _ _ batched _ ih => exact ih batched.wellFormed

/-- The most recent of a set and of the inserts are left, if the most recent of
the set were there to start with. -/
theorem top (run : Batches home d maxEntries n batches last) {s : Finset CacheEntry}
    (start : Finset.Top CacheEntry.recency maxEntries s (n.index.held home))
    (apart : Disjoint s (added batches.flatten)) :
    Finset.Top CacheEntry.recency maxEntries (s ∪ added batches.flatten)
      (last.index.held home) := by
  induction run generalizing s with
  | nil n =>
      have none : added (List.flatten []) = ∅ := rfl
      rw [none, Finset.union_empty]
      exact start
  | cons wf fresh batched _ ih =>
      rw [List.flatten_cons, added_append, Finset.disjoint_union_right] at apart
      have between := (Finset.disjoint_union_left.mp (fresh.disjoint wf)).2
      rw [List.flatten_cons, added_append, ← Finset.union_assoc]
      exact ih (start.extend apart.1 batched.kept)
        (Finset.disjoint_union_left.mpr ⟨apart.2, between⟩)

/-- A namespace within the cap that gets no inserts stays as it is. -/
theorem held_of_le (run : Batches home d maxEntries n batches last) {m : String} (other : m ≠ home)
    (within : (n.index.held m).card ≤ maxEntries) : last.index.held m = n.index.held m := by
  induction run with
  | nil => rfl
  | cons wf _ batched _ ih =>
      rw [ih (batched.within m), batched.others m other]
      rw [wf.card_held] at within
      rw [NamespacedIndex.evictDownTo_of_le within]
      rfl

/-- What any number of batches leaves, given by the state before them and the
inserts alone. -/
theorem survivors (run : Batches home d maxEntries n batches last) (some : batches ≠ []) :
    Finset.Top CacheEntry.recency maxEntries (n.index.held home ∪ added batches.flatten)
        (last.index.held home) ∧
      ∀ m, m ≠ home → last.index.held m = HashMap.values ((n.index.namespaceMut m).evictDownTo m
        maxEntries (n.index.namespaceMut m).entryCount).1.entries := by
  cases run with
  | nil => exact absurd rfl some
  | cons wf fresh batched rest =>
      constructor
      · rw [List.flatten_cons, added_append, ← Finset.union_assoc]
        exact rest.top batched.kept (fresh.disjoint wf)
      · intro m other
        rw [rest.held_of_le other (batched.within m), batched.others m other]

/-- Nothing is live but what was before and what was inserted. -/
theorem live (run : Batches home d maxEntries n batches last) {m u : String}
    (stays : last.index.entryAt m u ≠ none) :
    n.index.entryAt m u ≠ none ∨ m = home ∧ ∃ line ∈ batches.flatten, line.uuid = u := by
  induction run with
  | nil => exact .inl stays
  | cons _ _ batched _ ih =>
      simp only [List.flatten_cons, List.mem_append, or_and_right, exists_or, and_or_left]
      rcases ih stays with before | later
      · rcases batched.live m u before with old | new
        · exact .inl old
        · exact .inr (.inl new)
      · exact .inr (.inr later)

/-- What a batch evicts is no later insert, so it does not come back. -/
theorem gone (run : Batches home d maxEntries n' batches last)
    (fresh : Fresh n.index home d (batch ++ batches.flatten)) {m u : String}
    (before : n.index.entryAt m u ≠ none ∨ m = home ∧ ∃ line ∈ batch, line.uuid = u)
    (evicted : n'.index.entryAt m u = none) : last.index.entryAt m u = none := by
  by_contra stays
  rcases run.live stays with live | ⟨rfl, line, mem, rfl⟩
  · exact live evicted
  · rcases before with old | ⟨-, line', mem', same⟩
    · exact old (fresh.unknown line (List.mem_append_right _ mem))
    · exact (List.pairwise_append.mp fresh.distinct).2.2 line' mem' line mem same

/-- The UUIDs with a tombstone among the new lines are those that were live or
inserted and no longer are live. -/
theorem written (run : Batches home d maxEntries n batches last) :
    ∃ lines, last.log.disk.file.lines = n.log.disk.file.lines ++ lines ∧
      ∀ u, Tombstoned lines u ↔ ∃ m, (n.index.entryAt m u ≠ none ∨
        m = home ∧ ∃ line ∈ batches.flatten, line.uuid = u) ∧ last.index.entryAt m u = none := by
  induction run with
  | nil n =>
      refine ⟨[], (List.append_nil _).symm, fun u => ?_⟩
      simp [Tombstoned]
  | @cons n n' last batch batches wf fresh batched rest ih =>
      obtain ⟨lines, appended, here⟩ := batched.written
      obtain ⟨lines', appended', later⟩ := ih
      refine ⟨lines ++ lines', by rw [appended', appended, List.append_assoc], fun u => ?_⟩
      rw [tombstoned_append, here, later, ← exists_or]
      refine exists_congr fun m => ?_
      have either : (m = home ∧ ∃ line ∈ (batch :: batches).flatten, line.uuid = u) ↔
          (m = home ∧ ∃ line ∈ batch, line.uuid = u) ∨
            (m = home ∧ ∃ line ∈ batches.flatten, line.uuid = u) := by
        simp only [List.flatten_cons, List.mem_append, or_and_right, exists_or, and_or_left]
      rw [either]
      constructor
      · intro tombstoned
        rcases tombstoned with ⟨before, evicted⟩ | ⟨live | later, dead⟩
        · exact ⟨before.imp_right .inl, rest.gone fresh before evicted⟩
        · exact ⟨(batched.live m u live).imp_right .inl, dead⟩
        · exact ⟨.inr (.inr later), dead⟩
      · intro given
        obtain ⟨before, dead⟩ := given
        by_cases evicted : n'.index.entryAt m u = none
        · rcases before with old | new | later
          · exact .inl ⟨.inl old, evicted⟩
          · exact .inl ⟨.inr new, evicted⟩
          · exact .inr ⟨.inr later, dead⟩
        · exact .inr ⟨.inl evicted, dead⟩

end Batches

omit [Platform] in
theorem mem_tombstonedSince {lines : List WalEntry}
    (appended : last.log.disk.file.lines = n.log.disk.file.lines ++ lines) {u : String} :
    u ∈ n.tombstonedSince last ↔ Tombstoned lines u := by
  unfold tombstonedSince Tombstoned
  rw [appended, List.drop_left]
  simp only [List.mem_toFinset, List.mem_map, List.mem_filter, and_assoc]

/-- Inserts of new entries whose timestamps tell them and the others apart leave
the same entries and tombstones in one batch as in any other split into batches,
with whatever rebuilds the evictions trigger. -/
theorem batching_invisible (cap : cfg.hnsw.maxEntriesPerNamespace = some maxEntries)
    (used : SemanticIndex.Used cfg.hnsw n.index) {inserts : List WalEntry}
    (fresh : Fresh n.index home d inserts) {whole parts : Node} (split : batches.flatten = inserts)
    (once : Flushed cfg maxEntries n [inserts] whole)
    (batched : Flushed cfg maxEntries n batches parts) :
    (∀ m u, parts.index.entryAt m u = whole.index.entryAt m u) ∧
      n.tombstonedSince parts = n.tombstonedSince whole := by
  have wf := used.wellFormed
  have joined : [inserts].flatten = inserts := by simp
  have single := once.steps cap wf (by rw [joined]; exact fresh)
  have several := batched.steps cap wf (by rw [split]; exact fresh)
  have some : batches ≠ [] := by
    intro none
    subst none
    cases once with
    | cons _ _ nonempty => exact nonempty split.symm
  obtain ⟨top, others⟩ := single.survivors (List.cons_ne_nil _ _)
  obtain ⟨top', others'⟩ := several.survivors some
  rw [joined] at top
  rw [split] at top'
  have live : ∀ m u, parts.index.entryAt m u = whole.index.entryAt m u := by
    intro m
    refine (single.wellFormed wf).entryAt_congr (several.wellFormed wf) ?_
    by_cases here : m = home
    · subst here
      exact top'.unique top
    · rw [others m here, others' m here]
  refine ⟨live, ?_⟩
  obtain ⟨lines, appended, tombs⟩ := single.written
  obtain ⟨lines', appended', tombs'⟩ := several.written
  ext u
  rw [mem_tombstonedSince appended, mem_tombstonedSince appended', tombs, tombs', joined, split]
  simp only [live]

end Batching

section Example

local instance batchingExamplePlatform : Platform := Platform.sample

/-- At most one entry in a namespace. -/
def capped : NodeConfig := ⟨⟨0, some 1⟩, 2, 0⟩

/-- An insert at a time. -/
def timedLine (uuid : String) (time : Nat) : WalEntry :=
  ⟨uuid, [1#32], "r", uuid, "a", 0, time, false, none⟩

/-- A node with one entry. -/
def occupied : Node :=
  { Node.new capped with
    index := ((SemanticIndex.new capped.hnsw).replayEntry (timedLine "o" 5)).1 }

def onePass (ids : List Nat) : PassOrder := ⟨["a"], fun _ => ids⟩

def wholeBatch : Node :=
  occupied.flushBatch capped [timedLine "p" 3, timedLine "q" 9] ["a"] (onePass [2])

def firstBatch : Node := occupied.flushBatch capped [timedLine "p" 3] ["a"] (onePass [0])

def secondBatch : Node := firstBatch.flushBatch capped [timedLine "q" 9] ["a"] (onePass [1])

/-- The insert at time 3 is evicted from its own batch, and the entry that
outlives it there is evicted after the next one. -/
theorem batching_invisible_sample :
    (secondBatch.index.entryAt "a" "q" = wholeBatch.index.entryAt "a" "q" ∧
      occupied.tombstonedSince secondBatch = occupied.tombstonedSince wholeBatch) ∧
    occupied.tombstonedSince firstBatch = {"p"} ∧
      occupied.tombstonedSince wholeBatch = {"o", "p"} := by
  refine ⟨?_, by decide +kernel, by decide +kernel⟩
  have used : SemanticIndex.Used capped.hnsw occupied.index :=
    .call (.replayEntry (timedLine "o" 5)) .new trivial
  have fresh : Fresh occupied.index "a" 1 [timedLine "p" 3, timedLine "q" 9] := by
    have differ : ∀ e ∈ occupied.index.held "a" ∪ added [timedLine "p" 3, timedLine "q" 9],
        ∀ f ∈ occupied.index.held "a" ∪ added [timedLine "p" 3, timedLine "q" 9],
          e.insertedAt = f.insertedAt → e = f := by decide +kernel
    constructor
    case placed => decide
    case accepts => decide +kernel
    case distinct => decide
    case unknown => decide +kernel
    case differ =>
      intro e mem f mem' same
      have inserted : e.insertedAt = f.insertedAt :=
        congrArg (fun r : Nat ×ₗ Nat => (ofLex r).2) same
      exact differ e (Finset.mem_coe.mp mem) f (Finset.mem_coe.mp mem') inserted
  have once : Flushed capped 1 occupied [[timedLine "p" 3, timedLine "q" 9]] wholeBatch := by
    refine .cons ["a"] (onePass [2]) (List.cons_ne_nil _ _) ?_ (by decide +kernel) (.nil _)
    intro maxEntries cap
    cases cap
    decide +kernel
  have batched : Flushed capped 1 occupied [[timedLine "p" 3], [timedLine "q" 9]] secondBatch := by
    refine .cons ["a"] (onePass [0]) (List.cons_ne_nil _ _) ?_ (by decide +kernel)
      (.cons ["a"] (onePass [1]) (List.cons_ne_nil _ _) ?_ (by decide +kernel) (.nil _))
    · intro maxEntries cap
      cases cap
      decide +kernel
    · intro maxEntries cap
      cases cap
      decide +kernel
  have same := batching_invisible rfl used fresh rfl once batched
  exact ⟨same.1 "a" "q", same.2⟩

end Example

end Node

end Ferrocache
