import Ferrocache.Index.Namespaced

/-!
# Representation invariant of a namespace

The side tables of a `NamespacedIndex` describe one set of live entries.
`NamespacedIndex.WellFormed` says how they fit together: the reverse map is the
inverse of the side table, live ids and ghosts partition the ids ever handed
out, the graph holds exactly these ids, every embedding has the namespace
dimension, and the text index names live entries by their own text.

Every mutator preserves it, so it holds in every state of every run.  Two
mutators do the work: `addEntry` for a new id and `dropEntry` for a removed
one; `rebuild` starts over from an empty table with the text index kept.
-/

namespace Ferrocache.NamespacedIndex

section Invariant

variable [Platform]

/-- The side tables of a namespace describe one set of live entries. -/
structure WellFormed (ns : NamespacedIndex) : Prop where
  inverse : ∀ u i, ns.uuidToInternal.lookup u = some i ↔
    ∃ e, ns.entries.lookup i = some e ∧ e.uuid = u
  disjoint : ∀ i, i ∈ ns.entries → i ∉ ns.evictedIds
  ids : ∀ i, i ∈ ns.entries ∨ i ∈ ns.evictedIds ↔ i < ns.nextId
  graph : ns.hnsw.points.map Prod.fst = List.range ns.nextId
  sized : ∀ i e, ns.entries.lookup i = some e → ns.dimension = some e.embedding.length
  text : ∀ k u, ns.exactMatchIndex.lookup k = some u →
    k ≠ "" ∧ ∃ i e, ns.entries.lookup i = some e ∧ e.uuid = u ∧
      k = normalizeQueryText e.queryText

/-! ## The removals as calls of `drop_entry` -/

theorem dropAll_cons (ns : NamespacedIndex) (id : Nat) (ids : List Nat) :
    (ns.dropAll (id :: ids)).1 = ((ns.dropEntry id).1.dropAll ids).1 := by
  rw [NamespacedIndex.dropAll]
  rcases ns.dropEntry id with ⟨next, _ | entry⟩ <;> rfl

theorem evictLru_fst (ns : NamespacedIndex) (modelId : String) :
    (ns.evictLru modelId).1 = ns.lruId.elim ns fun id => (ns.dropEntry id).1 := by
  unfold NamespacedIndex.evictLru
  cases ns.lruId with
  | none => rfl
  | some evictId =>
      dsimp only [Option.elim]
      rcases ns.dropEntry evictId with ⟨next, _ | entry⟩ <;> rfl

/-! ## The invariant of the empty namespace -/

theorem wellFormed_new (cfg : HnswConfig) : (new cfg).WellFormed where
  inverse := by simp [new]
  disjoint := fun _ _ => Finset.notMem_empty _
  ids := by simp [new, Finmap.notMem_empty]
  graph := by simp [new, Hnsw.new]
  sized := by simp [new]
  text := by simp [new]

namespace WellFormed

variable {ns : NamespacedIndex}

/-! ## Consequences -/

/-- Two internal ids never carry the same UUID. -/
theorem id_unique (wf : ns.WellFormed) {i j : Nat} {e f : CacheEntry}
    (left : ns.entries.lookup i = some e) (right : ns.entries.lookup j = some f)
    (same : e.uuid = f.uuid) : i = j := by
  have first := (wf.inverse e.uuid i).mpr ⟨e, left, rfl⟩
  have second := (wf.inverse e.uuid j).mpr ⟨f, right, same.symm⟩
  exact Option.some.inj (first.symm.trans second)

/-- The next id is unused. -/
theorem nextId_fresh (wf : ns.WellFormed) :
    ns.entries.lookup ns.nextId = none ∧ ns.nextId ∉ ns.evictedIds := by
  have unused : ¬ (ns.nextId ∈ ns.entries ∨ ns.nextId ∈ ns.evictedIds) :=
    fun used => absurd ((wf.ids ns.nextId).mp used) (lt_irrefl _)
  exact ⟨Finmap.lookup_eq_none.mpr fun mem => unused (Or.inl mem),
    fun mem => unused (Or.inr mem)⟩

theorem lt_nextId (wf : ns.WellFormed) {i : Nat} {e : CacheEntry}
    (found : ns.entries.lookup i = some e) : i < ns.nextId :=
  (wf.ids i).mp (Or.inl (Finmap.mem_of_lookup_eq_some found))

/-- A lookup by UUID finds an entry with that UUID, and finds every such entry. -/
theorem getByUuid_eq_some (wf : ns.WellFormed) {u : String} {e : CacheEntry} :
    ns.getByUuid u = some e ↔ e.uuid = u ∧ ∃ i, ns.entries.lookup i = some e := by
  unfold getByUuid
  rw [Option.bind_eq_some_iff]
  constructor
  · rintro ⟨i, known, found⟩
    obtain ⟨e', found', named⟩ := (wf.inverse u i).mp known
    cases Option.some.inj (found.symm.trans found')
    exact ⟨named, i, found⟩
  · rintro ⟨named, i, found⟩
    exact ⟨i, (wf.inverse u i).mpr ⟨e, found, named⟩, found⟩

/-! ## A new entry -/

/-- Fixing the dimension of a namespace without one. -/
theorem setDimension (wf : ns.WellFormed) (unset : ns.dimension = none) (d : Nat) :
    WellFormed { ns with dimension := some d } where
  inverse := wf.inverse
  disjoint := wf.disjoint
  ids := wf.ids
  graph := wf.graph
  sized := by
    intro i e found
    have set := wf.sized i e found
    rw [unset] at set
    cases set
  text := wf.text

/-- The text index after an insertion. -/
theorem lookup_registerText {index : HashMap String String} {queryText uuid k u : String}
    (found : (registerText index queryText uuid).lookup k = some u) :
    (k = normalizeQueryText queryText ∧ k ≠ "" ∧ u = uuid) ∨ index.lookup k = some u := by
  unfold registerText at found
  split at found
  · exact Or.inr found
  · next nonempty =>
      rw [HashMap.lookup_insert_eq] at found
      split at found
      · next same =>
          exact Or.inl ⟨same, same ▸ nonempty, (Option.some.inj found).symm⟩
      · exact Or.inr found

theorem addEntry (wf : ns.WellFormed) {entry : CacheEntry}
    (fits : ns.dimension = some entry.embedding.length)
    (fresh : entry.uuid ∉ ns.uuidToInternal) : (ns.addEntry entry).WellFormed := by
  obtain ⟨unused, notGhost⟩ := wf.nextId_fresh
  have unknown : ns.uuidToInternal.lookup entry.uuid = none := Finmap.lookup_eq_none.mpr fresh
  constructor
  case inverse =>
    refine HashMap.inverse_insert wf.inverse (fun i e found => (wf.lt_nextId found).ne) ?_
    intro i e found same
    have known := (wf.inverse entry.uuid i).mpr ⟨e, found, same⟩
    rw [unknown] at known
    cases known
  case disjoint =>
    intro i live ghost
    rcases Finmap.mem_insert.mp live with rfl | live
    · exact notGhost ghost
    · exact wf.disjoint i live ghost
  case ids =>
    intro i
    have old := wf.ids i
    simp only [NamespacedIndex.addEntry, Finmap.mem_insert]
    rw [or_assoc, old]
    omega
  case graph =>
    simp only [NamespacedIndex.addEntry, Hnsw.insert, List.map_append, wf.graph, List.map_cons,
      List.map_nil, List.range_succ]
  case sized =>
    intro i e found
    simp only [NamespacedIndex.addEntry, HashMap.lookup_insert_eq] at found
    split at found
    · cases Option.some.inj found
      exact fits
    · exact wf.sized i e found
  case text =>
    intro k u found
    rcases lookup_registerText found with ⟨key, nonempty, rfl⟩ | old
    · refine ⟨nonempty, ns.nextId, entry, ?_, rfl, key⟩
      simp only [NamespacedIndex.addEntry, HashMap.lookup_insert_eq, if_pos]
    · obtain ⟨nonempty, i, e, live, named, key⟩ := wf.text k u old
      refine ⟨nonempty, i, e, ?_, named, key⟩
      have other : i ≠ ns.nextId := (wf.lt_nextId live).ne
      simp only [NamespacedIndex.addEntry, HashMap.lookup_insert_eq, if_neg other, live]

theorem insertWithUuid (wf : ns.WellFormed) (entry : CacheEntry) :
    (ns.insertWithUuid entry).1.WellFormed := by
  unfold NamespacedIndex.insertWithUuid
  cases unset : ns.dimension with
  | none =>
      have sized := wf.setDimension unset entry.embedding.length
      dsimp only
      split
      · exact sized
      · next fresh => exact sized.addEntry rfl fresh
  | some d =>
      dsimp only
      split
      · exact wf
      · next fits =>
          have fits : ns.dimension = some entry.embedding.length := by
            rw [unset, not_not.mp fits]
          split
          · exact wf
          · next fresh => exact wf.addEntry fits fresh

/-! ## A removed entry -/

/-- The text index after a removal keeps only keys it had, and never one that
names the removed UUID under its own text. -/
theorem lookup_unregisterText {index : HashMap String String} {queryText uuid k u : String}
    (found : (unregisterText index queryText uuid).lookup k = some u) :
    index.lookup k = some u ∧ ¬ (k ≠ "" ∧ k = normalizeQueryText queryText ∧ u = uuid) := by
  unfold unregisterText at found
  split at found
  · next owned =>
      rw [HashMap.lookup_erase_eq] at found
      split at found
      · cases found
      · next other => exact ⟨found, fun dropped => other dropped.2.1⟩
  · next kept =>
      refine ⟨found, ?_⟩
      rintro ⟨nonempty, rfl, rfl⟩
      exact kept ⟨nonempty, found⟩

theorem dropEntry (wf : ns.WellFormed) (internalId : Nat) :
    (ns.dropEntry internalId).1.WellFormed := by
  unfold NamespacedIndex.dropEntry
  cases found : ns.entries.lookup internalId with
  | none => exact wf
  | some entry =>
      constructor
      case inverse =>
        intro u i
        simp only [HashMap.lookup_erase_eq]
        constructor
        · intro known
          split at known
          · cases known
          · next other =>
              obtain ⟨e, live, named⟩ := (wf.inverse u i).mp known
              have apart : i ≠ internalId := fun same => by
                rw [same, found] at live
                cases Option.some.inj live
                exact other named.symm
              exact ⟨e, by rw [if_neg apart]; exact live, named⟩
        · rintro ⟨e, live, rfl⟩
          split at live
          · cases live
          · next apart =>
              have other : e.uuid ≠ entry.uuid := fun same => apart (wf.id_unique live found same)
              rw [if_neg other]
              exact (wf.inverse e.uuid i).mpr ⟨e, live, rfl⟩
      case disjoint =>
        intro i live ghost
        obtain ⟨apart, live⟩ := Finmap.mem_erase.mp live
        rcases Finset.mem_insert.mp ghost with same | ghost
        · exact apart same
        · exact wf.disjoint i live ghost
      case ids =>
        intro i
        have old := wf.ids i
        have live : internalId ∈ ns.entries := Finmap.mem_of_lookup_eq_some found
        simp only [Finmap.mem_erase, Finset.mem_insert]
        rw [← old]
        by_cases same : i = internalId
        · simp [same, live]
        · simp [same]
      case graph => exact wf.graph
      case sized =>
        intro i e live
        rw [HashMap.lookup_erase_eq] at live
        split at live
        · cases live
        · exact wf.sized i e live
      case text =>
        intro k u named
        obtain ⟨old, kept⟩ := lookup_unregisterText named
        obtain ⟨nonempty, i, e, live, owner, key⟩ := wf.text k u old
        have apart : i ≠ internalId := fun same => by
          rw [same, found] at live
          cases Option.some.inj live
          exact kept ⟨nonempty, key, owner.symm⟩
        refine ⟨nonempty, i, e, ?_, owner, key⟩
        rw [HashMap.lookup_erase_eq, if_neg apart]
        exact live

theorem dropAll (wf : ns.WellFormed) (ids : List Nat) : (ns.dropAll ids).1.WellFormed := by
  induction ids generalizing ns with
  | nil => exact wf
  | cons id ids ih =>
      rw [dropAll_cons]
      exact ih (wf.dropEntry id)

theorem collectExpiredWithin (wf : ns.WellFormed) (order : List Nat) (now : Nat) :
    (ns.collectExpiredWithin order now).1.WellFormed :=
  wf.dropAll _

theorem evictLru (wf : ns.WellFormed) (modelId : String) :
    (ns.evictLru modelId).1.WellFormed := by
  rw [evictLru_fst]
  cases ns.lruId with
  | none => exact wf
  | some evictId => exact wf.dropEntry evictId

theorem removeByUuid (wf : ns.WellFormed) (uuid : String) :
    (ns.removeByUuid uuid).1.WellFormed := by
  unfold NamespacedIndex.removeByUuid
  cases ns.uuidToInternal.lookup uuid with
  | none => exact wf
  | some internalId => exact wf.dropEntry internalId

theorem removeInternal (wf : ns.WellFormed) (internalId : Nat) :
    (ns.removeInternal internalId).1.WellFormed :=
  wf.dropEntry internalId

/-! ## Access bookkeeping -/

/-- Access bookkeeping changes no field the invariant reads. -/
theorem recordAccess (wf : ns.WellFormed) (internalId now : Nat) :
    (ns.recordAccess internalId now).WellFormed := by
  unfold NamespacedIndex.recordAccess
  cases found : ns.entries.lookup internalId with
  | none => exact wf
  | some entry =>
      have live : internalId ∈ ns.entries := Finmap.mem_of_lookup_eq_some found
      constructor
      case inverse =>
        intro u i
        rw [wf.inverse u i]
        simp only [HashMap.lookup_insert_eq]
        by_cases same : i = internalId
        · subst same
          simp [found]
        · simp [same]
      case disjoint =>
        intro i mem ghost
        rcases Finmap.mem_insert.mp mem with rfl | mem
        · exact wf.disjoint i live ghost
        · exact wf.disjoint i mem ghost
      case ids =>
        intro i
        rw [← wf.ids i, Finmap.mem_insert]
        by_cases same : i = internalId
        · simp [same, live]
        · simp [same]
      case graph => exact wf.graph
      case sized =>
        intro i e touched
        rw [HashMap.lookup_insert_eq] at touched
        split at touched
        · cases Option.some.inj touched
          exact wf.sized internalId entry found
        · exact wf.sized i e touched
      case text =>
        intro k u named
        obtain ⟨nonempty, i, e, owned, owner, key⟩ := wf.text k u named
        refine ⟨nonempty, i, ?_⟩
        simp only [HashMap.lookup_insert_eq]
        by_cases same : i = internalId
        · subst same
          cases Option.some.inj (found.symm.trans owned)
          simp [owner, key]
        · simp [same, owned, owner, key]

/-! ## Rebuild -/

/-- The tables of a namespace in the middle of the draining loop: ids are dense
and there are no ghosts.  The text index is not mentioned, since it already
names entries that are still to be drained. -/
structure Dense (ns : NamespacedIndex) : Prop where
  inverse : ∀ u i, ns.uuidToInternal.lookup u = some i ↔
    ∃ e, ns.entries.lookup i = some e ∧ e.uuid = u
  noGhost : ns.evictedIds = ∅
  ids : ∀ i, i ∈ ns.entries ↔ i < ns.nextId
  graph : ns.hnsw.points.map Prod.fst = List.range ns.nextId

omit [Platform] in
/-- One turn of the draining loop. -/
theorem Dense.drain (dense : Dense ns) {entry : CacheEntry}
    (fresh : ∀ i e, ns.entries.lookup i = some e → e.uuid ≠ entry.uuid) :
    Dense
      { ns with
        nextId := ns.nextId + 1
        hnsw := ns.hnsw.insert entry.embedding ns.nextId
        uuidToInternal := ns.uuidToInternal.insert entry.uuid ns.nextId
        entries := ns.entries.insert ns.nextId entry } := by
  have unused : ∀ {i e}, ns.entries.lookup i = some e → i ≠ ns.nextId := fun found =>
    ((dense.ids _).mp (Finmap.mem_of_lookup_eq_some found)).ne
  constructor
  case inverse => exact HashMap.inverse_insert dense.inverse (fun _ _ => unused) fresh
  case noGhost => exact dense.noGhost
  case ids =>
    intro i
    dsimp only
    rw [Finmap.mem_insert, dense.ids i]
    omega
  case graph =>
    simp only [Hnsw.insert, List.map_append, dense.graph, List.map_cons, List.map_nil,
      List.range_succ]

omit [Platform] in
/-- The whole draining loop: the tables stay dense and hold, beside what they
held, exactly the drained entries. -/
theorem Dense.refill (dense : Dense ns) {drained : List CacheEntry}
    (distinct : drained.Pairwise fun e f => e.uuid ≠ f.uuid)
    (fresh : ∀ f ∈ drained, ∀ i e, ns.entries.lookup i = some e → e.uuid ≠ f.uuid) :
    Dense (ns.refill drained) ∧
      ∀ e, (∃ i, (ns.refill drained).entries.lookup i = some e) ↔
        (∃ i, ns.entries.lookup i = some e) ∨ e ∈ drained := by
  induction drained generalizing ns with
  | nil => exact ⟨dense, fun e => by simp [NamespacedIndex.refill]⟩
  | cons entry drained ih =>
      obtain ⟨apart, distinct⟩ := List.pairwise_cons.mp distinct
      have step := dense.drain (fresh entry List.mem_cons_self)
      have unused : ns.entries.lookup ns.nextId = none :=
        Finmap.lookup_eq_none.mpr fun mem => absurd ((dense.ids _).mp mem) (lt_irrefl _)
      have later : ∀ f ∈ drained, ∀ i e,
          (ns.entries.insert ns.nextId entry).lookup i = some e → e.uuid ≠ f.uuid := by
        intro f mem i e found
        rw [HashMap.lookup_insert_eq] at found
        split at found
        · cases Option.some.inj found
          exact apart f mem
        · exact fresh f (List.mem_cons_of_mem _ mem) i e found
      obtain ⟨final, members⟩ := ih step distinct later
      refine ⟨final, fun e => ?_⟩
      have unfolded := members e
      rw [NamespacedIndex.refill, unfolded, List.mem_cons, ← or_assoc]
      refine or_congr_left ?_
      simp only [HashMap.lookup_insert_eq]
      constructor
      · rintro ⟨i, found⟩
        split at found
        · exact Or.inr (Option.some.inj found).symm
        · exact Or.inl ⟨i, found⟩
      · rintro (⟨i, found⟩ | rfl)
        · have old : i ≠ ns.nextId := fun same => by
            rw [same, unused] at found
            cases found
          exact ⟨i, by rw [if_neg old]; exact found⟩
        · exact ⟨ns.nextId, by rw [if_pos rfl]⟩

omit [Platform] in
theorem refill_frame (ns : NamespacedIndex) (drained : List CacheEntry) :
    (ns.refill drained).exactMatchIndex = ns.exactMatchIndex ∧
      (ns.refill drained).dimension = ns.dimension ∧
        (ns.refill drained).efSearch = ns.efSearch := by
  induction drained generalizing ns with
  | nil => exact ⟨rfl, rfl, rfl⟩
  | cons entry drained ih =>
      rw [NamespacedIndex.refill]
      exact ih _

/-- A listing of the entries repeats no UUID. -/
theorem distinct_listed (wf : ns.WellFormed) {order : List Nat}
    (iter : HashMap.IterOrder ns.entries order) :
    (order.filterMap ns.entries.lookup).Pairwise fun e f => e.uuid ≠ f.uuid := by
  rw [List.pairwise_filterMap]
  refine iter.1.imp fun apart e live f live' same => ?_
  exact apart (wf.id_unique live live' same)

/-- A rebuild keeps the set of entries; only the internal ids change. -/
theorem rebuild_spec (wf : ns.WellFormed) {order : List Nat}
    (iter : HashMap.IterOrder ns.entries order) :
    Dense (ns.rebuild order) ∧
      ∀ e, (∃ i, (ns.rebuild order).entries.lookup i = some e) ↔
        ∃ i, ns.entries.lookup i = some e := by
  have empty : Dense ns.drained :=
    ⟨by simp [drained], rfl, by simp [drained, Finmap.notMem_empty], by simp [drained, Hnsw.new]⟩
  obtain ⟨dense, members⟩ := empty.refill (wf.distinct_listed iter) (by simp [drained])
  refine ⟨dense, fun e => (members e).trans ?_⟩
  simp only [drained, Finmap.lookup_empty, reduceCtorEq, exists_false, false_or, List.mem_filterMap]
  constructor
  · rintro ⟨i, -, found⟩
    exact ⟨i, found⟩
  · rintro ⟨i, found⟩
    exact ⟨i, (iter.2 i).mpr (Finmap.mem_of_lookup_eq_some found), found⟩

theorem rebuild (wf : ns.WellFormed) {order : List Nat}
    (iter : HashMap.IterOrder ns.entries order) : (ns.rebuild order).WellFormed := by
  obtain ⟨dense, members⟩ := wf.rebuild_spec iter
  obtain ⟨texts, dimension, -⟩ :=
    refill_frame ns.drained (order.filterMap ns.entries.lookup)
  constructor
  case inverse => exact dense.inverse
  case disjoint =>
    intro i _
    rw [dense.noGhost]
    exact Finset.notMem_empty i
  case ids =>
    intro i
    rw [dense.noGhost, ← dense.ids i]
    simp
  case graph => exact dense.graph
  case sized =>
    intro i e found
    obtain ⟨j, old⟩ := (members e).mp ⟨i, found⟩
    exact dimension.trans (wf.sized j e old)
  case text =>
    intro k u named
    have named : ns.exactMatchIndex.lookup k = some u := texts ▸ named
    obtain ⟨nonempty, i, e, live, owner, key⟩ := wf.text k u named
    obtain ⟨j, moved⟩ := (members e).mpr ⟨i, live⟩
    exact ⟨nonempty, j, e, moved, owner, key⟩

end WellFormed

/-! ## Runs -/

/-- One call of a mutator. -/
inductive Op : Type
  | insertWithUuid (entry : CacheEntry)
  | evictLru (modelId : String)
  | removeByUuid (uuid : String)
  | removeInternal (internalId : Nat)
  | collectExpiredWithin (order : List Nat) (now : Nat)
  | recordAccess (internalId now : Nat)
  | rebuild (order : List Nat)

/-- The state a call leaves behind. -/
def apply (ns : NamespacedIndex) : Op → NamespacedIndex
  | .insertWithUuid entry => (ns.insertWithUuid entry).1
  | .evictLru modelId => (ns.evictLru modelId).1
  | .removeByUuid uuid => (ns.removeByUuid uuid).1
  | .removeInternal internalId => (ns.removeInternal internalId).1
  | .collectExpiredWithin order now => (ns.collectExpiredWithin order now).1
  | .recordAccess internalId now => ns.recordAccess internalId now
  | .rebuild order => ns.rebuild order

/-- The visiting orders of a call are orders of the table it visits. -/
def Admissible (ns : NamespacedIndex) : Op → Prop
  | .collectExpiredWithin order _ => HashMap.IterOrder ns.entries order
  | .rebuild order => HashMap.IterOrder ns.entries order
  | _ => True

/-- The states of a namespace after any sequence of calls. -/
inductive Reachable (cfg : HnswConfig) : NamespacedIndex → Prop
  | new : Reachable cfg (new cfg)
  | call {ns : NamespacedIndex} (op : Op) :
    Reachable cfg ns → ns.Admissible op → Reachable cfg (ns.apply op)

theorem WellFormed.apply {ns : NamespacedIndex} (wf : ns.WellFormed) {op : Op}
    (admissible : ns.Admissible op) : (ns.apply op).WellFormed := by
  cases op with
  | insertWithUuid entry => exact wf.insertWithUuid entry
  | evictLru modelId => exact wf.evictLru modelId
  | removeByUuid uuid => exact wf.removeByUuid uuid
  | removeInternal internalId => exact wf.removeInternal internalId
  | collectExpiredWithin order now => exact wf.collectExpiredWithin order now
  | recordAccess internalId now => exact wf.recordAccess internalId now
  | rebuild order => exact wf.rebuild admissible

/-- The representation invariant holds in every reachable state: the reverse
map inverts the side table, live ids and ghosts partition `0 .. nextId - 1`,
the graph holds exactly these ids, every stored embedding has the namespace
dimension, and the text index names live entries by their own normalised text. -/
theorem representation_invariant {cfg : HnswConfig} {ns : NamespacedIndex}
    (reached : Reachable cfg ns) : ns.WellFormed := by
  induction reached with
  | new => exact wellFormed_new cfg
  | call op _ admissible ih => exact ih.apply admissible

end Invariant

section Example

local instance : Platform := Platform.sample

/-- An entry with a one-component embedding. -/
def sampleEntry (uuid queryText : String) : CacheEntry :=
  ⟨uuid, [1#32], "r", queryText, 0, 0, 0, none⟩

/-- Two inserts of the same text, the removal of the first, a rebuild. -/
def sampleCalls : List Op :=
  [.insertWithUuid (sampleEntry "a" "Hi"), .insertWithUuid (sampleEntry "b" "hi"),
    .removeByUuid "a", .rebuild [1]]

theorem representation_invariant_sample :
    (sampleCalls.foldl apply (new ⟨0, none⟩)).WellFormed :=
  representation_invariant
    (.call (.rebuild [1])
      (.call (.removeByUuid "a")
        (.call (.insertWithUuid (sampleEntry "b" "hi"))
          (.call (.insertWithUuid (sampleEntry "a" "Hi")) .new trivial) trivial) trivial)
      (by unfold Admissible; decide +kernel))

end Example

end Ferrocache.NamespacedIndex
