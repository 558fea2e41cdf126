import Ferrocache.Index.Live
import Ferrocache.Index.Search
import Ferrocache.Lib.Ranking
import Mathlib.Data.List.Sort

/-!
# Queries against an exact search

With a search that reports the nearest points in order of their distance, the
answer of a query without text can be compared with the answer right after the
namespace was cleaned up.  Two mechanisms of `query_with_text` decide it: the
number of candidates, one more than the ghosts up to eight, and the loop over
them, which passes over ghosts and expired entries.

An expired entry that is nearest to the probe takes the place of the only
candidate when there are no ghosts, so it hides every live entry behind it
(`expired_hides_iff`).  Ghosts hide the live entries once more than eight of them
lie nearer to the probe, whatever share of the namespace they are
(`ghosts_hide_iff`).
-/

namespace Ferrocache.NamespacedIndex

section Queries

variable [Platform]

/-! ## The search -/

/-- What the code relies on of `f32` comparison and subtraction: `<` is
asymmetric, and `1 - x` does not grow with `x`. -/
structure FloatOrder : Prop where
  asymm : ∀ a b : F32, Platform.lt a b = true → ¬ Platform.lt b a = true
  oneMinus_lt : ∀ near far threshold : F32, Platform.lt near far = true →
    Platform.lt (Platform.oneMinus near) threshold = true →
      Platform.lt (Platform.oneMinus far) threshold = true

section Distance

variable (dist : Embedding → Embedding → F32) (probe : Embedding)

/-- The distances of the points to the probe are all different. -/
def Distinct (hnsw : Hnsw) : Prop :=
  hnsw.points.Pairwise fun p q => Platform.lt (dist probe p.2) (dist probe q.2) = true ∨
    Platform.lt (dist probe q.2) (dist probe p.2) = true

def CloserPoint (p q : Nat × Embedding) : Prop :=
  Platform.lt (dist probe p.2) (dist probe q.2) = true

def CloserEntry (e f : CacheEntry) : Prop :=
  Platform.lt (dist probe e.embedding) (dist probe f.embedding) = true

/-- The similarity of the entry is not below the threshold. -/
def Reaches (threshold : F32) (e : CacheEntry) : Prop :=
  ¬ Platform.lt (Platform.oneMinus (dist probe e.embedding)) threshold = true

def neighbourOf (p : Nat × Embedding) : Neighbour := ⟨p.1, dist probe p.2⟩

end Distance

/-- The search reports the nearest points of the graph in order of distance. -/
def ExactSearch (dist : Embedding → Embedding → F32) : Prop :=
  ∀ hnsw probe want ef, Distinct dist probe hnsw →
    ∃ ranked, Ranking (CloserPoint dist probe) hnsw.points ranked ∧
      Platform.search hnsw probe want ef = (ranked.take want).map (neighbourOf dist probe)

/-! ## Entries in order of distance -/

/-- The entry of a point of the graph; a ghost has none. -/
def pointEntry (ns : NamespacedIndex) (p : Nat × Embedding) : Option CacheEntry :=
  ns.entries.lookup p.1

/-- The live entries, in order of their ids. -/
def liveList (ns : NamespacedIndex) : List CacheEntry :=
  (List.range ns.nextId).filterMap ns.entries.lookup

section Ranked

variable {dist : Embedding → Embedding → F32} {probe : Embedding} {ns ns' : NamespacedIndex}
  {ranked : List (Nat × Embedding)}

theorem WellFormed.mem_liveList (wf : ns.WellFormed) {e : CacheEntry} :
    e ∈ ns.liveList ↔ ∃ i, ns.entries.lookup i = some e := by
  rw [liveList, List.mem_filterMap]
  constructor
  · rintro ⟨i, -, found⟩
    exact ⟨i, found⟩
  · rintro ⟨i, found⟩
    exact ⟨i, List.mem_range.mpr (wf.lt_nextId found), found⟩

theorem WellFormed.nodup_liveList (wf : ns.WellFormed) : ns.liveList.Nodup := by
  refine List.Nodup.filterMap ?_ List.nodup_range
  intro i j e first second
  exact wf.id_unique first second rfl

/-- The point of an entry is drawn at its embedding. -/
theorem WellFormed.snd_of_point (wf : ns.WellFormed) (drawn : ns.Drawn) {p : Nat × Embedding}
    {e : CacheEntry} (point : p ∈ ns.hnsw.points) (found : ns.entries.lookup p.1 = some e) :
    p.2 = e.embedding := by
  have distinct : (ns.hnsw.points.map Prod.fst).Nodup := by
    rw [wf.graph]
    exact List.nodup_range
  have same := List.inj_on_of_nodup_map distinct point (drawn p.1 e found) rfl
  rw [same]

theorem WellFormed.filterMap_points (wf : ns.WellFormed) :
    ns.hnsw.points.filterMap ns.pointEntry = ns.liveList := by
  rw [liveList, ← wf.graph, List.filterMap_map]
  rfl

/-- A ranking of the points ranks the live entries. -/
theorem WellFormed.ranking (wf : ns.WellFormed) (drawn : ns.Drawn)
    (ranking : Ranking (CloserPoint dist probe) ns.hnsw.points ranked) :
    Ranking (CloserEntry dist probe) ns.liveList (ranked.filterMap ns.pointEntry) := by
  rw [← wf.filterMap_points]
  refine ranking.filterMap ?_
  intro p q e f pointP pointQ foundP foundQ closer
  rw [CloserEntry, ← wf.snd_of_point drawn pointP foundP, ← wf.snd_of_point drawn pointQ foundQ]
  exact closer

/-- The entries of another namespace, when it holds the entries that satisfy
`keep` and no others. -/
theorem WellFormed.perm_liveList (wf : ns.WellFormed) (wf' : ns'.WellFormed)
    {keep : CacheEntry → Bool}
    (same : ∀ e, (∃ i, ns'.entries.lookup i = some e) ↔
      (∃ i, ns.entries.lookup i = some e) ∧ keep e = true) :
    (ns.liveList.filter keep).Perm ns'.liveList := by
  refine (List.perm_ext_iff_of_nodup (wf.nodup_liveList.filter keep) wf'.nodup_liveList).mpr ?_
  intro e
  rw [List.mem_filter, wf.mem_liveList, wf'.mem_liveList, same e]

/-- Distances that are all different stay so for a part of the entries. -/
theorem WellFormed.distinct_of_perm (wf : ns.WellFormed) (drawn : ns.Drawn)
    (wf' : ns'.WellFormed) (drawn' : ns'.Drawn) (noGhosts : ns'.evictedIds = ∅)
    {keep : CacheEntry → Bool} (perm : (ns.liveList.filter keep).Perm ns'.liveList)
    (distinct : Distinct dist probe ns.hnsw) : Distinct dist probe ns'.hnsw := by
  have entries : ns.liveList.Pairwise fun e f =>
      CloserEntry dist probe e f ∨ CloserEntry dist probe f e := by
    rw [← wf.filterMap_points, List.pairwise_filterMap]
    refine distinct.imp_of_mem ?_
    intro p q pointP pointQ apart e foundP f foundQ
    rw [CloserEntry, CloserEntry, ← wf.snd_of_point drawn pointP foundP,
      ← wf.snd_of_point drawn pointQ foundQ]
    exact apart
  have kept := perm.pairwise (entries.filter keep) Or.symm
  rw [← wf'.filterMap_points, List.pairwise_filterMap] at kept
  refine kept.imp_of_mem ?_
  intro p q pointP pointQ apart
  have present : ∀ r ∈ ns'.hnsw.points, ∃ e, ns'.entries.lookup r.1 = some e := by
    intro r point
    refine wf'.entry_of_point (List.mem_map_of_mem point) ?_
    rw [noGhosts]
    exact Finset.notMem_empty _
  obtain ⟨e, foundP⟩ := present p pointP
  obtain ⟨f, foundQ⟩ := present q pointQ
  rw [wf'.snd_of_point drawn' pointP foundP, wf'.snd_of_point drawn' pointQ foundQ]
  exact apart e foundP f foundQ

end Ranked

/-! ## The answer of a query without text -/

/-- What a caller sees of a result: the UUID of the hit, or a miss. -/
def answer (result : Except String (Option QueryHit)) : Except String (Option String) :=
  result.map (Option.map QueryHit.id)

/-- The nearest entry, if it reaches the threshold. -/
def best (dist : Embedding → Embedding → F32) (probe : Embedding) (threshold : F32) :
    List CacheEntry → Option String
  | [] => none
  | e :: _ =>
    if Platform.lt (Platform.oneMinus (dist probe e.embedding)) threshold then none
    else some e.uuid

section Answer

variable {dist : Embedding → Embedding → F32} {probe : Embedding} {threshold : F32} {now : Nat}
  {ns : NamespacedIndex} {ranked : List (Nat × Embedding)}

/-- One turn of the loop at a neighbour that is no ghost. -/
theorem answer_scanNeighbours_cons {n : Neighbour} {neighbours : List Neighbour} {e : CacheEntry}
    (present : n.originId ∉ ns.evictedIds) (found : ns.entries.lookup n.originId = some e) :
    answer (ns.scanNeighbours threshold now (n :: neighbours)) =
      if Platform.lt (Platform.oneMinus n.distance) threshold then .ok none
      else if e.liveAt now then .ok (some e.uuid)
      else answer (ns.scanNeighbours threshold now neighbours) := by
  rw [scanNeighbours, if_neg present, found]
  dsimp only
  split
  · rfl
  · cases e.liveAt now with
    | true => rfl
    | false => rfl

/-- Over the nearest points of a namespace without expired entries: the scan
answers with the nearest live entry if it comes to it, behind the ghosts. -/
theorem WellFormed.answer_scanNeighbours (wf : ns.WellFormed) (drawn : ns.Drawn)
    (unexpired : ∀ i e, ns.entries.lookup i = some e → e.liveAt now = true)
    (points : ∀ p ∈ ranked, p ∈ ns.hnsw.points) (extra : Nat) :
    answer (ns.scanNeighbours threshold now
        ((ranked.take (extra + 1)).map (neighbourOf dist probe))) =
      .ok (if (ranked.takeWhile fun p => p.1 ∈ ns.evictedIds).length ≤ extra then
        best dist probe threshold (ranked.filterMap ns.pointEntry) else none) := by
  induction ranked generalizing extra with
  | nil => rw [List.filterMap_nil, best, ite_self]; rfl
  | cons p rest ih =>
      have later : ∀ q ∈ rest, q ∈ ns.hnsw.points := fun q mem =>
        points q (List.mem_cons_of_mem _ mem)
      have point := points p List.mem_cons_self
      rw [List.take_succ_cons, List.map_cons]
      by_cases ghost : p.1 ∈ ns.evictedIds
      · have gone : ns.pointEntry p = none :=
          Finmap.lookup_eq_none.mpr fun live => wf.disjoint p.1 live ghost
        have skipped : ∀ neighbours, ns.scanNeighbours threshold now
            (neighbourOf dist probe p :: neighbours) =
              ns.scanNeighbours threshold now neighbours := fun _ => if_pos ghost
        rw [skipped, List.filterMap_cons_none gone, List.takeWhile_cons_of_pos (by simpa using ghost),
          List.length_cons]
        cases extra with
        | zero => rfl
        | succ extra =>
            rw [ih later extra]
            simp only [Nat.add_le_add_iff_right]
      · obtain ⟨e, found⟩ := wf.entry_of_point (List.mem_map_of_mem point) ghost
        have place : dist probe p.2 = dist probe e.embedding := by
          rw [wf.snd_of_point drawn point found]
        have here : ns.pointEntry p = some e := found
        rw [answer_scanNeighbours_cons ghost found, List.filterMap_cons_some here,
          List.takeWhile_cons_of_neg (by simpa using ghost), List.length_nil,
          if_pos (Nat.zero_le extra), best,
          unexpired p.1 e found, neighbourOf, place]
        split
        · rfl
        · rfl

/-- There are no more ghosts in front than there are ghosts. -/
theorem WellFormed.length_takeWhile_le (wf : ns.WellFormed)
    (ranking : Ranking (CloserPoint dist probe) ns.hnsw.points ranked) :
    (ranked.takeWhile fun p => p.1 ∈ ns.evictedIds).length ≤ ns.evictedIds.card := by
  have nodup : (ranked.map Prod.fst).Nodup := by
    rw [(ranking.perm.map Prod.fst).nodup_iff, wf.graph]
    exact List.nodup_range
  have front : ((ranked.takeWhile fun p => p.1 ∈ ns.evictedIds).map Prod.fst).Nodup :=
    nodup.sublist ((List.takeWhile_sublist _).map Prod.fst)
  have ghosts : ((ranked.takeWhile fun p => p.1 ∈ ns.evictedIds).map Prod.fst).toFinset ⊆
      ns.evictedIds := by
    intro i mem
    obtain ⟨p, inFront, rfl⟩ := List.mem_map.mp (List.mem_toFinset.mp mem)
    simpa using List.mem_takeWhile_imp inFront
  have counted := Finset.card_le_card ghosts
  rwa [List.toFinset_card_of_nodup front, List.length_map] at counted

/-- The answer of a query without text, by the neighbours of the probe. -/
theorem answer_queryWithText (fits : ∀ d, ns.dimension = some d → d = probe.length) :
    answer (ns.queryWithText probe threshold none now) =
      if ns.dimension = none then .ok none
      else answer (ns.scanNeighbours threshold now (Platform.search ns.hnsw probe
        (1 + min ns.evictedIds.card maxEvictionOverscan) ns.efSearch)) := by
  have ann : ns.queryWithText probe threshold none now = ns.queryAnn probe threshold now := rfl
  rw [ann, queryAnn]
  cases set : ns.dimension with
  | none => rfl
  | some d =>
      dsimp only
      rw [if_neg (not_not_intro (fits d set)), if_neg (by simp)]

/-- A namespace without a dimension has no entry. -/
theorem WellFormed.pointEntry_of_unsized (wf : ns.WellFormed) (unset : ns.dimension = none)
    (points : List (Nat × Embedding)) : points.filterMap ns.pointEntry = [] := by
  refine List.filterMap_eq_nil_iff.mpr fun p _ => ?_
  cases found : ns.pointEntry p with
  | none => rfl
  | some e =>
      have sized := wf.sized p.1 e found
      rw [unset] at sized
      cases sized

/-- A namespace without expired entries answers with its best entry, unless more
than eight ghosts are in front of it. -/
theorem WellFormed.answer_unexpired (wf : ns.WellFormed) (drawn : ns.Drawn) (threshold : F32)
    (exact : ExactSearch dist) (distinct : Distinct dist probe ns.hnsw)
    (fits : ∀ d, ns.dimension = some d → d = probe.length)
    (unexpired : ∀ i e, ns.entries.lookup i = some e → e.liveAt now = true) :
    ∃ ranked, Ranking (CloserPoint dist probe) ns.hnsw.points ranked ∧
      answer (ns.queryWithText probe threshold none now) =
        .ok (if (ranked.takeWhile fun p => p.1 ∈ ns.evictedIds).length ≤ maxEvictionOverscan then
          best dist probe threshold (ranked.filterMap ns.pointEntry) else none) := by
  obtain ⟨ranked, ranking, reported⟩ := exact ns.hnsw probe
    (1 + min ns.evictedIds.card maxEvictionOverscan) ns.efSearch distinct
  refine ⟨ranked, ranking, ?_⟩
  rw [answer_queryWithText fits]
  by_cases unset : ns.dimension = none
  · rw [if_pos unset, wf.pointEntry_of_unsized unset, best, ite_self]
  · have bound := wf.length_takeWhile_le ranking
    have same : (ranked.takeWhile fun p => p.1 ∈ ns.evictedIds).length ≤
        min ns.evictedIds.card maxEvictionOverscan ↔
        (ranked.takeWhile fun p => p.1 ∈ ns.evictedIds).length ≤ maxEvictionOverscan := by
      omega
    have points : ∀ p ∈ ranked, p ∈ ns.hnsw.points := fun p mem => ranking.perm.mem_iff.mp mem
    rw [if_neg unset, reported, Nat.add_comm, wf.answer_scanNeighbours drawn unexpired points]
    simp only [same]

/-- The best entry is a miss when no entry reaches the threshold. -/
theorem best_eq_none_iff (floats : FloatOrder) {entries order : List CacheEntry}
    (ranking : Ranking (CloserEntry dist probe) entries order) :
    best dist probe threshold order = none ↔
      ∀ e ∈ entries, ¬ Reaches dist probe threshold e := by
  cases order with
  | nil =>
      rw [ranking.eq_nil]
      simp [best]
  | cons first rest =>
      rw [best]
      constructor
      · intro missed e mem
        have below : Platform.lt (Platform.oneMinus (dist probe first.embedding)) threshold = true := by
          by_contra reaches
          rw [if_neg reaches] at missed
          cases missed
        refine not_not_intro ?_
        rcases ranking.closer_of_head mem with rfl | closer
        · exact below
        · exact floats.oneMinus_lt _ _ _ closer below
      · intro none
        exact if_pos (not_not.mp (none first ranking.mem_of_head))

/-- A namespace without ghosts and expired entries answers with the best of the
entries it shares with another one. -/
theorem WellFormed.answer_clean (wf : ns.WellFormed) (drawn : ns.Drawn) (threshold : F32)
    (floats : FloatOrder) (exact : ExactSearch dist) (distinct : Distinct dist probe ns.hnsw)
    {order : List CacheEntry} (ranking : Ranking (CloserEntry dist probe) ns.liveList order)
    {ns' : NamespacedIndex} (wf' : ns'.WellFormed) (drawn' : ns'.Drawn) (noGhosts : ns'.evictedIds = ∅)
    (fits : ∀ d, ns'.dimension = some d → d = probe.length) {keep : CacheEntry → Bool}
    (same : ∀ e, (∃ i, ns'.entries.lookup i = some e) ↔
      (∃ i, ns.entries.lookup i = some e) ∧ keep e = true)
    (unexpired : ∀ i e, ns'.entries.lookup i = some e → e.liveAt now = true) :
    answer (ns'.queryWithText probe threshold none now) =
      .ok (best dist probe threshold (order.filter keep)) := by
  have perm := wf.perm_liveList wf' same
  have distinct' := wf.distinct_of_perm drawn wf' drawn' noGhosts perm distinct
  obtain ⟨ranked', ranking', answered⟩ :=
    wf'.answer_unexpired drawn' threshold exact distinct' fits unexpired
  have entries : order.filter keep = ranked'.filterMap ns'.pointEntry :=
    (ranking.filter keep).unique (fun e f => floats.asymm _ _) (wf'.ranking drawn' ranking') perm
  have front : (ranked'.takeWhile fun p => p.1 ∈ ns'.evictedIds) = [] := by
    rw [noGhosts]
    cases ranked' with
    | nil => rfl
    | cons p rest => exact List.takeWhile_cons_of_neg (by simp)
  rw [answered, front, entries]
  exact congrArg Except.ok (if_pos (Nat.zero_le _))

end Answer

/-! ## Expired entries -/

section Expired

variable {dist : Embedding → Embedding → F32} {probe : Embedding} {threshold : F32} {now : Nat}
  {ns : NamespacedIndex}

/-- The entry is nearer to the probe than every other entry of the namespace. -/
def Nearest (dist : Embedding → Embedding → F32) (probe : Embedding) (ns : NamespacedIndex)
    (e : CacheEntry) : Prop :=
  (∃ i, ns.entries.lookup i = some e) ∧
    ∀ j f, ns.entries.lookup j = some f → f = e ∨ CloserEntry dist probe e f

/-- Without ghosts the query looks at one candidate, the entry nearest to the
probe. -/
theorem WellFormed.answer_noGhosts (wf : ns.WellFormed) (drawn : ns.Drawn) (threshold : F32)
    (now : Nat) (exact : ExactSearch dist) (distinct : Distinct dist probe ns.hnsw)
    (fits : ∀ d, ns.dimension = some d → d = probe.length) (noGhosts : ns.evictedIds = ∅) :
    ∃ order, Ranking (CloserEntry dist probe) ns.liveList order ∧
      answer (ns.queryWithText probe threshold none now) =
        .ok (if order.head?.all (·.liveAt now) then best dist probe threshold order else none) := by
  obtain ⟨ranked, ranking, reported⟩ := exact ns.hnsw probe
    (1 + min ns.evictedIds.card maxEvictionOverscan) ns.efSearch distinct
  refine ⟨ranked.filterMap ns.pointEntry, wf.ranking drawn ranking, ?_⟩
  rw [answer_queryWithText fits]
  by_cases unset : ns.dimension = none
  · rw [if_pos unset, wf.pointEntry_of_unsized unset]
    rfl
  · rw [if_neg unset, reported, noGhosts, Finset.card_empty, Nat.zero_min, Nat.add_zero]
    cases ranked with
    | nil => rfl
    | cons p rest =>
        have point := ranking.mem_of_head
        have present : p.1 ∉ ns.evictedIds := by
          rw [noGhosts]
          exact Finset.notMem_empty _
        obtain ⟨e, found⟩ := wf.entry_of_point (List.mem_map_of_mem point) present
        have here : ns.pointEntry p = some e := found
        have place : (neighbourOf dist probe p).distance = dist probe e.embedding := by
          rw [neighbourOf, wf.snd_of_point drawn point found]
        rw [List.take_succ_cons, List.take_zero, List.map_cons, List.map_nil,
          answer_scanNeighbours_cons present found, List.filterMap_cons_some here, place, best]
        have nothing : answer (ns.scanNeighbours threshold now []) = .ok none := rfl
        cases live : e.liveAt now with
        | true => split <;> simp [live]
        | false => simp [live, nothing]

theorem Nearest.unique (floats : FloatOrder) {e f : CacheEntry} (left : Nearest dist probe ns e)
    (right : Nearest dist probe ns f) : e = f := by
  obtain ⟨⟨i, foundE⟩, nearerE⟩ := left
  obtain ⟨⟨j, foundF⟩, nearerF⟩ := right
  rcases nearerE j f foundF with same | closer
  · exact same.symm
  · rcases nearerF i e foundE with same | back
    · exact same
    · exact absurd back (floats.asymm _ _ closer)

/-- The ranking of the entries starts with the nearest one. -/
theorem WellFormed.nearest_of_head (wf : ns.WellFormed) {first : CacheEntry}
    {rest : List CacheEntry}
    (ranking : Ranking (CloserEntry dist probe) ns.liveList (first :: rest)) :
    Nearest dist probe ns first := by
  refine ⟨wf.mem_liveList.mp ranking.mem_of_head, fun j f found => ?_⟩
  exact ranking.closer_of_head (wf.mem_liveList.mpr ⟨j, found⟩)

/-- A namespace without ghosts answers a query as it would after collecting the
expired entries and rebuilding, if and only if the entry nearest to the probe is
not expired or no unexpired entry reaches the threshold. -/
theorem expired_hides_iff {cfg : HnswConfig} (floats : FloatOrder) (exact : ExactSearch dist)
    (reached : Reachable cfg ns) (noGhosts : ns.evictedIds = ∅)
    (fits : ∀ d, ns.dimension = some d → d = probe.length)
    (distinct : Distinct dist probe ns.hnsw) {order order' : List Nat}
    (visits : HashMap.IterOrder ns.entries order)
    (visits' : HashMap.IterOrder (ns.collectExpiredWithin order now).1.entries order') :
    answer (ns.queryWithText probe threshold none now) =
        answer (((ns.collectExpiredWithin order now).1.rebuild order').queryWithText probe threshold
          none now) ↔
      (∀ e, Nearest dist probe ns e → e.liveAt now = true) ∨
        ∀ i e, ns.entries.lookup i = some e → e.liveAt now = true →
          ¬ Reaches dist probe threshold e := by
  have wf := representation_invariant reached
  have collected := wf.collectExpiredWithin order now
  have clean := collected.rebuild visits'
  obtain ⟨dense, members⟩ := collected.rebuild_spec visits'
  have kept : ∀ e, (∃ i, ((ns.collectExpiredWithin order now).1.rebuild order').entries.lookup i =
      some e) ↔ (∃ i, ns.entries.lookup i = some e) ∧ e.liveAt now = true := by
    intro e
    rw [members e]
    simp only [lookup_collectExpiredWithin visits]
    exact exists_and_right
  have sized : ((ns.collectExpiredWithin order now).1.rebuild order').dimension = ns.dimension := by
    rw [WellFormed.rebuild_dimension]
    exact (NamespacedIndex.Removed.dropAll wf _).dimension
  obtain ⟨ranked, ranking, before⟩ :=
    wf.answer_noGhosts reached.drawn threshold now exact distinct fits noGhosts
  have after := wf.answer_clean reached.drawn threshold floats exact distinct ranking clean
    (drawn_rebuild _ _) dense.noGhost (sized ▸ fits) kept
    fun i e found => ((kept e).mp ⟨i, found⟩).2
  rw [before, after, Except.ok.injEq]
  cases ranked with
  | nil =>
      have empty := ranking.eq_nil
      refine iff_of_true rfl (Or.inl fun e nearest => ?_)
      have mem := wf.mem_liveList.mpr nearest.1
      rw [empty] at mem
      cases mem
  | cons first rest =>
      have nearest : Nearest dist probe ns first := wf.nearest_of_head ranking
      cases live : first.liveAt now with
      | true =>
          refine iff_of_true ?_ (Or.inl fun e near => near.unique floats nearest ▸ live)
          simp [live, best]
      | false =>
          -- the only candidate is passed over, so the answer is a miss
          have missed : (if (first :: rest).head?.all (·.liveAt now) then
              best dist probe threshold (first :: rest) else none) = none := by
            simp [live]
          rw [missed, eq_comm, best_eq_none_iff floats (ranking.filter (·.liveAt now))]
          constructor
          · intro none
            refine Or.inr fun i e found alive => none e ?_
            exact List.mem_filter.mpr ⟨wf.mem_liveList.mpr ⟨i, found⟩, alive⟩
          · intro either e mem
            obtain ⟨stored, alive⟩ := List.mem_filter.mp mem
            rcases either with fresh | none
            · have contradiction := fresh first nearest
              rw [live] at contradiction
              cases contradiction
            · obtain ⟨i, found⟩ := wf.mem_liveList.mp stored
              exact none i e found alive

end Expired

/-! ## Ghosts -/

section Ghosts

variable {dist : Embedding → Embedding → F32} {probe : Embedding} {threshold : F32} {now : Nat}
  {ns : NamespacedIndex} {ranked : List (Nat × Embedding)}

/-- The ghosts that are nearer to the probe than the entry. -/
def nearerGhosts (dist : Embedding → Embedding → F32) (probe : Embedding) (ns : NamespacedIndex)
    (e : CacheEntry) : List (Nat × Embedding) :=
  ns.hnsw.points.filter fun p =>
    p.1 ∈ ns.evictedIds && Platform.lt (dist probe p.2) (dist probe e.embedding)

/-- The answer names the most similar live entry, and is a miss only when no
live entry reaches the threshold. -/
structure Complete (dist : Embedding → Embedding → F32) (probe : Embedding) (threshold : F32)
    (ns : NamespacedIndex) (uuid : Option String) : Prop where
  isSome_iff : uuid.isSome = true ↔
    ∃ i e, ns.entries.lookup i = some e ∧ Reaches dist probe threshold e
  nearest : ∀ u, uuid = some u → ∃ e, Nearest dist probe ns e ∧ e.uuid = u

/-- The ghosts in front of the first live entry are those nearer than it, and
nearer than any other. -/
theorem WellFormed.exists_nearerGhosts_iff (wf : ns.WellFormed) (drawn : ns.Drawn)
    (floats : FloatOrder) (ranking : Ranking (CloserPoint dist probe) ns.hnsw.points ranked)
    {bound : Nat} :
    (∃ i e, ns.entries.lookup i = some e ∧ (nearerGhosts dist probe ns e).length ≤ bound) ↔
      (∃ i e, ns.entries.lookup i = some e) ∧
        (ranked.takeWhile fun p => p.1 ∈ ns.evictedIds).length ≤ bound := by
  have point : ∀ {i e}, ns.entries.lookup i = some e → (i, e.embedding) ∈ ns.hnsw.points ∧
      decide (i ∈ ns.evictedIds) = false := by
    intro i e found
    refine ⟨drawn i e found, ?_⟩
    exact decide_eq_false (wf.disjoint i (Finmap.mem_of_lookup_eq_some found))
  constructor
  · rintro ⟨i, e, found, few⟩
    obtain ⟨here, present⟩ := point found
    refine ⟨⟨i, e, found⟩, le_trans ?_ few⟩
    exact ranking.length_takeWhile_le here present
  · rintro ⟨⟨i, e, found⟩, few⟩
    obtain ⟨here, present⟩ := point found
    have any : ∃ p ∈ ns.hnsw.points,
        (fun p : Nat × Embedding => decide (p.1 ∈ ns.evictedIds)) p = false :=
      ⟨(i, e.embedding), here, present⟩
    obtain ⟨p, mem, kept, counted⟩ :=
      ranking.exists_length_filter_le (fun p q => floats.asymm _ _) any
    obtain ⟨f, stored⟩ := wf.entry_of_point (List.mem_map_of_mem mem) (of_decide_eq_false kept)
    refine ⟨p.1, f, stored, le_trans ?_ few⟩
    rw [nearerGhosts, ← wf.snd_of_point drawn mem stored]
    exact counted

/-- The best entry of the ranking is missing if and only if no live entry reaches
the threshold. -/
theorem WellFormed.best_eq_none_iff_forall (wf : ns.WellFormed) (floats : FloatOrder)
    {order : List CacheEntry} (ranking : Ranking (CloserEntry dist probe) ns.liveList order) :
    best dist probe threshold order = none ↔
      ∀ i e, ns.entries.lookup i = some e → ¬ Reaches dist probe threshold e := by
  rw [best_eq_none_iff floats ranking]
  simp only [wf.mem_liveList, forall_exists_index]
  exact forall_comm

/-- The best entry of the ranking is the one complete answer. -/
theorem WellFormed.complete_iff (wf : ns.WellFormed) (floats : FloatOrder)
    {order : List CacheEntry} (ranking : Ranking (CloserEntry dist probe) ns.liveList order)
    {uuid : Option String} :
    Complete dist probe threshold ns uuid ↔ uuid = best dist probe threshold order := by
  have reaching : (∃ i e, ns.entries.lookup i = some e ∧ Reaches dist probe threshold e) ↔
      ¬ best dist probe threshold order = none := by
    rw [wf.best_eq_none_iff_forall floats ranking]
    push Not
    rfl
  have named : ∀ u, best dist probe threshold order = some u →
      ∃ e, Nearest dist probe ns e ∧ e.uuid = u := by
    intro u hit
    cases order with
    | nil => cases hit
    | cons first rest =>
        rw [best] at hit
        split at hit
        · cases hit
        · exact ⟨first, wf.nearest_of_head ranking, Option.some.inj hit⟩
  constructor
  · intro complete
    have some := complete.isSome_iff.trans reaching
    cases shown : best dist probe threshold order with
    | none =>
        rw [shown] at some
        simpa using some
    | some u =>
        rw [shown] at some
        obtain ⟨v, rfl⟩ := Option.isSome_iff_exists.mp (some.mpr (by simp))
        obtain ⟨e, nearest, rfl⟩ := named u shown
        obtain ⟨f, nearest', rfl⟩ := complete.nearest v rfl
        rw [nearest.unique floats nearest']
  · rintro rfl
    refine ⟨?_, named⟩
    rw [reaching, Option.isSome_iff_ne_none]

/-- The answer of a namespace without expired entries to a probe of its
dimension. -/
theorem complete_rebuild_iff {cfg : HnswConfig} (floats : FloatOrder) (exact : ExactSearch dist)
    (reached : Reachable cfg ns)
    (unexpired : ∀ i e, ns.entries.lookup i = some e → e.liveAt now = true)
    (fits : ∀ d, ns.dimension = some d → d = probe.length)
    (distinct : Distinct dist probe ns.hnsw) {order : List Nat}
    (visits : HashMap.IterOrder ns.entries order) :
    (∃ uuid, answer (ns.queryWithText probe threshold none now) = .ok uuid ∧
        Complete dist probe threshold ns uuid ∧
        answer ((ns.rebuild order).queryWithText probe threshold none now) = .ok uuid) ↔
      (∃ i e, ns.entries.lookup i = some e ∧
          (nearerGhosts dist probe ns e).length ≤ maxEvictionOverscan) ∨
        ∀ i e, ns.entries.lookup i = some e → ¬ Reaches dist probe threshold e := by
  have wf := representation_invariant reached
  obtain ⟨dense, members⟩ := wf.rebuild_spec visits
  obtain ⟨ranked, ranking, before⟩ :=
    wf.answer_unexpired reached.drawn threshold exact distinct fits unexpired
  have entries := wf.ranking reached.drawn ranking
  have kept : ∀ e, (∃ i, (ns.rebuild order).entries.lookup i = some e) ↔
      (∃ i, ns.entries.lookup i = some e) ∧ true = true := by
    intro e
    rw [members e]
    exact (and_iff_left rfl).symm
  have sized : (ns.rebuild order).dimension = ns.dimension := WellFormed.rebuild_dimension order
  have fresh : ∀ i e, (ns.rebuild order).entries.lookup i = some e → e.liveAt now = true := by
    intro i e found
    obtain ⟨j, old⟩ := (members e).mp ⟨i, found⟩
    exact unexpired j e old
  have after := wf.answer_clean reached.drawn threshold floats exact distinct entries
    (wf.rebuild visits) (drawn_rebuild _ _) dense.noGhost (sized ▸ fits) kept fresh
  rw [List.filter_true] at after
  have missed : best dist probe threshold (ranked.filterMap ns.pointEntry) = none ↔
      ∀ i e, ns.entries.lookup i = some e → ¬ Reaches dist probe threshold e :=
    wf.best_eq_none_iff_forall floats entries
  rw [before, after, wf.exists_nearerGhosts_iff reached.drawn floats ranking, ← missed]
  simp only [wf.complete_iff floats entries, Except.ok.injEq]
  constructor
  · rintro ⟨uuid, shown, rfl, -⟩
    by_cases few : (ranked.takeWhile fun p => p.1 ∈ ns.evictedIds).length ≤ maxEvictionOverscan
    · by_cases any : ∃ i e, ns.entries.lookup i = some e
      · exact Or.inl ⟨any, few⟩
      · exact Or.inr (missed.mpr fun i e found => absurd ⟨i, e, found⟩ any)
    · rw [if_neg few] at shown
      exact Or.inr shown.symm
  · intro either
    refine ⟨_, ?_, rfl, rfl⟩
    rcases either with ⟨-, few⟩ | none
    · exact if_pos few
    · rw [none, ite_self]

theorem answer_of_mismatch {d : Nat} (set : ns.dimension = some d) (mismatch : d ≠ probe.length) :
    answer (ns.queryWithText probe threshold none now) =
      .error (dimensionMismatch d probe.length) := by
  rw [queryWithText, Option.bind_none]
  dsimp only
  rw [queryAnn, set]
  dsimp only
  rw [if_pos mismatch]
  rfl

/-- A namespace without expired entries answers a query with its most similar
live entry, as it would right after a rebuild, if and only if some live entry has
at most eight ghosts nearer to the probe than itself or no live entry reaches the
threshold.  How large a part of the namespace the ghosts are does not matter.  A
probe of another dimension is refused before the rebuild as after it. -/
theorem ghosts_hide_iff {cfg : HnswConfig} (floats : FloatOrder) (exact : ExactSearch dist)
    (reached : Reachable cfg ns)
    (unexpired : ∀ i e, ns.entries.lookup i = some e → e.liveAt now = true)
    (distinct : Distinct dist probe ns.hnsw) {order : List Nat}
    (visits : HashMap.IterOrder ns.entries order) :
    ((∀ d, ns.dimension = some d → d = probe.length) →
      ((∃ uuid, answer (ns.queryWithText probe threshold none now) = .ok uuid ∧
          Complete dist probe threshold ns uuid ∧
          answer ((ns.rebuild order).queryWithText probe threshold none now) = .ok uuid) ↔
        (∃ i e, ns.entries.lookup i = some e ∧
            (nearerGhosts dist probe ns e).length ≤ maxEvictionOverscan) ∨
          ∀ i e, ns.entries.lookup i = some e → ¬ Reaches dist probe threshold e)) ∧
    ∀ d, ns.dimension = some d → d ≠ probe.length →
      answer (ns.queryWithText probe threshold none now) =
          .error (dimensionMismatch d probe.length) ∧
        answer ((ns.rebuild order).queryWithText probe threshold none now) =
          .error (dimensionMismatch d probe.length) := by
  refine ⟨fun fits => complete_rebuild_iff floats exact reached unexpired fits distinct visits,
    fun d set mismatch => ⟨answer_of_mismatch set mismatch, answer_of_mismatch ?_ mismatch⟩⟩
  rw [WellFormed.rebuild_dimension]
  exact set

end Ghosts

end Queries

/-! ## Closed examples -/

section Example

/-- The cosine distance of `[1.0, t]` from the probe `[1.0, 0.0]` grows with `t`;
the bits of `t` stand for it. -/
def gradedDistance (_ e : Embedding) : F32 := e.getD 1 0#32

/-- A platform with an exact search among vectors `[1.0, t]` around the probe
`[1.0, 0.0]`.  Subtraction of bits keeps the order that `1 - x` has on distances
up to `1.0`. -/
@[reducible]
def gradedPlatform : Platform where
  toLowercase s := s
  one := 0x3F800000#32
  oneMinus d := BitVec.ofNat 32 (0x3F800000 - d.toNat)
  lt a b := decide (a.toNat < b.toNat)
  ge a b := decide (b.toNat ≤ a.toNat)
  cosineSimilarity a b := if a = b then 0x3F800000#32 else 0#32
  search hnsw probe want _ :=
    ((hnsw.points.insertionSort fun p q =>
      (gradedDistance probe p.2).toNat ≤ (gradedDistance probe q.2).toNat).take want).map
        fun p => ⟨p.1, gradedDistance probe p.2⟩

local instance : Platform := gradedPlatform

theorem graded_floatOrder : FloatOrder where
  asymm := by
    intro a b less
    have order : a.toNat < b.toNat := of_decide_eq_true less
    intro back
    have : b.toNat < a.toNat := of_decide_eq_true back
    omega
  oneMinus_lt := by
    intro near far threshold closer below
    have order : near.toNat < far.toNat := of_decide_eq_true closer
    have missed : (BitVec.ofNat 32 (0x3F800000 - near.toNat)).toNat < threshold.toNat :=
      of_decide_eq_true below
    have goal : (BitVec.ofNat 32 (0x3F800000 - far.toNat)).toNat < threshold.toNat := by
      rw [BitVec.toNat_ofNat] at missed ⊢
      omega
    exact decide_eq_true goal

theorem graded_exactSearch : ExactSearch gradedDistance := by
  intro hnsw probe want ef distinct
  refine ⟨_, ⟨List.perm_insertionSort _ _, ?_⟩, rfl⟩
  let before : Nat × Embedding → Nat × Embedding → Prop := fun p q =>
    (gradedDistance probe p.2).toNat ≤ (gradedDistance probe q.2).toNat
  have total : Std.Total before := ⟨fun p q => Nat.le_total _ _⟩
  have trans : IsTrans _ before := ⟨fun p q r => Nat.le_trans⟩
  have sorted := List.pairwise_insertionSort before hnsw.points
  have apart := (List.perm_insertionSort before hnsw.points).symm.pairwise distinct Or.symm
  refine (sorted.and apart).imp ?_
  rintro p q ⟨order, closer | closer⟩
  · exact closer
  · have back : (gradedDistance probe q.2).toNat < (gradedDistance probe p.2).toNat :=
      of_decide_eq_true closer
    exact absurd back (Nat.not_lt.mpr order)

/-- A run of calls that visit no table. -/
theorem Reachable.foldl {cfg : HnswConfig} {ns : NamespacedIndex} (reached : Reachable cfg ns)
    {ops : List Op} (plain : ∀ op ∈ ops, ∀ ns : NamespacedIndex, ns.Admissible op) :
    Reachable cfg (ops.foldl apply ns) := by
  induction ops generalizing ns with
  | nil => exact reached
  | cons op ops ih =>
      refine ih (.call op reached (plain op List.mem_cons_self ns)) ?_
      exact fun other mem => plain other (List.mem_cons_of_mem _ mem)

def gradedEntry (uuid : String) (t : Nat) (expiresAt : Option Nat) : CacheEntry :=
  ⟨uuid, [0x3F800000#32, BitVec.ofNat 32 t], "r", "q", 0, 0, 0, expiresAt⟩

/-- An expired entry is nearest to the probe, a live one is behind it. -/
def halfExpired : NamespacedIndex :=
  [Op.insertWithUuid (gradedEntry "old" 1 (some 5)),
    .insertWithUuid (gradedEntry "new" 2 none)].foldl apply (new ⟨0, none⟩)

/-- The vector `[1.0, 0.0]`. -/
def gradedProbe : Embedding := [0x3F800000#32, 0#32]

theorem halfExpired_reachable : Reachable ⟨0, none⟩ halfExpired := by
  refine Reachable.foldl .new fun op mem ns => ?_
  simp only [List.mem_cons, List.not_mem_nil, or_false] at mem
  rcases mem with rfl | rfl <;> trivial

theorem expired_hides_iff_sample :
    answer (halfExpired.queryWithText gradedProbe 0#32 none 3) =
        answer (((halfExpired.collectExpiredWithin [0, 1] 3).1.rebuild [1, 0]).queryWithText
          gradedProbe 0#32 none 3) ↔
      (∀ e, Nearest gradedDistance gradedProbe halfExpired e → e.liveAt 3 = true) ∨
        ∀ i e, halfExpired.entries.lookup i = some e → e.liveAt 3 = true →
          ¬ Reaches gradedDistance gradedProbe 0#32 e := by
  refine expired_hides_iff graded_floatOrder graded_exactSearch halfExpired_reachable ?_ ?_ ?_ ?_ ?_
  · decide +kernel
  · decide +kernel
  · unfold Distinct
    decide +kernel
  · decide +kernel
  · decide +kernel

/-- At a time past the deadline of the nearest entry, the query misses; after the
expired entry is collected, it finds the live entry. -/
theorem expired_entry_hides_live :
    FloatOrder ∧ ExactSearch gradedDistance ∧ Reachable ⟨0, none⟩ halfExpired ∧
      halfExpired.evictedIds = ∅ ∧ Distinct gradedDistance gradedProbe halfExpired.hnsw ∧
      HashMap.IterOrder halfExpired.entries [0, 1] ∧
      HashMap.IterOrder (halfExpired.collectExpiredWithin [0, 1] 10).1.entries [1] ∧
      answer (halfExpired.queryWithText gradedProbe 0#32 none 10) = .ok none ∧
      answer (((halfExpired.collectExpiredWithin [0, 1] 10).1.rebuild [1]).queryWithText
        gradedProbe 0#32 none 10) = .ok (some "new") := by
  refine ⟨graded_floatOrder, graded_exactSearch, halfExpired_reachable, ?_⟩
  unfold Distinct
  decide +kernel

/-- No entry of the table expires when all ids handed out are checked. -/
theorem WellFormed.unexpired_of_range {ns : NamespacedIndex} (wf : ns.WellFormed) {now : Nat}
    (all : ∀ i ∈ List.range ns.nextId, (ns.entries.lookup i).all (·.liveAt now) = true) :
    ∀ i e, ns.entries.lookup i = some e → e.liveAt now = true := by
  intro i e found
  have checked := all i (List.mem_range.mpr (wf.lt_nextId found))
  rwa [found] at checked

/-- The nearer of two entries was removed. -/
def halfRemoved : NamespacedIndex :=
  [Op.insertWithUuid (gradedEntry "a" 1 none), .insertWithUuid (gradedEntry "b" 2 none),
    .removeByUuid "a"].foldl apply (new ⟨0, none⟩)

theorem halfRemoved_reachable : Reachable ⟨0, none⟩ halfRemoved := by
  refine Reachable.foldl .new fun op mem ns => ?_
  simp only [List.mem_cons, List.not_mem_nil, or_false] at mem
  rcases mem with rfl | rfl | rfl <;> trivial

theorem ghosts_hide_iff_sample :
    (∃ uuid, answer (halfRemoved.queryWithText gradedProbe 0#32 none 0) = .ok uuid ∧
        Complete gradedDistance gradedProbe 0#32 halfRemoved uuid ∧
        answer ((halfRemoved.rebuild [1]).queryWithText gradedProbe 0#32 none 0) = .ok uuid) ↔
      (∃ i e, halfRemoved.entries.lookup i = some e ∧
          (nearerGhosts gradedDistance gradedProbe halfRemoved e).length ≤ maxEvictionOverscan) ∨
        ∀ i e, halfRemoved.entries.lookup i = some e →
          ¬ Reaches gradedDistance gradedProbe 0#32 e := by
  have unexpired := (representation_invariant halfRemoved_reachable).unexpired_of_range
    (show ∀ i ∈ List.range halfRemoved.nextId,
      (halfRemoved.entries.lookup i).all (·.liveAt 0) = true by decide +kernel)
  refine (ghosts_hide_iff graded_floatOrder graded_exactSearch halfRemoved_reachable unexpired
    ?_ ?_).1 ?_
  · unfold Distinct
    decide +kernel
  · decide +kernel
  · decide +kernel

/-- Forty-six entries at growing distance from the probe, of which the nine
nearest were removed. -/
def crowded : NamespacedIndex :=
  ((List.range 46).map (fun i => Op.insertWithUuid (gradedEntry (toString i) (i + 1) none)) ++
    (List.range 9).map fun i => Op.removeByUuid (toString i)).foldl apply (new ⟨0, none⟩)

theorem crowded_reachable : Reachable ⟨0, none⟩ crowded := by
  refine Reachable.foldl .new fun op mem ns => ?_
  rcases List.mem_append.mp mem with insert | remove
  · obtain ⟨i, -, rfl⟩ := List.mem_map.mp insert
    trivial
  · obtain ⟨i, -, rfl⟩ := List.mem_map.mp remove
    trivial

theorem crowded_unexpired :
    ∀ i e, crowded.entries.lookup i = some e → e.liveAt 0 = true :=
  (representation_invariant crowded_reachable).unexpired_of_range (by decide +kernel)

/-- Nine ghosts in forty-six points do not trigger a rebuild, and the query
misses although every live entry reaches the threshold. -/
theorem crowded_ghosts_hide_live :
    FloatOrder ∧ ExactSearch gradedDistance ∧ Reachable ⟨0, none⟩ crowded ∧
      (∀ i e, crowded.entries.lookup i = some e → e.liveAt 0 = true) ∧
      crowded.needsRebuild = false ∧ Distinct gradedDistance gradedProbe crowded.hnsw ∧
      HashMap.IterOrder crowded.entries (List.range' 9 37) ∧
      answer (crowded.queryWithText gradedProbe 0#32 none 0) = .ok none ∧
      answer ((crowded.rebuild (List.range' 9 37)).queryWithText gradedProbe 0#32 none 0) =
        .ok (some "9") := by
  refine ⟨graded_floatOrder, graded_exactSearch, crowded_reachable, crowded_unexpired, ?_⟩
  unfold Distinct
  decide +kernel

end Example

end Ferrocache.NamespacedIndex
