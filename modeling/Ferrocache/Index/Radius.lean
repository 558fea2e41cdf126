import Ferrocache.Index.Components
import Ferrocache.Index.Evict
import Ferrocache.Index.Nearest

/-!
# Invalidation by similarity

`invalidate_similar` scans the side table of one namespace for the entries
within the radius and drops them one by one.  The scan and the query loop agree
on liveness and on the deadline, and on the threshold for a similarity that is
comparable with it, so a query with the probe of the invalidation then finds
nothing that the scan left (`invalidateSimilar_exact`).  A similarity that is NaN
is not at least the threshold for the scan, and not below it for the query loop
(`nan_similarity_left_and_found`).
-/

namespace Ferrocache

section Radius

variable [Platform]

/-- The entry is within the radius around the probe, and not expired. -/
def CacheEntry.Within (entry : CacheEntry) (probe : Embedding) (threshold : F32) (now : Nat) :
    Prop :=
  entry.liveAt now = true ∧
    Platform.ge (Platform.cosineSimilarity probe entry.embedding) threshold = true

omit [Platform] in
/-- What has not expired later has not expired yet. -/
theorem CacheEntry.liveAt_mono {entry : CacheEntry} {now later : Nat} (le : now ≤ later)
    (live : entry.liveAt later = true) : entry.liveAt now = true := by
  unfold CacheEntry.liveAt at live ⊢
  split at live
  · rfl
  · simp only [decide_eq_true_eq] at live ⊢
    omega

/-- A neighbour reported by the similarity of the scan: a point of the graph, at
the distance that its similarity to the probe stands for, which can be compared
with the threshold. -/
def Neighbour.BySimilarity (n : Neighbour) (hnsw : Hnsw) (probe : Embedding) (threshold : F32) :
    Prop :=
  ∃ e, (n.originId, e) ∈ hnsw.points ∧
    Platform.oneMinus n.distance = Platform.cosineSimilarity probe e ∧
    (Platform.lt (Platform.cosineSimilarity probe e) threshold = true ∨
      Platform.ge (Platform.cosineSimilarity probe e) threshold = true)

namespace NamespacedIndex

variable {ns : NamespacedIndex} {order : List Nat} {probe : Embedding} {threshold : F32} {now : Nat}

theorem mem_findSimilar {id : Nat} {u : String} :
    (id, u) ∈ ns.findSimilar order probe threshold now ↔
      id ∈ order ∧ ∃ e, ns.entries.lookup id = some e ∧ e.uuid = u ∧ id ∉ ns.evictedIds ∧
        e.Within probe threshold now := by
  unfold findSimilar
  rw [List.mem_filterMap]
  constructor
  · intro given
    obtain ⟨i, mem, found⟩ := given
    cases here : ns.entries.lookup i with
    | none => simp [here] at found
    | some e =>
        simp only [here] at found
        split at found
        case isTrue within =>
          cases found
          exact ⟨mem, e, here, rfl, within.1, within.2⟩
        case isFalse => cases found
  · intro given
    obtain ⟨mem, e, here, rfl, present, within⟩ := given
    refine ⟨id, mem, ?_⟩
    simp only [here]
    exact if_pos ⟨present, within⟩

/-- The scan and the removals take exactly the entries within the radius. -/
theorem WellFormed.mem_dropSimilar (wf : ns.WellFormed) (iter : HashMap.IterOrder ns.entries order)
    (u : String) :
    u ∈ (ns.dropAll ((ns.findSimilar order probe threshold now).map Prod.fst)).2.map Prod.fst ↔
      ∃ e, ns.getByUuid u = some e ∧ e.Within probe threshold now := by
  rw [wf.mem_dropAll]
  constructor
  · intro given
    obtain ⟨id, mem, e, found, rfl⟩ := given
    obtain ⟨⟨id', u⟩, listed, rfl⟩ := List.mem_map.mp mem
    obtain ⟨-, e', found', -, -, within⟩ := mem_findSimilar.mp listed
    obtain rfl : e = e' := Option.some.inj (found.symm.trans found')
    exact ⟨e, wf.getByUuid_of_entry found, within⟩
  · intro given
    obtain ⟨e, live, within⟩ := given
    obtain ⟨named, i, found⟩ := wf.getByUuid_eq_some.mp live
    have mem := Finmap.mem_of_lookup_eq_some found
    have listed : (i, u) ∈ ns.findSimilar order probe threshold now :=
      mem_findSimilar.mpr ⟨(iter.2 i).mpr mem, e, found, named, wf.disjoint i mem, within⟩
    exact ⟨i, List.mem_map.mpr ⟨_, listed, rfl⟩, e, found, named⟩

/-- A query without text misses when no entry is within the radius: a reported
neighbour is a ghost, or below the threshold, or expired. -/
theorem WellFormed.scanNeighbours_misses (wf : ns.WellFormed) (drawn : ns.Drawn)
    (none_within : ∀ u e, ns.getByUuid u = some e → ¬ e.Within probe threshold now)
    {neighbours : List Neighbour}
    (similar : ∀ n ∈ neighbours, n.BySimilarity ns.hnsw probe threshold) :
    ns.scanNeighbours threshold now neighbours = .ok none := by
  induction neighbours with
  | nil => rfl
  | cons n neighbours ih =>
      have rest := ih fun n mem => similar n (List.mem_cons_of_mem _ mem)
      unfold NamespacedIndex.scanNeighbours
      split
      case isTrue ghost => exact rest
      case isFalse present =>
        split
        case isTrue below => rfl
        case isFalse notBelow =>
          obtain ⟨p, point, distance, comparable⟩ := similar n List.mem_cons_self
          obtain ⟨e, found⟩ := wf.entry_of_point (List.mem_map_of_mem point) present
          rw [distance] at notBelow
          have reaches := comparable.resolve_left notBelow
          have drawnAt : p = e.embedding := wf.snd_of_point drawn point found
          rw [drawnAt] at reaches
          have expired : ¬ e.liveAt now = true := fun live =>
            none_within e.uuid e (wf.getByUuid_of_entry found) ⟨live, reaches⟩
          simp only [found, Bool.eq_false_iff.mpr expired, Bool.not_false, if_true]
          exact rest

theorem WellFormed.query_misses (wf : ns.WellFormed) (drawn : ns.Drawn)
    (fits : ∀ d, ns.dimension = some d → d = probe.length)
    (none_within : ∀ u e, ns.getByUuid u = some e → ¬ e.Within probe threshold now)
    (similar : ∀ want ef, ∀ n ∈ Platform.search ns.hnsw probe want ef,
      n.BySimilarity ns.hnsw probe threshold) :
    ns.queryWithText probe threshold none now = .ok none := by
  simp only [NamespacedIndex.queryWithText, Option.bind_none, queryAnn]
  cases set : ns.dimension with
  | none => rfl
  | some d =>
      simp only [fits d set, ne_eq, not_true_eq_false, if_false]
      exact wf.scanNeighbours_misses drawn none_within (similar _ _)

end NamespacedIndex

namespace SemanticIndex

variable {cfg : HnswConfig} {idx : SemanticIndex} {order : List Nat} {probe : Embedding}
  {threshold : F32} {m : String} {now : Nat}

theorem mem_invalidateSimilar (wf : idx.WellFormed)
    (admissible : idx.Admissible (.invalidateSimilar order probe threshold m now)) (u : String) :
    u ∈ (idx.invalidateSimilar order probe threshold m now).2 ↔
      ∃ e, idx.entryAt m u = some e ∧ e.Within probe threshold now := by
  unfold invalidateSimilar
  cases known : idx.namespaces.lookup m with
  | none => simp [entryAt_of_absent known]
  | some ns =>
      rw [entryAt_of_lookup known]
      exact (wf m ns known).mem_dropSimilar (admissible ns known) u

/-- A namespace other than the one that is named stays as it is. -/
theorem lookup_invalidateSimilar_of_ne {other : String} (apart : other ≠ m) :
    (idx.invalidateSimilar order probe threshold m now).1.namespaces.lookup other =
      idx.namespaces.lookup other := by
  unfold invalidateSimilar
  split
  · rfl
  · exact Finmap.lookup_insert_of_ne _ apart

/-- What the call leaves of the named namespace: the same graph, and the entries
outside the radius. -/
theorem invalidateSimilar_namespace (order : List Nat) (probe : Embedding) (threshold : F32)
    (now : Nat) {ns : NamespacedIndex} (wf : idx.WellFormed)
    (known : idx.namespaces.lookup m = some ns) :
    ∃ ns', (idx.invalidateSimilar order probe threshold m now).1.namespaces.lookup m = some ns' ∧
      NamespacedIndex.Shrinks ns ns' ∧
      NamespacedIndex.Removed ns ns' (idx.invalidateSimilar order probe threshold m now).2 := by
  unfold invalidateSimilar
  rw [known]
  exact ⟨_, Finmap.lookup_insert _, .dropAll _, .dropAll (wf m ns known) _⟩

theorem nodup_invalidateSimilar (wf : idx.WellFormed) :
    (idx.invalidateSimilar order probe threshold m now).2.Nodup := by
  cases known : idx.namespaces.lookup m with
  | none =>
      simp only [invalidateSimilar, known]
      exact List.nodup_nil
  | some ns =>
      obtain ⟨ns', -, -, removed⟩ := invalidateSimilar_namespace order probe threshold now wf known
      exact removed.nodup

/-- The outcome of an invalidation. -/
structure Invalidated (idx after : SemanticIndex) (removed : List String) (probe : Embedding)
    (threshold : F32) (m : String) (now : Nat) : Prop where
  exact : ∀ u, u ∈ removed ↔ ∃ e, idx.entryAt m u = some e ∧ e.Within probe threshold now
  once : removed.Nodup
  wellFormed : after.WellFormed
  live : ∀ u, after.entryAt m u = if u ∈ removed then none else idx.entryAt m u
  others : ∀ other, other ≠ m → after.namespaces.lookup other = idx.namespaces.lookup other
  unanswered : ∀ embedding threshold' text now' hit,
    after.queryWithText embedding threshold' m text now' = .ok (some hit) → hit.id ∉ removed

/-- The call takes the radius out of the namespace and nothing else, and the probe
then misses at any later time, if the similarities that the search goes by are
comparable with the threshold. -/
theorem invalidateSimilar_exact (used : Used cfg idx)
    (admissible : idx.Admissible (.invalidateSimilar order probe threshold m now))
    (fits : ∀ d, idx.dimensionOf m = some d → d = probe.length) :
    let after := (idx.invalidateSimilar order probe threshold m now).1
    let removed := (idx.invalidateSimilar order probe threshold m now).2
    Invalidated idx after removed probe threshold m now ∧
      ((∀ ns, idx.namespaces.lookup m = some ns → ∀ want ef,
          ∀ n ∈ Platform.search ns.hnsw probe want ef, n.BySimilarity ns.hnsw probe threshold) →
        ∀ later, now ≤ later → after.queryWithText probe threshold m none later = .ok none) := by
  intro after removed
  have wf := used.wellFormed
  have removes := Removed.invalidateSimilar wf order probe threshold m now
  have members : ∀ u, u ∈ removed ↔ _ := mem_invalidateSimilar wf admissible
  have live : ∀ u, after.entryAt m u = if u ∈ removed then none else idx.entryAt m u := by
    intro u
    refine (removes.live m u).trans (if_congr ?_ rfl rfl)
    simp [removed]
  refine ⟨⟨members, nodup_invalidateSimilar wf, removes.wellFormed,
    live, fun other apart => lookup_invalidateSimilar_of_ne apart, ?_⟩, ?_⟩
  · intro embedding threshold' text now' hit found mem
    refine removes.wellFormed.entryAt_of_nameAt (nameAt_of_query found) ?_
    rw [live, if_pos mem]
  · intro similar later le
    rcases known : idx.namespaces.lookup m with _ | ns
    · simp only [after, invalidateSimilar, known, queryWithText]
    · obtain ⟨ns', found, shrinks, gone⟩ :=
        invalidateSimilar_namespace order probe threshold now wf known
      have sameGraph : ns'.hnsw = ns.hnsw := shrinks.1
      have drawn : ns'.Drawn := (used.reachable known).drawn.of_shrinks shrinks
      have sized : ∀ d, ns'.dimension = some d → d = probe.length := by
        intro d set
        refine fits d ?_
        rw [dimensionOf, known]
        exact gone.dimension.symm.trans set
      simp only [after, queryWithText, found]
      refine gone.wellFormed.query_misses drawn sized (fun u e stays within => ?_) ?_
      · -- within the radius later is within the radius now, so the scan took it
        have both : u ∉ removed ∧ ns.getByUuid u = some e := by
          rw [gone.live] at stays
          split at stays
          · cases stays
          · next kept => exact ⟨kept, stays⟩
        refine both.1 ((members u).mpr ⟨e, ?_, CacheEntry.liveAt_mono le within.1, within.2⟩)
        rw [entryAt_of_lookup known]
        exact both.2
      · rw [sameGraph]
        exact similar ns known

end SemanticIndex

end Radius

section Example

local instance radiusExamplePlatform : Platform := Platform.sample

/-- The sample platform searches by its similarity. -/
theorem sample_bySimilarity (hnsw : Hnsw) (probe : Embedding) (threshold : F32) (want ef : Nat) :
    ∀ n ∈ Platform.search hnsw probe want ef, n.BySimilarity hnsw probe threshold := by
  intro n mem
  obtain ⟨p, inside, rfl⟩ := List.mem_map.mp (List.mem_of_mem_take mem)
  obtain ⟨point, same⟩ := List.mem_filter.mp inside
  have at_ : p.2 = probe := of_decide_eq_true same
  refine ⟨p.2, point, ?_, ?_⟩
  · rw [at_]
    simp [Platform.oneMinus, Platform.cosineSimilarity]
  · rcases Nat.lt_or_ge (Platform.cosineSimilarity probe p.2).toNat threshold.toNat with
      below | reaches
    · exact .inl (decide_eq_true below)
    · exact .inr (decide_eq_true reaches)

namespace SemanticIndex

/-- A line with a one-component embedding. -/
def radiusLine (uuid : String) (component : F32) : WalEntry :=
  ⟨uuid, [component], "r", uuid, "m::1", 1, 7, false, none⟩

/-- Two entries at different places. -/
def radiusSample : SemanticIndex :=
  ((((new ⟨64, none⟩).replayEntry (radiusLine "a" 1#32)).1).replayEntry (radiusLine "b" 2#32)).1

/-- The probe at the first of them takes it out, and then misses. -/
theorem invalidateSimilar_exact_sample :
    (radiusSample.invalidateSimilar [0, 1] [1#32] Platform.one "m::1" 9).2 = ["a"] ∧
      (radiusSample.invalidateSimilar [0, 1] [1#32] Platform.one "m::1" 9).1.queryWithText [1#32]
        Platform.one "m::1" none 10 = .ok none := by
  have used : Used ⟨64, none⟩ radiusSample :=
    .call (.replayEntry (radiusLine "b" 2#32))
      (.call (.replayEntry (radiusLine "a" 1#32)) .new trivial) trivial
  have admissible : radiusSample.Admissible
      (.invalidateSimilar [0, 1] [1#32] Platform.one "m::1" 9) := by
    intro ns known
    have found : ∀ ns ∈ radiusSample.namespaces.lookup "m::1",
        HashMap.IterOrder ns.entries [0, 1] := by decide +kernel
    exact found ns known
  have sized : radiusSample.dimensionOf "m::1" = some 1 := by decide +kernel
  have fits : ∀ d, radiusSample.dimensionOf "m::1" = some d → d = [1#32].length := by
    intro d set
    exact Option.some.inj (set.symm.trans sized)
  obtain ⟨-, misses⟩ := invalidateSimilar_exact used admissible fits
  refine ⟨by decide +kernel, misses (fun ns _ => ?_) 10 (by decide)⟩
  exact sample_bySimilarity ns.hnsw [1#32] Platform.one

end SemanticIndex

end Example

/-! ## A similarity that is NaN -/

section NotANumber

/-- Embeddings with the comparisons of IEEE 754, where an infinite component makes
every similarity a NaN.  The search is one of a graph with at most one point. -/
@[reducible]
def Platform.withNaN : Platform where
  toLowercase := Platform.sample.toLowercase
  one := 0x3F800000#32
  oneMinus d := if d = 0#32 then 0x3F800000#32 else if F32.isFinite d then 0#32 else 0x7FC00000#32
  lt a b := F32.isFinite a && F32.isFinite b && decide (a.toNat < b.toNat)
  ge a b := F32.isFinite a && F32.isFinite b && decide (b.toNat ≤ a.toNat)
  cosineSimilarity a b :=
    if !(a ++ b).all F32.isFinite then 0x7FC00000#32 else if a = b then 0x3F800000#32 else 0#32
  search hnsw probe want _ := (hnsw.points.map fun p =>
    ⟨p.1, if !(probe ++ p.2).all F32.isFinite then 0x7FC00000#32
      else if probe = p.2 then 0#32 else 0x3F800000#32⟩).take want

local instance nanExamplePlatform : Platform := Platform.withNaN

namespace SemanticIndex

/-- One entry with an infinite component. -/
def nanSample : SemanticIndex :=
  ((new ⟨64, none⟩).replayEntry (radiusLine "a" 0x7F800000#32)).1

/-- The scan leaves the entry, and the query with the same probe, threshold and
similarity returns it. -/
theorem nan_similarity_left_and_found :
    let call := nanSample.invalidateSimilar [0] [0x3F800000#32] Platform.one "m::1" 9
    Used ⟨64, none⟩ nanSample ∧
      nanSample.Admissible (.invalidateSimilar [0] [0x3F800000#32] Platform.one "m::1" 9) ∧
      nanSample.dimensionOf "m::1" = some 1 ∧
      (∀ ns, nanSample.namespaces.lookup "m::1" = some ns → ∀ want ef,
        ∀ n ∈ Platform.search ns.hnsw [0x3F800000#32] want ef, ∃ e, (n.originId, e) ∈ ns.hnsw.points ∧
          Platform.oneMinus n.distance = Platform.cosineSimilarity [0x3F800000#32] e) ∧
      call.2 = [] ∧
      call.1.queryWithText [0x3F800000#32] Platform.one "m::1" none 10 =
        .ok (some ⟨"a", "r", 0x7FC00000#32, 0, false⟩) := by
  refine ⟨.call (.replayEntry (radiusLine "a" 0x7F800000#32)) .new trivial, ?_, by decide +kernel, ?_,
    by decide +kernel, by decide +kernel⟩
  · intro ns known
    have found : ∀ ns ∈ nanSample.namespaces.lookup "m::1", HashMap.IterOrder ns.entries [0] := by
      decide +kernel
    exact found ns known
  · intro ns known want ef n mem
    have points : ∀ ns ∈ nanSample.namespaces.lookup "m::1",
        ns.hnsw.points = [(0, [0x7F800000#32])] := by
      decide +kernel
    unfold Platform.search at mem
    obtain ⟨p, inside, rfl⟩ := List.mem_map.mp (List.mem_of_mem_take mem)
    refine ⟨p.2, inside, ?_⟩
    rw [points ns known] at inside
    rw [List.mem_singleton.mp inside]
    decide

end SemanticIndex

end NotANumber

end Ferrocache
