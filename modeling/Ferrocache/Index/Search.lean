import Ferrocache.Index.Invariant

/-!
# What a query may return

The graph keeps every id handed out since the last rebuild, while the side table
shrinks.  A neighbour that is no ghost is nevertheless always found there,
whatever neighbours the search reports: live ids and ghosts partition the ids of
the graph in every reachable state.  So a query never fails on a missing id, and
what it returns is one live entry, by its text or by its similarity
(`query_sound`).

The module also ties the points of the graph to the entries: the point of a live
id is drawn at the embedding of its entry.
-/

namespace Ferrocache.NamespacedIndex

section Search

variable [Platform] {ns : NamespacedIndex}

/-! ## Soundness -/

/-- The hit reports one entry that is live at `now`, and the reason for it. -/
structure Justified (ns : NamespacedIndex) (threshold : F32) (queryText : Option String)
    (now : Nat) (hit : QueryHit) (entry : CacheEntry) : Prop where
  stored : ns.entries.lookup hit.internalId = some entry
  present : hit.internalId ∉ ns.evictedIds
  id : hit.id = entry.uuid
  response : hit.response = entry.response
  live : entry.liveAt now = true
  reason : (hit.exactMatch = true ∧ ∃ text, queryText = some text ∧
      normalizeQueryText entry.queryText = normalizeQueryText text) ∨
    (hit.exactMatch = false ∧ Platform.ge hit.similarity threshold = true)

/-- A reported neighbour is a point of the graph, and its similarity can be
compared with the threshold. -/
def Comparable (ns : NamespacedIndex) (threshold : F32) (n : Neighbour) : Prop :=
  n.originId ∈ ns.hnsw.points.map Prod.fst ∧
    (Platform.lt (Platform.oneMinus n.distance) threshold = true ∨
      Platform.ge (Platform.oneMinus n.distance) threshold = true)

/-- A point of the graph that is no ghost has an entry. -/
theorem WellFormed.entry_of_point (wf : ns.WellFormed) {i : Nat}
    (point : i ∈ ns.hnsw.points.map Prod.fst) (present : i ∉ ns.evictedIds) :
    ∃ entry, ns.entries.lookup i = some entry := by
  rw [wf.graph, List.mem_range] at point
  rcases (wf.ids i).mpr point with live | ghost
  · exact Finmap.mem_iff.mp live
  · exact absurd ghost present

/-- The owner of a text has that text. -/
theorem WellFormed.justified_of_exactMatch (wf : ns.WellFormed) {text : String} {now : Nat}
    {hit : QueryHit} (threshold : F32) (found : ns.exactMatch text now = some hit) :
    ∃ entry, ns.Justified threshold (some text) now hit entry := by
  unfold exactMatch at found
  simp only [Option.bind_eq_bind, Option.bind_eq_some_iff] at found
  obtain ⟨_, -, uuid, owner, internalId, known, _, present, entry, stored, _, live, same⟩ := found
  obtain rfl := Option.some.inj same
  obtain ⟨-, i, e, here, named, key⟩ := wf.text _ _ owner
  obtain ⟨e', there, named'⟩ := (wf.inverse uuid internalId).mp known
  cases Option.some.inj (stored.symm.trans there)
  have place : i = internalId := wf.id_unique here stored (named.trans named'.symm)
  subst place
  cases Option.some.inj (stored.symm.trans here)
  refine ⟨entry, stored, ?_, rfl, rfl, ?_, Or.inl ⟨rfl, text, rfl, key.symm⟩⟩
  · by_contra ghost
    simp [guard, ghost] at present
  · by_contra expired
    simp [guard, expired] at live

/-- The scan finds every neighbour it asks for, and stops at a justified one. -/
theorem WellFormed.scanNeighbours (wf : ns.WellFormed) {threshold : F32} (now : Nat)
    (queryText : Option String) {neighbours : List Neighbour}
    (comparable : ∀ n ∈ neighbours, ns.Comparable threshold n) :
    ∃ answer, ns.scanNeighbours threshold now neighbours = .ok answer ∧
      ∀ hit, answer = some hit → ∃ entry, ns.Justified threshold queryText now hit entry := by
  induction neighbours with
  | nil => exact ⟨none, rfl, by simp⟩
  | cons n neighbours ih =>
      obtain ⟨point, ordered⟩ := comparable n List.mem_cons_self
      have rest := ih fun m mem => comparable m (List.mem_cons_of_mem _ mem)
      unfold NamespacedIndex.scanNeighbours
      split
      · exact rest
      · next present =>
          split
          · exact ⟨none, rfl, by simp⟩
          · next reaches =>
              obtain ⟨entry, stored⟩ := wf.entry_of_point point present
              rw [stored]
              dsimp only
              split
              · exact rest
              · next live =>
                  refine ⟨_, rfl, fun hit same => ?_⟩
                  obtain rfl := Option.some.inj same
                  have enough := ordered.resolve_left reaches
                  exact ⟨entry, stored, present, rfl, rfl, by simpa using live,
                    Or.inr ⟨rfl, enough⟩⟩

/-- In every reachable state, a query of the right dimension does not fail, and
any hit is one live entry with the text of the query or a similarity that
reaches the threshold. -/
theorem query_sound {cfg : HnswConfig} (reached : Reachable cfg ns) {embedding : Embedding}
    {threshold : F32} {queryText : Option String} {now : Nat}
    (fits : ∀ d, ns.dimension = some d → d = embedding.length)
    (comparable : ∀ n ∈ Platform.search ns.hnsw embedding
      (1 + min ns.evictedIds.card maxEvictionOverscan) ns.efSearch, ns.Comparable threshold n) :
    ∃ answer, ns.queryWithText embedding threshold queryText now = .ok answer ∧
      ∀ hit, answer = some hit → ∃ entry, ns.Justified threshold queryText now hit entry := by
  have wf := representation_invariant reached
  unfold queryWithText
  cases matched : queryText.bind (ns.exactMatch · now) with
  | some hit =>
      obtain ⟨text, rfl, found⟩ := Option.bind_eq_some_iff.mp matched
      refine ⟨some hit, rfl, fun other same => ?_⟩
      obtain rfl := Option.some.inj same
      exact wf.justified_of_exactMatch threshold found
  | none =>
      dsimp only
      unfold queryAnn
      cases set : ns.dimension with
      | none => exact ⟨none, rfl, by simp⟩
      | some d =>
          dsimp only
          rw [if_neg (not_not_intro (fits d set))]
          exact wf.scanNeighbours now queryText comparable

end Search

section Example

local instance : Platform := Platform.sample

/-- Two entries, of which the first is a ghost of the graph. -/
def ghosted : NamespacedIndex :=
  [Op.insertWithUuid (sampleEntry "a" "Hi"), .insertWithUuid (sampleEntry "b" "hi"),
    .removeByUuid "a"].foldl apply (new ⟨0, none⟩)

theorem query_sound_sample :
    ∃ answer, ghosted.queryWithText [1#32] Platform.one none 0 = .ok answer ∧
      ∀ hit, answer = some hit →
        ∃ entry, ghosted.Justified Platform.one none 0 hit entry := by
  have reached : Reachable ⟨0, none⟩ ghosted :=
    .call (.removeByUuid "a")
      (.call (.insertWithUuid (sampleEntry "b" "hi"))
        (.call (.insertWithUuid (sampleEntry "a" "Hi")) .new trivial) trivial) trivial
  refine query_sound reached ?_ ?_
  · decide +kernel
  · unfold Comparable
    decide +kernel

end Example

/-! ## The graph is drawn at the embeddings of the entries -/

/-- The point of a live id is the embedding of its entry. -/
def Drawn (ns : NamespacedIndex) : Prop :=
  ∀ i e, ns.entries.lookup i = some e → (i, e.embedding) ∈ ns.hnsw.points

/-- The graph stays, and an entry can only go or change its access metadata. -/
def Shrinks (ns ns' : NamespacedIndex) : Prop :=
  ns'.hnsw = ns.hnsw ∧ ∀ i e, ns'.entries.lookup i = some e →
    ∃ e', ns.entries.lookup i = some e' ∧ e'.embedding = e.embedding

section Graph

variable [Platform] {ns ns' ns'' : NamespacedIndex}

omit [Platform] in
theorem Shrinks.refl (ns : NamespacedIndex) : Shrinks ns ns :=
  ⟨rfl, fun _ e found => ⟨e, found, rfl⟩⟩

omit [Platform] in
theorem Shrinks.trans (first : Shrinks ns ns') (second : Shrinks ns' ns'') : Shrinks ns ns'' := by
  refine ⟨second.1.trans first.1, fun i e found => ?_⟩
  obtain ⟨e', found', same'⟩ := second.2 i e found
  obtain ⟨e'', found'', same''⟩ := first.2 i e' found'
  exact ⟨e'', found'', same''.trans same'⟩

omit [Platform] in
theorem Drawn.of_shrinks (drawn : ns.Drawn) (shrinks : Shrinks ns ns') : ns'.Drawn := by
  intro i e found
  obtain ⟨e', old, same⟩ := shrinks.2 i e found
  rw [shrinks.1, ← same]
  exact drawn i e' old

theorem lookup_dropEntry (i j : Nat) :
    (ns.dropEntry i).1.entries.lookup j = if j = i then none else ns.entries.lookup j := by
  unfold NamespacedIndex.dropEntry
  cases found : ns.entries.lookup i with
  | none =>
      dsimp only
      by_cases same : j = i
      · rw [if_pos same, same, found]
      · rw [if_neg same]
  | some entry => exact HashMap.lookup_erase_eq ..

theorem lookup_dropAll (ids : List Nat) (j : Nat) :
    (ns.dropAll ids).1.entries.lookup j = if j ∈ ids then none else ns.entries.lookup j := by
  induction ids generalizing ns with
  | nil => rfl
  | cons i ids ih =>
      have first : (ns.dropEntry i).1.entries.lookup j = _ := lookup_dropEntry i j
      have rest : ((ns.dropEntry i).1.dropAll ids).1.entries.lookup j = _ := ih
      rw [dropAll_cons, rest, first]
      by_cases here : j = i
      · simp [here]
      · simp [here]

/-- An expiry pass keeps the entries that are live at its time, and no others. -/
theorem lookup_collectExpiredWithin {order : List Nat} {now : Nat}
    (iter : HashMap.IterOrder ns.entries order) {j : Nat} {e : CacheEntry} :
    (ns.collectExpiredWithin order now).1.entries.lookup j = some e ↔
      ns.entries.lookup j = some e ∧ e.liveAt now = true := by
  rw [NamespacedIndex.collectExpiredWithin, lookup_dropAll]
  cases found : ns.entries.lookup j with
  | none => simp
  | some f =>
      have listed : j ∈ order := (iter.2 j).mpr (Finmap.mem_of_lookup_eq_some found)
      have expired : j ∈ ns.expiredIds order now ↔ f.liveAt now = false := by
        rw [expiredIds, List.mem_filter, found]
        simp [listed]
      simp only [expired]
      cases live : f.liveAt now with
      | true =>
          rw [if_neg Bool.noConfusion]
          constructor
          · intro same
            exact ⟨same, Option.some.inj same ▸ live⟩
          · exact And.left
      | false =>
          rw [if_pos rfl]
          constructor
          · intro none
            cases none
          · rintro ⟨same, alive⟩
            rw [← Option.some.inj same, live] at alive
            cases alive

theorem Shrinks.dropEntry (i : Nat) : Shrinks ns (ns.dropEntry i).1 := by
  refine ⟨?_, fun j e kept => ⟨e, ?_, rfl⟩⟩
  · unfold NamespacedIndex.dropEntry
    cases ns.entries.lookup i <;> rfl
  · rw [lookup_dropEntry] at kept
    split at kept
    · cases kept
    · exact kept

theorem Shrinks.dropAll (ids : List Nat) : Shrinks ns (ns.dropAll ids).1 := by
  induction ids generalizing ns with
  | nil => exact .refl ns
  | cons i ids ih =>
      rw [dropAll_cons]
      exact (Shrinks.dropEntry i).trans ih

theorem Shrinks.evictLru (modelId : String) : Shrinks ns (ns.evictLru modelId).1 := by
  rw [evictLru_fst]
  cases ns.lruId with
  | none => exact .refl ns
  | some evictId => exact .dropEntry evictId

theorem Shrinks.removeByUuid (uuid : String) : Shrinks ns (ns.removeByUuid uuid).1 := by
  unfold NamespacedIndex.removeByUuid
  cases ns.uuidToInternal.lookup uuid with
  | none => exact .refl ns
  | some i => exact .dropEntry i

omit [Platform] in
theorem Shrinks.recordAccess (internalId now : Nat) :
    Shrinks ns (ns.recordAccess internalId now) := by
  unfold NamespacedIndex.recordAccess
  cases found : ns.entries.lookup internalId with
  | none => exact .refl ns
  | some entry =>
      refine ⟨rfl, fun j e touched => ?_⟩
      rw [HashMap.lookup_insert_eq] at touched
      split at touched
      · next same =>
          cases Option.some.inj touched
          exact ⟨entry, same ▸ found, rfl⟩
      · exact ⟨e, touched, rfl⟩

omit [Platform] in
/-- A point and an entry under the next id. -/
theorem Drawn.extend (drawn : ns.Drawn) {entry : CacheEntry} (entries : ns'.entries =
      ns.entries.insert ns.nextId entry)
    (graph : ns'.hnsw = ns.hnsw.insert entry.embedding ns.nextId) : ns'.Drawn := by
  intro i e found
  rw [entries, HashMap.lookup_insert_eq] at found
  rw [graph, Hnsw.insert]
  split at found
  · next same =>
      cases Option.some.inj found
      rw [same]
      exact List.mem_append_right _ List.mem_cons_self
  · exact List.mem_append_left _ (drawn i e found)

theorem Drawn.insertWithUuid (drawn : ns.Drawn) (entry : CacheEntry) :
    (ns.insertWithUuid entry).1.Drawn := by
  unfold NamespacedIndex.insertWithUuid
  split
  · split
    · exact drawn
    · split
      · exact drawn
      · exact drawn.extend rfl rfl
  · dsimp only
    split
    · exact drawn
    · have sized : Drawn { ns with dimension := some entry.embedding.length } := drawn
      exact sized.extend rfl rfl

omit [Platform] in
theorem Drawn.refill (drawn : ns.Drawn) (drained : List CacheEntry) :
    (ns.refill drained).Drawn := by
  induction drained generalizing ns with
  | nil => exact drawn
  | cons entry drained ih =>
      rw [NamespacedIndex.refill]
      exact ih (drawn.extend rfl rfl)

omit [Platform] in
theorem drawn_rebuild (ns : NamespacedIndex) (order : List Nat) : (ns.rebuild order).Drawn := by
  refine Drawn.refill ?_ _
  intro i e found
  simp [drained] at found

/-- In every reachable state. -/
theorem Reachable.drawn {cfg : HnswConfig} (reached : Reachable cfg ns) : ns.Drawn := by
  induction reached with
  | new =>
      intro i e found
      simp [NamespacedIndex.new] at found
  | call op _ _ ih =>
      cases op with
      | insertWithUuid entry => exact ih.insertWithUuid entry
      | evictLru modelId => exact ih.of_shrinks (.evictLru modelId)
      | removeByUuid uuid => exact ih.of_shrinks (.removeByUuid uuid)
      | removeInternal internalId => exact ih.of_shrinks (.dropEntry internalId)
      | collectExpiredWithin order now => exact ih.of_shrinks (.dropAll _)
      | recordAccess internalId now => exact ih.of_shrinks (.recordAccess internalId now)
      | rebuild order => exact drawn_rebuild _ order

end Graph

end Ferrocache.NamespacedIndex
