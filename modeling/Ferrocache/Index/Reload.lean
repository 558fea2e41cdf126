import Ferrocache.Index.Owner
import Ferrocache.Index.Restore

/-!
# Answers by text after a restart

A snapshot lists the entries of a namespace in the iteration order of a hash
map, and the restart inserts them in this order.  The entries come back whole,
but the owner of a text is then the last listed entry that has it, whoever
owned it before.  The answers by text are the same after the restart exactly
when, in every namespace, the last listed entry with each text is the owner
(`OwnersListedLast`).
-/

namespace Ferrocache

namespace NamespacedIndex

section Reload

variable [Platform] {ns : NamespacedIndex}

/-- The UUID and the response that the pre-filter answers with. -/
def exactAnswer (ns : NamespacedIndex) (text : String) (now : Nat) : Option (String × String) :=
  (ns.exactMatch text now).map fun hit => (hit.id, hit.response)

/-- The last listed entry with each text is the owner of the text. -/
def OwnersListedLast (ns : NamespacedIndex) (order : List Nat) : Prop :=
  ∀ before e after, order.filterMap ns.entries.lookup = before ++ e :: after → textKey e ≠ "" →
    (∀ f ∈ after, textKey f ≠ textKey e) →
      ns.exactMatchIndex.lookup (textKey e) = some e.uuid

/-! ## The answer by text -/

theorem exactAnswer_of_blank {text : String} (blank : normalizeQueryText text = "") (now : Nat) :
    ns.exactAnswer text now = none := by
  unfold exactAnswer exactMatch
  simp [blank, guard]

/-- The answer is the owner of the text, while it is not expired. -/
theorem WellFormed.exactAnswer_eq (wf : ns.WellFormed) {text : String}
    (nonempty : normalizeQueryText text ≠ "") (now : Nat) :
    ns.exactAnswer text now =
      (ns.exactMatchIndex.lookup (normalizeQueryText text)).bind fun u =>
        (ns.getByUuid u).bind fun f =>
          if f.liveAt now then some (f.uuid, f.response) else none := by
  unfold exactAnswer
  cases owner : ns.exactMatchIndex.lookup (normalizeQueryText text) with
  | none =>
      unfold exactMatch
      simp [owner]
  | some uuid =>
      obtain ⟨-, i, f, here, rfl, -⟩ := wf.text _ _ owner
      have known := (wf.inverse f.uuid i).mpr ⟨f, here, rfl⟩
      rw [wf.exactMatch_of_owner nonempty ⟨i, here⟩ owner, known, Option.bind_some,
        wf.getByUuid_of_entry here, Option.bind_some]
      split <;> rfl

/-- At the beginning of time nothing is expired, so the answer is the owner. -/
theorem WellFormed.exactAnswer_zero (wf : ns.WellFormed) {text : String}
    (nonempty : normalizeQueryText text ≠ "") :
    (ns.exactAnswer text 0).map Prod.fst = ns.exactMatchIndex.lookup (normalizeQueryText text) := by
  rw [wf.exactAnswer_eq nonempty]
  cases owner : ns.exactMatchIndex.lookup (normalizeQueryText text) with
  | none => rfl
  | some uuid =>
      obtain ⟨-, i, f, here, rfl, -⟩ := wf.text _ _ owner
      rw [Option.bind_some, wf.getByUuid_of_entry here, Option.bind_some, if_pos f.liveAt_zero]
      rfl

/-- Two namespaces with the same entries give the same answers by text if and
only if every text has the same owner in both. -/
theorem WellFormed.exactAnswer_congr {ns' : NamespacedIndex} (wf : ns.WellFormed)
    (wf' : ns'.WellFormed) (same : ∀ u, ns'.getByUuid u = ns.getByUuid u) :
    (∀ text now, ns'.exactAnswer text now = ns.exactAnswer text now) ↔
      ∀ text, normalizeQueryText text ≠ "" →
        ns'.exactMatchIndex.lookup (normalizeQueryText text) =
          ns.exactMatchIndex.lookup (normalizeQueryText text) := by
  constructor
  · intro answers text nonempty
    rw [← wf'.exactAnswer_zero nonempty, answers, wf.exactAnswer_zero nonempty]
  · intro owners text now
    by_cases blank : normalizeQueryText text = ""
    · rw [exactAnswer_of_blank blank, exactAnswer_of_blank blank]
    · rw [wf'.exactAnswer_eq blank, wf.exactAnswer_eq blank, owners text blank]
      simp only [same]

/-! ## Inserting a list of entries -/

/-- `insert_with_uuid` over a list. -/
def insertAll (ns : NamespacedIndex) (entries : List CacheEntry) : NamespacedIndex :=
  entries.foldl (fun ns e => (ns.insertWithUuid e).1) ns

/-- A restart with a snapshot that lists the entries in the given order. -/
def reload (ns : NamespacedIndex) (fresh : HnswConfig) (order : List Nat) : NamespacedIndex :=
  (new fresh).insertAll (order.filterMap ns.entries.lookup)

/-- The slot of the text index that an entry takes. -/
def textSlot (e : CacheEntry) : Option (String × String) :=
  if textKey e = "" then none else some (textKey e, e.uuid)

theorem textSlot_eq_some {e : CacheEntry} {slot : String × String} :
    textSlot e = some slot ↔ textKey e ≠ "" ∧ slot = (textKey e, e.uuid) := by
  unfold textSlot
  split
  · next blank => simp [blank]
  · next nonempty => simp [nonempty, eq_comm]

/-- A text is among the slots of the entries that have it. -/
theorem mem_textSlots {entries : List CacheEntry} {k : String} :
    k ∈ (entries.filterMap textSlot).map Prod.fst ↔ k ≠ "" ∧ ∃ e ∈ entries, textKey e = k := by
  constructor
  · intro mem
    obtain ⟨slot, kept, rfl⟩ := List.mem_map.mp mem
    obtain ⟨e, listed, taken⟩ := List.mem_filterMap.mp kept
    obtain ⟨nonempty, rfl⟩ := textSlot_eq_some.mp taken
    exact ⟨nonempty, e, listed, rfl⟩
  · intro given
    rcases given with ⟨nonempty, e, listed, rfl⟩
    have taken := textSlot_eq_some.mpr ⟨nonempty, rfl⟩
    exact List.mem_map.mpr ⟨_, List.mem_filterMap.mpr ⟨e, listed, taken⟩, rfl⟩

theorem insertAll_textSlots_cons (index : HashMap String String) (e : CacheEntry)
    (entries : List CacheEntry) :
    HashMap.insertAll index ((e :: entries).filterMap textSlot) =
      HashMap.insertAll (registerText index e.queryText e.uuid) (entries.filterMap textSlot) := by
  unfold registerText
  by_cases blank : normalizeQueryText e.queryText = ""
  · have none : textSlot e = none := if_pos blank
    rw [List.filterMap_cons_none none, if_pos blank]
  · have some : textSlot e = some (textKey e, e.uuid) := if_neg blank
    rw [List.filterMap_cons_some some, if_neg blank]
    rfl

/-- Each insertion of the list stores a new entry. -/
def AddsAll (ns : NamespacedIndex) : List CacheEntry → Prop
  | [] => True
  | e :: entries => ns.Adds e ∧ (ns.insertWithUuid e).1.AddsAll entries

/-- Entries with new and distinct UUIDs and one dimension are all stored. -/
theorem WellFormed.addsAll (wf : ns.WellFormed) {d : Nat} {entries : List CacheEntry}
    (sized : ∀ d', ns.dimension = some d' → d' = d) (fits : ∀ e ∈ entries, e.embedding.length = d)
    (distinct : entries.Pairwise fun e f => e.uuid ≠ f.uuid)
    (fresh : ∀ e ∈ entries, ∀ f, ns.Stored f → f.uuid ≠ e.uuid) : ns.AddsAll entries := by
  induction entries generalizing ns with
  | nil => trivial
  | cons e entries ih =>
      obtain ⟨apart, distinct⟩ := List.pairwise_cons.mp distinct
      obtain ⟨fit, fits⟩ := List.forall_mem_cons.mp fits
      obtain ⟨new, fresh⟩ := List.forall_mem_cons.mp fresh
      have accepts : Accepts ns.dimension e.embedding.length := by
        cases set : ns.dimension with
        | none => exact .inl rfl
        | some d' => exact .inr (by rw [sized d' set, fit])
      have adds : ns.Adds e := by
        refine ⟨accepts, fun known => ?_⟩
        obtain ⟨i, there⟩ := Finmap.mem_iff.mp known
        obtain ⟨f, found, named⟩ := (wf.inverse e.uuid i).mp there
        exact new f ⟨i, found⟩ named
      refine ⟨adds, ih (wf.insertWithUuid e) ?_ fits distinct ?_⟩
      · intro d' set
        rw [(wf.insertWithUuid_of_accepts accepts).2.1] at set
        exact (Option.some.inj set).symm.trans fit
      · intro f mem g stored
        rcases (wf.stored_insertWithUuid adds g).mp stored with old | rfl
        · exact fresh f mem g old
        · exact apart f mem

/-- The entries of a listing are all stored in an empty namespace. -/
theorem WellFormed.addsAll_new (wf : ns.WellFormed) {order : List Nat}
    (iter : HashMap.IterOrder ns.entries order) (fresh : HnswConfig) :
    (new fresh).AddsAll (order.filterMap ns.entries.lookup) := by
  have fits : ∀ e ∈ order.filterMap ns.entries.lookup,
      e.embedding.length = ns.dimension.getD 0 := by
    intro e mem
    obtain ⟨i, -, found⟩ := List.mem_filterMap.mp mem
    rw [wf.sized i e found]
    rfl
  refine (wellFormed_new fresh).addsAll ?_ fits (wf.distinct_listed iter) ?_
  · intro d' set
    cases set
  · intro e _ f stored
    rcases stored with ⟨i, found⟩
    simp [new] at found

/-- Each stored entry takes over its text. -/
theorem AddsAll.exactMatchIndex {entries : List CacheEntry} (adds : ns.AddsAll entries) :
    (ns.insertAll entries).exactMatchIndex =
      HashMap.insertAll ns.exactMatchIndex (entries.filterMap textSlot) := by
  induction entries generalizing ns with
  | nil => rfl
  | cons e entries ih =>
      refine (ih adds.2).trans ?_
      rw [(insertWithUuid_of_adds adds.1).2, insertAll_textSlots_cons]

/-- A text is owned by the last inserted entry that has it. -/
theorem lookup_textSlots_of_last (index : HashMap String String) (before : List CacheEntry)
    {e : CacheEntry} {after : List CacheEntry} (nonempty : textKey e ≠ "")
    (last : ∀ f ∈ after, textKey f ≠ textKey e) :
    (HashMap.insertAll index ((before ++ e :: after).filterMap textSlot)).lookup (textKey e) =
      some e.uuid := by
  have taken := textSlot_eq_some.mpr ⟨nonempty, rfl⟩
  rw [List.filterMap_append, List.filterMap_cons_some taken]
  refine HashMap.lookup_insertAll_of_last _ fun mem => ?_
  obtain ⟨-, f, there, same⟩ := mem_textSlots.mp mem
  exact last f there same

/-- With the entries of a listing inserted into an empty text index, every text
has its owner back if and only if the owners are listed last. -/
theorem WellFormed.ownersListedLast_iff (wf : ns.WellFormed) {order : List Nat}
    (iter : HashMap.IterOrder ns.entries order) :
    (∀ text, normalizeQueryText text ≠ "" →
      (HashMap.insertAll ∅ ((order.filterMap ns.entries.lookup).filterMap textSlot)).lookup
          (normalizeQueryText text) =
        ns.exactMatchIndex.lookup (normalizeQueryText text)) ↔ ns.OwnersListedLast order := by
  constructor
  · intro owners before e after listed nonempty last
    rw [listed] at owners
    exact (owners e.queryText nonempty).symm.trans (lookup_textSlots_of_last ∅ before nonempty last)
  · intro listedLast text nonempty
    by_cases present : ∃ e ∈ order.filterMap ns.entries.lookup, textKey e = normalizeQueryText text
    · obtain ⟨before, e, after, listed, key, last⟩ := HashMap.exists_last present
      rw [← key] at nonempty last ⊢
      rw [listedLast before e after listed nonempty last, listed]
      exact lookup_textSlots_of_last ∅ before nonempty last
    · have absent : normalizeQueryText text ∉
          ((order.filterMap ns.entries.lookup).filterMap textSlot).map Prod.fst :=
        fun mem => present (mem_textSlots.mp mem).2
      rw [HashMap.lookup_insertAll_of_notMem absent, Finmap.lookup_empty]
      cases owner : ns.exactMatchIndex.lookup (normalizeQueryText text) with
      | none => rfl
      | some uuid =>
          obtain ⟨-, i, e, found, -, key⟩ := wf.text _ _ owner
          have visited : i ∈ order := (iter.2 i).mpr (Finmap.mem_of_lookup_eq_some found)
          exact absurd ⟨e, List.mem_filterMap.mpr ⟨i, visited, found⟩, key.symm⟩ present

end Reload

end NamespacedIndex

namespace SemanticIndex

section Reload

variable [Platform] {idx : SemanticIndex}

/-- The UUID and the response that the pre-filter of a namespace answers with. -/
def exactAnswer (idx : SemanticIndex) (m text : String) (now : Nat) : Option (String × String) :=
  (idx.namespaces.lookup m).bind (·.exactAnswer text now)

theorem exactAnswer_eq (idx : SemanticIndex) (m text : String) (now : Nat) :
    idx.exactAnswer m text now = (idx.namespaceMut m).exactAnswer text now := by
  unfold exactAnswer namespaceMut
  cases idx.namespaces.lookup m with
  | none =>
      unfold NamespacedIndex.exactAnswer NamespacedIndex.exactMatch
      simp [NamespacedIndex.new]
  | some ns => rfl

/-! ## The namespaces after a load -/

theorem namespaceMut_insertInto (idx : SemanticIndex) (modelId : String) (entry : CacheEntry)
    (m : String) : (idx.insertInto modelId entry).1.namespaceMut m =
      if m = modelId then ((idx.namespaceMut m).insertWithUuid entry).1
      else idx.namespaceMut m := by
  have stored : ∀ ns directory, namespaceMut
      ⟨idx.namespaces.insert modelId ns, directory, idx.hnswConfig⟩ m =
        if m = modelId then ns else idx.namespaceMut m := by
    intro ns directory
    unfold namespaceMut
    rw [HashMap.lookup_insert_eq]
    split <;> rfl
  unfold insertInto
  by_cases here : m = modelId
  · subst here
    rw [if_pos rfl]
    rcases (idx.namespaceMut m).insertWithUuid entry with ⟨ns, _ | _⟩
    · exact (stored ns _).trans (if_pos rfl)
    · exact (stored ns _).trans (if_pos rfl)
  · rw [if_neg here]
    rcases (idx.namespaceMut modelId).insertWithUuid entry with ⟨ns, _ | _⟩
    · exact (stored ns _).trans (if_neg here)
    · exact (stored ns _).trans (if_neg here)

/-- A load inserts into each namespace the entries listed for it. -/
theorem namespaceMut_load (idx : SemanticIndex) (entries : List SnapshotEntry) (m : String) :
    (idx.load entries).namespaceMut m = (idx.namespaceMut m).insertAll
      ((entries.filter fun s => s.modelId = m).map (·.cacheEntry)) := by
  induction entries generalizing idx with
  | nil => rfl
  | cons s entries ih =>
      have rest : (idx.load (s :: entries)).namespaceMut m = _ := ih (idx.replaySnapshotEntry s).1
      rw [rest, replaySnapshotEntry, namespaceMut_insertInto]
      by_cases here : s.modelId = m
      · rw [if_pos here.symm, List.filter_cons, if_pos (decide_eq_true here)]
        rfl
      · rw [if_neg fun same => here same.symm, List.filter_cons, if_neg]
        exact fun same => here (of_decide_eq_true same)

omit [Platform] in
theorem snapshotEntries_eq (idx : SemanticIndex) (order : PassOrder) :
    idx.snapshotEntries order = order.namespaces.flatMap fun m =>
      ((order.entries m).filterMap (idx.namespaceMut m).entries.lookup).map (snapshotEntry m) := by
  unfold snapshotEntries namespaceMut
  refine List.flatMap_congr fun m _ => ?_
  cases idx.namespaces.lookup m with
  | none => simp [NamespacedIndex.new]
  | some ns => rfl

omit [Platform] in
/-- What a snapshot lists for one namespace. -/
theorem snapshotEntries_at {order : PassOrder} (visits : Visits order idx) (m : String) :
    ((idx.snapshotEntries order).filter fun s => s.modelId = m).map (·.cacheEntry) =
      (order.entries m).filterMap (idx.namespaceMut m).entries.lookup := by
  rw [snapshotEntries_eq, HashMap.filter_flatMap_of_key _ visits.1.1]
  · split
    · rw [List.map_map]
      exact List.map_id _
    · next unvisited =>
        have absent : idx.namespaces.lookup m = none :=
          Finmap.lookup_eq_none.mpr fun mem => unvisited ((visits.1.2 m).mpr mem)
        rw [namespaceMut_of_absent absent]
        simp [NamespacedIndex.new]
  · intro modelId s mem
    obtain ⟨e, -, rfl⟩ := List.mem_map.mp mem
    rfl

/-! ## The restart -/

theorem Used.load {cfg : HnswConfig} (used : Used cfg idx) (entries : List SnapshotEntry) :
    Used cfg (idx.load entries) := by
  induction entries generalizing idx with
  | nil => exact used
  | cons s entries ih => exact ih (.call (.replaySnapshotEntry s) used trivial)

/-- The restart as each namespace sees it. -/
theorem namespaceMut_reloaded {order : PassOrder} (visits : Visits order idx) (fresh : HnswConfig)
    (m : String) : ((new fresh).load (idx.snapshotEntries order)).namespaceMut m =
      (idx.namespaceMut m).reload fresh (order.entries m) := by
  rw [namespaceMut_load, snapshotEntries_at visits]
  rfl

/-- The text index of a namespace after the restart: every text is owned by the
last listed entry that has it. -/
theorem exactMatchIndex_reloaded (wf : idx.WellFormed) {order : PassOrder}
    (visits : Visits order idx) (fresh : HnswConfig) {m : String} {ns : NamespacedIndex}
    (known : idx.namespaces.lookup m = some ns) :
    (((new fresh).load (idx.snapshotEntries order)).namespaceMut m).exactMatchIndex =
      HashMap.insertAll ∅
        (((order.entries m).filterMap ns.entries.lookup).filterMap NamespacedIndex.textSlot) := by
  rw [namespaceMut_reloaded visits, namespaceMut_of_lookup known]
  exact ((wf m ns known).addsAll_new (visits.2 m ns known) fresh).exactMatchIndex

/-- After a restart from a snapshot of any index, in any listing order, the
pre-filter gives every answer it gave before if and only if in every namespace
the last listed entry with each text is the owner of the text. -/
theorem reload_exactAnswer_iff {cfg : HnswConfig} (used : Used cfg idx) {order : PassOrder}
    (visits : Visits order idx) (fresh : HnswConfig) :
    (∀ m text now, ((new fresh).load (idx.snapshotEntries order)).exactAnswer m text now =
      idx.exactAnswer m text now) ↔
    ∀ m ns, idx.namespaces.lookup m = some ns → ns.OwnersListedLast (order.entries m) := by
  have wf := used.wellFormed
  have good : ((new fresh).load (idx.snapshotEntries order)).WellFormed :=
    (Used.new.load _).wellFormed
  -- the entries of each namespace come back, so only the owners can differ
  have each : ∀ m, (∀ text now,
      ((new fresh).load (idx.snapshotEntries order)).exactAnswer m text now =
        idx.exactAnswer m text now) ↔ ∀ text, normalizeQueryText text ≠ "" →
      (((new fresh).load (idx.snapshotEntries order)).namespaceMut m).exactMatchIndex.lookup
          (normalizeQueryText text) =
        (idx.namespaceMut m).exactMatchIndex.lookup (normalizeQueryText text) := by
    intro m
    simp only [exactAnswer_eq]
    refine (wf.namespaceMut m).exactAnswer_congr (good.namespaceMut m) fun u => ?_
    rw [namespaceMut_getByUuid, namespaceMut_getByUuid, (snapshot_restores used visits fresh).2.1]
  refine forall_congr' fun m => (each m).trans ?_
  cases known : idx.namespaces.lookup m with
  | none =>
      refine iff_of_true (fun text _ => ?_) fun ns none => by cases none
      rw [namespaceMut_reloaded visits, namespaceMut_of_absent known]
      simp [NamespacedIndex.reload, NamespacedIndex.new, NamespacedIndex.insertAll]
  | some ns =>
      rw [exactMatchIndex_reloaded wf visits fresh known, namespaceMut_of_lookup known]
      simp only [Option.some.injEq, forall_eq']
      exact (wf m ns known).ownersListedLast_iff (visits.2 m ns known)

end Reload

section Example

local instance reloadExamplePlatform : Platform := Platform.sample

/-- Two entries of one namespace with the same text; the second one owns it. -/
def sameText : SemanticIndex :=
  ((new ⟨0, none⟩).apply (.replayEntry (sampleLine "u" "a"))).apply
    (.replayEntry (sampleLine "v" "a"))

theorem sameText_used : Used ⟨0, none⟩ sameText := .call _ (.call _ .new trivial) trivial

/-- Listed in the order of insertion, the owner comes last. -/
theorem reload_exactAnswer_iff_sample :
    ((new ⟨0, none⟩).load (sameText.snapshotEntries ⟨["a"], fun _ => [0, 1]⟩)).exactAnswer
      "a" "Q" 7 = sameText.exactAnswer "a" "Q" 7 := by
  have visits : Visits ⟨["a"], fun _ => [0, 1]⟩ sameText := by decide +kernel
  refine (reload_exactAnswer_iff sameText_used visits ⟨0, none⟩).mpr (fun m ns known => ?_) _ _ _
  have only : m ∈ ["a"] := (visits.1.2 m).mpr (Finmap.mem_of_lookup_eq_some known)
  obtain rfl := List.mem_singleton.mp only
  have listing : (sameText.namespaces.lookup "a").map
      (fun ns => [0, 1].filterMap ns.entries.lookup) =
        some [(sampleLine "u" "a").cacheEntry, (sampleLine "v" "a").cacheEntry] := by
    decide +kernel
  have owner : (sameText.namespaces.lookup "a").bind (·.exactMatchIndex.lookup
      (NamespacedIndex.textKey (sampleLine "v" "a").cacheEntry)) = some "v" := by decide +kernel
  rw [known, Option.map_some, Option.some.injEq] at listing
  rw [known, Option.bind_some] at owner
  intro before e after listed _ last
  rw [listing] at listed
  match before, listed with
  | [], listed =>
      cases listed
      exact absurd rfl (last (sampleLine "v" "a").cacheEntry List.mem_cons_self)
  | [_], listed =>
      cases listed
      exact owner
  | _ :: _ :: before, listed =>
      simp at listed

/-- Listed the other way round, the other entry answers after the restart. -/
theorem reload_changes_owner :
    Used ⟨0, none⟩ sameText ∧ Visits ⟨["a"], fun _ => [1, 0]⟩ sameText ∧
      sameText.exactAnswer "a" "q" 0 = some ("v", "r") ∧
        ((new ⟨0, none⟩).load (sameText.snapshotEntries ⟨["a"], fun _ => [1, 0]⟩)).exactAnswer
          "a" "q" 0 = some ("u", "r") := by
  refine ⟨sameText_used, ?_, ?_, ?_⟩
  · decide +kernel
  · decide +kernel
  · decide +kernel

end Example

end SemanticIndex

end Ferrocache
