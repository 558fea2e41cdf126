import Ferrocache.Index.Evict
import Ferrocache.Index.Reload

/-!
# The order of eviction among ties

`evict_lru` breaks a tie of the two timestamps by the internal id, which stands
for the order of insertion.  An insertion hands out a larger id than all before,
and no removal moves an id; but a rebuild and a restart renumber the entries as
a hash map lists them.  Each step of a run is dated here, and a UUID is born at
the step that makes it live.  While every renumbering lists the entries of one
second by their ids, the ids follow the births and ties go first in, first out.
-/

namespace Ferrocache.NamespacedIndex

/-- A call on a namespace, or a restart from a snapshot of it. -/
inductive Event : Type
  | call (op : Op)
  | restart (fresh : HnswConfig) (order : List Nat)

/-- A namespace with the number of steps so far and the step at which each UUID
became live. -/
structure Dated : Type where
  ns : NamespacedIndex
  born : String → Nat
  clock : Nat

/-- The entries of one insertion time are listed by their internal ids. -/
def ListedById (ns : NamespacedIndex) (order : List Nat) : Prop :=
  order.Pairwise fun i j => ∀ e f, ns.entries.lookup i = some e → ns.entries.lookup j = some f →
    e.insertedAt = f.insertedAt → i < j

/-- An event that renumbers the entries does so in the order of their ids. -/
def Renumbers (ns : NamespacedIndex) : Event → Prop
  | .call (.rebuild order) => ns.ListedById order
  | .call _ => True
  | .restart _ order => ns.ListedById order

section Fifo

variable [Platform] {ns next : NamespacedIndex} {s : Dated}

/-- The state an event leaves behind. -/
def react (ns : NamespacedIndex) : Event → NamespacedIndex
  | .call op => ns.apply op
  | .restart fresh order => ns.reload fresh order

/-- The visiting order of an event is an order of the table it visits. -/
def AdmissibleEvent (ns : NamespacedIndex) : Event → Prop
  | .call op => ns.Admissible op
  | .restart _ order => HashMap.IterOrder ns.entries order

namespace Dated

def new (cfg : HnswConfig) : Dated := ⟨NamespacedIndex.new cfg, fun _ => 0, 0⟩

/-- A step to another state of the namespace.  A UUID that it makes live is born
at this step. -/
def become (s : Dated) (next : NamespacedIndex) : Dated where
  ns := next
  born u := if u ∉ s.ns.uuidToInternal ∧ u ∈ next.uuidToInternal then s.clock else s.born u
  clock := s.clock + 1

/-- The states of a namespace after any sequence of events that satisfy `guard`. -/
inductive Run (cfg : HnswConfig) (guard : NamespacedIndex → Event → Prop) : Dated → Prop
  | new : Run cfg guard (Dated.new cfg)
  | step {s : Dated} (event : Event) : Run cfg guard s → s.ns.AdmissibleEvent event →
    guard s.ns event → Run cfg guard (s.become (s.ns.react event))

/-- If an eviction is due, no other entry with both timestamps of the victim was
inserted before it. -/
def Fifo (s : Dated) : Prop :=
  ∀ modelId victim, (s.ns.evictLru modelId).2 = some victim →
    ∀ e f, s.ns.Stored e → e.uuid = victim.uuid → s.ns.Stored f → f.uuid ≠ victim.uuid →
      f.lastAccessedAt = e.lastAccessedAt → f.insertedAt = e.insertedAt →
        ¬ s.born f.uuid < s.born victim.uuid

/-- Among the entries of one insertion time the ids follow the births. -/
structure InOrder (s : Dated) : Prop where
  wellFormed : s.ns.WellFormed
  past : ∀ i e, s.ns.entries.lookup i = some e → s.born e.uuid < s.clock
  ordered : ∀ i j e f, s.ns.entries.lookup i = some e → s.ns.entries.lookup j = some f →
    e.insertedAt = f.insertedAt → i < j → s.born e.uuid < s.born f.uuid

theorem inOrder_new (cfg : HnswConfig) : (new cfg).InOrder where
  wellFormed := wellFormed_new cfg
  past := by simp [new, NamespacedIndex.new]
  ordered := by simp [new, NamespacedIndex.new]

/-- The victim has the least id among its ties. -/
theorem InOrder.fifo (held : s.InOrder) : s.Fifo := by
  intro modelId victim evicted e f live named live' other accessed inserted
  obtain ⟨k, there⟩ := live
  obtain ⟨j, there'⟩ := live'
  have nonempty : 0 < s.ns.entryCount := by
    refine Nat.pos_of_ne_zero fun empty => ?_
    rw [HashMap.len_eq_zero.mp empty k] at there
    cases there
  obtain ⟨id, g, found, least, turn⟩ := evictLru_spec nonempty modelId
  rw [turn, Option.some.injEq] at evicted
  subst evicted
  obtain rfl := held.wellFormed.id_unique there found named
  obtain rfl : e = g := Option.some.inj (there.symm.trans found)
  have apart : j ≠ k := by
    intro same
    subst same
    exact other (congrArg CacheEntry.uuid (Option.some.inj (there'.symm.trans found)))
  have ranked := least j f there' apart
  unfold lruRank at ranked
  rw [accessed, inserted] at ranked
  have earlier : k < j := by
    simpa [Prod.Lex.toLex_lt_toLex] using ranked
  exact (held.ordered k j e f found there' inserted.symm earlier).asymm

/-! ## Steps that store no new entry -/

theorem mem_uuidToInternal_iff (wf : ns.WellFormed) {u : String} :
    u ∈ ns.uuidToInternal ↔ ∃ i e, ns.entries.lookup i = some e ∧ e.uuid = u := by
  rw [Finmap.mem_iff]
  exact exists_congr fun i => wf.inverse u i

theorem born_of_old (wf : s.ns.WellFormed) {i : Nat} {e : CacheEntry}
    (old : s.ns.entries.lookup i = some e) (next : NamespacedIndex) :
    (s.become next).born e.uuid = s.born e.uuid := by
  have known := (mem_uuidToInternal_iff wf).mpr ⟨i, e, old, rfl⟩
  exact if_neg fun both => both.1 known

/-- A step to entries that were all there, in an order that follows the births. -/
theorem InOrder.become (held : s.InOrder) (wf : next.WellFormed)
    (known : ∀ i e, next.entries.lookup i = some e →
      ∃ i' e', s.ns.entries.lookup i' = some e' ∧ e'.uuid = e.uuid)
    (ordered : ∀ i j e f, next.entries.lookup i = some e → next.entries.lookup j = some f →
      e.insertedAt = f.insertedAt → i < j → s.born e.uuid < s.born f.uuid) :
    (s.become next).InOrder := by
  have kept : ∀ i e, next.entries.lookup i = some e →
      (s.become next).born e.uuid = s.born e.uuid := by
    intro i e there
    obtain ⟨i', e', old, named⟩ := known i e there
    rw [← named]
    exact born_of_old held.wellFormed old next
  constructor
  case wellFormed => exact wf
  case past =>
    intro i e there
    obtain ⟨i', e', old, named⟩ := known i e there
    rw [kept i e there, ← named]
    exact (held.past i' e' old).trans (Nat.lt_succ_self _)
  case ordered =>
    intro i j e f there there' inserted earlier
    rw [kept i e there, kept j f there']
    exact ordered i j e f there there' inserted earlier

/-- A step that moves no entry and changes at most their accesses. -/
theorem InOrder.of_shadow (held : s.InOrder) (wf : next.WellFormed)
    (shadow : ∀ i e, next.entries.lookup i = some e →
      ∃ e', s.ns.entries.lookup i = some e' ∧ e'.uuid = e.uuid ∧ e'.insertedAt = e.insertedAt) :
    (s.become next).InOrder := by
  refine held.become wf ?_ ?_
  · intro i e there
    obtain ⟨e', old, named, -⟩ := shadow i e there
    exact ⟨i, e', old, named⟩
  · intro i j e f there there' inserted earlier
    obtain ⟨e', old, named, time⟩ := shadow i e there
    obtain ⟨f', old', named', time'⟩ := shadow j f there'
    rw [← named, ← named']
    refine held.ordered i j e' f' old old' ?_ earlier
    rw [time, inserted, time']

/-- A step that only drops entries. -/
theorem InOrder.of_subset (held : s.InOrder) (wf : next.WellFormed)
    (subset : ∀ i e, next.entries.lookup i = some e → s.ns.entries.lookup i = some e) :
    (s.become next).InOrder :=
  held.of_shadow wf fun i e there => ⟨e, subset i e there, rfl, rfl⟩

theorem lookup_of_dropEntry {id i : Nat} {e : CacheEntry}
    (kept : (ns.dropEntry id).1.entries.lookup i = some e) : ns.entries.lookup i = some e := by
  rw [lookup_dropEntry, Option.ite_none_left_eq_some] at kept
  exact kept.2

theorem InOrder.evictLru (held : s.InOrder) (modelId : String) :
    (s.become (s.ns.evictLru modelId).1).InOrder := by
  refine held.of_subset (held.wellFormed.evictLru modelId) fun i e kept => ?_
  rw [evictLru_fst] at kept
  cases chosen : s.ns.lruId with
  | none => rwa [chosen] at kept
  | some id =>
      rw [chosen] at kept
      exact lookup_of_dropEntry kept

theorem InOrder.removeByUuid (held : s.InOrder) (uuid : String) :
    (s.become (s.ns.removeByUuid uuid).1).InOrder := by
  refine held.of_subset (held.wellFormed.removeByUuid uuid) fun i e kept => ?_
  unfold NamespacedIndex.removeByUuid at kept
  cases known : s.ns.uuidToInternal.lookup uuid with
  | none => rwa [known] at kept
  | some id =>
      rw [known] at kept
      exact lookup_of_dropEntry kept

theorem InOrder.collectExpiredWithin (held : s.InOrder) (order : List Nat) (now : Nat) :
    (s.become (s.ns.collectExpiredWithin order now).1).InOrder := by
  refine held.of_subset (held.wellFormed.collectExpiredWithin order now) fun i e kept => ?_
  rw [NamespacedIndex.collectExpiredWithin, lookup_dropAll, Option.ite_none_left_eq_some] at kept
  exact kept.2

theorem InOrder.recordAccess (held : s.InOrder) (internalId now : Nat) :
    (s.become (s.ns.recordAccess internalId now)).InOrder := by
  refine held.of_shadow (held.wellFormed.recordAccess internalId now) fun i e touched => ?_
  rw [lookup_recordAccess] at touched
  obtain ⟨e', old, rfl⟩ := Option.map_eq_some_iff.mp touched
  refine ⟨e', old, ?_⟩
  split
  · exact ⟨rfl, rfl⟩
  · exact ⟨rfl, rfl⟩

/-! ## Insertions -/

/-- A new entry gets the largest id and is born last. -/
theorem InOrder.insertWithUuid (held : s.InOrder) (entry : CacheEntry) :
    (s.become (s.ns.insertWithUuid entry).1).InOrder := by
  have wf := held.wellFormed
  have wf' := wf.insertWithUuid entry
  by_cases adds : s.ns.Adds entry
  · have entries := (insertWithUuid_of_adds adds).1
    have split : ∀ i e, (s.ns.insertWithUuid entry).1.entries.lookup i = some e →
        (i = s.ns.nextId ∧ e = entry) ∨ s.ns.entries.lookup i = some e := by
      intro i e there
      rw [entries, HashMap.lookup_insert_eq] at there
      split at there
      · next same => exact .inl ⟨same, (Option.some.inj there).symm⟩
      · exact .inr there
    have youngest : (s.become (s.ns.insertWithUuid entry).1).born entry.uuid = s.clock := by
      refine if_pos ⟨adds.2, (mem_uuidToInternal_iff wf').mpr ⟨s.ns.nextId, entry, ?_, rfl⟩⟩
      rw [entries, HashMap.lookup_insert_eq, if_pos rfl]
    constructor
    case wellFormed => exact wf'
    case past =>
      intro i e there
      rcases split i e there with ⟨-, rfl⟩ | old
      · rw [youngest]
        exact Nat.lt_succ_self _
      · rw [born_of_old wf old]
        exact (held.past i e old).trans (Nat.lt_succ_self _)
    case ordered =>
      intro i j e f there there' inserted earlier
      rcases split i e there with ⟨rfl, -⟩ | old
      · -- nothing has a larger id than the new entry
        rcases split j f there' with ⟨rfl, -⟩ | old'
        · exact absurd earlier (lt_irrefl _)
        · exact absurd earlier (wf.lt_nextId old').asymm
      · rw [born_of_old wf old]
        rcases split j f there' with ⟨-, rfl⟩ | old'
        · rw [youngest]
          exact held.past i e old
        · rw [born_of_old wf old']
          exact held.ordered i j e f old old' inserted earlier
  · refine held.of_subset wf' fun i e there => ?_
    rwa [(insertWithUuid_of_not_adds adds).1] at there

/-! ## Renumbering -/

/-- The ids are the positions in a list. -/
structure Lists (ns : NamespacedIndex) (l : List CacheEntry) : Prop where
  entries : ∀ i, ns.entries.lookup i = l[i]?
  nextId : ns.nextId = l.length

omit [Platform] in
theorem Lists.push {l : List CacheEntry} (lists : Lists ns l) {e : CacheEntry}
    (entries : next.entries = ns.entries.insert ns.nextId e)
    (nextId : next.nextId = ns.nextId + 1) : Lists next (l ++ [e]) := by
  constructor
  case entries =>
    intro i
    rw [entries, HashMap.lookup_insert_eq, lists.nextId, lists.entries, List.getElem?_append]
    split
    · next last =>
        subst last
        simp
    · next other =>
        split
        · rfl
        · have beyond : l.length < i := by omega
          simp [List.getElem?_eq_none beyond.le, Nat.sub_ne_zero_of_lt beyond]
  case nextId => rw [nextId, lists.nextId, List.length_append, List.length_singleton]

omit [Platform] in
theorem Lists.refill {l : List CacheEntry} (lists : Lists ns l) (entries : List CacheEntry) :
    Lists (ns.refill entries) (l ++ entries) := by
  induction entries generalizing ns l with
  | nil =>
      rw [List.append_nil]
      exact lists
  | cons e entries ih =>
      rw [NamespacedIndex.refill, List.append_cons]
      exact ih (lists.push rfl rfl)

theorem nextId_of_adds {entry : CacheEntry} (adds : ns.Adds entry) :
    (ns.insertWithUuid entry).1.nextId = ns.nextId + 1 := by
  rw [insertWithUuid_eq_addEntry adds]
  rfl

theorem Lists.insertAll {l : List CacheEntry} (lists : Lists ns l) {entries : List CacheEntry}
    (adds : ns.AddsAll entries) : Lists (ns.insertAll entries) (l ++ entries) := by
  induction entries generalizing ns l with
  | nil =>
      rw [List.append_nil]
      exact lists
  | cons e entries ih =>
      rw [List.append_cons]
      have pushed := lists.push (insertWithUuid_of_adds adds.1).1 (nextId_of_adds adds.1)
      exact ih pushed adds.2

theorem wellFormed_insertAll (wf : ns.WellFormed) (entries : List CacheEntry) :
    (ns.insertAll entries).WellFormed := by
  induction entries generalizing ns with
  | nil => exact wf
  | cons e entries ih => exact ih (wf.insertWithUuid e)

/-- A listing by ids lists the entries of one second by their births. -/
theorem InOrder.listed (held : s.InOrder) {order : List Nat} (byId : s.ns.ListedById order) :
    (order.filterMap s.ns.entries.lookup).Pairwise fun e f =>
      e.insertedAt = f.insertedAt → s.born e.uuid < s.born f.uuid := by
  rw [List.pairwise_filterMap]
  refine byId.imp fun {i j} sorted e found f found' inserted => ?_
  exact held.ordered i j e f found found' inserted (sorted e f found found' inserted)

/-- A renumbering that lists the entries by their ids. -/
theorem InOrder.renumber (held : s.InOrder) {order : List Nat} (byId : s.ns.ListedById order)
    (wf : next.WellFormed) (lists : Lists next (order.filterMap s.ns.entries.lookup)) :
    (s.become next).InOrder := by
  refine held.become wf ?_ ?_
  · intro i e there
    rw [lists.entries] at there
    obtain ⟨i', -, old⟩ := List.mem_filterMap.mp (List.mem_of_getElem? there)
    exact ⟨i', e, old, rfl⟩
  · intro i j e f there there' inserted earlier
    rw [lists.entries] at there there'
    obtain ⟨inside, rfl⟩ := List.getElem?_eq_some_iff.mp there
    obtain ⟨inside', rfl⟩ := List.getElem?_eq_some_iff.mp there'
    exact List.pairwise_iff_getElem.mp (held.listed byId) i j inside inside' earlier inserted

theorem InOrder.rebuild (held : s.InOrder) {order : List Nat}
    (iter : HashMap.IterOrder s.ns.entries order) (byId : s.ns.ListedById order) :
    (s.become (s.ns.rebuild order)).InOrder := by
  have empty : Lists s.ns.drained [] := ⟨by simp [drained], rfl⟩
  exact held.renumber byId (held.wellFormed.rebuild iter) (empty.refill _)

theorem InOrder.reload (held : s.InOrder) (fresh : HnswConfig) {order : List Nat}
    (iter : HashMap.IterOrder s.ns.entries order) (byId : s.ns.ListedById order) :
    (s.become (s.ns.reload fresh order)).InOrder := by
  have empty : Lists (NamespacedIndex.new fresh) [] := ⟨by simp [NamespacedIndex.new], rfl⟩
  refine held.renumber byId (wellFormed_insertAll (wellFormed_new fresh) _) ?_
  exact empty.insertAll (held.wellFormed.addsAll_new iter fresh)

/-! ## Runs -/

/-- One event. -/
theorem InOrder.react (held : s.InOrder) {event : Event} (admissible : s.ns.AdmissibleEvent event)
    (renumbers : s.ns.Renumbers event) : (s.become (s.ns.react event)).InOrder := by
  cases event with
  | call op =>
      cases op with
      | insertWithUuid entry => exact held.insertWithUuid entry
      | evictLru modelId => exact held.evictLru modelId
      | removeByUuid uuid => exact held.removeByUuid uuid
      | removeInternal internalId =>
          exact held.of_subset (held.wellFormed.removeInternal internalId)
            fun i e kept => lookup_of_dropEntry kept
      | collectExpiredWithin order now => exact held.collectExpiredWithin order now
      | recordAccess internalId now => exact held.recordAccess internalId now
      | rebuild order => exact held.rebuild admissible renumbers
  | restart fresh order => exact held.reload fresh admissible renumbers

/-- In every run whose rebuilds and restarts list the entries of one insertion
time by their internal ids, ties are evicted first in, first out. -/
theorem ties_evicted_in_order {cfg : HnswConfig} (run : Run cfg Renumbers s) : s.Fifo := by
  have held : s.InOrder := by
    induction run with
    | new => exact inOrder_new cfg
    | step event _ admissible renumbers ih => exact ih.react admissible renumbers
  exact held.fifo

end Dated

end Fifo

section Example

local instance fifoExamplePlatform : Platform := Platform.sample

namespace Dated

/-- The states of a run, from the empty namespace. -/
def after (events : List Event) : Dated :=
  events.foldl (fun s event => s.become (s.ns.react event)) (new ⟨0, none⟩)

/-- Three insertions within one second and the removal of the first entry, which
leaves enough ghosts for a rebuild. -/
def ghosted : List Event :=
  [.call (.insertWithUuid (sampleEntry "g" "g")), .call (.insertWithUuid (sampleEntry "a" "a")),
    .call (.insertWithUuid (sampleEntry "b" "b")), .call (.removeByUuid "g")]

theorem ghosted_run {guard : NamespacedIndex → Event → Prop}
    (inserts : ∀ ns entry, guard ns (.call (.insertWithUuid entry)))
    (removes : ∀ ns uuid, guard ns (.call (.removeByUuid uuid))) :
    Run ⟨0, none⟩ guard (after ghosted) :=
  .step _ (.step _ (.step _ (.step _ .new trivial (inserts _ _)) trivial (inserts _ _)) trivial
    (inserts _ _)) trivial (removes _ _)

/-- Drained by their ids, the two entries keep their order. -/
theorem ties_evicted_in_order_sample :
    ((after (ghosted ++ [.call (.rebuild [1, 2])])).ns.evictLru "m").2 = some ⟨"a", "m"⟩ ∧
      (after (ghosted ++ [.call (.rebuild [1, 2])])).Fifo := by
  have run : Run ⟨0, none⟩ Renumbers (after (ghosted ++ [.call (.rebuild [1, 2])])) := by
    refine .step (.call (.rebuild [1, 2]))
      (ghosted_run (fun _ _ => trivial) fun _ _ => trivial) ?_ ?_
    · unfold AdmissibleEvent Admissible
      decide +kernel
    · simp [Renumbers, ListedById]
  exact ⟨by decide +kernel, ties_evicted_in_order run⟩

/-- Drained the other way round, the younger entry is evicted first. -/
theorem rebuild_reverses_ties :
    (after ghosted).ns.needsRebuild = true ∧
      Run ⟨0, none⟩ (fun _ _ => True) (after (ghosted ++ [.call (.rebuild [2, 1])])) ∧
        ((after (ghosted ++ [.call (.rebuild [2, 1])])).ns.evictLru "m").2 = some ⟨"b", "m"⟩ ∧
          ¬ (after (ghosted ++ [.call (.rebuild [2, 1])])).Fifo := by
  have evicted : ((after (ghosted ++ [.call (.rebuild [2, 1])])).ns.evictLru "m").2 =
      some ⟨"b", "m"⟩ := by decide +kernel
  refine ⟨by decide +kernel, ?_, evicted, fun fifo => ?_⟩
  · refine .step (.call (.rebuild [2, 1]))
      (ghosted_run (fun _ _ => trivial) fun _ _ => trivial) ?_ trivial
    unfold AdmissibleEvent Admissible
    decide +kernel
  · refine fifo "m" ⟨"b", "m"⟩ evicted (sampleEntry "b" "b") (sampleEntry "a" "a") ⟨0, ?_⟩ rfl
      ⟨1, ?_⟩ ?_ rfl rfl ?_
    · decide +kernel
    · decide +kernel
    · decide
    · decide +kernel

end Dated

end Example

end Ferrocache.NamespacedIndex
