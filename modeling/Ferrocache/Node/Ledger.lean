import Ferrocache.Index.Radius
import Ferrocache.Index.Reaper
import Ferrocache.Node.Blocking
import Ferrocache.Node.Capacity
import Ferrocache.Server.Counters

/-!
# The metrics add up

The tasks of a node count what they remove: the flush task its evictions, the
reaper and the startup what expired, `invalidate_handler` what it invalidated.
Each counts after the fact, when the lock is free again and other tasks have run,
and by the lists that it was given rather than by what is in the index.  The
lists are exact, whatever runs in between: what a namespace has, what was counted
out of it and what is still to be counted add up to what was recovered and what
was added (`metrics_balance`).  What deletes and tombstones take out is booked
apart, since `delete_entry_handler` counts without looking whether the entry was
still there.
-/

namespace Ferrocache

/-! ## How a namespace grows and shrinks -/

namespace SemanticIndex

section Population

variable [Platform] {idx idx' : SemanticIndex} {m : String}

/-- An operation that loses live entries, each named once, leaves the others. -/
theorem Loses.population_add (wf : idx.WellFormed) {gone : List (String × String)}
    (lost : Loses idx idx' gone) (once : gone.Nodup)
    (present : ∀ u m, (u, m) ∈ gone → idx.entryAt m u ≠ none) :
    idx'.population m + gone.countP (fun pair => pair.2 = m) = idx.population m := by
  let away := (gone.filter fun pair => pair.2 = m).map Prod.fst
  have mem_away : ∀ u, u ∈ away ↔ (u, m) ∈ gone := by
    intro u
    simp only [away, List.mem_map, List.mem_filter, decide_eq_true_eq, Prod.exists,
      exists_and_right, exists_eq_right]
  have distinct : away.Nodup := by
    refine (once.filter _).map_on fun pair mem pair' mem' same => ?_
    have here := of_decide_eq_true (List.mem_filter.mp mem).2
    have here' := of_decide_eq_true (List.mem_filter.mp mem').2
    exact Prod.ext same (here.trans here'.symm)
  have count : away.toFinset.card = gone.countP fun pair => pair.2 = m := by
    rw [List.toFinset_card_of_nodup distinct, List.length_map, List.countP_eq_length_filter]
  have split : idx.residents m = idx'.residents m ∪ away.toFinset := by
    ext u
    rw [Finset.mem_union, wf.mem_residents, lost.wellFormed.mem_residents, List.mem_toFinset,
      mem_away, ne_eq, ne_eq, ← Option.map_eq_none_iff (f := (·.record)),
      ← Option.map_eq_none_iff (f := (·.record)) (x := idx'.entryAt m u), lost.live]
    by_cases mem : (u, m) ∈ gone
    · have live := present u m mem
      rw [ne_eq, ← Option.map_eq_none_iff (f := (·.record))] at live
      simp [mem, live]
    · simp [mem]
  have apart : Disjoint (idx'.residents m) away.toFinset := by
    refine Finset.disjoint_left.mpr fun u live mem => ?_
    rw [List.mem_toFinset, mem_away] at mem
    have dropped := lost.live m u
    rw [if_pos mem, Option.map_eq_none_iff] at dropped
    exact lost.wellFormed.mem_residents.mp live dropped
  rw [← wf.card_residents, ← lost.wellFormed.card_residents, ← count, split,
    Finset.card_union_of_disjoint apart]

theorem nodup_evictToCap (wf : idx.WellFormed) {order : List String}
    (iter : HashMap.IterOrder idx.namespaces order) (maxEntries : Nat) :
    ((idx.evictToCap order maxEntries).2.map fun e => (e.uuid, e.modelId)).Nodup := by
  have out : (idx.evictToCap order maxEntries).2.Nodup := by
    refine HashMap.nodup_forEach_out
      (fun m ns e mem => NamespacedIndex.modelId_of_mem_evictDownTo mem) iter.1
      fun m _ ns known => ?_
    have cut := NamespacedIndex.Removed.evictDownTo (wf m ns known) m maxEntries ns.entryCount
    exact cut.nodup.of_map _
  refine out.map fun e e' same => ?_
  obtain ⟨uuid, modelId⟩ := e
  obtain ⟨rfl, rfl⟩ := Prod.mk.inj same
  rfl

/-- A removal by UUID takes an entry out of the namespace. -/
def takes (idx : SemanticIndex) (uuid m : String) : Nat :=
  if idx.uuidToNamespace.lookup uuid = some m ∧ (idx.entryAt m uuid).isSome then 1 else 0

theorem population_removeByUuid (wf : idx.WellFormed) (uuid : String) :
    (idx.removeByUuid uuid).1.population m + idx.takes uuid m = idx.population m := by
  have spec := removeByUuid_spec wf uuid
  rw [← wf.card_residents, ← spec.wellFormed.card_residents]
  unfold takes
  by_cases hit : idx.uuidToNamespace.lookup uuid = some m ∧ (idx.entryAt m uuid).isSome
  · have there : uuid ∈ idx.residents m :=
      wf.mem_residents.mpr (Option.isSome_iff_ne_none.mp hit.2)
    have left : (idx.removeByUuid uuid).1.residents m = (idx.residents m).erase uuid := by
      ext u
      rw [spec.wellFormed.mem_residents, spec.live, Finset.mem_erase, wf.mem_residents]
      by_cases same : u = uuid
      · simp [same, hit.1]
      · simp [same]
    rw [if_pos hit, left, Finset.card_erase_add_one there]
  · have left : (idx.removeByUuid uuid).1.residents m = idx.residents m := by
      ext u
      rw [spec.wellFormed.mem_residents, spec.live, wf.mem_residents]
      split
      · next both =>
          -- the directory names the namespace, but the entry is not there
          obtain ⟨rfl, named⟩ := both
          have gone : idx.entryAt m u = none := by
            by_contra live
            exact hit ⟨named, Option.isSome_iff_ne_none.mpr live⟩
          rw [gone]
      · rfl
    rw [if_neg hit, left, Nat.add_zero]

/-- An insert adds an entry to the namespace: it is accepted, and the UUID is not
there yet. -/
def adds (idx : SemanticIndex) (line : WalEntry) (m : String) : Nat :=
  match (idx.replayEntry line).2 with
  | .ok _ => if line.modelId = m ∧ (idx.entryAt m line.uuid).isNone then 1 else 0
  | .error _ => 0

theorem Inserted.population_eq (wf : idx.WellFormed) {home : String} {entry : CacheEntry}
    (inserted : Inserted idx idx' home entry) :
    idx'.population m =
      idx.population m + if home = m ∧ (idx.entryAt m entry.uuid).isNone then 1 else 0 := by
  rw [← wf.card_residents, ← inserted.wellFormed.card_residents]
  by_cases new : home = m ∧ (idx.entryAt m entry.uuid).isNone
  · obtain ⟨rfl, absent⟩ := new
    have fresh : entry.uuid ∉ idx.residents home := fun live =>
      wf.mem_residents.mp live (Option.isNone_iff_eq_none.mp absent)
    rw [if_pos ⟨rfl, absent⟩, ← Finset.card_insert_of_notMem fresh]
    congr 1
    ext u
    rw [inserted.wellFormed.mem_residents, inserted.live, Finset.mem_insert, wf.mem_residents]
    by_cases same : u = entry.uuid
    · simp [same]
    · simp [same]
  · rw [if_neg new, Nat.add_zero]
    congr 1
    ext u
    rw [inserted.wellFormed.mem_residents, inserted.live, wf.mem_residents]
    by_cases hit : m = home ∧ u = entry.uuid
    · obtain ⟨rfl, rfl⟩ := hit
      have live : idx.entryAt m entry.uuid ≠ none := fun absent =>
        new ⟨rfl, Option.isNone_iff_eq_none.mpr absent⟩
      simp [live]
    · rw [if_neg hit]

theorem population_replayInsert (wf : idx.WellFormed) {line : WalEntry}
    (insert : line.tombstone = false) :
    (idx.replayEntry line).1.population m = idx.population m + idx.adds line m := by
  unfold adds
  rw [replayEntry_of_insert insert]
  by_cases accepted : NamespacedIndex.Accepts (idx.dimensionOf line.modelId)
      line.cacheEntry.embedding.length
  · obtain ⟨inserted, ok⟩ := insertInto_of_accepts wf accepted
    rw [ok]
    exact inserted.population_eq wf
  · obtain ⟨msg, rejected⟩ := insertInto_of_not_accepts accepted
    rw [rejected]
    rfl

end Population

end SemanticIndex

/-! ## Counting -/

/-- What a task counts for each tombstone that it has sent. -/
inductive Purpose : Type
  /-- the reaper and the startup -/
  | expires
  | deletes
  | invalidates
  | other

def Purpose.call (modelId : String) : Purpose → List Recording
  | .expires => [.expiration modelId]
  | .deletes => [.deletion modelId]
  | .invalidates => [.invalidation modelId]
  | .other => []

namespace Job

/-- The purpose of a task that was just started. -/
def purpose : Job → Purpose
  | .looking _ => .deletes
  | .invalidating _ _ _ _ => .invalidates
  | .reaping _ => .expires
  | _ => .other

/-- A reply to a tombstone is counted, whatever it says. -/
def records (purpose : Purpose) : Job → List Recording
  | .waiting (.insert entry) _ _ => purpose.call entry.modelId
  | _ => []

/-- What the removal of a delete takes out of a namespace. -/
def takes [Platform] (n : Node) (m : String) : Job → Nat
  | .removing uuid _ => n.index.takes uuid m
  | _ => 0

end Job

namespace Node

section Booking

variable [Platform] (n : Node)

omit [Platform] in
/-- The flush task counts its evictions before it writes their tombstones. -/
def records : Action → List Recording
  | .writeTombstones _ => match n.phase with
      | .evicted out _ => out.map fun e => .eviction e.modelId
      | _ => []
  | _ => []

omit [Platform] in
/-- The line that a step of the flush task applies. -/
def lineOf : Action → Option WalEntry
  | .apply => match n.phase with
      | .applying (line :: _) _ => some line
      | _ => none
  | _ => none

def adds (a : Action) (m : String) : Nat :=
  match n.lineOf a with
  | some line => if line.tombstone then 0 else n.index.adds line m
  | none => 0

def takes (a : Action) (m : String) : Nat :=
  match n.lineOf a with
  | some line => if line.tombstone then n.index.takes line.uuid m else 0
  | none => 0

end Booking

end Node

/-- A server whose tasks know what they count.  `called` are the calls of the
`record_*` functions about removals.  Two fields are not in the code: what the
applied lines added to each namespace, and what deletes and applied tombstones
took out of it. -/
structure Ledger : Type where
  node : Node
  tasks : List (Purpose × Job)
  called : List Recording
  added : String → Nat
  taken : String → Nat

namespace Ledger

section Machine

variable [Platform] (cfg : NodeConfig) (capacity : Nat) (l : Ledger)

omit [Platform] in
def server : Server := ⟨l.node, l.tasks.map Prod.snd⟩

def step : ServerEvent → Ledger
  | .spawn task => { l with tasks := l.tasks ++ [(task.purpose, task)] }
  | .run i choice =>
    match l.tasks[i]? with
    | none => l
    | some (purpose, task) =>
      let (node, next) := task.advance choice l.node
      { l with
        node := node
        tasks := l.tasks.set i (purpose, next)
        called := l.called ++ task.records purpose
        taken := fun m => l.taken m + task.takes l.node m }
  | .flush a =>
    { node := l.node.act cfg a
      tasks := l.tasks.map fun (purpose, task) => (purpose, task.follow l.node a)
      called := l.called ++ l.node.records a
      added := fun m => l.added m + l.node.adds a m
      taken := fun m => l.taken m + l.node.takes a m }

omit [Platform] in
/-- The startup counts what it expired when the tombstones are sent. -/
def start (n : Node) : Ledger :=
  ⟨n, [(.expires, .bury n.outbox)], [], fun _ => 0, fun _ => 0⟩

def run (events : List ServerEvent) : Ledger := events.foldl (step cfg) l

variable {cfg capacity l}

/-- Counting changes nothing. -/
theorem server_step (e : ServerEvent) : (l.step cfg e).server = l.server.step cfg e := by
  cases e with
  | spawn task => simp [step, server, Server.step]
  | run i choice =>
      cases found : l.tasks[i]? with
      | none => simp [step, server, Server.step, found]
      | some pair => simp [step, server, Server.step, found, List.map_set]
  | flush a => simp [step, server, Server.step, Function.comp_def]

theorem server_run (events : List ServerEvent) :
    (l.run cfg events).server = l.server.run cfg events := by
  induction events generalizing l with
  | nil => rfl
  | cons e events ih =>
      change ((l.step cfg e).run cfg events).server = (l.server.step cfg e).run cfg events
      rw [ih, server_step]

end Machine

end Ledger

/-! ## The balance -/

/-- The namespace out of which a removal was counted. -/
def Recording.removes : Recording → Option String
  | .eviction ns => some ns
  | .expiration ns => some ns
  | .invalidation ns => some ns
  | _ => none

/-- The removals that were counted for a namespace. -/
def counted (called : List Recording) (m : String) : Nat :=
  called.countP fun r => r.removes = some m

theorem counted_append (called more : List Recording) (m : String) :
    counted (called ++ more) m = counted called m + counted more m :=
  List.countP_append

/-- The removals that a task will count for a namespace, by the tombstones that it
has not counted yet. -/
def Purpose.owes (m : String) (entries : List WalEntry) : Purpose → Nat
  | .expires => entries.countP fun entry => entry.modelId = m
  | .invalidates => entries.countP fun entry => entry.modelId = m
  | _ => 0

theorem Purpose.owes_nil (m : String) (purpose : Purpose) : purpose.owes m [] = 0 := by
  cases purpose <;> rfl

/-- A tombstone is counted, or still to be counted. -/
theorem Purpose.owes_cons (m : String) (entry : WalEntry) (rest : List WalEntry)
    (purpose : Purpose) :
    purpose.owes m (entry :: rest) =
      counted (purpose.call entry.modelId) m + purpose.owes m rest := by
  cases purpose with
  | expires => simp [owes, call, counted, Recording.removes, List.countP_cons, Nat.add_comm]
  | invalidates => simp [owes, call, counted, Recording.removes, List.countP_cons, Nat.add_comm]
  | deletes => rfl
  | other => rfl

theorem countP_tombstones (gone : List (String × String)) (m : String) :
    ((tombstones gone).countP fun entry => entry.modelId = m) =
      gone.countP fun pair => pair.2 = m := by
  unfold tombstones
  rw [List.countP_map]
  rfl

namespace Job

/-- The tombstones that the task has not counted yet. -/
def unpaid : Job → List WalEntry
  | .burying entry rest => entry :: rest
  | .waiting (.insert entry) _ rest => entry :: rest
  | .waiting .compact _ rest => rest
  | _ => []

theorem unpaid_bury (entries : List WalEntry) : (bury entries).unpaid = entries := by
  cases entries <;> rfl

/-- The purpose is the one that the task was started with. -/
def Suits (purpose : Purpose) : Job → Prop
  | .looking _ => purpose = .deletes
  | .removing _ _ => purpose = .deletes
  | .invalidating _ _ _ _ => purpose = .invalidates
  | .reaping _ => purpose = .expires
  | .submitting _ => purpose = .other
  | _ => True

theorem suits_bury (purpose : Purpose) (entries : List WalEntry) : (bury entries).Suits purpose := by
  cases entries <;> trivial

/-- What a step of a task does to the books of a namespace. -/
structure Books [Platform] (purpose : Purpose) (t : Job) (n n' : Node) (t' : Job) : Prop where
  wellFormed : n'.index.WellFormed
  phase : n'.phase = n.phase
  suits : t'.Suits purpose
  balance : ∀ m, n'.index.population m + counted (t.records purpose) m + purpose.owes m t'.unpaid +
    t.takes n m = n.index.population m + purpose.owes m t.unpaid

section Steps

variable [Platform] {n : Node} {purpose : Purpose} {choice : Choice} {capacity : Nat}

/-- A step after which the task owes the removals that it has just made. -/
theorem Books.of_loses (wf : n.index.WellFormed) {t : Job} {index : SemanticIndex}
    {gone : List (String × String)} (lost : SemanticIndex.Loses n.index index gone)
    (once : gone.Nodup) (present : ∀ u m, (u, m) ∈ gone → n.index.entryAt m u ≠ none)
    (counts : ∀ m, purpose.owes m (tombstones gone) = gone.countP fun pair => pair.2 = m)
    (quiet : t.records purpose = [] ∧ t.unpaid = [] ∧ ∀ m, t.takes n m = 0) :
    Books purpose t n { n with index := index } (bury (tombstones gone)) := by
  obtain ⟨records, unpaid, takes⟩ := quiet
  refine ⟨lost.wellFormed, rfl, suits_bury _ _, fun m => ?_⟩
  rw [records, unpaid, takes, unpaid_bury, counts, Purpose.owes_nil]
  exact lost.population_add wf once present

theorem Books.advance (wf : n.index.WellFormed) {t : Job} (suits : t.Suits purpose)
    (ready : t.Ready choice n capacity) :
    Books purpose t n (t.advance choice n).1 (t.advance choice n).2 := by
  cases t with
  | reading => exact ⟨wf, rfl, trivial, fun m => rfl⟩
  | querying req modelId now =>
      unfold Job.advance
      dsimp only
      split
      · exact ⟨wf, rfl, trivial, fun m => rfl⟩
      · exact ⟨wf, rfl, trivial, fun m => rfl⟩
  | charging ns internalId =>
      have lost := SemanticIndex.Loses.recordAccess wf ns internalId choice.now
      exact .of_loses wf lost List.nodup_nil (fun _ _ mem => absurd mem List.not_mem_nil)
        (Purpose.owes_nil · purpose) ⟨rfl, rfl, fun _ => rfl⟩
  | looking uuid =>
      unfold Job.advance
      dsimp only
      cases n.index.namespaceFor uuid with
      | none => exact ⟨wf, rfl, trivial, fun m => rfl⟩
      | some modelId => exact ⟨wf, rfl, suits, fun m => rfl⟩
  | removing uuid modelId =>
      cases suits
      refine ⟨(SemanticIndex.removeByUuid_spec wf uuid).wellFormed, rfl, trivial, fun m => ?_⟩
      exact SemanticIndex.population_removeByUuid wf uuid
  | invalidating embedding threshold ns now =>
      cases suits
      have removed := SemanticIndex.Removed.invalidateSimilar wf choice.order embedding threshold
        ns now
      have distinct : (n.index.invalidateSimilar choice.order embedding threshold ns now).2.Nodup :=
        SemanticIndex.nodup_invalidateSimilar wf
      have once := distinct.map (f := fun u => (u, ns)) fun u u' same => congrArg Prod.fst same
      exact .of_loses wf (.of_removed removed) once removed.present
        (countP_tombstones _) ⟨rfl, rfl, fun _ => rfl⟩
  | reaping now =>
      cases suits
      obtain ⟨-, expires, rebuilds, -⟩ := ready
      have removed := SemanticIndex.Removed.collectExpired wf expires.1 now
      have expired := SemanticIndex.Loses.of_removed removed
      have rebuilt := SemanticIndex.Loses.rebuildDirtyNamespaces expired.wellFormed rebuilds
      have pruned := SemanticIndex.Loses.pruneEmptyNamespaces rebuilt.wellFormed choice.pruneOrder
      exact .of_loses wf ((expired.trans rebuilt).trans pruned)
        (SemanticIndex.nodup_collectExpired wf expires now) removed.present
        (countP_tombstones _) ⟨rfl, rfl, fun _ => rfl⟩
  | submitting command =>
      cases suits
      exact ⟨wf, rfl, trivial, fun m => by cases command <;> rfl⟩
  | burying entry rest => exact ⟨wf, rfl, trivial, fun m => rfl⟩
  | waiting command ticket rest =>
      refine ⟨wf, rfl, suits_bury _ _, fun m => ?_⟩
      cases command with
      | insert entry =>
          simp only [Job.advance, records, unpaid_bury, takes]
          rw [unpaid, Purpose.owes_cons]
          omega
      | compact =>
          simp only [Job.advance, records, unpaid_bury, takes]
          rfl
  | finished => exact ready.elim

end Steps

end Job

/-- The evictions that are not counted yet. -/
def Phase.unpaid : Phase → List EvictedEntry
  | .evicted out _ => out
  | _ => []

theorem counted_evictions (out : List EvictedEntry) (m : String) :
    counted (out.map fun e => .eviction e.modelId) m = out.countP fun e => e.modelId = m := by
  unfold counted
  rw [List.countP_map]
  simp [Function.comp_def, Recording.removes]

namespace Node

/-- What a step of the flush task does to the books of a namespace. -/
structure Books [Platform] (a : Action) (n n' : Node) : Prop where
  wellFormed : n'.index.WellFormed
  balance : ∀ m, n'.index.population m + counted (n.records a) m +
    (n'.phase.unpaid.countP fun e => e.modelId = m) + n.takes a m =
      n.index.population m + (n.phase.unpaid.countP fun e => e.modelId = m) + n.adds a m

section Steps

variable [Platform] {cfg : NodeConfig} {n n' : Node} {a : Action}

/-- A step that neither touches the index nor evicts. -/
theorem Books.of_same (wf : n.index.WellFormed) (same : n'.index = n.index)
    (records : n.records a = []) (line : n.lineOf a = none) (before : n.phase.unpaid = [])
    (after : n'.phase.unpaid = []) : Books a n n' := by
  refine ⟨by rw [same]; exact wf, fun m => ?_⟩
  unfold takes adds
  rw [same, records, line, before, after]
  rfl

theorem Books.apply (wf : n.index.WellFormed) {lines : List WalEntry} {compact : Bool}
    (phase : n.phase = .applying lines compact) : Books .apply n n.apply := by
  cases lines with
  | nil =>
      have same : n.apply = { n with phase := .flushed compact } := by
        unfold Node.apply
        rw [phase]
      rw [same]
      refine .of_same wf rfl rfl ?_ (by rw [phase]; rfl) rfl
      unfold lineOf
      rw [phase]
  | cons line lines =>
      have index := apply_index phase
      have next : n.apply.phase = .applying lines compact := by
        unfold Node.apply
        rw [phase]
        dsimp only
        rcases n.index.replayEntry line with ⟨index, _ | _⟩
        · rfl
        · rfl
      have here : n.lineOf .apply = some line := by
        unfold lineOf
        rw [phase]
      refine ⟨by rw [index]; exact wf.replayEntry line, fun m => ?_⟩
      unfold takes adds
      rw [here, index, next, phase]
      dsimp only
      cases kind : line.tombstone with
      | true =>
          rw [SemanticIndex.replayEntry_of_tombstone kind, if_pos rfl, if_pos rfl]
          exact SemanticIndex.population_removeByUuid wf line.uuid
      | false =>
          rw [if_neg Bool.false_ne_true, if_neg Bool.false_ne_true]
          exact SemanticIndex.population_replayInsert wf kind

theorem Books.evict (wf : n.index.WellFormed) {order : List String} {rebuildOrder : PassOrder}
    {compact : Bool} (phase : n.phase = .flushed compact)
    (admissible : n.Admissible cfg (.evict order rebuildOrder)) :
    Books (.evict order rebuildOrder) n (n.evict cfg order rebuildOrder) := by
  unfold Node.evict
  rw [phase]
  dsimp only
  cases capped : cfg.hnsw.maxEntriesPerNamespace with
  | none => exact .of_same wf rfl rfl rfl (by rw [phase]; rfl) rfl
  | some maxEntries =>
      obtain ⟨iter, visits⟩ := admissible maxEntries capped
      have removed := SemanticIndex.Removed.evictToCap wf iter maxEntries
      have rebuilt := SemanticIndex.Loses.rebuildDirtyNamespaces removed.wellFormed visits
      have lost := (SemanticIndex.Loses.of_removed removed).trans rebuilt
      refine ⟨lost.wellFormed, fun m => ?_⟩
      have shrunk := lost.population_add (m := m) wf (SemanticIndex.nodup_evictToCap wf iter _)
        removed.present
      rw [List.countP_map] at shrunk
      rw [phase]
      exact shrunk

omit [Platform] in
theorem writeTombstones_eq {out : List EvictedEntry} {compact : Bool}
    (phase : n.phase = .evicted out compact) (outcome : WriteOutcome) :
    (n.writeTombstones outcome).index = n.index ∧
      (n.writeTombstones outcome).phase = .settled compact := by
  unfold Node.writeTombstones
  rw [phase]
  cases out with
  | nil => exact ⟨rfl, rfl⟩
  | cons e out =>
      dsimp only
      rcases n.log.flush (evictedTombstones (e :: out)) outcome with ⟨log, _ | _⟩
      · exact ⟨rfl, rfl⟩
      · exact ⟨rfl, rfl⟩

theorem Books.act (wf : n.index.WellFormed) (admissible : n.Admissible cfg a)
    (turns : n.turn a = true) : Books a n (n.act cfg a) := by
  cases a with
  | collect size =>
      obtain ⟨idle, -⟩ : n.phase = .idle ∧ n.queue ≠ [] := of_decide_eq_true turns
      refine .of_same wf (act_index_eq rfl) rfl rfl (by rw [idle]; rfl) ?_
      simp only [Node.act, Node.collect, idle]
      rcases takeBatch size n.queue with ⟨_ | ⟨entry, batch⟩, _ | _, rest⟩
      · exact (congrArg Phase.unpaid idle).trans rfl
      · rfl
      · rfl
      · rfl
  | write outcome =>
      cases phase : n.phase with
      | collected batch compact =>
          refine .of_same wf (act_index_eq rfl) rfl rfl (by rw [phase]; rfl) ?_
          simp only [Node.act, Node.write, phase]
          rcases n.log.flush batch outcome with ⟨log, _ | _⟩
          · rfl
          · rfl
      | _ => simp [turn, phase] at turns
  | acquire =>
      cases phase : n.phase with
      | written lines compact =>
          refine .of_same wf (act_index_eq rfl) rfl rfl (by rw [phase]; rfl) ?_
          simp only [Node.act, Node.acquire, phase]
          rfl
      | _ => simp [turn, phase] at turns
  | apply =>
      cases phase : n.phase with
      | applying lines compact => exact .apply wf phase
      | _ => simp [turn, phase] at turns
  | evict order rebuildOrder =>
      cases phase : n.phase with
      | flushed compact => exact .evict wf phase admissible
      | _ => simp [turn, phase] at turns
  | writeTombstones outcome =>
      cases phase : n.phase with
      | evicted out compact =>
          obtain ⟨index, next⟩ := writeTombstones_eq phase outcome
          have records : n.records (.writeTombstones outcome) =
              out.map fun e => .eviction e.modelId := by
            unfold Node.records
            rw [phase]
          change Books _ n (n.writeTombstones outcome)
          refine ⟨by rw [index]; exact wf, fun m => ?_⟩
          rw [records, counted_evictions, index, next, phase]
          rfl
      | _ => simp [turn, phase] at turns
  | settle order outcome =>
      cases phase : n.phase with
      | settled compact =>
          refine .of_same wf (act_index_eq rfl) rfl rfl (by rw [phase]; rfl) ?_
          simp only [Node.act, Node.settle, phase]
          cases compact <;> rfl
      | _ => simp [turn, phase] at turns
  | compact order outcome =>
      have phase : n.phase = .compacting := of_decide_eq_true turns
      refine .of_same wf (act_index_eq rfl) rfl rfl (by rw [phase]; rfl) ?_
      simp only [Node.act, Node.runCompact, phase]
      rfl
  | _ => cases turns

end Steps

end Node

theorem Job.unpaid_follow [Platform] (n : Node) (a : Action) (task : Job) :
    (task.follow n a).unpaid = task.unpaid := by
  cases task with
  | waiting command ticket rest => cases command <;> rfl
  | _ => rfl

theorem Job.suits_follow [Platform] {purpose : Purpose} (n : Node) (a : Action) {task : Job}
    (suits : task.Suits purpose) : (task.follow n a).Suits purpose := by
  cases task with
  | _ => exact suits

theorem Job.suits_of_fresh {task : Job} (fresh : task.Fresh) :
    task.Suits task.purpose ∧ task.unpaid = [] := by
  cases task with
  | burying entry rest => exact fresh.elim
  | waiting command ticket rest => exact fresh.elim
  | removing uuid modelId => exact fresh.elim
  | _ => exact ⟨by trivial, rfl⟩

namespace Ledger

section Balance

variable [Platform] {cfg : NodeConfig} {capacity : Nat} {l : Ledger} {loaded : String → Nat}

/-- What was removed from a namespace and is not counted yet. -/
def outstanding (l : Ledger) (m : String) : Nat :=
  (l.tasks.map fun pair => pair.1.owes m pair.2.unpaid).sum +
    l.node.phase.unpaid.countP fun e => e.modelId = m

/-- What a namespace has, what was counted out of it, what is still to be counted
and what deletes and tombstones took is what was loaded and what was added. -/
structure Balanced (loaded : String → Nat) (l : Ledger) : Prop where
  wellFormed : l.node.index.WellFormed
  suited : ∀ pair ∈ l.tasks, pair.2.Suits pair.1
  balance : ∀ m, l.node.index.population m + counted l.called m + l.outstanding m + l.taken m =
    loaded m + l.added m

theorem Balanced.spawn (balanced : Balanced loaded l) {task : Job} (fresh : task.Fresh) :
    Balanced loaded (l.step cfg (.spawn task)) := by
  obtain ⟨suits, unpaid⟩ := Job.suits_of_fresh fresh
  refine ⟨balanced.wellFormed, fun pair mem => ?_, fun m => ?_⟩
  · rcases List.mem_append.mp mem with old | new
    · exact balanced.suited pair old
    · rw [List.mem_singleton.mp new]
      exact suits
  · have same : (l.step cfg (.spawn task)).outstanding m = l.outstanding m := by
      simp [outstanding, step, unpaid, Purpose.owes_nil]
    rw [same]
    exact balanced.balance m

theorem Balanced.advance (balanced : Balanced loaded l) {i : Nat} {choice : Choice}
    {purpose : Purpose} {task : Job} (found : l.tasks[i]? = some (purpose, task))
    (ready : task.Ready choice l.node capacity) :
    Balanced loaded (l.step cfg (.run i choice)) := by
  obtain ⟨pre, post, around, put⟩ := exists_split_at found
  have suits : task.Suits purpose := balanced.suited _ (List.mem_of_getElem? found)
  have books := Job.Books.advance balanced.wellFormed suits ready
  have after : l.step cfg (.run i choice) =
      { l with
        node := (task.advance choice l.node).1
        tasks := pre ++ (purpose, (task.advance choice l.node).2) :: post
        called := l.called ++ task.records purpose
        taken := fun m => l.taken m + task.takes l.node m } := by
    simp only [step, found, put]
  rw [after]
  refine ⟨books.wellFormed, fun pair mem => ?_, fun m => ?_⟩
  · have others : ∀ pair ∈ pre ++ post, pair.2.Suits pair.1 := by
      intro pair mem
      refine balanced.suited pair ?_
      rw [around]
      rcases List.mem_append.mp mem with before | behind
      · exact List.mem_append_left _ before
      · exact List.mem_append_right _ (List.mem_cons_of_mem _ behind)
    rcases List.mem_append.mp mem with before | rest
    · exact others pair (List.mem_append_left _ before)
    · rcases List.mem_cons.mp rest with rfl | behind
      · exact books.suits
      · exact others pair (List.mem_append_right _ behind)
  · have before := balanced.balance m
    have step := books.balance m
    unfold outstanding at before ⊢
    rw [around] at before
    simp only [List.map_append, List.map_cons, List.sum_append, List.sum_cons, books.phase,
      counted_append] at before ⊢
    omega

theorem Balanced.flush (balanced : Balanced loaded l) {a : Action}
    (admissible : l.node.Admissible cfg a) (turns : l.node.turn a = true) :
    Balanced loaded (l.step cfg (.flush a)) := by
  have books := Node.Books.act balanced.wellFormed admissible turns
  refine ⟨books.wellFormed, fun pair mem => ?_, fun m => ?_⟩
  · obtain ⟨old, there, rfl⟩ := List.mem_map.mp mem
    exact Job.suits_follow l.node a (balanced.suited old there)
  · have before := balanced.balance m
    have step := books.balance m
    unfold outstanding at before ⊢
    simp only [Ledger.step, List.map_map, Function.comp_def, Job.unpaid_follow, counted_append]
    omega

theorem Balanced.step (balanced : Balanced loaded l) {e : ServerEvent}
    (admissible : l.server.Admissible cfg capacity e) : Balanced loaded (l.step cfg e) := by
  cases e with
  | spawn task => exact balanced.spawn admissible
  | run i choice =>
      obtain ⟨task, there, ready⟩ := admissible
      unfold server at there
      rw [List.getElem?_map] at there
      obtain ⟨⟨purpose, _⟩, found, rfl⟩ := Option.map_eq_some_iff.mp there
      exact balanced.advance found ready
  | flush a => exact balanced.flush admissible.1 admissible.2.2

theorem Balanced.run (balanced : Balanced loaded l) {events : List ServerEvent}
    (allowed : l.server.Allowed cfg capacity events) : Balanced loaded (l.run cfg events) := by
  induction events generalizing l with
  | nil => exact balanced
  | cons e events ih =>
      obtain ⟨admissible, rest⟩ := allowed
      rw [← server_step] at rest
      exact ih (balanced.step admissible) rest

/-- The startup: what it expired is owed by its first task. -/
theorem balanced_start {log log' : Log} {r : Recovery}
    (started : log.restart cfg.hnsw = .ok (r, log')) {expireOrder : PassOrder}
    (visits : SemanticIndex.Visits expireOrder r.index) {answers : Nat → Option Answer} {now : Nat}
    {n : Node} (booted : Node.boot cfg log answers expireOrder now = some n) :
    Balanced r.index.population (start n) := by
  have recovered := wellFormed_of_recover (Log.restart_recover started).1
  have removed := SemanticIndex.Removed.collectExpired recovered visits.1 now
  rw [Node.boot_of_restart started] at booted
  cases booted
  refine ⟨removed.wellFormed, fun pair mem => ?_, fun m => ?_⟩
  · rw [List.mem_singleton.mp mem]
    exact Job.suits_bury _ _
  · have expired := (SemanticIndex.Loses.of_removed removed).population_add (m := m) recovered
      (SemanticIndex.nodup_collectExpired recovered visits now) removed.present
    simp only [start, outstanding, List.map_cons, List.map_nil, List.sum_cons, List.sum_nil,
      Job.unpaid_bury]
    have owed := countP_tombstones (r.index.collectExpired expireOrder now).2 m
    simp only [Purpose.owes, Phase.unpaid, counted, List.countP_nil]
    omega

omit [Platform] in
/-- Nothing is outstanding when the tasks are finished and the flush task waits. -/
theorem outstanding_of_resting (resting : l.server.Resting) (m : String) :
    l.outstanding m = 0 := by
  have idle : l.node.phase = .idle := resting.phase
  have nothing : ∀ amount ∈ l.tasks.map fun pair => pair.1.owes m pair.2.unpaid, amount = 0 := by
    intro amount mem
    obtain ⟨pair, there, rfl⟩ := List.mem_map.mp mem
    rw [resting.tasks pair.2 (List.mem_map_of_mem there)]
    exact Purpose.owes_nil m pair.1
  unfold outstanding
  rw [List.sum_eq_zero nothing, idle]
  rfl

end Balance

end Ledger

/-! ## What the endpoint shows -/

/-- A counter of a namespace, when no call is in progress, by the calls that were
made, in whatever order. -/
theorem value_of_calls {activities : List Activity} (quiet : (recorded activities).pending = [])
    (m : String) (c : NamespaceCounter) :
    (recorded activities).memory.value (.labelled m c) ≡
      (calls activities).countP (fun r => r.label = some (m, c)) [MOD 2 ^ 64] := by
  refine (value_quiet_modEq quiet _).trans ?_
  have each : ∀ called : List Recording,
      (called.map fun r => counters.owed r.tasks (.labelled m c)).sum =
        called.countP fun r => r.label = some (m, c) := by
    intro called
    induction called with
    | nil => rfl
    | cons r called ih =>
        rw [List.map_cons, List.sum_cons, ih, List.countP_cons, Recording.owed_labelled,
          Nat.add_comm]
        simp
  rw [each]

/-- The three families of counted removals. -/
theorem counted_eq (called : List Recording) (m : String) :
    counted called m =
      called.countP (fun r => r.label = some (m, .evictions)) +
        called.countP (fun r => r.label = some (m, .expirations)) +
          called.countP (fun r => r.label = some (m, .invalidations)) := by
  unfold counted
  induction called with
  | nil => rfl
  | cons r called ih =>
      simp only [List.countP_cons, ih]
      cases r with
      | _ => simp [Recording.removes, Recording.label] <;> omega

/-- Other calls do not matter, and neither does the order. -/
theorem counted_of_perm {called called' : List Recording}
    (same : (called.filter fun r => r.removes.isSome).Perm
      (called'.filter fun r => r.removes.isSome)) (m : String) :
    counted called m = counted called' m := by
  have about : ∀ called : List Recording,
      counted (called.filter fun r => r.removes.isSome) m = counted called m := by
    intro called
    unfold counted
    rw [List.countP_filter]
    refine List.countP_congr fun r _ => ?_
    cases r.removes with
    | none => simp
    | some ns => simp
  rw [← about, ← about called']
  exact same.countP_eq _

namespace Ledger

section Metrics

variable [Platform] {cfg : NodeConfig} {capacity : Nat}

/-- The books of a namespace, as `/metrics` shows them once all calls are through. -/
def Shown (loaded : String → Nat) (l : Ledger) (metrics : Metrics) (m : String) : Prop :=
  l.node.index.population m + metrics.value (.labelled m .evictions) +
      metrics.value (.labelled m .expirations) + metrics.value (.labelled m .invalidations) +
        l.taken m ≡ loaded m + l.added m [MOD 2 ^ 64]

/-- In every run of the tasks after a startup, and for every namespace: no removal
is counted twice, and none without an entry that was removed.  When no more
requests come and the tasks have finished, the counters account for every entry
that was recovered or added and is not there any more. -/
theorem metrics_balance {log log' : Log} {r : Recovery}
    (started : log.restart cfg.hnsw = .ok (r, log')) {expireOrder : PassOrder}
    (visits : SemanticIndex.Visits expireOrder r.index) {answers : Nat → Option Answer} {now : Nat}
    {n : Node} (booted : Node.boot cfg log answers expireOrder now = some n)
    {events : List ServerEvent} (allowed : (Server.start n).Allowed cfg capacity events)
    (m : String) :
    let l := (start n).run cfg events
    l.server = (Server.start n).run cfg events ∧
      l.node.index.population m + counted l.called m + l.taken m ≤
        r.index.population m + l.added m ∧
      (l.server.Resting →
        l.node.index.population m + counted l.called m + l.taken m =
          r.index.population m + l.added m ∧
        ∀ activities : List Activity, (recorded activities).pending = [] →
          ((calls activities).filter fun r => r.removes.isSome).Perm
            (l.called.filter fun r => r.removes.isSome) →
          Shown r.index.population l (recorded activities).memory m) := by
  intro l
  have balanced : Balanced r.index.population l := (balanced_start started visits booted).run allowed
  have total := balanced.balance m
  refine ⟨server_run events, by omega, fun resting => ?_⟩
  rw [outstanding_of_resting resting, Nat.add_zero] at total
  refine ⟨total, fun activities quiet same => ?_⟩
  have evictions := value_of_calls quiet m .evictions
  have expirations := value_of_calls quiet m .expirations
  have invalidations := value_of_calls quiet m .invalidations
  have sum := ((evictions.add expirations).add invalidations)
  rw [← counted_eq, counted_of_perm same] at sum
  have shown := (sum.add_left (l.node.index.population m)).add_right (l.taken m)
  rw [total] at shown
  unfold Shown
  simpa only [Nat.add_assoc] using shown

end Metrics

section Example

local instance ledgerExamplePlatform : Platform := Platform.sample

/-- Two inserts in one batch, of which one is evicted, up to their replies. -/
def evictOne : List ServerEvent :=
  [.spawn (.submitting (.insert (Node.datedLine "p" 3))),
    .spawn (.submitting (.insert (Node.datedLine "q" 9))), .run 1 Server.noChoice,
    .run 2 Server.noChoice, .flush (.collect 2), .flush (.write .synced), .flush .acquire,
    .flush .apply, .flush .apply, .flush .apply, .flush (.evict ["a"] ⟨["a"], fun _ => [1]⟩),
    .flush (.writeTombstones .synced), .flush (.settle ⟨["a"], fun _ => [0]⟩ .unwritten),
    .run 1 Server.noChoice, .run 2 Server.noChoice]

theorem metrics_balance_sample :
    let l := (start (Node.new Node.oneEntry)).run Node.oneEntry evictOne
    let metrics := (recorded [.call (.eviction "a"), .run 0, .run 0, .run 0]).memory
    l.node.index.population "a" = 1 ∧ metrics.value (.labelled "a" .evictions) = 1 ∧
      l.added "a" = 2 ∧ Shown (fun _ => 0) l metrics "a" := by
  have started : Log.fresh.restart Node.oneEntry.hnsw = .ok (_, _) := rfl
  have booted : Node.boot Node.oneEntry Log.fresh (fun _ => none) ⟨[], fun _ => []⟩ 0 =
      some (Node.new Node.oneEntry) := rfl
  have allowed : (Server.start (Node.new Node.oneEntry)).Allowed Node.oneEntry 2 evictOne := by
    refine ⟨rfl, rfl, ⟨_, rfl, Nat.two_pos⟩, ⟨_, rfl, Nat.one_lt_two⟩,
      ⟨⟨by decide, by decide⟩, rfl, rfl⟩, ⟨trivial, rfl, rfl⟩, ⟨trivial, rfl, rfl⟩,
      ⟨trivial, rfl, rfl⟩, ⟨trivial, rfl, rfl⟩, ⟨trivial, rfl, rfl⟩, ⟨fun maxEntries capped => ?_,
      rfl, rfl⟩, ⟨trivial, rfl, rfl⟩, ⟨?_, rfl, rfl⟩, ⟨_, rfl, ⟨_, rfl⟩⟩, ⟨_, rfl, ⟨_, rfl⟩⟩,
      trivial⟩
    · cases capped
      decide +kernel
    · change SemanticIndex.Visits _ _
      decide +kernel
  have balance := metrics_balance started (by decide +kernel) booted allowed "a"
  have resting : ((start (Node.new Node.oneEntry)).run Node.oneEntry evictOne).server.Resting := by
    refine ⟨fun task mem => ?_, by decide +kernel, by decide +kernel⟩
    rcases mem with _ | ⟨_, _ | ⟨_, _ | ⟨_, mem⟩⟩⟩
    · rfl
    · rfl
    · rfl
    · cases mem
  have shown := (balance.2.2 resting).2 [.call (.eviction "a"), .run 0, .run 0, .run 0] rfl
    (.refl _)
  exact ⟨by decide +kernel, by decide +kernel, by decide +kernel, shown⟩

end Example

end Ledger

end Ferrocache
