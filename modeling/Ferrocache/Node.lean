import Ferrocache.Wal.Log

/-!
# One node

The tasks of one node and how they interleave: the request handlers and the
TTL reaper, which change the index first and log a tombstone later; the flush
task (`flush_loop`, `flush_insert_batch`, `evict_to_cap_step`), which logs first
and changes the index later; compaction; and a crash at any point followed by
the startup of `main`.

A step of the machine is what happens between two points where another task can
run: one critical section on the index lock, one write of the flush task, one
message through the channel.  HashMap iteration orders, clocks and I/O outcomes
are arguments of the action.
-/

namespace Ferrocache

/-- `WalCommand`. -/
inductive Command : Type
  | insert (entry : WalEntry)
  | compact
  deriving DecidableEq

/-- What a caller of the flush task is told: `Ok`, `InsertError::Wal` or
`InsertError::Index`. -/
inductive Answer : Type
  | ok
  | wal
  | index
  deriving DecidableEq

/-- Where the flush task is in its loop.  The flag says whether a compaction
request ended the batch. -/
inductive Phase : Type
  | idle
  /-- a batch was taken from the channel -/
  | collected (batch : List WalEntry) (compact : Bool)
  /-- its lines are synced, the index lock is not held yet -/
  | written (lines : List WalEntry) (compact : Bool)
  /-- under the index lock, with these lines still to apply -/
  | applying (lines : List WalEntry) (compact : Bool)
  | flushed (compact : Bool)
  /-- entries were evicted, their tombstones are not written yet -/
  | evicted (out : List EvictedEntry) (compact : Bool)
  | settled (compact : Bool)
  | compacting
  deriving DecidableEq

/-- The lines in the file that are not applied to the index yet. -/
def Phase.pending : Phase → List WalEntry
  | .written lines _ => lines
  | .applying lines _ => lines
  | _ => []

/-- The batch that is not in the file yet. -/
def Phase.batch : Phase → List WalEntry
  | .collected batch _ => batch
  | _ => []

/-- The flush task holds the index lock across steps. -/
def Phase.locked : Phase → Bool
  | .applying _ _ => true
  | _ => false

structure NodeConfig : Type where
  hnsw : HnswConfig
  batchSize : Nat
  compactIntervalInserts : Nat

/-- `deleting` are the delete handlers between lookup and removal, `outbox` the
tombstones whose sender has not put them into the channel yet.  Two fields are
not in the code: `unlogged`, the UUIDs removed from the index for which no
tombstone was flushed since, and `answers`, what the caller of the last flush
under a sequence number was told. -/
structure Node : Type where
  index : SemanticIndex
  log : Log
  insertsSinceCompact : Nat
  queue : List Command
  phase : Phase
  deleting : List (String × String)
  outbox : List WalEntry
  unlogged : Finset String
  answers : Nat → Option Answer

/-- What a crash leaves of a write or a compaction in progress. -/
inductive Cut : Type
  | none
  /-- whole lines of the batch and a fragment -/
  | write (kept : Nat) (fragment : Fragment)
  /-- the new snapshot with the old log -/
  | rename (order : PassOrder)

inductive Action : Type
  | submit (entry : WalEntry)
  | requestCompact
  | lookupDelete (uuid : String)
  | removeDelete (i : Nat)
  | invalidate (order : List Nat) (embedding : Embedding) (threshold : F32) (modelId : String)
      (now : Nat)
  | reap (expireOrder : PassOrder) (now : Nat) (rebuildOrder : PassOrder)
      (pruneOrder : List String)
  | access (modelId : String) (internalId now : Nat)
  | send (i : Nat)
  | collect (size : Nat)
  | write (outcome : WriteOutcome)
  | acquire
  | apply
  | evict (order : List String) (rebuildOrder : PassOrder)
  | writeTombstones (outcome : WriteOutcome)
  | settle (order : PassOrder) (outcome : Log.CompactOutcome)
  | compact (order : PassOrder) (outcome : Log.CompactOutcome)
  | restart (cut : Cut) (expireOrder : PassOrder) (now : Nat)

/-- The tombstones of removed entries, given by UUID and namespace. -/
def tombstones (gone : List (String × String)) : List WalEntry :=
  gone.map fun e => .tombstoneEntry e.1 e.2

/-- A tombstone as the code builds it. -/
def WalEntry.IsTombstone (entry : WalEntry) : Prop :=
  ∃ uuid modelId, entry = .tombstoneEntry uuid modelId

theorem WalEntry.IsTombstone.tombstone {entry : WalEntry} (tomb : entry.IsTombstone) :
    entry.tombstone = true := by
  obtain ⟨uuid, modelId, rfl⟩ := tomb
  rfl

theorem isTombstone_of_mem_tombstones {gone : List (String × String)} {entry : WalEntry}
    (mem : entry ∈ tombstones gone) : entry.IsTombstone := by
  obtain ⟨e, -, rfl⟩ := List.mem_map.mp mem
  exact ⟨e.1, e.2, rfl⟩

theorem tombstone_of_mem_tombstones {gone : List (String × String)} {entry : WalEntry}
    (mem : entry ∈ tombstones gone) : entry.tombstone = true :=
  (isTombstone_of_mem_tombstones mem).tombstone

theorem Stamped.tombstone {first last : Nat} {gone : List (String × String)}
    {lines : List WalEntry} (stamped : Stamped first last (tombstones gone) lines)
    {line : WalEntry} (mem : line ∈ lines) : line.tombstone = true := by
  obtain ⟨entry, inBatch, same⟩ := stamped.origin mem
  have tomb := tombstone_of_mem_tombstones inBatch
  rw [same]
  exact tomb

/-- The receive loop: at most `size` inserts, ended early by a compaction. -/
def takeBatch : Nat → List Command → List WalEntry × Bool × List Command
  | 0, queue => ([], false, queue)
  | _ + 1, [] => ([], false, [])
  | _ + 1, .compact :: queue => ([], true, queue)
  | size + 1, .insert entry :: queue =>
    let (batch, compact, rest) := takeBatch size queue
    (entry :: batch, compact, rest)

namespace Node

section Steps

variable [Platform] (cfg : NodeConfig) (n : Node)

/-! ## Handlers and reaper -/

omit [Platform] in
/-- The index after a removal, with the tombstones that are due. -/
def removed (index : SemanticIndex) (due : List WalEntry) (gone : List String) : Node :=
  { n with
    index := index
    outbox := n.outbox ++ due
    unlogged := n.unlogged ∪ gone.toFinset }

omit [Platform] in
def lookupDelete (uuid : String) : Node :=
  match n.index.namespaceFor uuid with
  | none => n
  | some modelId => { n with deleting := n.deleting ++ [(uuid, modelId)] }

/-- The second half of `delete_entry_handler`: the tombstone is due whether or
not the entry was still there. -/
def removeDelete (i : Nat) : Node :=
  match n.deleting[i]? with
  | none => n
  | some (uuid, modelId) =>
    let (index, found) := n.index.removeByUuid uuid
    { n.removed index [.tombstoneEntry uuid modelId] (if found then [uuid] else []) with
      deleting := n.deleting.eraseIdx i }

def invalidate (order : List Nat) (embedding : Embedding) (threshold : F32) (modelId : String)
    (now : Nat) : Node :=
  let (index, uuids) := n.index.invalidateSimilar order embedding threshold modelId now
  n.removed index (tombstones (uuids.map fun u => (u, modelId))) uuids

/-- One tick of `expiry_reaper_loop`, up to the tombstones. -/
def reap (expireOrder : PassOrder) (now : Nat) (rebuildOrder : PassOrder)
    (pruneOrder : List String) : Node :=
  let (index, expired) := n.index.collectExpired expireOrder now
  let index := (index.rebuildDirtyNamespaces rebuildOrder).1
  let index := (index.pruneEmptyNamespaces pruneOrder).1
  n.removed index (tombstones expired) (expired.map Prod.fst)

omit [Platform] in
def send (i : Nat) : Node :=
  match n.outbox[i]? with
  | none => n
  | some entry =>
    { n with outbox := n.outbox.eraseIdx i, queue := n.queue ++ [.insert entry] }

/-! ## Flush task -/

omit [Platform] in
def collect (size : Nat) : Node :=
  match n.phase, takeBatch size n.queue with
  | .idle, ([], true, queue) => { n with queue := queue, phase := .compacting }
  | .idle, (entry :: batch, compact, queue) =>
    { n with queue := queue, phase := .collected (entry :: batch) compact }
  | _, _ => n

omit [Platform] in
/-- The answer of every flush under the sequence number of one of the lines. -/
def answer (answers : Nat → Option Answer) (lines : List WalEntry) (value : Option Answer) :
    Nat → Option Answer :=
  fun sequence => if sequence ∈ lines.map (·.sequence) then value else answers sequence

omit [Platform] in
/-- The lines a batch is stamped to, if the counter does not overflow. -/
def stampedLines (batch : List WalEntry) : List WalEntry :=
  match (stampBatch n.log.sequence batch).2 with
  | .ok lines => lines
  | .error _ => []

omit [Platform] in
/-- `flush_insert_batch` up to the index lock. -/
def write (outcome : WriteOutcome) : Node :=
  match n.phase with
  | .collected batch compact =>
    match n.log.flush batch outcome with
    | (log, .error _) =>
      { n with
        log := log
        phase := .flushed compact
        answers := answer n.answers (n.stampedLines batch) (some .wal) }
    | (log, .ok lines) =>
      { n with
        log := log
        phase := .written lines compact
        answers := answer n.answers lines none }
  | _ => n

omit [Platform] in
def acquire : Node :=
  match n.phase with
  | .written lines compact => { n with phase := .applying lines compact }
  | _ => n

/-- One iteration of the loop under the index lock, or its end. -/
def apply : Node :=
  match n.phase with
  | .applying [] compact => { n with phase := .flushed compact }
  | .applying (line :: lines) compact =>
    match n.index.replayEntry line with
    | (index, .ok ()) =>
      { n with
        index := index
        insertsSinceCompact := saturatingAdd n.insertsSinceCompact 1
        phase := .applying lines compact
        unlogged := if line.tombstone then n.unlogged.erase line.uuid else n.unlogged
        answers := answer n.answers [line] (some .ok) }
    | (index, .error _) =>
      { n with
        index := index
        phase := .applying lines compact
        answers := answer n.answers [line] (some .index) }
  | _ => n

/-- The first half of `evict_to_cap_step`. -/
def evict (order : List String) (rebuildOrder : PassOrder) : Node :=
  match n.phase with
  | .flushed compact =>
    match cfg.hnsw.maxEntriesPerNamespace with
    | none => { n with phase := .settled compact }
    | some maxEntries =>
      let (index, out) := n.index.evictToCap order maxEntries
      { n with
        index := (index.rebuildDirtyNamespaces rebuildOrder).1
        phase := .evicted out compact
        unlogged := n.unlogged ∪ (out.map (·.uuid)).toFinset }
  | _ => n

omit [Platform] in
def evictedTombstones (out : List EvictedEntry) : List WalEntry :=
  tombstones (out.map fun e => (e.uuid, e.modelId))

omit [Platform] in
/-- The second half of `evict_to_cap_step`. -/
def writeTombstones (outcome : WriteOutcome) : Node :=
  match n.phase with
  | .evicted [] compact => { n with phase := .settled compact }
  | .evicted (e :: out) compact =>
    match n.log.flush (evictedTombstones (e :: out)) outcome with
    | (log, .error _) => { n with log := log, phase := .settled compact }
    | (log, .ok _) =>
      { n with
        log := log
        phase := .settled compact
        unlogged := n.unlogged \ ((e :: out).map (·.uuid)).toFinset }
  | _ => n

/-! ## Compaction -/

omit [Platform] in
def autoCompacts : Bool :=
  decide (0 < cfg.compactIntervalInserts) &&
    decide (cfg.compactIntervalInserts ≤ n.insertsSinceCompact)

omit [Platform] in
def snapshotCompact (order : PassOrder) (outcome : Log.CompactOutcome) : Node :=
  { n with
    log := n.log.compact (n.index.snapshotEntries order) outcome
    insertsSinceCompact := 0 }

omit [Platform] in
/-- The end of an iteration: the automatic compaction if it is due, then the
requested one. -/
def settle (order : PassOrder) (outcome : Log.CompactOutcome) : Node :=
  match n.phase with
  | .settled compact =>
    { (if n.autoCompacts cfg then n.snapshotCompact order outcome else n) with
      phase := if compact then .compacting else .idle }
  | _ => n

omit [Platform] in
def runCompact (order : PassOrder) (outcome : Log.CompactOutcome) : Node :=
  match n.phase with
  | .compacting => { n.snapshotCompact order outcome with phase := .idle }
  | _ => n

/-! ## Crash and startup -/

omit [Platform] in
/-- The log that a crash leaves. -/
def crashLog (cut : Cut) : Log :=
  match cut, n.phase with
  | .write kept fragment, .collected batch _ => (n.log.flush batch (.failed kept fragment)).1
  | .write kept fragment, .evicted out _ =>
    (n.log.flush (evictedTombstones out) (.failed kept fragment)).1
  | .rename order, .compacting => n.log.compact (n.index.snapshotEntries order) (.untruncated false)
  | .rename order, .settled _ =>
    if n.autoCompacts cfg then n.log.compact (n.index.snapshotEntries order) (.untruncated false)
    else n.log
  | _, _ => n.log

/-- The startup of `main` when every line of the file decodes: recovery, the
expiry pass, and its tombstones. -/
def boot (log : Log) (answers : Nat → Option Answer) (expireOrder : PassOrder) (now : Nat) :
    Option Node :=
  match log.restart cfg.hnsw with
  | .error _ => none
  | .ok (r, log) =>
    let (index, expired) := r.index.collectExpired expireOrder now
    some ⟨index, log, 0, [], .idle, [], tombstones expired, (expired.map Prod.fst).toFinset, answers⟩

def restart (cut : Cut) (expireOrder : PassOrder) (now : Nat) : Option Node :=
  boot cfg (n.crashLog cfg cut) (answer n.answers (n.stampedLines n.phase.batch) none) expireOrder
    now

/-! ## The machine -/

def act : Action → Node
  | .submit entry => { n with queue := n.queue ++ [.insert entry] }
  | .requestCompact => { n with queue := n.queue ++ [.compact] }
  | .lookupDelete uuid => n.lookupDelete uuid
  | .removeDelete i => n.removeDelete i
  | .invalidate order embedding threshold modelId now =>
      n.invalidate order embedding threshold modelId now
  | .reap expireOrder now rebuildOrder pruneOrder =>
      n.reap expireOrder now rebuildOrder pruneOrder
  | .access modelId internalId now =>
      { n with index := n.index.recordAccess modelId internalId now }
  | .send i => n.send i
  | .collect size => n.collect size
  | .write outcome => n.write outcome
  | .acquire => n.acquire
  | .apply => n.apply
  | .evict order rebuildOrder => n.evict cfg order rebuildOrder
  | .writeTombstones outcome => n.writeTombstones outcome
  | .settle order outcome => n.settle cfg order outcome
  | .compact order outcome => n.runCompact order outcome
  | .restart cut expireOrder now => (n.restart cfg cut expireOrder now).getD n

/-- When an action can happen: a handler needs the index lock to be free, a
batch has at most the configured size, and an iteration order is one of the
table it visits. -/
def Admissible : Action → Prop
  | .submit entry => entry.tombstone = false
  | .lookupDelete _ => n.phase.locked = false
  | .removeDelete _ => n.phase.locked = false
  | .invalidate order _ _ modelId _ => n.phase.locked = false ∧
      ∀ ns, n.index.namespaces.lookup modelId = some ns → HashMap.IterOrder ns.entries order
  | .reap expireOrder now rebuildOrder pruneOrder => n.phase.locked = false ∧
      SemanticIndex.Visits expireOrder n.index ∧
      SemanticIndex.Visits rebuildOrder (n.index.collectExpired expireOrder now).1 ∧
      HashMap.IterOrder (((n.index.collectExpired expireOrder now).1.rebuildDirtyNamespaces
        rebuildOrder).1).namespaces pruneOrder
  | .access _ _ _ => n.phase.locked = false
  | .collect size => 0 < size ∧ size ≤ max cfg.batchSize 1
  | .evict order rebuildOrder => ∀ maxEntries, cfg.hnsw.maxEntriesPerNamespace = some maxEntries →
      HashMap.IterOrder n.index.namespaces order ∧
        SemanticIndex.Visits rebuildOrder (n.index.evictToCap order maxEntries).1
  | .settle order _ => SemanticIndex.Visits order n.index
  | .compact order _ => SemanticIndex.Visits order n.index
  | .restart cut expireOrder _ =>
      (∀ order, cut = .rename order → SemanticIndex.Visits order n.index) ∧
      ∃ r log, (n.crashLog cfg cut).restart cfg.hnsw = .ok (r, log) ∧
        SemanticIndex.Visits expireOrder r.index
  | _ => True

instance (cut : Cut) (idx : SemanticIndex) :
    Decidable (∀ order, cut = .rename order → SemanticIndex.Visits order idx) :=
  match cut with
  | .rename order => decidable_of_iff (SemanticIndex.Visits order idx) (by simp)
  | .none => isTrue fun _ same => by cases same
  | .write _ _ => isTrue fun _ same => by cases same

instance (log : Log) (order : PassOrder) : Decidable (∃ r log', log.restart cfg.hnsw = .ok (r, log') ∧
    SemanticIndex.Visits order r.index) :=
  match started : log.restart cfg.hnsw with
  | .ok (r, log') => decidable_of_iff (SemanticIndex.Visits order r.index) (by simp)
  | .error _ => isFalse (by simp)

instance (a : Action) : Decidable (n.Admissible cfg a) :=
  match a with
  | .submit entry => inferInstanceAs (Decidable (entry.tombstone = false))
  | .lookupDelete _ => inferInstanceAs (Decidable (n.phase.locked = false))
  | .removeDelete _ => inferInstanceAs (Decidable (n.phase.locked = false))
  | .invalidate order _ _ modelId _ => inferInstanceAs (Decidable (n.phase.locked = false ∧
      ∀ ns ∈ n.index.namespaces.lookup modelId, HashMap.IterOrder ns.entries order))
  | .reap _ _ _ _ => inferInstanceAs (Decidable (_ ∧ _ ∧ _ ∧ _))
  | .access _ _ _ => inferInstanceAs (Decidable (n.phase.locked = false))
  | .collect _ => inferInstanceAs (Decidable (_ ∧ _))
  | .evict order rebuildOrder => inferInstanceAs (Decidable
      (∀ maxEntries ∈ cfg.hnsw.maxEntriesPerNamespace, HashMap.IterOrder n.index.namespaces order ∧
        SemanticIndex.Visits rebuildOrder (n.index.evictToCap order maxEntries).1))
  | .settle order _ => inferInstanceAs (Decidable (SemanticIndex.Visits order n.index))
  | .compact order _ => inferInstanceAs (Decidable (SemanticIndex.Visits order n.index))
  | .restart _ _ _ => inferInstanceAs (Decidable (_ ∧ _))
  | .requestCompact => isTrue trivial
  | .send _ => isTrue trivial
  | .write _ => isTrue trivial
  | .acquire => isTrue trivial
  | .apply => isTrue trivial
  | .writeTombstones _ => isTrue trivial

omit [Platform] in
/-- A node with no files, just started. -/
def new : Node :=
  ⟨.new cfg.hnsw, Log.fresh, 0, [], .idle, [], [], ∅, fun _ => none⟩

/-- The nodes reached by actions that all meet `guard`. -/
inductive Reachable (guard : Node → Action → Prop) : Node → Prop
  | new : Reachable guard (new cfg)
  | act {n : Node} (a : Action) : Reachable guard n → n.Admissible cfg a → guard n a →
    Reachable guard (n.act cfg a)

/-- One iteration of the flush task on the entry it takes from the channel, with
no error, in an index visited in `order`. -/
def flushOne (order : PassOrder) : List Action :=
  [.collect 1, .write .synced, .acquire, .apply, .apply, .evict [] ⟨[], fun _ => []⟩,
    .settle order .compacted]

/-- The node after a list of actions. -/
def run (actions : List Action) : Node := actions.foldl (act cfg) n

/-- Every action of the list can happen and meets `guard` when its turn comes. -/
def Allowed (guard : Node → Action → Prop) (n : Node) : List Action → Prop
  | [] => True
  | a :: actions => n.Admissible cfg a ∧ guard n a ∧ Allowed guard (n.act cfg a) actions

instance decidableAllowed (guard : Node → Action → Prop) [∀ n a, Decidable (guard n a)] (n : Node) :
    (actions : List Action) → Decidable (Allowed cfg guard n actions)
  | [] => isTrue trivial
  | a :: actions =>
    have := decidableAllowed guard (n.act cfg a) actions
    inferInstanceAs (Decidable (_ ∧ _ ∧ _))

variable {cfg n}

theorem Reachable.mono {guard guard' : Node → Action → Prop}
    (weaker : ∀ n a, guard n a → guard' n a) (reached : Reachable cfg guard n) :
    Reachable cfg guard' n := by
  induction reached with
  | new => exact .new
  | act a _ admissible guarded ih => exact .act a ih admissible (weaker _ a guarded)

theorem Reachable.run {guard : Node → Action → Prop} (reached : Reachable cfg guard n)
    {actions : List Action} (allowed : Allowed cfg guard n actions) :
    Reachable cfg guard (n.run cfg actions) := by
  induction actions generalizing n with
  | nil => exact reached
  | cons a actions ih =>
      obtain ⟨admissible, guarded, rest⟩ := allowed
      exact ih (reached.act a admissible guarded) rest

theorem boot_of_restart {log log' : Log} {r : Recovery}
    (started : log.restart cfg.hnsw = .ok (r, log')) (answers : Nat → Option Answer)
    (expireOrder : PassOrder) (now : Nat) :
    boot cfg log answers expireOrder now =
      some ⟨(r.index.collectExpired expireOrder now).1, log', 0, [], .idle, [],
        tombstones (r.index.collectExpired expireOrder now).2,
        ((r.index.collectExpired expireOrder now).2.map Prod.fst).toFinset, answers⟩ := by
  unfold boot
  rw [started]

end Steps

end Node

end Ferrocache
