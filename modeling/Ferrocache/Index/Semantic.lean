import Ferrocache.Index.Namespaced

/-!
# The index

`SemanticIndex` of `index.rs`: the map from namespace keys to namespaces and
the directory from UUIDs to namespace keys, method by method.
-/

namespace Ferrocache

/-- The visiting orders of one pass over the whole index: the namespaces, and
the entries of each. -/
structure PassOrder : Type where
  namespaces : List String
  entries : String → List Nat

structure SemanticIndex : Type where
  namespaces : HashMap String NamespacedIndex
  uuidToNamespace : HashMap String String
  hnswConfig : HnswConfig

namespace SemanticIndex

def new (cfg : HnswConfig) : SemanticIndex := ⟨∅, ∅, cfg⟩

/-- The orders visit the tables of the index. -/
def Visits (order : PassOrder) (self : SemanticIndex) : Prop :=
  HashMap.IterOrder self.namespaces order.namespaces ∧
    ∀ m ns, self.namespaces.lookup m = some ns → HashMap.IterOrder ns.entries (order.entries m)

instance (order : PassOrder) (self : SemanticIndex) : Decidable (Visits order self) :=
  decidable_of_iff
    (HashMap.IterOrder self.namespaces order.namespaces ∧
      ∀ m ∈ order.namespaces, ∀ ns ∈ self.namespaces.lookup m,
        HashMap.IterOrder ns.entries (order.entries m)) <| by
    refine and_congr_right fun iter => ⟨fun each m ns found => ?_, fun each m _ ns found => ?_⟩
    · exact each m ((iter.2 m).mpr (Finmap.mem_of_lookup_eq_some found)) ns found
    · exact each m ns found

/-- The namespace under `modelId`, created on demand. -/
def namespaceMut (self : SemanticIndex) (modelId : String) : NamespacedIndex :=
  (self.namespaces.lookup modelId).getD (NamespacedIndex.new self.hnswConfig)

def recordUuid (self : SemanticIndex) (uuid modelId : String) : SemanticIndex :=
  { self with uuidToNamespace := self.uuidToNamespace.insert uuid modelId }

section Operations

variable [Platform]

/-! ## Insertion -/

/-- The common body of `replay_entry` and `replay_snapshot_entry`: the directory
is written last, and only on success. -/
def insertInto (self : SemanticIndex) (modelId : String) (entry : CacheEntry) :
    SemanticIndex × Except String Unit :=
  let (ns, result) := (self.namespaceMut modelId).insertWithUuid entry
  let stored := { self with namespaces := self.namespaces.insert modelId ns }
  match result with
  | .error msg => (stored, .error msg)
  | .ok () => (stored.recordUuid entry.uuid modelId, .ok ())

def removeByUuid (self : SemanticIndex) (uuid : String) : SemanticIndex × Bool :=
  match self.uuidToNamespace.lookup uuid with
  | none => (self, false)
  | some modelId =>
    let erased := { self with uuidToNamespace := self.uuidToNamespace.erase uuid }
    match self.namespaces.lookup modelId with
    | none => (erased, false)
    | some ns =>
      let (ns', removed) := ns.removeByUuid uuid
      ({ erased with namespaces := self.namespaces.insert modelId ns' }, removed)

/-- A tombstone removes its UUID, any other line inserts. -/
def replayEntry (self : SemanticIndex) (entry : WalEntry) :
    SemanticIndex × Except String Unit :=
  if entry.tombstone then ((self.removeByUuid entry.uuid).1, .ok ())
  else self.insertInto entry.modelId entry.cacheEntry

def replaySnapshotEntry (self : SemanticIndex) (entry : SnapshotEntry) :
    SemanticIndex × Except String Unit :=
  self.insertInto entry.modelId entry.cacheEntry

/-! ## Lookups -/

def getEntryByUuid (self : SemanticIndex) (uuid : String) : Option FullEntry := do
  let modelId ← self.uuidToNamespace.lookup uuid
  let ns ← self.namespaces.lookup modelId
  let entry ← ns.getByUuid uuid
  return ⟨entry.uuid, entry.embedding, entry.response, entry.queryText, modelId,
    entry.insertedAt, entry.lastAccessedAt, entry.accessCount, entry.expiresAt⟩

omit [Platform] in
def namespaceFor (self : SemanticIndex) (uuid : String) : Option String :=
  self.uuidToNamespace.lookup uuid

def queryWithText (self : SemanticIndex) (embedding : Embedding) (threshold : F32)
    (modelId : String) (queryText : Option String) (now : Nat) :
    Except String (Option QueryHit) :=
  match self.namespaces.lookup modelId with
  | some ns => ns.queryWithText embedding threshold queryText now
  | none => .ok none

/-- Where a two-level lookup found its hit. -/
inductive Scope : Type
  | conversation
  | global
  deriving DecidableEq

/-- Conversation namespace first, base namespace as fallback. -/
def queryTwoLevel (self : SemanticIndex) (embedding : Embedding) (threshold : F32)
    (convNs baseNs : String) (queryText : Option String) (now : Nat) :
    Except String (Option QueryHit × String × Option Scope) := do
  match self.namespaces.lookup convNs with
  | some ns =>
    match ← ns.queryWithText embedding threshold queryText now with
    | some hit => return (some hit, convNs, some .conversation)
    | none => fallback
  | none => fallback
where
  fallback : Except String (Option QueryHit × String × Option Scope) := do
    match self.namespaces.lookup baseNs with
    | some ns =>
      let hit ← ns.queryWithText embedding threshold queryText now
      return (hit, baseNs, if hit.isSome then some .global else none)
    | none => return (none, baseNs, none)

/-! ## Bookkeeping and sweeps -/

omit [Platform] in
def recordAccess (self : SemanticIndex) (modelId : String) (internalId now : Nat) :
    SemanticIndex :=
  match self.namespaces.lookup modelId with
  | none => self
  | some ns =>
    { self with namespaces := self.namespaces.insert modelId (ns.recordAccess internalId now) }

/-- Evict every namespace down to the cap, then mirror the evictions in the
directory. -/
def evictToCap (self : SemanticIndex) (order : List String) (maxEntries : Nat) :
    SemanticIndex × List EvictedEntry :=
  let (namespaces, evicted) := HashMap.forEach
    (fun modelId ns => ns.evictDownTo modelId maxEntries ns.entryCount) order self.namespaces
  ({ self with
      namespaces := namespaces
      uuidToNamespace := HashMap.eraseAll self.uuidToNamespace (evicted.map (·.uuid)) },
    evicted)

omit [Platform] in
def rebuildDirtyNamespaces (self : SemanticIndex) (order : PassOrder) :
    SemanticIndex × List String :=
  let (namespaces, rebuilt) := HashMap.forEach
    (fun modelId ns =>
      if ns.needsRebuild then (ns.rebuild (order.entries modelId), [modelId]) else (ns, []))
    order.namespaces self.namespaces
  ({ self with namespaces := namespaces }, rebuilt)

/-- Drop every expired entry; the returned pairs are UUID and namespace. -/
def collectExpired (self : SemanticIndex) (order : PassOrder) (now : Nat) :
    SemanticIndex × List (String × String) :=
  let (namespaces, out) := HashMap.forEach
    (fun modelId ns =>
      let (ns', expired) := ns.collectExpiredWithin (order.entries modelId) now
      (ns', expired.map fun e => (e.1, modelId)))
    order.namespaces self.namespaces
  ({ self with
      namespaces := namespaces
      uuidToNamespace := HashMap.eraseAll self.uuidToNamespace (out.map Prod.fst) },
    out)

omit [Platform] in
/-- The conversation namespaces with neither entries nor ghosts. -/
def prunable (self : SemanticIndex) (order : List String) : List String :=
  order.filter fun key =>
    isConversationKey key &&
      match self.namespaces.lookup key with
      | none => false
      | some ns => decide (HashMap.len ns.entries = 0) && decide (ns.evictedIds = ∅)

omit [Platform] in
def pruneEmptyNamespaces (self : SemanticIndex) (order : List String) :
    SemanticIndex × List String :=
  ({ self with namespaces := HashMap.eraseAll self.namespaces (self.prunable order) },
    self.prunable order)

/-- Remove every live entry of the namespace within the similarity radius. -/
def invalidateSimilar (self : SemanticIndex) (order : List Nat) (embedding : Embedding)
    (threshold : F32) (modelId : String) (now : Nat) : SemanticIndex × List String :=
  match self.namespaces.lookup modelId with
  | none => (self, [])
  | some ns =>
    let found := ns.findSimilar order embedding threshold now
    let (ns', removed) := ns.dropAll (found.map Prod.fst)
    ({ self with
        namespaces := self.namespaces.insert modelId ns'
        uuidToNamespace := HashMap.eraseAll self.uuidToNamespace (removed.map Prod.fst) },
      removed.map Prod.fst)

omit [Platform] in
/-- The record a snapshot keeps of one live entry. -/
def snapshotEntry (modelId : String) (entry : CacheEntry) : SnapshotEntry :=
  ⟨entry.uuid, entry.embedding, entry.response, entry.queryText, modelId, entry.insertedAt,
    entry.lastAccessedAt, entry.accessCount, false, entry.expiresAt⟩

omit [Platform] in
def snapshotEntries (self : SemanticIndex) (order : PassOrder) : List SnapshotEntry :=
  order.namespaces.flatMap fun modelId =>
    match self.namespaces.lookup modelId with
    | none => []
    | some ns =>
      ((order.entries modelId).filterMap ns.entries.lookup).map (snapshotEntry modelId)

end Operations

end SemanticIndex

end Ferrocache
