import Ferrocache.Text
import Ferrocache.Lib.HashMap

/-!
# One namespace of the index

`NamespacedIndex` of `index.rs`, method by method.  A method that iterates over
a hash map takes the visiting order as an argument.  A method that can fail
returns the state it leaves behind beside its result, so that what survives an
error is part of the model.
-/

namespace Ferrocache

/-- One HNSW graph with its side tables. -/
structure NamespacedIndex : Type where
  hnsw : Hnsw
  entries : HashMap Nat CacheEntry
  uuidToInternal : HashMap String Nat
  evictedIds : Finset Nat
  exactMatchIndex : HashMap String String
  nextId : Nat
  dimension : Option Nat
  efSearch : Nat

namespace NamespacedIndex

def new (cfg : HnswConfig) : NamespacedIndex where
  hnsw := Hnsw.new
  entries := ∅
  uuidToInternal := ∅
  evictedIds := ∅
  exactMatchIndex := ∅
  nextId := 0
  dimension := none
  efSearch := cfg.efSearch

def dimensionMismatch (expected got : Nat) : String :=
  "dimension mismatch: expected " ++ toString expected ++ ", got " ++ toString got

section Operations

variable [Platform]

/-- `exact_match_index.insert`, skipped for a text that normalises to nothing. -/
def registerText (index : HashMap String String) (queryText uuid : String) :
    HashMap String String :=
  if normalizeQueryText queryText = "" then index
  else index.insert (normalizeQueryText queryText) uuid

/-- The part of `insert_with_uuid` after the de-duplication check. -/
def addEntry (self : NamespacedIndex) (entry : CacheEntry) : NamespacedIndex :=
  { self with
    nextId := self.nextId + 1
    hnsw := self.hnsw.insert entry.embedding self.nextId
    uuidToInternal := self.uuidToInternal.insert entry.uuid self.nextId
    exactMatchIndex := registerText self.exactMatchIndex entry.queryText entry.uuid
    entries := self.entries.insert self.nextId entry }

def insertWithUuid (self : NamespacedIndex) (entry : CacheEntry) :
    NamespacedIndex × Except String Unit :=
  match self.dimension with
  | some d =>
    if d ≠ entry.embedding.length then
      (self, .error (dimensionMismatch d entry.embedding.length))
    else if entry.uuid ∈ self.uuidToInternal then (self, .ok ())
    else (self.addEntry entry, .ok ())
  | none =>
    -- the dimension is fixed before the duplicate check
    let sized := { self with dimension := some entry.embedding.length }
    if entry.uuid ∈ self.uuidToInternal then (sized, .ok ())
    else (sized.addEntry entry, .ok ())

/-- The exact-match cleanup of `drop_entry`: the key goes only while it still
names the dropped UUID. -/
def unregisterText (index : HashMap String String) (queryText uuid : String) :
    HashMap String String :=
  if normalizeQueryText queryText ≠ "" ∧
      index.lookup (normalizeQueryText queryText) = some uuid then
    index.erase (normalizeQueryText queryText)
  else index

/-- The single removal point. -/
def dropEntry (self : NamespacedIndex) (internalId : Nat) :
    NamespacedIndex × Option CacheEntry :=
  match self.entries.lookup internalId with
  | none => (self, none)
  | some entry =>
    ({ self with
        entries := self.entries.erase internalId
        uuidToInternal := self.uuidToInternal.erase entry.uuid
        evictedIds := insert internalId self.evictedIds
        exactMatchIndex := unregisterText self.exactMatchIndex entry.queryText entry.uuid },
      some entry)

def getByUuid (self : NamespacedIndex) (uuid : String) : Option CacheEntry :=
  (self.uuidToInternal.lookup uuid).bind self.entries.lookup

def entryCount (self : NamespacedIndex) : Nat := HashMap.len self.entries

/-! ## Queries -/

/-- The exact-match pre-filter of `query_with_text`. -/
def exactMatch (self : NamespacedIndex) (text : String) (now : Nat) : Option QueryHit := do
  guard (normalizeQueryText text ≠ "")
  let uuid ← self.exactMatchIndex.lookup (normalizeQueryText text)
  let internalId ← self.uuidToInternal.lookup uuid
  guard (internalId ∉ self.evictedIds)
  let entry ← self.entries.lookup internalId
  guard (entry.liveAt now)
  return ⟨entry.uuid, entry.response, Platform.one, internalId, true⟩

def maxEvictionOverscan : Nat := 8

/-- The loop over the neighbours: ghosts are skipped, the first other
candidate below the threshold is a miss, an expired entry is passed over. -/
def scanNeighbours (self : NamespacedIndex) (threshold : F32) (now : Nat) :
    List Neighbour → Except String (Option QueryHit)
  | [] => .ok none
  | n :: ns =>
    if n.originId ∈ self.evictedIds then self.scanNeighbours threshold now ns
    else if Platform.lt (Platform.oneMinus n.distance) threshold then .ok none
    else
      match self.entries.lookup n.originId with
      | none => .error ("neighbour id " ++ toString n.originId ++ " not in side-table")
      | some entry =>
        if !entry.liveAt now then self.scanNeighbours threshold now ns
        else .ok (some ⟨entry.uuid, entry.response, Platform.oneMinus n.distance,
          n.originId, false⟩)

/-- The HNSW part of `query_with_text`. -/
def queryAnn (self : NamespacedIndex) (embedding : Embedding) (threshold : F32) (now : Nat) :
    Except String (Option QueryHit) :=
  match self.dimension with
  | none => .ok none
  | some d =>
    if d ≠ embedding.length then .error (dimensionMismatch d embedding.length)
    else
      let want := 1 + min self.evictedIds.card maxEvictionOverscan
      self.scanNeighbours threshold now
        (Platform.search self.hnsw embedding want self.efSearch)

def queryWithText (self : NamespacedIndex) (embedding : Embedding) (threshold : F32)
    (queryText : Option String) (now : Nat) : Except String (Option QueryHit) :=
  match queryText.bind (self.exactMatch · now) with
  | some hit => .ok (some hit)
  | none => self.queryAnn embedding threshold now

/-- Entries whose similarity to the probe reaches the threshold. -/
def findSimilar (self : NamespacedIndex) (order : List Nat) (embedding : Embedding)
    (threshold : F32) (now : Nat) : List (Nat × String) :=
  order.filterMap fun id =>
    match self.entries.lookup id with
    | none => none
    | some entry =>
      if id ∉ self.evictedIds ∧ entry.liveAt now = true ∧
          Platform.ge (Platform.cosineSimilarity embedding entry.embedding) threshold = true then
        some (id, entry.uuid)
      else none

/-! ## Mutators -/

omit [Platform] in
/-- Access bookkeeping of a hit; `now` is read from the clock. -/
def recordAccess (self : NamespacedIndex) (internalId now : Nat) : NamespacedIndex :=
  match self.entries.lookup internalId with
  | none => self
  | some entry =>
    { self with
      entries := self.entries.insert internalId
        { entry with
          lastAccessedAt := now
          accessCount := saturatingAdd entry.accessCount 1 } }

/-- Drop the listed internal ids in turn; the returned pairs are those found. -/
def dropAll (self : NamespacedIndex) : List Nat → NamespacedIndex × List (String × Nat)
  | [] => (self, [])
  | id :: ids =>
    match self.dropEntry id with
    | (next, none) => next.dropAll ids
    | (next, some entry) =>
      let rest := next.dropAll ids
      (rest.1, (entry.uuid, id) :: rest.2)

omit [Platform] in
/-- The ids of expired entries, in visiting order. -/
def expiredIds (self : NamespacedIndex) (order : List Nat) (now : Nat) : List Nat :=
  order.filter fun id =>
    match self.entries.lookup id with
    | none => false
    | some entry => !entry.liveAt now

def collectExpiredWithin (self : NamespacedIndex) (order : List Nat) (now : Nat) :
    NamespacedIndex × List (String × Nat) :=
  self.dropAll (self.expiredIds order now)

omit [Platform] in
/-- The LRU ranking: last access, insertion time, internal id. -/
def lruRank (id : Nat) (entry : CacheEntry) : Nat ×ₗ Nat ×ₗ Nat :=
  toLex (entry.lastAccessedAt, toLex (entry.insertedAt, id))

omit [Platform] in
/-- The internal id of the least recently used entry. -/
def lruId (self : NamespacedIndex) : Option Nat :=
  (HashMap.minRank lruRank self.entries).map fun r => (ofLex (ofLex r).2).2

def evictLru (self : NamespacedIndex) (modelId : String) :
    NamespacedIndex × Option EvictedEntry :=
  match self.lruId with
  | none => (self, none)
  | some evictId =>
    match self.dropEntry evictId with
    | (next, none) => (next, none)
    | (next, some entry) => (next, some ⟨entry.uuid, modelId⟩)

/-- The inner loop of `evict_to_cap` on one namespace: `fuel` bounds the number
of evictions, and the entry count is enough. -/
def evictDownTo (self : NamespacedIndex) (modelId : String) (maxEntries : Nat) :
    Nat → NamespacedIndex × List EvictedEntry
  | 0 => (self, [])
  | fuel + 1 =>
    if self.entryCount > maxEntries then
      match self.evictLru modelId with
      | (next, none) => (next, [])
      | (next, some e) =>
        let rest := next.evictDownTo modelId maxEntries fuel
        (rest.1, e :: rest.2)
    else (self, [])

def removeByUuid (self : NamespacedIndex) (uuid : String) : NamespacedIndex × Bool :=
  match self.uuidToInternal.lookup uuid with
  | none => (self, false)
  | some internalId =>
    let (next, dropped) := self.dropEntry internalId
    (next, dropped.isSome)

def removeInternal (self : NamespacedIndex) (internalId : Nat) :
    NamespacedIndex × Option String :=
  let (next, dropped) := self.dropEntry internalId
  (next, dropped.map (·.uuid))

omit [Platform] in
/-- The ghost fraction exceeds one fifth, the ratio read as exact arithmetic. -/
def needsRebuild (self : NamespacedIndex) : Bool :=
  let total := HashMap.len self.entries + self.evictedIds.card
  if total = 0 then false else decide (total < 5 * self.evictedIds.card)

omit [Platform] in
/-- The draining loop of `rebuild`: the drained entries get the ids from
`nextId` on. -/
def refill (self : NamespacedIndex) : List CacheEntry → NamespacedIndex
  | [] => self
  | entry :: drained =>
    refill
      { self with
        nextId := self.nextId + 1
        hnsw := self.hnsw.insert entry.embedding self.nextId
        uuidToInternal := self.uuidToInternal.insert entry.uuid self.nextId
        entries := self.entries.insert self.nextId entry }
      drained

omit [Platform] in
/-- The namespace with empty tables, before the draining loop.  The text index
and the dimension stay as they are. -/
def drained (self : NamespacedIndex) : NamespacedIndex :=
  { self with
    hnsw := Hnsw.new
    entries := ∅
    uuidToInternal := ∅
    evictedIds := ∅
    nextId := 0 }

omit [Platform] in
/-- Rebuild the graph from the live entries, drained in the given order. -/
def rebuild (self : NamespacedIndex) (order : List Nat) : NamespacedIndex :=
  self.drained.refill (order.filterMap self.entries.lookup)

end Operations

end NamespacedIndex

end Ferrocache
