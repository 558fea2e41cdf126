import Mathlib.Data.Finmap

/-!
# Data model

The records of `wal.rs`, `snapshot.rs`, `index.rs` and `models.rs` that the
modelled code reads or writes, and the `Platform` interface: what the code
takes from outside the repository (Unicode lowercasing, `f32` arithmetic, the
HNSW search of `hnsw_rs`).

An `f32` is its bit pattern.  Timestamps, sequence numbers and counters are
natural numbers; the places where the code checks or saturates a `u64` do so
explicitly here.
-/

namespace Ferrocache

/-- An `f32`, as its bit pattern. -/
abbrev F32 := BitVec 32

/-- `f32::is_finite`: the exponent is not all ones. -/
def F32.isFinite (x : F32) : Bool := x.toNat / 2 ^ 23 % 2 ^ 8 != 255

abbrev Embedding := List F32

/-- `u64::MAX`. -/
def u64Max : Nat := 2 ^ 64 - 1

/-- `u64::saturating_add`. -/
def saturatingAdd (a b : Nat) : Nat := min (a + b) u64Max

/-! ## Records -/

/-- One line of the write-ahead log. -/
structure WalEntry : Type where
  uuid : String
  embedding : Embedding
  response : String
  queryText : String
  modelId : String
  sequence : Nat
  insertedAt : Nat
  tombstone : Bool
  expiresAt : Option Nat
  deriving DecidableEq

/-- No component of the embedding is infinite or NaN. -/
def WalEntry.isFinite (entry : WalEntry) : Bool := entry.embedding.all F32.isFinite

/-- A tombstone line; the flush task stamps its sequence number. -/
def WalEntry.tombstoneEntry (uuid modelId : String) : WalEntry where
  uuid := uuid
  embedding := []
  response := ""
  queryText := ""
  modelId := modelId
  sequence := 0
  insertedAt := 0
  tombstone := true
  expiresAt := none

/-- One entry of a snapshot file. -/
structure SnapshotEntry : Type where
  uuid : String
  embedding : Embedding
  response : String
  queryText : String
  modelId : String
  insertedAt : Nat
  lastAccessedAt : Nat
  accessCount : Nat
  tombstone : Bool
  expiresAt : Option Nat
  deriving DecidableEq

/-- One live entry of a namespace. -/
structure CacheEntry : Type where
  uuid : String
  embedding : Embedding
  response : String
  queryText : String
  insertedAt : Nat
  lastAccessedAt : Nat
  accessCount : Nat
  expiresAt : Option Nat
  deriving DecidableEq

/-- A live entry together with its namespace. -/
structure FullEntry : Type where
  uuid : String
  embedding : Embedding
  response : String
  queryText : String
  modelId : String
  insertedAt : Nat
  lastAccessedAt : Nat
  accessCount : Nat
  expiresAt : Option Nat
  deriving DecidableEq

/-- An entry evicted by the LRU cap. -/
structure EvictedEntry : Type where
  uuid : String
  modelId : String
  deriving DecidableEq

/-- A query hit. -/
structure QueryHit : Type where
  id : String
  response : String
  similarity : F32
  internalId : Nat
  exactMatch : Bool
  deriving DecidableEq

/-- The entry a log line asks the index to store: the access metadata is not in
the log and starts from the insertion time. -/
def WalEntry.cacheEntry (entry : WalEntry) : CacheEntry where
  uuid := entry.uuid
  embedding := entry.embedding
  response := entry.response
  queryText := entry.queryText
  insertedAt := entry.insertedAt
  lastAccessedAt := entry.insertedAt
  accessCount := 0
  expiresAt := entry.expiresAt

/-- The entry a snapshot record asks the index to store. -/
def SnapshotEntry.cacheEntry (entry : SnapshotEntry) : CacheEntry where
  uuid := entry.uuid
  embedding := entry.embedding
  response := entry.response
  queryText := entry.queryText
  insertedAt := entry.insertedAt
  lastAccessedAt := entry.lastAccessedAt
  accessCount := entry.accessCount
  expiresAt := entry.expiresAt

/-- What the log keeps of an entry: everything but the access metadata. -/
structure Record : Type where
  embedding : Embedding
  response : String
  queryText : String
  insertedAt : Nat
  expiresAt : Option Nat
  deriving DecidableEq

def CacheEntry.record (entry : CacheEntry) : Record :=
  ⟨entry.embedding, entry.response, entry.queryText, entry.insertedAt, entry.expiresAt⟩

/-- Not past its TTL deadline at `now`. -/
def CacheEntry.liveAt (entry : CacheEntry) (now : Nat) : Bool :=
  match entry.expiresAt with
  | none => true
  | some exp => decide (now ≤ exp)

/-! ## Configuration and platform -/

/-- The fields of `HnswConfig` that the modelled code reads.  The graph
construction parameters only reach `hnsw_rs`. -/
structure HnswConfig : Type where
  efSearch : Nat
  maxEntriesPerNamespace : Option Nat

/-- The HNSW graph, by the points inserted since it was created.  The crate has
no removal. -/
structure Hnsw : Type where
  points : List (Nat × Embedding)

def Hnsw.new : Hnsw := ⟨[]⟩

/-- `Hnsw::insert`.  The crate is taken not to panic on a point of the dimension of
the graph. -/
def Hnsw.insert (hnsw : Hnsw) (embedding : Embedding) (id : Nat) : Hnsw :=
  ⟨hnsw.points ++ [(id, embedding)]⟩

/-- One neighbour reported by a search. -/
structure Neighbour : Type where
  originId : Nat
  distance : F32

/-- What the modelled code takes from outside the repository. -/
class Platform : Type where
  /-- `str::to_lowercase`. -/
  toLowercase : String → String
  /-- `1.0 - distance`. -/
  oneMinus : F32 → F32
  /-- The literal `1.0`. -/
  one : F32
  /-- The comparison `<` of `f32`. -/
  lt : F32 → F32 → Bool
  /-- The comparison `>=` of `f32`. -/
  ge : F32 → F32 → Bool
  /-- `cosine_similarity`, a computation in `f32` arithmetic. -/
  cosineSimilarity : Embedding → Embedding → F32
  /-- `Hnsw::search`: the graph, the probe, the number of neighbours, `ef`. -/
  search : Hnsw → Embedding → Nat → Nat → List Neighbour

/-- The platform of closed examples: ASCII lowercasing, and vectors that are
either equal or orthogonal, so that every similarity is `0.0` or `1.0`.  Bit
patterns of non-negative floats are ordered like the floats. -/
@[reducible]
def Platform.sample : Platform where
  toLowercase s := String.ofList (s.toList.map Char.toLower)
  one := 0x3F800000#32
  oneMinus d := if d = 0#32 then 0x3F800000#32 else 0#32
  lt a b := decide (a.toNat < b.toNat)
  ge a b := decide (b.toNat ≤ a.toNat)
  cosineSimilarity a b := if a = b then 0x3F800000#32 else 0#32
  search hnsw probe want _ :=
    ((hnsw.points.filter fun p => p.2 = probe).map fun p => ⟨p.1, 0#32⟩).take want

end Ferrocache
