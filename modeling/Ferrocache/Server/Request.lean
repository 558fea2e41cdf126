import Ferrocache.Index.Semantic

/-!
# Requests

The bodies of insert and query requests (`models.rs`), their validation, and
the node-local part of the two handlers (`server.rs`): which namespaces a
request addresses, which log line an insert becomes, and what a query reads.
The clock, the generated UUID and the configured conversation TTL are
arguments.
-/

namespace Ferrocache

structure InsertRequest : Type where
  embedding : Embedding
  response : String
  queryText : String
  modelId : Option String
  uuid : Option String
  ttlSeconds : Option Nat
  cacheScope : Option String
  conversationId : Option String
  deriving DecidableEq

structure QueryRequest : Type where
  embedding : Embedding
  threshold : F32
  modelId : Option String
  queryText : Option String
  cacheScope : Option String
  conversationId : Option String
  deriving DecidableEq

/-! ## Validation -/

def maxEmbeddingDim : Nat := 4096

def maxResponseBytes : Nat := 102400

def validateModelId (modelId : Option String) : Except String String :=
  match modelId with
  | some s => if isBlank s then .error "model_id is required" else .ok s
  | none => .error "model_id is required"

def validateEmbedding (embedding : Embedding) : Except String Unit :=
  if embedding = [] then .error "embedding must not be empty"
  else if embedding.length > maxEmbeddingDim then
    .error ("embedding dimension " ++ toString embedding.length ++ " exceeds max " ++
      toString maxEmbeddingDim)
  else .ok ()

/-- The checks at the head of `insert_handler`. -/
def InsertRequest.validate (req : InsertRequest) : Except String Unit := do
  validateEmbedding req.embedding
  let _ ← validateModelId req.modelId
  if req.response.utf8ByteSize > maxResponseBytes then
    throw ("response size " ++ toString req.response.utf8ByteSize ++ " exceeds max " ++
      toString maxResponseBytes)

/-! ## Namespaces of a request -/

/-- The namespace an insert writes. -/
def insertNamespace (modelId : String) (cacheScope conversationId : Option String) : String :=
  match nonBlank conversationId with
  | some cid => conversationNamespace modelId cacheScope cid
  | none => effectiveNamespace modelId cacheScope

/-- The conversation namespace a query consults first, if it has one. -/
def queryConvNamespace (modelId : String) (cacheScope conversationId : Option String) :
    Option String :=
  (nonBlank conversationId).map (conversationNamespace modelId cacheScope)

/-- `effective_ttl` of `local_insert_inner`: an explicit TTL wins, a
conversation falls back to the configured one. -/
def effectiveTtl (conversationId : Option String) (ttlSeconds conversationTtl : Option Nat) :
    Option Nat :=
  match nonBlank conversationId, ttlSeconds with
  | _, some ttl => some ttl
  | some _, none => conversationTtl
  | none, none => none

/-- The log line that `local_insert_inner` sends to the flush task. -/
def InsertRequest.walEntry (req : InsertRequest) (modelId uuid : String) (insertedAt : Nat)
    (conversationTtl : Option Nat) : WalEntry where
  uuid := uuid
  embedding := req.embedding
  response := req.response
  queryText := req.queryText
  modelId := insertNamespace modelId req.cacheScope req.conversationId
  sequence := 0
  insertedAt := insertedAt
  tombstone := false
  expiresAt := (effectiveTtl req.conversationId req.ttlSeconds conversationTtl).map
    (saturatingAdd insertedAt)

/-! ## The local part of a query -/

/-- What `process_query_locally` reads from the index: the result, the namespace
charged with a hit, and the scope reported. -/
def queryLocally [Platform] (idx : SemanticIndex) (req : QueryRequest) (modelId : String)
    (now : Nat) : Except String (Option QueryHit) × String × Option SemanticIndex.Scope :=
  let base := baseNamespace modelId req.cacheScope
  match queryConvNamespace modelId req.cacheScope req.conversationId with
  | some convNs =>
    match idx.queryTwoLevel req.embedding req.threshold convNs base req.queryText now with
    | .ok (hit, ns, scope) => (.ok hit, ns, scope)
    | .error e => (.error e, base, none)
  | none => (idx.queryWithText req.embedding req.threshold base req.queryText now, base, none)

end Ferrocache
