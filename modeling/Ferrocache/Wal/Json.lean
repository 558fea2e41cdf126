import Ferrocache.Server.Request
import Ferrocache.Wal.Damage

/-!
# Log lines as JSON

The `Serialize` and `Deserialize` instances of `WalEntry` (`wal.rs`): which
fields are written and which are skipped, what a missing field defaults to, and
how a float is written.  The text of a JSON value and the conversions of its
number tokens are those of `serde_json`, a parameter with the documented
behaviour that the log relies on.

A float that is not finite is written as `null`, and `null` is no `f32`.  The
checks of the insert handler let such a float through, so an admitted request
comes back from the log exactly when all its floats are finite
(`replay_admitted_iff_finite`).
-/

namespace Ferrocache

/-- A JSON value with number tokens `N`. -/
inductive Json (N : Type) : Type
  | null
  | bool (b : Bool)
  | number (n : N)
  | str (s : String)
  | arr (items : List (Json N))
  | obj (fields : List (String × Json N))

/-- `serde_json`: the conversions of number tokens, and the text of a value. -/
structure SerdeJson : Type 1 where
  Number : Type
  ofU64 : Nat → Number
  toU64 : Number → Option Nat
  ofF32 : F32 → Number
  /-- A number beyond the range of `f32` becomes an infinity. -/
  toF32 : Number → F32
  write : Json Number → Bytes
  parse : Bytes → Option (Json Number)

/-! ## `impl Serialize for WalEntry` -/

namespace SerdeJson

variable (json : SerdeJson)

/-- `serialize_f32`: floats that are not finite have no JSON number. -/
def f32 (x : F32) : Json json.Number :=
  if x.isFinite then .number (json.ofF32 x) else .null

/-- `tombstone` and `expires_at` are skipped at their default values. -/
def ofWalEntry (entry : WalEntry) : Json json.Number :=
  .obj ([("uuid", .str entry.uuid), ("embedding", .arr (entry.embedding.map json.f32)),
    ("response", .str entry.response), ("query_text", .str entry.queryText),
    ("model_id", .str entry.modelId), ("sequence", .number (json.ofU64 entry.sequence)),
    ("inserted_at", .number (json.ofU64 entry.insertedAt))] ++
    (if entry.tombstone then [("tombstone", .bool true)] else []) ++
    match entry.expiresAt with
    | none => []
    | some deadline => [("expires_at", .number (json.ofU64 deadline))])

end SerdeJson

/-! ## `impl Deserialize for WalEntry` -/

/-- `LEGACY_NAMESPACE`. -/
def legacyNamespace : String := "legacy::unknown"

namespace Json

variable {N α : Type}

def asString : Json N → Option String
  | .str s => some s
  | _ => none

def asBool : Json N → Option Bool
  | .bool b => some b
  | _ => none

def asNumber : Json N → Option N
  | .number n => some n
  | _ => none

def asArray : Json N → Option (List (Json N))
  | .arr items => some items
  | _ => none

/-- The value under a name, if there is one; a name that occurs twice is an
error. -/
def field (fields : List (String × Json N)) (name : String) : Option (Option (Json N)) :=
  match fields.filter (·.1 = name) with
  | [] => some none
  | [found] => some (some found.2)
  | _ => none

/-- A field that has to be there. -/
def required (read : Json N → Option α) (fields : List (String × Json N)) (name : String) :
    Option α := do
  let found ← field fields name
  read (← found)

/-- A field with `#[serde(default)]`. -/
def defaulted (read : Json N → Option α) (default : α) (fields : List (String × Json N))
    (name : String) : Option α := do
  match ← field fields name with
  | none => return default
  | some value => read value

end Json

namespace SerdeJson

variable (json : SerdeJson)

def asU64 (value : Json json.Number) : Option Nat := do
  json.toU64 (← value.asNumber)

def asF32 (value : Json json.Number) : Option F32 := do
  return json.toF32 (← value.asNumber)

def asEmbedding (value : Json json.Number) : Option Embedding := do
  (← value.asArray).mapM json.asF32

def asDeadline : Json json.Number → Option (Option Nat)
  | .null => some none
  | value => (json.asU64 value).map some

def readFields (fields : List (String × Json json.Number)) : Option WalEntry := do
  let uuid ← Json.required Json.asString fields "uuid"
  let embedding ← Json.required json.asEmbedding fields "embedding"
  let response ← Json.required Json.asString fields "response"
  let queryText ← Json.required Json.asString fields "query_text"
  let modelId ← Json.defaulted Json.asString legacyNamespace fields "model_id"
  let sequence ← Json.defaulted json.asU64 0 fields "sequence"
  let insertedAt ← Json.defaulted json.asU64 0 fields "inserted_at"
  let tombstone ← Json.defaulted Json.asBool false fields "tombstone"
  let expiresAt ← Json.defaulted json.asDeadline none fields "expires_at"
  return ⟨uuid, embedding, response, queryText, modelId, sequence, insertedAt, tombstone, expiresAt⟩

/-- The fields of `WalEntry`, in order. -/
def fieldNames : List String :=
  ["uuid", "embedding", "response", "query_text", "model_id", "sequence", "inserted_at",
    "tombstone", "expires_at"]

/-- A derived struct is read from an object, whose other fields are ignored, or
from an array of its fields in order. -/
def toWalEntry : Json json.Number → Option WalEntry
  | .obj fields => json.readFields fields
  | .arr items => if items.length ≤ fieldNames.length then json.readFields (fieldNames.zip items)
    else none
  | _ => none

/-- `to_vec` and `from_str` at `WalEntry`. -/
def lineCodec : LineCodec where
  encode entry := json.write (json.ofWalEntry entry)
  decode line := do json.toWalEntry (← json.parse line)

/-! ## What is written is read back -/

/-- The numbers round-trip: every `u64`, and every finite `f32`. -/
structure Numbers : Prop where
  toU64_ofU64 : ∀ n ≤ u64Max, json.toU64 (json.ofU64 n) = some n
  toF32_ofF32 : ∀ x : F32, x.isFinite = true → json.toF32 (json.ofF32 x) = x

/-- The text of an object: one line of UTF-8 between braces, that parses back to
the object. -/
structure Text (value : Json json.Number) : Prop where
  oneLine : newline ∉ json.write value
  utf8 : (decodeUtf8 (json.write value)).isSome
  braces : ∃ body, json.write value = 0x7B :: (body ++ [0x7D])
  parse_write : json.parse (json.write value) = some value

end SerdeJson

/-- The numbers of an entry are `u64`. -/
structure WalEntry.Fits (entry : WalEntry) : Prop where
  sequence : entry.sequence ≤ u64Max
  insertedAt : entry.insertedAt ≤ u64Max
  expiresAt : ∀ deadline, entry.expiresAt = some deadline → deadline ≤ u64Max

namespace SerdeJson

variable {json : SerdeJson} (numbers : json.Numbers)

include numbers

theorem Numbers.asU64 {n : Nat} (bound : n ≤ u64Max) :
    json.asU64 (.number (json.ofU64 n)) = some n :=
  numbers.toU64_ofU64 n bound

theorem Numbers.asF32 (x : F32) :
    json.asF32 (json.f32 x) = if x.isFinite then some x else none := by
  unfold f32
  split
  · next finite =>
      have back := numbers.toF32_ofF32 x finite
      exact congrArg some back
  · rfl

/-- An embedding is read back when all its components are finite. -/
theorem Numbers.asEmbedding (embedding : Embedding) :
    json.asEmbedding (.arr (embedding.map json.f32)) =
      if embedding.all F32.isFinite then some embedding else none := by
  change (embedding.map json.f32).mapM json.asF32 = _
  induction embedding with
  | nil => rfl
  | cons x embedding ih =>
      rw [List.map_cons, List.mapM_cons, ih, numbers.asF32, List.all_cons]
      by_cases finite : x.isFinite = true
      · simp only [finite, if_true, Bool.true_and]
        split
        · rfl
        · rfl
      · simp [finite]

/-- Reading the fields that were written leaves only the embedding to be read:
the skipped fields default to the values at which they are skipped. -/
theorem Numbers.readFields_ofWalEntry {entry : WalEntry} (fits : entry.Fits) :
    json.toWalEntry (json.ofWalEntry entry) =
      (json.asEmbedding (.arr (entry.embedding.map json.f32))).map
        fun embedding => { entry with embedding } := by
  obtain ⟨uuid, embedding, response, queryText, modelId, sequence, insertedAt, tombstone,
    expiresAt⟩ := entry
  have stamp := numbers.asU64 fits.sequence
  have time := numbers.asU64 fits.insertedAt
  dsimp only at stamp time
  cases expiresAt with
  | none =>
      cases tombstone <;>
        simp [ofWalEntry, toWalEntry, readFields, Json.required, Json.defaulted, Json.field,
          Json.asString, Json.asBool, stamp, time, Option.map_eq_bind]
  | some deadline =>
      have due := numbers.asU64 (fits.expiresAt deadline rfl)
      cases tombstone <;>
        simp [ofWalEntry, toWalEntry, readFields, Json.required, Json.defaulted, Json.field,
          Json.asString, Json.asBool, asDeadline, stamp, time, due, Option.map_eq_bind]

/-- Reading undoes writing, except for an embedding that is not finite. -/
theorem Numbers.toWalEntry_ofWalEntry {entry : WalEntry} (fits : entry.Fits) :
    json.toWalEntry (json.ofWalEntry entry) = if entry.isFinite then some entry else none := by
  rw [numbers.readFields_ofWalEntry fits, numbers.asEmbedding, WalEntry.isFinite]
  split
  · rfl
  · rfl

theorem Numbers.decode_encode {entry : WalEntry} (fits : entry.Fits)
    (text : json.Text (json.ofWalEntry entry)) :
    json.lineCodec.decode (json.lineCodec.encode entry) =
      if entry.isFinite then some entry else none := by
  rw [← numbers.toWalEntry_ofWalEntry fits]
  simp only [lineCodec, text.parse_write]
  rfl

/-- What the replay makes of the text of an entry. -/
theorem Numbers.replayLine {entry : WalEntry} (fits : entry.Fits)
    (text : json.Text (json.ofWalEntry entry)) :
    json.lineCodec.replayLine (json.write (json.ofWalEntry entry)) =
      if entry.isFinite then some entry else none := by
  obtain ⟨chars, valid⟩ := Option.isSome_iff_exists.mp text.utf8
  obtain ⟨body, shape⟩ := text.braces
  have decoded : json.lineCodec.decode (json.write (json.ofWalEntry entry)) =
    if entry.isFinite then some entry else none := numbers.decode_encode fits text
  have notBlank : isBlank (String.ofList chars) = false := by
    rw [shape, decodeUtf8_ascii (by decide)] at valid
    obtain ⟨inner, -, rfl⟩ := Option.map_eq_some_iff.mp valid
    simp [isBlank, isWhitespace]
  rw [LineCodec.replayLine, valid, Option.bind_eq_bind, Option.bind_some, notBlank, decoded]
  rfl

omit numbers in
/-- A written entry is one line, without a carriage return. -/
theorem Text.lines {entry : WalEntry} (text : json.Text (json.ofWalEntry entry)) :
    rawLines (json.lineCodec.batchBytes [entry]) = [json.write (json.ofWalEntry entry)] ∧
      fileLines (json.lineCodec.batchBytes [entry]) = [json.write (json.ofWalEntry entry)] := by
  obtain ⟨body, shape⟩ := text.braces
  have last : (json.write (json.ofWalEntry entry)).getLast? = some 0x7D := by
    rw [shape, ← List.cons_append]
    exact List.getLast?_concat
  have whole : chomp (json.write (json.ofWalEntry entry)) = json.write (json.ofWalEntry entry) := by
    rw [chomp, last]
    rfl
  have bytes : json.lineCodec.batchBytes [entry] =
      json.write (json.ofWalEntry entry) ++ newline :: [] := LineCodec.batchBytes_cons
  rw [bytes, rawLines, fileLines_line text.oneLine, splitLines_line text.oneLine, whole]
  exact ⟨rfl, rfl⟩

/-- What the replay makes of the line of an entry. -/
theorem Numbers.replay_batchBytes {entry : WalEntry} (fits : entry.Fits)
    (text : json.Text (json.ofWalEntry entry)) :
    json.lineCodec.replay (json.lineCodec.batchBytes [entry]) =
      .ok ([entry].filter (·.isFinite)) := by
  have valid : LinesUtf8 (json.lineCodec.batchBytes [entry]) := by
    rw [LinesUtf8, text.lines.1]
    exact List.forall_mem_singleton.mpr text.utf8
  rw [LineCodec.replay_eq, if_pos valid, text.lines.2, List.filterMap_cons,
    numbers.replayLine fits text]
  by_cases finite : entry.isFinite = true
  · simp [finite]
  · simp [finite]

/-- With the rule that only whitespace may stand before an object, the derived
instances satisfy what the log relies on. -/
theorem Numbers.lawful {entry : WalEntry} (fits : entry.Fits)
    (text : json.Text (json.ofWalEntry entry))
    (framed : ∀ before, newline ∉ before →
      json.parse (before ++ json.write (json.ofWalEntry entry)) =
        if before.all isJsonSpace then json.parse (json.write (json.ofWalEntry entry)) else none) :
    json.lineCodec.Lawful entry where
  oneLine := text.oneLine
  utf8 := text.utf8
  braces := text.braces
  decode_encode := numbers.decode_encode fits text
  decode_append := by
    intro before plain
    simp only [lineCodec, framed before plain]
    split <;> rfl

end SerdeJson

/-! ## Admitted requests -/

/-- The lines that the handlers send to the flush task, with the sequence number
it stamps.  The embedding of an insert is parsed from JSON numbers, and its
identifier is the one of the request or a generated one. -/
inductive SerdeJson.Admitted (json : SerdeJson) : WalEntry → Prop
  | insert {req : InsertRequest} {modelId uuid : String} {sequence insertedAt : Nat}
      (tokens : List json.Number) (parsed : req.embedding = tokens.map json.toF32)
      (checked : req.validate = .ok ()) (named : validateModelId req.modelId = .ok modelId)
      (given : ∀ id, req.uuid = some id → uuid = id) (stamp : sequence ≤ u64Max)
      (time : insertedAt ≤ u64Max) (conversationTtl : Option Nat) :
      json.Admitted { req.walEntry modelId uuid insertedAt conversationTtl with sequence }
  | tombstone {sequence : Nat} (uuid modelId : String) (stamp : sequence ≤ u64Max) :
      json.Admitted { WalEntry.tombstoneEntry uuid modelId with sequence }

theorem SerdeJson.Admitted.fits {json : SerdeJson} {entry : WalEntry}
    (admitted : json.Admitted entry) : entry.Fits := by
  cases admitted with
  | insert tokens parsed checked named given stamp time conversationTtl =>
      refine ⟨stamp, time, fun deadline due => ?_⟩
      obtain ⟨ttl, -, rfl⟩ := Option.map_eq_some_iff.mp due
      exact Nat.min_le_right _ _
  | tombstone uuid modelId stamp =>
      refine ⟨stamp, Nat.zero_le _, fun deadline due => ?_⟩
      cases due

/-- The line of an admitted request is read back as the same entry if and only
if every number of its embedding is finite as an `f32`. -/
theorem replay_admitted_iff_finite {json : SerdeJson} (numbers : json.Numbers)
    {entry : WalEntry} (admitted : json.Admitted entry)
    (text : json.Text (json.ofWalEntry entry)) :
    json.lineCodec.replay (json.lineCodec.batchBytes [entry]) = .ok [entry] ↔
      ∀ x ∈ entry.embedding, x.isFinite = true := by
  rw [numbers.replay_batchBytes admitted.fits text]
  constructor
  · intro read
    have kept := List.filter_eq_self.mp (Except.ok.inj read) entry List.mem_cons_self
    exact List.all_eq_true.mp kept
  · intro finite
    have kept : entry.isFinite = true := List.all_eq_true.mpr finite
    rw [List.filter_cons_of_pos kept]
    rfl

section Example

/-- Number tokens of a closed example: integers, the text of a float, and a
number beyond the range of `f32` such as `1e39`. -/
inductive SampleNumber : Type
  | int (n : Nat)
  | float (x : F32)
  | beyond

/-- `serde_json` at one value and its text; no integer is read as a float. -/
def sampleJson (value : Json SampleNumber) (text : Bytes) : SerdeJson where
  Number := SampleNumber
  ofU64 := .int
  toU64
    | .int n => some n
    | _ => none
  ofF32 := .float
  toF32
    | .int _ => 0#32
    | .float x => x
    | .beyond => 0x7F800000#32
  write _ := text
  parse line := if line = text then some value else none

theorem sampleJson_numbers (value : Json SampleNumber) (text : Bytes) :
    (sampleJson value text).Numbers :=
  ⟨fun _ _ => rfl, fun _ _ => rfl⟩

theorem sampleJson_text {value : Json SampleNumber} {text body : Bytes} (oneLine : newline ∉ text)
    (utf8 : (decodeUtf8 text).isSome) (braces : text = 0x7B :: (body ++ [0x7D])) :
    (sampleJson value text).Text value :=
  ⟨oneLine, utf8, ⟨body, braces⟩, if_pos rfl⟩

/-- The value of a request with one float and no expiry. -/
def sampleValue (float : Json SampleNumber) (sequence : Nat) : Json SampleNumber :=
  .obj [("uuid", .str "u"), ("embedding", .arr [float]), ("response", .str "r"),
    ("query_text", .str "q"), ("model_id", .str "m"), ("sequence", .number (.int sequence)),
    ("inserted_at", .number (.int 0))]

/-- A request with the embedding `[1.0]`; its entry is `sampleEntry`. -/
def sampleRequest : InsertRequest :=
  ⟨[0x3F800000#32], "r", "q", some "m", some "u", none, none, none⟩

def finiteJson : SerdeJson :=
  sampleJson (sampleValue (.number (.float 0x3F800000#32)) 2) sampleText

theorem replay_admitted_iff_finite_sample :
    finiteJson.lineCodec.replay (finiteJson.lineCodec.batchBytes [sampleEntry]) =
        .ok [sampleEntry] ↔
      ∀ x ∈ sampleEntry.embedding, x.isFinite = true := by
  have text : finiteJson.Text (finiteJson.ofWalEntry sampleEntry) :=
    sampleJson_text sampleText_line.1 sampleText_line.2.1 sampleText_line.2.2
  have checked : sampleRequest.validate = .ok () := by decide
  have admitted : finiteJson.Admitted sampleEntry :=
    .insert [SampleNumber.float 0x3F800000#32] rfl checked rfl
      (fun id same => Option.some.inj same) (by decide) (by decide) none
  exact replay_admitted_iff_finite (sampleJson_numbers _ _) admitted text

/-- A request with the embedding `[1e39]`. -/
def infiniteRequest : InsertRequest :=
  ⟨[0x7F800000#32], "r", "q", some "m", some "u", none, none, none⟩

def infiniteEntry : WalEntry := { infiniteRequest.walEntry "m" "u" 0 none with sequence := 1 }

/-- The line that `serde_json` writes for it. -/
def infiniteText : Bytes := asciiBytes
  "\x7b\"uuid\":\"u\",\"embedding\":[null],\"response\":\"r\",\"query_text\":\"q\",\"model_id\":\"m\",\"sequence\":1,\"inserted_at\":0\x7d"

theorem infiniteText_line : newline ∉ infiniteText ∧ (decodeUtf8 infiniteText).isSome ∧
    infiniteText = 0x7B :: (infiniteText.tail.dropLast ++ [0x7D]) := by
  decide +kernel

def infiniteJson : SerdeJson := sampleJson (sampleValue .null 1) infiniteText

/-- The handler admits an embedding with the number `1e39`, and the line that is
written for it does not come back. -/
theorem infinite_embedding_lost :
    infiniteJson.Numbers ∧ infiniteJson.Admitted infiniteEntry ∧
      infiniteJson.Text (infiniteJson.ofWalEntry infiniteEntry) ∧
      infiniteJson.lineCodec.replay (infiniteJson.lineCodec.batchBytes [infiniteEntry]) = .ok [] := by
  have numbers : infiniteJson.Numbers := sampleJson_numbers _ _
  have text : infiniteJson.Text (infiniteJson.ofWalEntry infiniteEntry) :=
    sampleJson_text infiniteText_line.1 infiniteText_line.2.1 infiniteText_line.2.2
  have checked : infiniteRequest.validate = .ok () := by decide
  have admitted : infiniteJson.Admitted infiniteEntry :=
    .insert [SampleNumber.beyond] rfl checked rfl
      (fun id same => Option.some.inj same) (by decide) (by decide) none
  refine ⟨numbers, admitted, text, ?_⟩
  rw [numbers.replay_batchBytes admitted.fits text]
  rfl

end Example

end Ferrocache
