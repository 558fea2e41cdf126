import Ferrocache.Lib.Codec
import Ferrocache.Wal.Bytes

/-!
# The snapshot file as bytes

`write_snapshot` puts a header of four `u64` (magic, version, sequence, number
of entries) before the `bincode` of the entries, and `read_snapshot` checks the
header and decodes the rest (`snapshot.rs`).  What is written is read back, and
a file cut short at any byte is refused.

`bincode` writes the fields of a struct one after the other and reads them back
by position, so the entries of a file from before the access-tracking fields
cannot be told from a file that is too short: `#[serde(default)]` on those fields
never applies.
-/

namespace Ferrocache

/-! ## The format -/

/-- `MAGIC`: the text "FERROSNA". -/
def snapshotMagic : Nat := 0x464552524F534E41

/-- `VERSION`. -/
def snapshotVersion : Nat := 1

/-- A `u64`, also as the length of a string or of a vector. -/
def u64 : Codec Nat := Codec.uint 8

/-- A `String`: its length in bytes, then the bytes. -/
def bincodeString : Codec String := Codec.string 8

/-- A `Vec<f32>`: its length, then the bits of each component. -/
def bincodeEmbedding : Codec Embedding := Codec.seq 8 (Codec.word 4)

/-- The fields of an entry before the access metadata existed. -/
structure LegacyEntry : Type where
  uuid : String
  embedding : Embedding
  response : String
  queryText : String
  modelId : String
  deriving DecidableEq

def LegacyEntry.ofFields : String × Embedding × String × String × String ≃ LegacyEntry where
  toFun f := ⟨f.1, f.2.1, f.2.2.1, f.2.2.2.1, f.2.2.2.2⟩
  invFun e := (e.uuid, e.embedding, e.response, e.queryText, e.modelId)
  left_inv _ := rfl
  right_inv _ := rfl

/-- `uuid`, `embedding`, `response`, `query_text`, `model_id`. -/
def LegacyEntry.codec : Codec LegacyEntry :=
  (bincodeString.pair (bincodeEmbedding.pair (bincodeString.pair
    (bincodeString.pair bincodeString)))).map LegacyEntry.ofFields

/-- `inserted_at`, `last_accessed_at`, `access_count`, `tombstone`,
`expires_at`. -/
def metadataCodec : Codec (Nat × Nat × Nat × Bool × Option Nat) :=
  u64.pair (u64.pair (u64.pair (Codec.bool.pair u64.option)))

def SnapshotEntry.ofFields :
    LegacyEntry × Nat × Nat × Nat × Bool × Option Nat ≃ SnapshotEntry where
  toFun f := ⟨f.1.uuid, f.1.embedding, f.1.response, f.1.queryText, f.1.modelId,
    f.2.1, f.2.2.1, f.2.2.2.1, f.2.2.2.2.1, f.2.2.2.2.2⟩
  invFun e := (⟨e.uuid, e.embedding, e.response, e.queryText, e.modelId⟩,
    e.insertedAt, e.lastAccessedAt, e.accessCount, e.tombstone, e.expiresAt)
  left_inv _ := rfl
  right_inv _ := rfl

/-- The fields of `SnapshotEntry` in the order of their declaration. -/
def SnapshotEntry.codec : Codec SnapshotEntry :=
  (LegacyEntry.codec.pair metadataCodec).map SnapshotEntry.ofFields

/-- The body of a snapshot: `bincode` of a `Vec` of entries. -/
def bodyOf {α : Type} (entry : Codec α) : Codec (List α) := Codec.seq 8 entry

/-- The four header words, as `write_snapshot` writes them one by one. -/
def snapshotHeader (walSequence entryCount : Nat) : Bytes :=
  [snapshotMagic, snapshotVersion, walSequence, entryCount].flatMap (leBytes 8)

/-- The bytes that `write_snapshot` puts into the file. -/
def writeSnapshot (entries : List SnapshotEntry) (walSequence : Nat) : Bytes :=
  snapshotHeader walSequence entries.length ++ (bodyOf SnapshotEntry.codec).encode entries

/-- The `i`-th word of the header. -/
def headerWord (bytes : Bytes) (i : Nat) : Nat := ofLeBytes ((bytes.drop (8 * i)).take 8)

/-- `{:#x}`. -/
def hex (n : Nat) : String := "0x" ++ String.ofList (Nat.toDigits 16 n)

/-- `read_snapshot`, on the bytes of the file. -/
def readSnapshot (bytes : Bytes) : Except String (List SnapshotEntry × Nat) :=
  if bytes.length < 32 then .error s!"snapshot file too short ({bytes.length} bytes)"
  else if headerWord bytes 0 ≠ snapshotMagic then
    .error
      s!"snapshot magic mismatch: expected {hex snapshotMagic}, got {hex (headerWord bytes 0)}"
  else if headerWord bytes 1 ≠ snapshotVersion then
    .error s!"unsupported snapshot version: {headerWord bytes 1}"
  else
    match (bodyOf SnapshotEntry.codec).decode (bytes.drop 32) with
    | none => .error "bincode deserialize snapshot entries"
    | some (entries, _) =>
      if entries.length ≠ headerWord bytes 3 then
        .error
          s!"snapshot entry_count mismatch: header={headerWord bytes 3}, decoded={entries.length}"
      else .ok (entries, headerWord bytes 2)

/-! ## Reading the header -/

theorem length_snapshotHeader (walSequence entryCount : Nat) :
    (snapshotHeader walSequence entryCount).length = 32 := by
  simp [snapshotHeader]

/-- A word of the header is read back at its place. -/
theorem headerWord_flatMap {words : List Nat} {i n : Nat} (place : words[i]? = some n)
    (bound : n < 2 ^ 64) (body : Bytes) :
    headerWord (words.flatMap (leBytes 8) ++ body) i = n := by
  induction words generalizing i with
  | nil => cases place
  | cons word words ih =>
      rw [List.flatMap_cons, List.append_assoc]
      cases i with
      | zero =>
          cases place
          rw [headerWord, Nat.mul_zero, List.drop_zero, List.take_left' (length_leBytes 8 n)]
          exact ofLeBytes_leBytes bound
      | succ i =>
          have later := ih place
          have skip : 8 * (i + 1) = (leBytes 8 word).length + 8 * i := by
            rw [length_leBytes]
            omega
          rw [headerWord, skip, List.drop_length_add_append]
          exact later

/-- A file that starts with a written header is decoded behind it. -/
theorem readSnapshot_append {walSequence entryCount : Nat} (sequence : walSequence < 2 ^ 64)
    (count : entryCount < 2 ^ 64) (body : Bytes) :
    readSnapshot (snapshotHeader walSequence entryCount ++ body) =
      match (bodyOf SnapshotEntry.codec).decode body with
      | none => .error "bincode deserialize snapshot entries"
      | some (entries, _) =>
        if entries.length ≠ entryCount then
          .error s!"snapshot entry_count mismatch: header={entryCount}, decoded={entries.length}"
        else .ok (entries, walSequence) := by
  have size := length_snapshotHeader walSequence entryCount
  have long : ¬ (snapshotHeader walSequence entryCount ++ body).length < 32 := by
    rw [List.length_append, size]
    omega
  have magic : headerWord (snapshotHeader walSequence entryCount ++ body) 0 = snapshotMagic :=
    headerWord_flatMap rfl (by decide) body
  have version : headerWord (snapshotHeader walSequence entryCount ++ body) 1 = snapshotVersion :=
    headerWord_flatMap rfl (by decide) body
  have stamp : headerWord (snapshotHeader walSequence entryCount ++ body) 2 = walSequence :=
    headerWord_flatMap rfl sequence body
  have number : headerWord (snapshotHeader walSequence entryCount ++ body) 3 = entryCount :=
    headerWord_flatMap rfl count body
  rw [readSnapshot, if_neg long, if_neg (not_not_intro magic), if_neg (not_not_intro version),
    List.drop_left' size, stamp, number]

/-! ## Round trip -/

/-- The entries of the Rust type: the numbers are `u64`, and so are the lengths
of the strings and of the embedding. -/
structure SnapshotEntry.Fits (entry : SnapshotEntry) : Prop where
  uuid : (Codec.utf8Bytes entry.uuid).length < 2 ^ 64
  embedding : entry.embedding.length < 2 ^ 64
  response : (Codec.utf8Bytes entry.response).length < 2 ^ 64
  queryText : (Codec.utf8Bytes entry.queryText).length < 2 ^ 64
  modelId : (Codec.utf8Bytes entry.modelId).length < 2 ^ 64
  insertedAt : entry.insertedAt < 2 ^ 64
  lastAccessedAt : entry.lastAccessedAt < 2 ^ 64
  accessCount : entry.accessCount < 2 ^ 64
  expiresAt : ∀ deadline, entry.expiresAt = some deadline → deadline < 2 ^ 64

theorem SnapshotEntry.Fits.codec {entry : SnapshotEntry} (fits : entry.Fits) :
    SnapshotEntry.codec.Fits entry :=
  ⟨⟨fits.uuid, ⟨fits.embedding, fun _ _ => trivial⟩, fits.response, fits.queryText, fits.modelId⟩,
    fits.insertedAt, fits.lastAccessedAt, fits.accessCount, trivial, fits.expiresAt⟩

/-- What `write_snapshot` writes is read back, entries and sequence; and a file
that misses bytes at its end, however many, is refused. -/
theorem readSnapshot_writeSnapshot {entries : List SnapshotEntry} {walSequence : Nat}
    (fits : ∀ entry ∈ entries, entry.Fits) (count : entries.length < 2 ^ 64)
    (sequence : walSequence < 2 ^ 64) :
    readSnapshot (writeSnapshot entries walSequence) = .ok (entries, walSequence) ∧
      ∀ cut missing, writeSnapshot entries walSequence = cut ++ missing → missing ≠ [] →
        ∃ message, readSnapshot cut = .error message := by
  have bodyFits : (bodyOf SnapshotEntry.codec).Fits entries :=
    ⟨count, fun entry mem => (fits entry mem).codec⟩
  have size := length_snapshotHeader walSequence entries.length
  constructor
  · rw [writeSnapshot, readSnapshot_append sequence count, Codec.decode_encode _ bodyFits]
    exact if_neg (not_not_intro rfl)
  · intro cut missing split strict
    by_cases short : cut.length < 32
    · exact ⟨_, by rw [readSnapshot, if_pos short]⟩
    · -- the cut lies behind the header, inside the body
      obtain ⟨front, rfl, back⟩ : ∃ front, cut = snapshotHeader walSequence entries.length ++ front ∧
          (bodyOf SnapshotEntry.codec).encode entries = front ++ missing := by
        refine (List.append_eq_append_iff.mp split).elim ?_ ?_
        · rintro ⟨front, rfl, rest⟩
          exact ⟨front, rfl, rest⟩
        · rintro ⟨extra, whole, rest⟩
          have nothing : extra = [] := by
            apply List.eq_nil_of_length_eq_zero
            have lengths := congrArg List.length whole
            rw [List.length_append, size] at lengths
            omega
          subst nothing
          exact ⟨[], by simpa using whole.symm, by simpa using rest.symm⟩
      have unreadable := Codec.decode_of_strictPrefix _ bodyFits back strict
      rw [readSnapshot_append sequence count, unreadable]
      exact ⟨_, rfl⟩

section Example

def sampleSnapshotEntry : SnapshotEntry :=
  ⟨"u", [0x3F800000#32], "é", "q", "m", 7, 8, 1, false, some 9⟩

theorem sampleSnapshotEntry_fits : sampleSnapshotEntry.Fits where
  uuid := by decide
  embedding := by decide
  response := by decide
  queryText := by decide
  modelId := by decide
  insertedAt := by decide
  lastAccessedAt := by decide
  accessCount := by decide
  expiresAt := by
    intro deadline given
    cases given
    decide

theorem readSnapshot_writeSnapshot_sample :
    readSnapshot (writeSnapshot [sampleSnapshotEntry] 12) = .ok ([sampleSnapshotEntry], 12) ∧
      ∃ message, readSnapshot ((writeSnapshot [sampleSnapshotEntry] 12).take 40) =
        .error message := by
  have fits : ∀ entry ∈ [sampleSnapshotEntry], entry.Fits := by
    intro entry mem
    rw [List.mem_singleton.mp mem]
    exact sampleSnapshotEntry_fits
  have sequence : 12 < 2 ^ 64 := by decide
  obtain ⟨whole, torn⟩ := readSnapshot_writeSnapshot fits (by decide) sequence
  refine ⟨whole, torn _ _ (List.take_append_drop 40 _).symm ?_⟩
  decide

end Example

/-! ## Files from before the access metadata -/

/-- A snapshot written by the version-1 code that had only the first five
fields. -/
def writeLegacySnapshot (entries : List LegacyEntry) (walSequence : Nat) : Bytes :=
  snapshotHeader walSequence entries.length ++ (bodyOf LegacyEntry.codec).encode entries

/-- The entry with the defaults of the newer fields. -/
def LegacyEntry.upgrade (entry : LegacyEntry) : SnapshotEntry :=
  ⟨entry.uuid, entry.embedding, entry.response, entry.queryText, entry.modelId, 0, 0, 0, false,
    none⟩

/-- The fields that an older file has. -/
def SnapshotEntry.legacy (entry : SnapshotEntry) : LegacyEntry :=
  ⟨entry.uuid, entry.embedding, entry.response, entry.queryText, entry.modelId⟩

/-- The newer fields take at least 26 bytes of an entry. -/
theorem length_codec_encode (entry : SnapshotEntry) :
    (LegacyEntry.codec.encode entry.legacy).length + 26 ≤
      (SnapshotEntry.codec.encode entry).length := by
  have layout : SnapshotEntry.codec.encode entry = LegacyEntry.codec.encode entry.legacy ++
    metadataCodec.encode (entry.insertedAt, entry.lastAccessedAt, entry.accessCount,
      entry.tombstone, entry.expiresAt) := rfl
  have metadata : 26 ≤ (metadataCodec.encode (entry.insertedAt, entry.lastAccessedAt,
      entry.accessCount, entry.tombstone, entry.expiresAt)).length := by
    cases entry.expiresAt with
    | none => simp [metadataCodec, u64, Codec.pair, Codec.uint, Codec.bool, Codec.option]
    | some deadline =>
        simp [metadataCodec, u64, Codec.pair, Codec.uint, Codec.bool, Codec.option]
  rw [layout, List.length_append]
  omega

/-- Entries take more room than their older fields alone. -/
theorem length_flatMap_codec_encode (entries : List SnapshotEntry) :
    ((entries.map SnapshotEntry.legacy).flatMap LegacyEntry.codec.encode).length +
      26 * entries.length ≤ (entries.flatMap SnapshotEntry.codec.encode).length := by
  induction entries with
  | nil => simp
  | cons entry entries ih =>
      have head := length_codec_encode entry
      simp only [List.map_cons, List.flatMap_cons, List.length_append, List.length_cons]
      omega

/-- What a successful read returns was decoded from the bytes behind the
header. -/
theorem decode_of_readSnapshot {bytes : Bytes} {entries : List SnapshotEntry} {walSequence : Nat}
    (read : readSnapshot bytes = .ok (entries, walSequence)) :
    ∃ rest, (bodyOf SnapshotEntry.codec).decode (bytes.drop 32) = some (entries, rest) := by
  unfold readSnapshot at read
  split at read
  · cases read
  · split at read
    · cases read
    · split at read
      · cases read
      · split at read
        · cases read
        · next rest decoded =>
            split at read
            · cases read
            · cases read
              exact ⟨rest, decoded⟩

/-- Reading an older file never returns its entries, whatever it puts into the
newer fields: their encoding does not fit into the file. -/
theorem legacy_ne_of_readSnapshot {entries : List LegacyEntry} (nonempty : entries ≠ [])
    {out : List SnapshotEntry} {walSequence outSequence : Nat}
    (read : readSnapshot (writeLegacySnapshot entries walSequence) = .ok (out, outSequence)) :
    out.map SnapshotEntry.legacy ≠ entries := by
  rintro rfl
  obtain ⟨rest, decoded⟩ := decode_of_readSnapshot read
  rw [writeLegacySnapshot, List.drop_left' (length_snapshotHeader _ _)] at decoded
  obtain ⟨-, layout⟩ := (bodyOf SnapshotEntry.codec).consumed decoded
  have room := congrArg List.length layout
  have wider := length_flatMap_codec_encode out
  have filled : 0 < out.length := by
    rw [← List.length_map SnapshotEntry.legacy]
    exact List.length_pos_of_ne_nil nonempty
  simp only [bodyOf, Codec.seq, Codec.uint, List.length_append, length_leBytes] at room
  omega

/-- A version-1 file from before the access metadata is never read back as its
entries with the defaults of the newer fields, unless it has no entry. -/
theorem readSnapshot_writeLegacySnapshot {entries : List LegacyEntry} (nonempty : entries ≠ [])
    (walSequence : Nat) :
    readSnapshot (writeLegacySnapshot entries walSequence) ≠
      .ok (entries.map LegacyEntry.upgrade, walSequence) := by
  intro read
  have same : (entries.map LegacyEntry.upgrade).map SnapshotEntry.legacy = entries := by
    rw [List.map_map]
    exact List.map_id entries
  exact legacy_ne_of_readSnapshot nonempty read same

/-- A file with one older entry ends where the newer fields are expected. -/
theorem readSnapshot_legacy_singleton {entry : LegacyEntry} (fits : LegacyEntry.codec.Fits entry)
    {walSequence : Nat} (sequence : walSequence < 2 ^ 64) :
    readSnapshot (writeLegacySnapshot [entry] walSequence) =
      .error "bincode deserialize snapshot entries" := by
  have old := LegacyEntry.codec.decode_encode fits
  have cut : SnapshotEntry.codec.decode (LegacyEntry.codec.encode entry) = none := by
    simp only [SnapshotEntry.codec, Codec.map, Codec.pair, old]
    rfl
  have one : [entry].length < 2 ^ 64 := by
    rw [List.length_singleton]
    decide
  have body : (bodyOf SnapshotEntry.codec).decode ((bodyOf LegacyEntry.codec).encode [entry]) =
      none := by
    have count := (Codec.uint 8).decode_append (show 1 < 256 ^ 8 by decide)
      (LegacyEntry.codec.encode entry)
    simp only [bodyOf, Codec.seq, List.length_cons, List.length_nil, List.flatMap_cons,
      List.flatMap_nil, List.append_nil, Nat.zero_add]
    rw [count, Option.bind_eq_bind, Option.bind_some]
    dsimp only
    rw [Codec.decodeMany, cut]
    rfl
  rw [writeLegacySnapshot, readSnapshot_append sequence one, body]

section Example

def sampleLegacyEntry : LegacyEntry := sampleSnapshotEntry.legacy

theorem readSnapshot_writeLegacySnapshot_sample :
    readSnapshot (writeLegacySnapshot [sampleLegacyEntry, sampleLegacyEntry] 12) ≠
      .ok ([sampleLegacyEntry, sampleLegacyEntry].map LegacyEntry.upgrade, 12) :=
  readSnapshot_writeLegacySnapshot (by decide) 12

/-- An older snapshot with one entry is refused. -/
theorem legacy_snapshot_refused :
    readSnapshot (writeLegacySnapshot [sampleLegacyEntry] 12) =
        .error "bincode deserialize snapshot entries" ∧
      ¬ ∀ entries walSequence, entries ≠ [] → walSequence < 2 ^ 64 →
        readSnapshot (writeLegacySnapshot entries walSequence) =
          .ok (entries.map LegacyEntry.upgrade, walSequence) := by
  have refused : readSnapshot (writeLegacySnapshot [sampleLegacyEntry] 12) =
      .error "bincode deserialize snapshot entries" :=
    readSnapshot_legacy_singleton sampleSnapshotEntry_fits.codec.1 (by decide)
  refine ⟨refused, ?_⟩
  intro readable
  have read := readable [sampleLegacyEntry] 12 (by decide) (by decide)
  rw [refused] at read
  cases read

end Example

end Ferrocache
