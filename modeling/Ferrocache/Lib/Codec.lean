import Mathlib.Algebra.Group.Nat.Defs
import Mathlib.Data.List.Basic
import Mathlib.Logic.Equiv.Defs

/-!
# Positional binary codecs

Values written one after the other with no tags and no framing but the lengths
they carry themselves: fixed-width little-endian integers, length-prefixed
strings and sequences, one byte for a flag or for the presence of an optional
value.

A codec carries two laws.  An encoded value is read back whatever follows it,
and what a successful read has consumed is the encoding of the value it returns.
Both are closed under the combinators, and together they make every strict
prefix of an encoding unreadable (`Codec.decode_of_strictPrefix`).
-/

/-! ## Little-endian integers -/

/-- The low `width` bytes of a number, least significant first. -/
def leBytes : Nat → Nat → List UInt8
  | 0, _ => []
  | width + 1, n => UInt8.ofNat n :: leBytes width (n / 256)

/-- The number with these bytes, least significant first. -/
def ofLeBytes : List UInt8 → Nat
  | [] => 0
  | b :: bytes => b.toNat + 256 * ofLeBytes bytes

@[simp]
theorem length_leBytes (width n : Nat) : (leBytes width n).length = width := by
  induction width generalizing n with
  | zero => rfl
  | succ width ih => rw [leBytes, List.length_cons, ih]

theorem ofLeBytes_leBytes {width n : Nat} (bound : n < 256 ^ width) :
    ofLeBytes (leBytes width n) = n := by
  induction width generalizing n with
  | zero =>
      rw [Nat.pow_zero, Nat.lt_one_iff] at bound
      exact bound.symm
  | succ width ih =>
      have high : n / 256 < 256 ^ width := by
        rw [Nat.pow_succ'] at bound
        exact Nat.div_lt_of_lt_mul bound
      have low : (UInt8.ofNat n).toNat = n % 256 := UInt8.toNat_ofNat'
      rw [leBytes, ofLeBytes, ih high, low, Nat.mod_add_div]

theorem ofLeBytes_lt (bytes : List UInt8) : ofLeBytes bytes < 256 ^ bytes.length := by
  induction bytes with
  | nil => exact Nat.one_pos
  | cons b bytes ih =>
      have digit := b.toNat_lt
      rw [ofLeBytes, List.length_cons, Nat.pow_succ]
      omega

theorem leBytes_ofLeBytes (bytes : List UInt8) :
    leBytes bytes.length (ofLeBytes bytes) = bytes := by
  induction bytes with
  | nil => rfl
  | cons b bytes ih =>
      have digit := b.toNat_lt
      have low : UInt8.ofNat (ofLeBytes (b :: bytes)) = b := by
        apply UInt8.toNat_inj.mp
        rw [UInt8.toNat_ofNat', ofLeBytes]
        omega
      have high : ofLeBytes (b :: bytes) / 256 = ofLeBytes bytes := by
        rw [ofLeBytes]
        omega
      rw [List.length_cons, leBytes, low, high, ih]

/-! ## Codecs -/

/-- A positional codec for the values that fit. -/
structure Codec (α : Type) : Type where
  encode : α → List UInt8
  decode : List UInt8 → Option (α × List UInt8)
  /-- The values that the format can hold. -/
  Fits : α → Prop
  decode_append : ∀ {value : α}, Fits value → ∀ rest,
    decode (encode value ++ rest) = some (value, rest)
  consumed : ∀ {input rest : List UInt8} {value : α}, decode input = some (value, rest) →
    Fits value ∧ input = encode value ++ rest

namespace Codec

variable {α β : Type}

theorem decode_encode (codec : Codec α) {value : α} (fits : codec.Fits value) :
    codec.decode (codec.encode value) = some (value, []) := by
  have read := codec.decode_append fits []
  rwa [List.append_nil] at read

/-- A reader that stops inside a value fails: it would otherwise have found the
encoding of another value at the same place. -/
theorem decode_of_strictPrefix (codec : Codec α) {value : α} (fits : codec.Fits value)
    {cut missing : List UInt8} (split : codec.encode value = cut ++ missing)
    (strict : missing ≠ []) : codec.decode cut = none := by
  rcases outcome : codec.decode cut with _ | ⟨other, rest⟩
  · rfl
  · obtain ⟨otherFits, front⟩ := codec.consumed outcome
    have whole : codec.encode value = codec.encode other ++ (rest ++ missing) := by
      rw [split, front, List.append_assoc]
    have reread := codec.decode_append otherFits (rest ++ missing)
    rw [← whole, codec.decode_encode fits] at reread
    have nothing : rest ++ missing = [] := (congrArg Prod.snd (Option.some.inj reread)).symm
    exact absurd (List.append_eq_nil_iff.mp nothing).2 strict

/-! ## Primitive values -/

/-- A fixed number of bytes taken from the input. -/
def takeBytes (count : Nat) (input : List UInt8) : Option (List UInt8 × List UInt8) :=
  if count ≤ input.length then some (input.take count, input.drop count) else none

theorem takeBytes_append {count : Nat} {bytes : List UInt8} (size : bytes.length = count)
    (rest : List UInt8) : takeBytes count (bytes ++ rest) = some (bytes, rest) := by
  have enough : count ≤ (bytes ++ rest).length := by
    rw [List.length_append, size]
    omega
  rw [takeBytes, if_pos enough, List.take_left' size, List.drop_left' size]

theorem of_takeBytes {count : Nat} {input bytes rest : List UInt8}
    (read : takeBytes count input = some (bytes, rest)) :
    bytes.length = count ∧ input = bytes ++ rest := by
  unfold takeBytes at read
  split at read
  · next enough =>
      cases read
      exact ⟨List.length_take_of_le enough, (List.take_append_drop count input).symm⟩
  · cases read

/-- An unsigned integer of `width` bytes. -/
def uint (width : Nat) : Codec Nat where
  encode := leBytes width
  decode input := do
    let (bytes, rest) ← takeBytes width input
    return (ofLeBytes bytes, rest)
  Fits n := n < 256 ^ width
  decode_append := by
    intro n bound rest
    rw [takeBytes_append (length_leBytes width n) rest]
    exact congrArg (fun k => some (k, rest)) (ofLeBytes_leBytes bound)
  consumed := by
    intro input rest n read
    obtain ⟨⟨bytes, tail⟩, taken, result⟩ := Option.bind_eq_some_iff.mp read
    cases result
    obtain ⟨rfl, front⟩ := of_takeBytes taken
    exact ⟨ofLeBytes_lt bytes, by rw [leBytes_ofLeBytes, front]⟩

/-- A word of `width` bytes, such as the bits of a float. -/
def word (width : Nat) : Codec (BitVec (8 * width)) where
  encode w := leBytes width w.toNat
  decode input := do
    let (bytes, rest) ← takeBytes width input
    return (BitVec.ofNat (8 * width) (ofLeBytes bytes), rest)
  Fits _ := True
  decode_append := by
    intro w _ rest
    have bound : w.toNat < 256 ^ width := Nat.pow_mul 2 8 width ▸ w.isLt
    rw [takeBytes_append (length_leBytes width w.toNat) rest]
    have value : BitVec.ofNat (8 * width) (ofLeBytes (leBytes width w.toNat)) = w := by
      rw [ofLeBytes_leBytes bound, BitVec.ofNat_toNat, BitVec.setWidth_eq]
    exact congrArg (fun v => some (v, rest)) value
  consumed := by
    intro input rest w read
    obtain ⟨⟨bytes, tail⟩, taken, result⟩ := Option.bind_eq_some_iff.mp read
    cases result
    obtain ⟨rfl, front⟩ := of_takeBytes taken
    have bound : ofLeBytes bytes < 2 ^ (8 * bytes.length) :=
      Nat.pow_mul 2 8 bytes.length ▸ ofLeBytes_lt bytes
    refine ⟨trivial, ?_⟩
    rw [BitVec.toNat_ofNat, Nat.mod_eq_of_lt bound, leBytes_ofLeBytes, front]

/-- One byte, `0` or `1`. -/
def bool : Codec Bool where
  encode flag := [if flag then 1 else 0]
  decode
    | [] => none
    | b :: rest => if b = 0 then some (false, rest) else if b = 1 then some (true, rest) else none
  Fits _ := True
  decode_append := by
    intro flag _ rest
    cases flag <;> rfl
  consumed := by
    intro input rest flag read
    rcases input with _ | ⟨b, tail⟩
    · cases read
    · dsimp only at read
      split at read
      · next zero =>
          cases read
          exact ⟨trivial, by rw [zero]; rfl⟩
      · split at read
        · next one =>
            cases read
            exact ⟨trivial, by rw [one]; rfl⟩
        · cases read

/-! ## Combinators -/

/-- Two values, one after the other. -/
def pair (first : Codec α) (second : Codec β) : Codec (α × β) where
  encode value := first.encode value.1 ++ second.encode value.2
  decode input := do
    let (a, afterFirst) ← first.decode input
    let (b, rest) ← second.decode afterFirst
    return ((a, b), rest)
  Fits value := first.Fits value.1 ∧ second.Fits value.2
  decode_append := by
    intro value fits rest
    rw [List.append_assoc, first.decode_append fits.1, Option.bind_eq_bind, Option.bind_some]
    dsimp only
    rw [second.decode_append fits.2]
    rfl
  consumed := by
    intro input rest value read
    obtain ⟨⟨a, afterFirst⟩, readFirst, read⟩ := Option.bind_eq_some_iff.mp read
    obtain ⟨⟨b, tail⟩, readSecond, result⟩ := Option.bind_eq_some_iff.mp read
    cases result
    obtain ⟨fitsFirst, front⟩ := first.consumed readFirst
    obtain ⟨fitsSecond, back⟩ := second.consumed readSecond
    exact ⟨⟨fitsFirst, fitsSecond⟩, by rw [front, back, List.append_assoc]⟩

/-- The same bytes for another presentation of the values. -/
def map (codec : Codec α) (e : α ≃ β) : Codec β where
  encode value := codec.encode (e.symm value)
  decode input := do
    let (a, rest) ← codec.decode input
    return (e a, rest)
  Fits value := codec.Fits (e.symm value)
  decode_append := by
    intro value fits rest
    rw [codec.decode_append fits]
    exact congrArg (fun b => some (b, rest)) (e.apply_symm_apply value)
  consumed := by
    intro input rest value read
    obtain ⟨⟨a, tail⟩, readFirst, result⟩ := Option.bind_eq_some_iff.mp read
    cases result
    rw [e.symm_apply_apply]
    exact codec.consumed readFirst

/-- A flag for the presence of a value, then the value. -/
def option (codec : Codec α) : Codec (Option α) where
  encode
    | none => bool.encode false
    | some value => bool.encode true ++ codec.encode value
  decode input := do
    let (present, afterFlag) ← bool.decode input
    if present then
      let (value, rest) ← codec.decode afterFlag
      return (some value, rest)
    else return (none, afterFlag)
  Fits value := ∀ a, value = some a → codec.Fits a
  decode_append := by
    intro value fits rest
    cases value with
    | none =>
        dsimp only
        rw [bool.decode_append trivial]
        rfl
    | some a =>
        dsimp only
        rw [List.append_assoc, bool.decode_append trivial, Option.bind_eq_bind, Option.bind_some]
        dsimp only
        rw [if_pos rfl, codec.decode_append (fits a rfl)]
        rfl
  consumed := by
    intro input rest value read
    obtain ⟨⟨present, afterFlag⟩, readFlag, read⟩ := Option.bind_eq_some_iff.mp read
    obtain ⟨-, front⟩ := bool.consumed readFlag
    cases present with
    | false =>
        cases read
        exact ⟨fun a present => absurd present (by simp), front⟩
    | true =>
        obtain ⟨⟨a, tail⟩, readValue, result⟩ := Option.bind_eq_some_iff.mp read
        cases result
        obtain ⟨fits, back⟩ := codec.consumed readValue
        refine ⟨fun b present => Option.some.inj present ▸ fits, ?_⟩
        rw [front, back, List.append_assoc]

/-! ## Length-prefixed values -/

/-- `count` values, one after the other. -/
def decodeMany (codec : Codec α) : Nat → List UInt8 → Option (List α × List UInt8)
  | 0, input => some ([], input)
  | count + 1, input => do
    let (value, afterFirst) ← codec.decode input
    let (values, rest) ← codec.decodeMany count afterFirst
    return (value :: values, rest)

theorem decodeMany_append (codec : Codec α) {values : List α}
    (fits : ∀ value ∈ values, codec.Fits value) (rest : List UInt8) :
    codec.decodeMany values.length (values.flatMap codec.encode ++ rest) =
      some (values, rest) := by
  induction values with
  | nil => rfl
  | cons value values ih =>
      have later := ih fun other mem => fits other (List.mem_cons_of_mem _ mem)
      rw [List.length_cons, decodeMany, List.flatMap_cons, List.append_assoc,
        codec.decode_append (fits value List.mem_cons_self), Option.bind_eq_bind,
        Option.bind_some]
      dsimp only
      rw [later]
      rfl

theorem consumed_decodeMany (codec : Codec α) {count : Nat} {input rest : List UInt8}
    {values : List α} (read : codec.decodeMany count input = some (values, rest)) :
    values.length = count ∧ (∀ value ∈ values, codec.Fits value) ∧
      input = values.flatMap codec.encode ++ rest := by
  induction count generalizing input values with
  | zero =>
      cases read
      exact ⟨rfl, by simp, rfl⟩
  | succ count ih =>
      obtain ⟨⟨value, afterFirst⟩, readFirst, read⟩ := Option.bind_eq_some_iff.mp read
      obtain ⟨⟨others, tail⟩, readOthers, result⟩ := Option.bind_eq_some_iff.mp read
      cases result
      obtain ⟨fits, front⟩ := codec.consumed readFirst
      obtain ⟨length, fitsOthers, back⟩ := ih readOthers
      refine ⟨by rw [List.length_cons, length], List.forall_mem_cons.mpr ⟨fits, fitsOthers⟩, ?_⟩
      rw [front, back, List.flatMap_cons, List.append_assoc]

/-- A sequence behind its length, an integer of `width` bytes. -/
def seq (width : Nat) (codec : Codec α) : Codec (List α) where
  encode values := (uint width).encode values.length ++ values.flatMap codec.encode
  decode input := do
    let (count, afterLength) ← (uint width).decode input
    codec.decodeMany count afterLength
  Fits values := values.length < 256 ^ width ∧ ∀ value ∈ values, codec.Fits value
  decode_append := by
    intro values fits rest
    rw [List.append_assoc, (uint width).decode_append fits.1, Option.bind_eq_bind,
      Option.bind_some]
    exact codec.decodeMany_append fits.2 rest
  consumed := by
    intro input rest values read
    obtain ⟨⟨count, afterLength⟩, readLength, read⟩ := Option.bind_eq_some_iff.mp read
    obtain ⟨bound, front⟩ := (uint width).consumed readLength
    obtain ⟨rfl, fits, back⟩ := codec.consumed_decodeMany read
    exact ⟨⟨bound, fits⟩, by rw [front, back, List.append_assoc]⟩

/-- The UTF-8 bytes of a string. -/
def utf8Bytes (text : String) : List UInt8 := text.toUTF8.data.toList

def ofUtf8Bytes (bytes : List UInt8) : Option String := String.fromUTF8? ⟨bytes.toArray⟩

theorem ofUtf8Bytes_utf8Bytes (text : String) : ofUtf8Bytes (utf8Bytes text) = some text := by
  rw [ofUtf8Bytes, utf8Bytes, Array.toArray_toList, String.fromUTF8?]
  exact dif_pos text.isValidUTF8

theorem utf8Bytes_of_ofUtf8Bytes {bytes : List UInt8} {text : String}
    (read : ofUtf8Bytes bytes = some text) : utf8Bytes text = bytes := by
  rw [ofUtf8Bytes, String.fromUTF8?] at read
  split at read
  · cases read
    rfl
  · cases read

/-- A string behind the number of its bytes, an integer of `width` bytes. -/
def string (width : Nat) : Codec String where
  encode text := (uint width).encode (utf8Bytes text).length ++ utf8Bytes text
  decode input := do
    let (count, afterLength) ← (uint width).decode input
    let (bytes, rest) ← takeBytes count afterLength
    let text ← ofUtf8Bytes bytes
    return (text, rest)
  Fits text := (utf8Bytes text).length < 256 ^ width
  decode_append := by
    intro text fits rest
    rw [List.append_assoc, (uint width).decode_append fits, Option.bind_eq_bind,
      Option.bind_some]
    dsimp only
    rw [takeBytes_append rfl, Option.bind_eq_bind, Option.bind_some]
    dsimp only
    rw [ofUtf8Bytes_utf8Bytes]
    rfl
  consumed := by
    intro input rest text read
    obtain ⟨⟨count, afterLength⟩, readLength, read⟩ := Option.bind_eq_some_iff.mp read
    obtain ⟨⟨bytes, tail⟩, taken, read⟩ := Option.bind_eq_some_iff.mp read
    obtain ⟨decoded, valid, result⟩ := Option.bind_eq_some_iff.mp read
    cases result
    obtain ⟨bound, front⟩ := (uint width).consumed readLength
    obtain ⟨rfl, back⟩ := of_takeBytes taken
    rw [utf8Bytes_of_ofUtf8Bytes valid]
    exact ⟨bound, by rw [front, back, List.append_assoc]⟩

end Codec
