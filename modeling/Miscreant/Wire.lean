/-
Text and ids as they go over the wire: strings as their UTF-8 bytes, and
object ids in hex (`gix_hash::ObjectId::to_hex` and `from_hex`).
-/
import Miscreant.ValuesFacts
import Miscreant.Lib.Pktline
import Mathlib.Tactic.IntervalCases

namespace Miscreant

open Lib

/-! ## Text -/

/-- `str::as_bytes`. -/
def asBytes (text : String) : Bytes := text.toByteArray.data.toList

/-- `str::from_utf8`. -/
def fromUtf8 (bytes : Bytes) : Option String := String.fromUTF8? ⟨bytes.toArray⟩

@[simp] theorem asBytes_append (a b : String) : asBytes (a ++ b) = asBytes a ++ asBytes b := by
  simp [asBytes]

@[simp] theorem fromUtf8_asBytes (text : String) : fromUtf8 (asBytes text) = some text := by
  have harr : (⟨(asBytes text).toArray⟩ : ByteArray) = text.toByteArray := by simp [asBytes]
  rw [fromUtf8, harr, String.fromUTF8?, dif_pos text.isValidUTF8]
  rfl

theorem asBytes_fromUtf8 {bytes : Bytes} {text : String} (h : fromUtf8 bytes = some text) : asBytes text = bytes := by
  unfold fromUtf8 String.fromUTF8? at h
  split at h
  · cases h
    simp [asBytes, String.fromUTF8]
  · cases h

theorem asBytes_injective : Function.Injective asBytes := by
  intro a b h
  have heq := congrArg fromUtf8 h
  simpa using heq

/-- `str::strip_prefix`. -/
def stripPrefix (lead text : List Char) : Option (List Char) :=
  if lead.isPrefixOf text then some (text.drop lead.length) else none

theorem stripPrefix_append (lead text : List Char) : stripPrefix lead (lead ++ text) = some text := by
  have hlead : lead.isPrefixOf (lead ++ text) = true := List.isPrefixOf_iff_prefix.2 (List.prefix_append lead text)
  rw [stripPrefix, if_pos hlead, List.drop_left]

/-! ## Hex -/

/-- The two digits of a byte. -/
def hexByte (b : UInt8) : List Char :=
  [b.toNat / 16, b.toNat % 16].map fun n => Char.ofNat (hexDigit n).toNat

/-- `ObjectId::to_hex`. -/
def ObjectId.toHex (id : ObjectId) : String := String.ofList (id.bytes.flatMap hexByte)

/-- The bytes pairs of hex digits spell. -/
def unhex : Bytes → Option Bytes
  | [] => some []
  | [_] => none
  | hi :: lo :: rest => do
    let hi ← unhexDigit hi
    let lo ← unhexDigit lo
    let rest ← unhex rest
    pure (UInt8.ofNat (hi * 16 + lo) :: rest)

/-- `ObjectId::from_hex`: 40 or 64 hex digits. -/
def ObjectId.fromHex (hex : Bytes) : Option ObjectId := (unhex hex).bind ObjectId.tryFrom

/-- `ObjectId::is_null`. -/
def ObjectId.isNull (id : ObjectId) : Bool := id.bytes.all (· == 0)

/-! ## Reading hex back -/

theorem asBytes_ofList (l : List Char) : asBytes (String.ofList l) = l.flatMap String.utf8EncodeChar := by
  simp [asBytes, List.utf8Encode]

/-- A digit is one byte, its own. -/
theorem utf8EncodeChar_hexDigit {n : Nat} (h : n < 16) :
    String.utf8EncodeChar (Char.ofNat (hexDigit n).toNat) = [hexDigit n] := by
  interval_cases n <;> rfl

theorem flatMap_hexByte (b : UInt8) :
    (hexByte b).flatMap String.utf8EncodeChar = [hexDigit (b.toNat / 16), hexDigit (b.toNat % 16)] := by
  have hb := b.toNat_lt
  simp [hexByte, utf8EncodeChar_hexDigit (show b.toNat / 16 < 16 by omega),
    utf8EncodeChar_hexDigit (show b.toNat % 16 < 16 by omega)]

theorem asBytes_toHex (id : ObjectId) :
    asBytes id.toHex = id.bytes.flatMap fun b => [hexDigit (b.toNat / 16), hexDigit (b.toNat % 16)] := by
  rw [ObjectId.toHex, asBytes_ofList, List.flatMap_assoc]
  simp only [flatMap_hexByte]

theorem unhex_flatMap : ∀ bytes : Bytes,
    unhex (bytes.flatMap fun b => [hexDigit (b.toNat / 16), hexDigit (b.toNat % 16)]) = some bytes
  | [] => rfl
  | b :: bytes => by
    have hb := b.toNat_lt
    have hbyte : UInt8.ofNat (b.toNat / 16 * 16 + b.toNat % 16) = b := by
      rw [Nat.div_add_mod', UInt8.ofNat_toNat]
    simp only [List.flatMap_cons, List.cons_append, List.nil_append, unhex,
      unhexDigit_hexDigit (show b.toNat / 16 < 16 by omega), unhexDigit_hexDigit (show b.toNat % 16 < 16 by omega),
      unhex_flatMap bytes, Option.bind_eq_bind, Option.bind_some, hbyte, Option.pure_def]

@[simp] theorem ObjectId.fromHex_toHex (id : ObjectId) : ObjectId.fromHex (asBytes id.toHex) = some id := by
  rw [ObjectId.fromHex, asBytes_toHex, unhex_flatMap]
  exact ObjectId.tryFrom_bytes id

theorem length_of_unhex : ∀ {hex bytes : Bytes}, unhex hex = some bytes → hex.length = 2 * bytes.length
  | [], bytes, h => by
    cases h
    rfl
  | [_], bytes, h => by cases h
  | hi :: lo :: rest, bytes, h => by
    simp only [unhex, Option.bind_eq_bind, Option.bind_eq_some_iff, Option.pure_def, Option.some.injEq] at h
    obtain ⟨_, -, _, -, tail, htail, rfl⟩ := h
    simp only [List.length_cons, length_of_unhex htail]
    omega

/-- An id that is read has two digits for each of its bytes. -/
theorem ObjectId.length_of_fromHex {hex : Bytes} {id : ObjectId} (h : ObjectId.fromHex hex = some id) :
    hex.length = 2 * id.kind.lenInBytes := by
  obtain ⟨bytes, hbytes, hid⟩ := Option.bind_eq_some_iff.1 h
  rw [length_of_unhex hbytes, ← ObjectId.bytes_of_tryFrom hid, id.len]

theorem ObjectId.length_toHex (id : ObjectId) : (asBytes id.toHex).length = 2 * id.kind.lenInBytes := by
  rw [asBytes_toHex, ← id.len]
  induction id.bytes with
  | nil => rfl
  | cons b bytes ih =>
    simp only [List.flatMap_cons, List.length_append, ih, List.length_cons, List.length_nil]
    omega

theorem hexDigit_graphic {n : Nat} (h : n < 16) : Char.ofNat (hexDigit n).toNat ≠ ' ' := by
  interval_cases n <;> decide

theorem ObjectId.space_not_mem_toHex (id : ObjectId) : ' ' ∉ id.toHex.toList := by
  simp only [ObjectId.toHex, String.toList_ofList, List.mem_flatMap, not_exists, not_and]
  intro b _ hmem
  have hb := b.toNat_lt
  simp only [hexByte, List.map_cons, List.map_nil, List.mem_cons, List.not_mem_nil, or_false] at hmem
  rcases hmem with h | h
  · exact hexDigit_graphic (n := b.toNat / 16) (by omega) h.symm
  · exact hexDigit_graphic (n := b.toNat % 16) (by omega) h.symm

end Miscreant
