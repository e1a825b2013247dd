/-
Canonical codecs: what is written is read back, and nothing else is read.

Each half says that a reader and a writer have not drifted apart in one
direction. Together they make the reader the inverse of the writer on what it
accepts, so a value has one encoding (`Canonical.of_inverse`).
-/
import Mathlib.Tactic.Common

namespace Miscreant.Lib

variable {α β ε : Type}

/-- The values a codec is for have one encoding each. -/
structure Canonical (Valid : α → Prop) (encode : α → List β) (decode : List β → Except ε α) : Prop where
  decode_encode : ∀ v, Valid v → decode (encode v) = .ok v
  encode_decode : ∀ b v, decode b = .ok v → encode v = b
  /-- What is accepted is what was written. -/
  accepts : ∀ b, (∃ v, decode b = .ok v) ↔ ∃ v, Valid v ∧ encode v = b
  decode_inj : ∀ b b' v, decode b = .ok v → decode b' = .ok v → b = b'

/-- A codec is canonical if its two halves are inverses on the valid values. -/
theorem Canonical.of_inverse {Valid : α → Prop} {encode : α → List β} {decode : List β → Except ε α}
    (hread : ∀ v, Valid v → decode (encode v) = .ok v) (hwrite : ∀ b v, decode b = .ok v → Valid v ∧ encode v = b) :
    Canonical Valid encode decode where
  decode_encode := hread
  encode_decode b v h := (hwrite b v h).2
  accepts b := by
    constructor
    · rintro ⟨v, h⟩
      exact ⟨v, hwrite b v h⟩
    · rintro ⟨v, hv, rfl⟩
      exact ⟨v, hread v hv⟩
  decode_inj b b' v h h' := (hwrite b v h).2.symm.trans (hwrite b' v h').2

end Miscreant.Lib
