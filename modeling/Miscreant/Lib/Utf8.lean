/-
UTF-8 keeps the order of the characters: texts compare as their encodings do,
byte by byte (`encode_lt_iff`).
-/
import Mathlib.Data.List.Lex
import Mathlib.Data.String.Basic
import Mathlib.Tactic.Common

namespace Miscreant.Lib.Utf8

theorem ofNat_lt_ofNat {a b : Nat} (hb : b < 256) (h : a < b) : UInt8.ofNat a < UInt8.ofNat b := by
  rw [UInt8.lt_iff_toNat_lt, UInt8.toNat_ofNat', UInt8.toNat_ofNat']
  omega

/-- A byte that differs decides, and one that does not goes on. -/
theorem cons_lt_cons {a b : Nat} {x y : List UInt8} (hb : b < 256) (hle : a ≤ b) (h : a = b → x < y) :
    UInt8.ofNat a :: x < UInt8.ofNat b :: y := by
  rcases Nat.lt_or_eq_of_le hle with hlt | heq
  · exact .rel (ofNat_lt_ofNat hb hlt)
  · rw [heq]
    exact .cons (h heq)

/-- The encoding of a smaller character is smaller, whatever follows. -/
theorem encodeChar_lt {c d : Char} (h : c < d) (x y : List UInt8) :
    String.utf8EncodeChar c ++ x < String.utf8EncodeChar d ++ y := by
  have hcd : c.val.toNat < d.val.toNat := h
  have hd : d.val.toNat < 0x110000 := by
    rcases d.valid with hd | hd
    · exact lt_trans hd (by decide)
    · exact hd.2
  generalize hv : c.val.toNat = v at hcd
  generalize hw : d.val.toNat = w at hcd hd
  unfold String.utf8EncodeChar
  simp only [hv, hw]
  split_ifs <;> try omega
  all_goals simp only [List.cons_append, List.nil_append]
  all_goals repeat' (refine cons_lt_cons (by omega) (by omega) fun _ => ?_)
  all_goals exfalso; omega

theorem encodeChar_ne_nil (c : Char) : String.utf8EncodeChar c ≠ [] := String.utf8EncodeChar_ne_nil

theorem encode_lt {l l' : List Char} (h : l < l') :
    l.flatMap String.utf8EncodeChar < l'.flatMap String.utf8EncodeChar := by
  induction h with
  | @nil c l =>
    rw [List.flatMap_nil, List.flatMap_cons]
    obtain ⟨b, rest, hb⟩ := List.exists_cons_of_ne_nil (encodeChar_ne_nil c)
    rw [hb]
    exact .nil
  | @cons c l l' h ih =>
    rw [List.flatMap_cons, List.flatMap_cons]
    exact List.append_left_lt ih
  | rel h =>
    rw [List.flatMap_cons, List.flatMap_cons]
    exact encodeChar_lt h _ _

theorem encode_lt_iff {l l' : List Char} :
    l.flatMap String.utf8EncodeChar < l'.flatMap String.utf8EncodeChar ↔ l < l' := by
  refine ⟨fun h => ?_, encode_lt⟩
  rcases lt_trichotomy l l' with hlt | heq | hgt
  · exact hlt
  · rw [heq] at h
    exact absurd h (List.lt_irrefl _)
  · exact absurd (encode_lt hgt) (List.lt_asymm h)

end Miscreant.Lib.Utf8
