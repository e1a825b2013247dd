/-
Git's delta format: how a delta rebuilds a target from its base.

A delta is the sizes of the base and the target, then instructions: a copy
from the base, or bytes of its own. `Emits` says what a piece of an instruction
stream adds to the target; it is built up piece by piece, and
`apply_of_emits` reads the whole.
-/
import Mathlib.Algebra.GroupWithZero.Nat
import Mathlib.Data.List.Basic
import Mathlib.Tactic.Common

namespace Miscreant.Lib.GitDelta

/-- A size: seven bits a byte, the low ones first, with a bit that says
whether more follow. -/
def readSize : List UInt8 → Option (Nat × List UInt8)
  | [] => none
  | byte :: rest =>
    if byte.toNat < 128 then some (byte.toNat, rest)
    else (readSize rest).map fun (n, rest) => (byte.toNat - 128 + 128 * n, rest)

/-- One instruction. -/
inductive Instr
  | copy (offset size : Nat)
  | insert (data : List UInt8)
  deriving DecidableEq, Repr

/-- A field of a copy: the bit of the command that says its byte is there, and
where that byte goes. -/
abbrev Field := UInt8 × Nat

def OFFSET_FIELDS : List Field := [(0x01, 0), (0x02, 8), (0x04, 16), (0x08, 24)]
def SIZE_FIELDS : List Field := [(0x10, 0), (0x20, 8), (0x40, 16)]

/-- The number the fields of a command spell; a byte left out is zero. -/
def readFields (command : UInt8) : List Field → List UInt8 → Option (Nat × List UInt8)
  | [], data => some (0, data)
  | (bit, shift) :: fields, data =>
    if command &&& bit = 0 then readFields command fields data
    else
      match data with
      | [] => none
      | byte :: data => (readFields command fields data).map fun (n, data) => (byte.toNat * 2 ^ shift + n, data)

/-- The instruction of a command and the data after it. -/
def readInstr (command : UInt8) (data : List UInt8) : Option (Instr × List UInt8) :=
  if command &&& 0x80 ≠ 0 then do
    let (offset, data) ← readFields command OFFSET_FIELDS data
    let (size, data) ← readFields command SIZE_FIELDS data
    pure (.copy offset (if size = 0 then 0x10000 else size), data)
  else if command = 0 then none
  else if data.length < command.toNat then none
  else some (.insert (data.take command.toNat), data.drop command.toNat)

/-- The instructions of a stream, with `fuel` for the recursion. -/
def readInstrsFrom : Nat → List UInt8 → Option (List Instr)
  | _, [] => some []
  | 0, _ :: _ => none
  | fuel + 1, command :: data => do
    let (instr, data) ← readInstr command data
    let instrs ← readInstrsFrom fuel data
    pure (instr :: instrs)

/-- The instructions of a stream. -/
def readInstrs (data : List UInt8) : Option (List Instr) := readInstrsFrom data.length data

/-- What an instruction adds to the target. -/
def Instr.output (base : List UInt8) : Instr → Option (List UInt8)
  | .copy offset size => if offset + size ≤ base.length then some ((base.drop offset).take size) else none
  | .insert data => some data

/-- What instructions add to the target. -/
def outputs (base : List UInt8) : List Instr → Option (List UInt8)
  | [] => some []
  | instr :: instrs => do
    let first ← instr.output base
    let rest ← outputs base instrs
    pure (first ++ rest)

/-- The target a delta makes of its base. -/
def apply (base delta : List UInt8) : Option (List UInt8) := do
  let (baseSize, data) ← readSize delta
  let (targetSize, data) ← readSize data
  if baseSize ≠ base.length then none
  else do
    let instrs ← readInstrs data
    let target ← outputs base instrs
    if target.length = targetSize then some target else none

/-! ## Streams -/

theorem readInstrsFrom_mono : ∀ {fuel fuel' : Nat} {data : List UInt8} {instrs : List Instr}, fuel ≤ fuel' →
    readInstrsFrom fuel data = some instrs → readInstrsFrom fuel' data = some instrs
  | fuel, fuel', [], instrs, _, h => by
    cases fuel <;> cases fuel' <;> exact h
  | 0, fuel', command :: data, instrs, _, h => by cases h
  | fuel + 1, 0, command :: data, instrs, hle, _ => absurd hle (by omega)
  | fuel + 1, fuel' + 1, command :: data, instrs, hle, h => by
    simp only [readInstrsFrom, Option.bind_eq_bind, Option.bind_eq_some_iff] at h ⊢
    obtain ⟨p, hp, rest, hrest, h⟩ := h
    exact ⟨p, hp, rest, readInstrsFrom_mono (by omega) hrest, h⟩

theorem outputs_append {base : List UInt8} : ∀ {as bs : List Instr} {x y : List UInt8}, outputs base as = some x →
    outputs base bs = some y → outputs base (as ++ bs) = some (x ++ y)
  | [], bs, x, y, hx, hy => by
    cases hx
    exact hy
  | a :: as, bs, x, y, hx, hy => by
    simp only [outputs, Option.bind_eq_bind, Option.bind_eq_some_iff, Option.pure_def, Option.some.injEq] at hx
    obtain ⟨first, hfirst, rest, hrest, rfl⟩ := hx
    rw [List.cons_append, outputs, hfirst, outputs_append hrest hy]
    simp

/-- The bytes `data` are the instructions `instrs`, whatever follows them. -/
def Encodes (data : List UInt8) (instrs : List Instr) : Prop :=
  ∀ fuel rest after, readInstrsFrom fuel rest = some after →
    readInstrsFrom (fuel + data.length) (data ++ rest) = some (instrs ++ after)

theorem Encodes.nil : Encodes [] [] := fun _ _ _ h => h

theorem Encodes.append {a b : List UInt8} {as bs : List Instr} (ha : Encodes a as) (hb : Encodes b bs) :
    Encodes (a ++ b) (as ++ bs) := by
  intro fuel rest after h
  have hread := ha _ _ _ (hb fuel rest after h)
  rw [List.append_assoc, List.append_assoc, List.length_append, Nat.add_comm a.length, ← Nat.add_assoc]
  exact hread

/-- One instruction. -/
theorem Encodes.single {command : UInt8} {operands : List UInt8} {instr : Instr}
    (h : ∀ rest, readInstr command (operands ++ rest) = some (instr, rest)) :
    Encodes (command :: operands) [instr] := by
  intro fuel rest after hafter
  have hrest : readInstrsFrom (fuel + operands.length) rest = some after := readInstrsFrom_mono (by omega) hafter
  rw [List.length_cons, ← Nat.add_assoc, List.cons_append, readInstrsFrom, h rest]
  simp [hrest]

/-- The bytes `data` add `out` to the target. -/
def Emits (base data out : List UInt8) : Prop := ∃ instrs, Encodes data instrs ∧ outputs base instrs = some out

section Emits

variable {base data data' out out' : List UInt8}

theorem Emits.nil : Emits base [] [] := ⟨[], .nil, rfl⟩

theorem Emits.append (h : Emits base data out) (h' : Emits base data' out') :
    Emits base (data ++ data') (out ++ out') := by
  obtain ⟨as, ha, hout⟩ := h
  obtain ⟨bs, hb, hout'⟩ := h'
  exact ⟨as ++ bs, ha.append hb, outputs_append hout hout'⟩

theorem Emits.single {command : UInt8} {operands : List UInt8} {instr : Instr}
    (h : ∀ rest, readInstr command (operands ++ rest) = some (instr, rest)) (hout : instr.output base = some out) :
    Emits base (command :: operands) out :=
  ⟨[instr], .single h, by simp [outputs, hout]⟩

/-- An insert of 1 to 127 bytes. -/
theorem Emits.insert (hpos : 0 < out.length) (hle : out.length < 128) :
    Emits base (UInt8.ofNat out.length :: out) out := by
  have hnat : (UInt8.ofNat out.length).toNat = out.length := by
    rw [UInt8.toNat_ofNat']
    omega
  have hcopy : UInt8.ofNat out.length &&& 0x80 = 0 := by
    apply UInt8.toNat_inj.1
    rw [UInt8.toNat_and, hnat]
    have hbit : out.length.testBit 7 = false := Nat.testBit_lt_two_pow (by omega)
    apply Nat.eq_of_testBit_eq
    intro i
    rw [Nat.testBit_and, show (0x80 : UInt8).toNat = 2 ^ 7 from rfl, Nat.testBit_two_pow]
    by_cases hi : 7 = i
    · simp [← hi, hbit]
    · simp [hi]
  have hzero : UInt8.ofNat out.length ≠ 0 := by
    intro h
    have hempty : out.length = 0 := by rw [← hnat, h]; rfl
    omega
  have hinsert : Instr.output base (.insert out) = some out := rfl
  refine .single (fun rest => ?_) hinsert
  have hlen : ¬ (out ++ rest).length < (UInt8.ofNat out.length).toNat := by
    rw [hnat, List.length_append]
    omega
  rw [readInstr, if_neg (not_not.2 hcopy), if_neg hzero, if_neg hlen, hnat, List.take_left, List.drop_left]

/-- Fields whose zero bytes are left out, and no others, are read back. -/
theorem readFields_bytes {command : UInt8} (byte : Field → UInt8) (rest : List UInt8) : ∀ {fields : List Field},
    (∀ f ∈ fields, command &&& f.1 = 0 ↔ byte f = 0) →
    readFields command fields ((fields.map byte).filter (· ≠ 0) ++ rest) =
      some ((fields.map fun f => (byte f).toNat * 2 ^ f.2).sum, rest)
  | [], _ => rfl
  | (bit, shift) :: fields, h => by
    have hfields := readFields_bytes byte rest fun f hf => h f (List.mem_cons_of_mem _ hf)
    rw [List.map_cons, List.map_cons, List.sum_cons]
    unfold readFields
    dsimp only
    by_cases hbyte : byte (bit, shift) = 0
    · rw [if_pos ((h _ (List.mem_cons_self ..)).2 hbyte), List.filter_cons_of_neg (by simpa using hbyte), hfields, hbyte]
      simp
    · rw [if_neg (mt (h _ (List.mem_cons_self ..)).1 hbyte), List.filter_cons_of_pos (by simpa using hbyte),
        List.cons_append]
      simp only [hfields, Option.map_some]

/-- A copy from the base; a size of zero stands for `0x10000`. -/
theorem Emits.copy {command : UInt8} {operands : List UInt8} {offset size : Nat} (hcommand : command &&& 0x80 ≠ 0)
    (hread : ∀ rest, ∃ tail, readFields command OFFSET_FIELDS (operands ++ rest) = some (offset, tail) ∧
      readFields command SIZE_FIELDS tail = some (size % 0x10000, rest))
    (hpos : 0 < size) (hle : size ≤ 0x10000) (hbase : offset + size ≤ base.length) :
    Emits base (command :: operands) ((base.drop offset).take size) := by
  have hsize : (if size % 0x10000 = 0 then 0x10000 else size % 0x10000) = size := by
    split
    · omega
    · omega
  have hcopy : Instr.output base (.copy offset size) = some ((base.drop offset).take size) := if_pos hbase
  refine .single (fun rest => ?_) hcopy
  obtain ⟨tail, hoffset, hsizes⟩ := hread rest
  rw [readInstr, if_pos hcommand]
  simp [hoffset, hsizes, hsize]

/-- A delta whose instructions emit the target. -/
theorem apply_of_emits {sizes : List UInt8}
    (hsizes : ∀ rest, ∃ tail, readSize (sizes ++ rest) = some (base.length, tail) ∧
      readSize tail = some (out.length, rest))
    (h : Emits base data out) : apply base (sizes ++ data) = some out := by
  obtain ⟨instrs, hencodes, hout⟩ := h
  obtain ⟨tail, hbase, htarget⟩ := hsizes data
  have hread : readInstrs data = some instrs := by
    have hall := hencodes 0 [] [] rfl
    rwa [Nat.zero_add, List.append_nil, List.append_nil] at hall
  simp [apply, hbase, htarget, hread, hout]

end Emits

end Miscreant.Lib.GitDelta
