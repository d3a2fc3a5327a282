/-
`LdeGetOpCodeSize32` (my.cpp), the length disassembler of the hooks, against the format of an instruction: prefixes,
an opcode of one or two bytes, ModRM, SIB, displacement and immediate. What it measures is the length of the one
instruction that stands there.
-/
import SiglusExtract.Lib.Bytes

namespace SiglusExtract.Lde

open Bytes

/-- The addresses of a process of 32 bits. -/
abbrev addressSpace : Nat := 2 ^ 32

/-! ## The table -/

/-- `PackedTable`: for each four opcodes where their flags stand, and the flags behind. -/
def packedTable : List Nat := [
  0x80, 0x84, 0x80, 0x84, 0x80, 0x84, 0x80, 0x84, 0x80, 0x88, 0x80, 0x88, 0x80, 0x88, 0x80, 0x88,
  0x8c, 0x8b, 0x8b, 0x8b, 0x8b, 0x8b, 0x8b, 0x8b, 0x90, 0x94, 0x98, 0x8b, 0x9c, 0x9c, 0x9c, 0x9c,
  0xa0, 0x80, 0x80, 0x80, 0x8b, 0x8b, 0xa4, 0x8b, 0xa8, 0x8b, 0x84, 0x8b, 0xac, 0xac, 0xa8, 0xa8,
  0xb0, 0xb4, 0xb8, 0xbc, 0x80, 0xc0, 0x80, 0x80, 0x9c, 0xac, 0xc4, 0x8b, 0xc8, 0x90, 0x8b, 0x90,
  0x80, 0x8b, 0x8b, 0xcc, 0x80, 0x80, 0xd0, 0x8b, 0x80, 0xd4, 0x80, 0x80, 0x8b, 0x8b, 0x8b, 0x8b,
  0x80, 0x80, 0x80, 0x80, 0x80, 0x80, 0x80, 0x80, 0x80, 0x80, 0x80, 0x80, 0xd8, 0xdc, 0x8b, 0x80,
  0xe0, 0xe0, 0xe0, 0xe0, 0x80, 0x80, 0x80, 0x80, 0x8f, 0xcf, 0x8f, 0xdb, 0x80, 0x80, 0xe4, 0x80,
  0xe8, 0xd9, 0x8b, 0x8b, 0x80, 0x80, 0x80, 0x80, 0x80, 0x80, 0x80, 0x80, 0x80, 0x80, 0x80, 0xdc,
  0x08, 0x08, 0x08, 0x08, 0x01, 0x10, 0x00, 0x00, 0x01, 0x10, 0x20, 0x00, 0x00, 0x00, 0x00, 0x00,
  0x00, 0x00, 0x08, 0x08, 0x20, 0x20, 0x20, 0x20, 0x10, 0x18, 0x01, 0x09, 0x81, 0x81, 0x81, 0x81,
  0x09, 0x18, 0x09, 0x09, 0x00, 0x00, 0x12, 0x00, 0x10, 0x10, 0x10, 0x10, 0x01, 0x01, 0x01, 0x01,
  0x09, 0x09, 0x02, 0x00, 0x08, 0x08, 0x09, 0x18, 0x03, 0x00, 0x02, 0x00, 0x00, 0x01, 0x00, 0x00,
  0x01, 0x01, 0x00, 0x00, 0x50, 0x50, 0x12, 0x81, 0x20, 0x00, 0x20, 0x20, 0x00, 0x08, 0x00, 0x09,
  0x08, 0x00, 0x00, 0x00, 0x08, 0x00, 0x08, 0x00, 0x09, 0x09, 0x09, 0x09, 0x08, 0x08, 0x08, 0x00,
  0x50, 0x50, 0x50, 0x50, 0x00, 0x00, 0x09, 0x08, 0x08, 0x08, 0x09, 0x08]

def opX86DataI8 : Nat := 0x001
def opX86ModRm : Nat := 0x008
def opX86DataPre6667 : Nat := 0x010
def opX86Prefix : Nat := 0x020
def opX86Extended : Nat := 0x100

/-- `GetOpCodeFlags32`. -/
def getOpCodeFlags32 (opCode : Nat) : Nat := packedTable.getD (packedTable.getD (opCode / 4) 0 + opCode % 4) 0

-- no read of the table leaves it
set_option maxRecDepth 4000 in
example : ∀ op < 512, packedTable.getD (op / 4) 0 + op % 4 < packedTable.length := by decide

def hasFlag (flags mask : Nat) : Bool := flags &&& mask != 0

/-! ## The scan -/

/-- The loop over the prefixes, from the address `code` and with the size `osize` so far: the address of the opcode, the
size up to it, `pfx66` and `pfx67`. -/
def skipPrefixes (m : Mem UInt8) : Nat → Nat → Nat → Bool → Bool → Option (Nat × Nat × Bool × Bool)
  | 0, _, _, _, _ => none
  | fuel + 1, code, osize, pfx66, pfx67 => do
    let op1 ← m code
    if hasFlag (getOpCodeFlags32 op1.toNat) opX86Prefix then
      skipPrefixes m fuel (code + 1) (osize + 1) (pfx66 || op1 == 0x66) (pfx67 || op1 == 0x67)
    else return (code, osize, pfx66, pfx67)

/-- `oflen` without a SIB byte. -/
def modLength (pfx67 : Bool) (iMod iRm : Nat) : Nat :=
  if iMod = 0 then (if pfx67 then (if iRm = 6 then 2 else 0) else if iRm = 5 then 4 else 0)
  else if iMod = 1 then 1
  else if iMod = 2 then (if pfx67 then 2 else 4)
  else 0

/-- `oflen`, with the SIB byte at `code` where there is one. -/
def offsetLength (m : Mem UInt8) (code : Nat) (pfx67 : Bool) (iMod iRm : Nat) : Option Nat :=
  let oflen := modLength pfx67 iMod iRm
  if pfx67 = false ∧ iRm = 4 ∧ iMod ≠ 3 then
    (m code).map fun sib => (if sib.toNat % 8 = 5 ∧ iMod ≠ 1 then 4 else oflen) + 1
  else some oflen

/-- `op1`, `op2`, and the address and the size behind them. -/
def readOpcode (m : Mem UInt8) (code osize : Nat) : Option (UInt8 × Nat × Nat × Nat) := do
  let op1 ← m code
  if op1 = 0x0F then
    let second ← m (code + 1)
    return (op1, second.toNat ||| opX86Extended, code + 2, osize + 2)
  else return (op1, op1.toNat, code + 1, osize + 1)

/-- The ModRM byte at `code`, where the opcode has one: what it adds to the size, and the flags, to which `F6` and `F7`
add an immediate. -/
def readModRm (m : Mem UInt8) (code op1 flags : Nat) (pfx67 : Bool) : Option (Nat × Nat) :=
  if hasFlag flags opX86ModRm then do
    let modrm ← m code
    let iMod := modrm.toNat / 64
    let iReg := modrm.toNat / 8 % 8
    let iRm := modrm.toNat % 8
    let flags := if op1 = 0xF6 ∧ iReg = 0 then flags ||| opX86DataI8 else flags
    let flags := if op1 = 0xF7 ∧ iReg = 0 then flags ||| opX86DataPre6667 else flags
    let oflen ← offsetLength m (code + 1) pfx67 iMod iRm
    return (1 + oflen, flags)
  else some (0, flags)

/-- `LdeGetOpCodeSize32`: `none` where it reads what may not be read. -/
def ldeGetOpCodeSize32 (m : Mem UInt8) (start : Nat) : Option Nat := do
  let (code, osize, pfx66, pfx67) ← skipPrefixes m addressSpace start 0 false false
  let (op1, op2, code, osize) ← readOpcode m code osize
  -- `A0` to `A3` have an address for their operand
  let pfx66 := if 0xA0 ≤ op2 ∧ op2 ≤ 0xA3 then pfx67 else pfx66
  let (length, flags) ← readModRm m code op1.toNat (getOpCodeFlags32 op2) pfx67
  let osize := osize + length
  let osize := if hasFlag flags opX86DataPre6667 then osize + (if pfx66 then 2 else 4) else osize
  return osize + (flags &&& 7)

/-! ## Instructions -/

/-- The bytes that may stand before an opcode. -/
def IsPrefix (b : UInt8) : Prop := hasFlag (getOpCodeFlags32 b.toNat) opX86Prefix = true

instance (b : UInt8) : Decidable (IsPrefix b) := inferInstanceAs (Decidable (_ = true))

/-- An opcode of one byte, or the second byte of one behind `0F`. -/
inductive Opcode
  | one (op : UInt8)
  | two (op : UInt8)
  deriving DecidableEq, Repr

namespace Opcode

def bytes : Opcode → List UInt8
  | .one op => [op]
  | .two op => [0x0F, op]

/-- Its place in the table. -/
def index : Opcode → Nat
  | .one op => op.toNat
  | .two op => op.toNat + 0x100

def flags (o : Opcode) : Nat := getOpCodeFlags32 o.index

end Opcode

/-- A SIB byte follows a ModRM byte that names no register, with addresses of 32 bits. -/
def hasSib (pfx67 : Bool) (modrm : UInt8) : Bool := !pfx67 && modrm.toNat % 8 == 4 && modrm.toNat / 64 != 3

/-- The bytes of the displacement behind ModRM and SIB. -/
def dispLength (pfx67 : Bool) (modrm : UInt8) (sib : Option UInt8) : Nat :=
  let iMod := modrm.toNat / 64
  let iRm := modrm.toNat % 8
  if iMod = 3 then 0
  else if iMod = 1 then 1
  else if pfx67 then (if iMod = 2 ∨ iRm = 6 then 2 else 0)
  else if iMod = 2 ∨ iRm = 5 ∨ sib.any (·.toNat % 8 == 5) then 4
  else 0

/-- What stands before the displacement and the immediate of an instruction. -/
structure Header where
  prefixes : List UInt8
  opcode : Opcode
  modrm : Option UInt8
  sib : Option UInt8
  prefixes_ok : ∀ b ∈ prefixes, IsPrefix b
  opcode_ok : ∀ op, opcode = .one op → ¬ IsPrefix op ∧ op ≠ 0x0F
  modrm_ok : modrm.isSome = hasFlag opcode.flags opX86ModRm
  sib_ok : sib.isSome = modrm.any (hasSib (prefixes.contains 0x67))

namespace Header

def bytes (h : Header) : List UInt8 := h.prefixes ++ h.opcode.bytes ++ h.modrm.toList ++ h.sib.toList

def pfx67 (h : Header) : Bool := h.prefixes.contains 0x67

/-- The prefix that halves the operand: the one for the address where the operand is one. -/
def pfx66 (h : Header) : Bool :=
  if 0xA0 ≤ h.opcode.index ∧ h.opcode.index ≤ 0xA3 then h.pfx67 else h.prefixes.contains 0x66

/-- The register field of ModRM is 0. -/
def regZero (h : Header) : Bool := h.modrm.any (·.toNat / 8 % 8 == 0)

def disp (h : Header) : Nat := (h.modrm.map fun b => dispLength h.pfx67 b h.sib).getD 0

/-- The bytes of the immediate: `F6 /0` and `F7 /0` are `test`, with an immediate, their other forms have none. -/
def imm (h : Header) : Nat :=
  let operand := hasFlag h.opcode.flags opX86DataPre6667 || (h.opcode == .one 0xF7 && h.regZero)
  let fixed := if h.opcode == .one 0xF6 && h.regZero then 1 else h.opcode.flags % 8
  (if operand then (if h.pfx66 then 2 else 4) else 0) + fixed

def size (h : Header) : Nat := h.bytes.length + h.disp + h.imm

end Header

/-- A whole instruction. -/
structure Instruction extends Header where
  dispBytes : List UInt8
  immBytes : List UInt8
  disp_length : dispBytes.length = toHeader.disp
  imm_length : immBytes.length = toHeader.imm

def Instruction.encode (i : Instruction) : List UInt8 := i.bytes ++ i.dispBytes ++ i.immBytes

theorem Instruction.encode_length (i : Instruction) : i.encode.length = i.size := by
  rw [encode, List.length_append, List.length_append, i.disp_length, i.imm_length, Header.size]

variable {m : Mem UInt8}

/-! ## The scan of a header -/

theorem skipPrefixes_of_holds : ∀ {prefixes : List UInt8} {fuel code osize : Nat} {pfx66 pfx67 : Bool} {op : UInt8},
    m.Holds code prefixes → (∀ b ∈ prefixes, IsPrefix b) → m (code + prefixes.length) = some op → ¬ IsPrefix op →
    prefixes.length < fuel →
    skipPrefixes m fuel code osize pfx66 pfx67 = some (code + prefixes.length, osize + prefixes.length,
      pfx66 || prefixes.contains 0x66, pfx67 || prefixes.contains 0x67)
  | _, 0, _, _, _, _, _, _, _, _, _, hfuel => absurd hfuel (Nat.not_lt_zero _)
  | [], fuel + 1, code, osize, pfx66, pfx67, op, _, _, hop, hno, _ => by
    rw [List.length_nil, Nat.add_zero] at hop
    have hno : ¬ hasFlag (getOpCodeFlags32 op.toNat) opX86Prefix = true := hno
    simp [skipPrefixes, hop, hno]
  | b :: prefixes, fuel + 1, code, osize, pfx66, pfx67, op, hheld, hall, hop, hno, hfuel => by
    rw [Mem.holds_cons] at hheld
    rw [List.forall_mem_cons] at hall
    rw [List.length_cons] at hop hfuel
    have hb : hasFlag (getOpCodeFlags32 b.toNat) opX86Prefix = true := hall.1
    have ih := @skipPrefixes_of_holds prefixes fuel (code + 1) (osize + 1) (pfx66 || b == 0x66) (pfx67 || b == 0x67) op
      hheld.2 hall.2 (by rwa [Nat.add_right_comm, Nat.add_assoc]) hno (Nat.lt_of_succ_lt_succ hfuel)
    simp only [skipPrefixes, hheld.1, Option.bind_eq_bind, Option.bind_some, hb, if_true, ih, List.length_cons,
      List.contains_cons, Option.some.injEq, Prod.mk.injEq, Bool.or_assoc]
    rw [show (b == (0x66 : UInt8)) = (0x66 == b) from BEq.comm, show (b == (0x67 : UInt8)) = (0x67 == b) from BEq.comm]
    exact ⟨by omega, by omega, rfl, rfl⟩

theorem skipPrefixes_some : ∀ {fuel code osize : Nat} {pfx66 pfx67 : Bool} {r : Nat × Nat × Bool × Bool},
    skipPrefixes m fuel code osize pfx66 pfx67 = some r →
    ∃ prefixes op, m.Holds code prefixes ∧ (∀ b ∈ prefixes, IsPrefix b) ∧ m (code + prefixes.length) = some op ∧
      ¬ IsPrefix op ∧ prefixes.length < fuel
  | 0, _, _, _, _, _, h => by cases h
  | fuel + 1, code, osize, pfx66, pfx67, r, h => by
    simp only [skipPrefixes, Option.bind_eq_bind, Option.bind_eq_some_iff] at h
    obtain ⟨op1, hop1, h⟩ := h
    split at h
    · next hpre =>
      obtain ⟨prefixes, op, hheld, hall, hop, hno, hfuel⟩ := skipPrefixes_some h
      refine ⟨op1 :: prefixes, op, Mem.holds_cons.2 ⟨hop1, hheld⟩, List.forall_mem_cons.2 ⟨hpre, hall⟩, ?_, hno,
        Nat.succ_lt_succ hfuel⟩
      rw [List.length_cons, Nat.add_comm prefixes.length, ← Nat.add_assoc]
      exact hop
    · next hpre => exact ⟨[], op1, Mem.holds_nil m code, nofun, hop1, hpre, Nat.succ_pos fuel⟩

theorem offsetLength_eq {code : Nat} {pfx67 : Bool} {modrm : UInt8} {sib : Option UInt8}
    (hsib : sib.isSome = hasSib pfx67 modrm) (hread : m.Holds code sib.toList) :
    offsetLength m code pfx67 (modrm.toNat / 64) (modrm.toNat % 8) =
      some (sib.toList.length + dispLength pfx67 modrm sib) := by
  have hmod : modrm.toNat / 64 < 4 := by have := modrm.toNat_lt; omega
  generalize hiMod : modrm.toNat / 64 = iMod at *
  generalize hiRm : modrm.toNat % 8 = iRm at *
  cases sib with
  | none =>
    have hno : ¬ (pfx67 = false ∧ iRm = 4 ∧ iMod ≠ 3) := by
      rintro ⟨rfl, hrm, hne⟩
      simp [hasSib, hiMod, hiRm, hrm, hne] at hsib
    simp only [offsetLength, modLength, dispLength, hiMod, hiRm, if_neg hno, Option.toList_none, List.length_nil,
      Nat.zero_add, Option.some.injEq, Option.any_none, Bool.false_eq_true, or_false]
    split_ifs <;> omega
  | some s =>
    have hs : m code = some s := (Mem.holds_cons.1 hread).1
    have hyes : pfx67 = false ∧ iRm = 4 ∧ iMod ≠ 3 := by simpa [hasSib, hiMod, hiRm, and_assoc] using hsib.symm
    obtain ⟨rfl, rfl, hne⟩ := hyes
    simp only [offsetLength, modLength, dispLength, hiMod, hiRm, hs, hne, Option.map_some, Option.toList_some,
      List.length_singleton, Option.some.injEq, Option.any_some, beq_iff_eq, true_and, not_false_eq_true,
      if_true, if_false, Bool.false_eq_true, ne_eq, Nat.reduceEqDiff, false_or]
    split_ifs <;> omega

theorem and_seven (n : Nat) : n &&& 7 = n % 8 := Nat.and_two_pow_sub_one_eq_mod n 3

theorem extended_eq (b : UInt8) : b.toNat ||| opX86Extended = b.toNat + 0x100 := or_two_pow (i := 8) b.toNat_lt

/-- The flags behind ModRM: `F6` and `F7` with a register field of 0 have an immediate. -/
def modRmFlags (op1 flags : Nat) (regZero : Bool) : Nat :=
  if op1 = 0xF7 ∧ regZero then flags ||| opX86DataPre6667
  else if op1 = 0xF6 ∧ regZero then flags ||| opX86DataI8
  else flags

theorem readModRm_some {code op1 flags : Nat} {pfx67 : Bool} {modrm : UInt8} {sib : Option UInt8}
    (hflag : hasFlag flags opX86ModRm = true) (hmodrm : m code = some modrm) (hsib : sib.isSome = hasSib pfx67 modrm)
    (hread : m.Holds (code + 1) sib.toList) :
    readModRm m code op1 flags pfx67 = some (1 + (sib.toList.length + dispLength pfx67 modrm sib),
      modRmFlags op1 flags (modrm.toNat / 8 % 8 == 0)) := by
  simp only [readModRm, hflag, if_true, hmodrm, Option.bind_eq_bind, Option.bind_some, offsetLength_eq hsib hread,
    Option.pure_def, Option.some.injEq, Prod.mk.injEq, true_and, modRmFlags, beq_iff_eq]
  split_ifs <;> first | rfl | omega

namespace Header

variable {h : Header} {p n : Nat}

/-- The first byte of the opcode. -/
def op1 (h : Header) : Nat :=
  match h.opcode with
  | .one op => op.toNat
  | .two _ => 0x0F

/-- The flags that the immediate is read off. -/
def allFlags (h : Header) : Nat :=
  if h.modrm.isSome then modRmFlags h.op1 h.opcode.flags h.regZero else h.opcode.flags

theorem flags_test : (Opcode.one 0xF6).flags = opX86ModRm ∧ (Opcode.one 0xF7).flags = opX86ModRm := by decide

theorem imm_eq (h : Header) :
    h.imm = (if hasFlag h.allFlags opX86DataPre6667 then (if h.pfx66 then 2 else 4) else 0) + h.allFlags % 8 := by
  have hreg : h.regZero = true → h.modrm.isSome = true := by
    unfold regZero
    cases h.modrm <;> simp
  by_cases h6 : h.opcode = .one 0xF6 ∧ h.regZero = true
  · obtain ⟨h6, hz⟩ := h6
    have hall : h.allFlags = 9 := by
      rw [allFlags, if_pos (hreg hz), h6, flags_test.1, hz, op1, h6]
      rfl
    rw [imm, hall, h6, flags_test.1, hz]
    rfl
  · by_cases h7 : h.opcode = .one 0xF7 ∧ h.regZero = true
    · obtain ⟨h7, hz⟩ := h7
      have hall : h.allFlags = 0x18 := by
        rw [allFlags, if_pos (hreg hz), h7, flags_test.2, hz, op1, h7]
        rfl
      rw [imm, hall, h7, flags_test.2, hz]
      rfl
    · have hone : ∀ b : UInt8, h.op1 = b.toNat → b ≠ 0x0F → h.opcode = .one b := by
        intro b hb hne
        unfold op1 at hb
        split at hb
        · next op hop => rw [hop, UInt8.toNat_inj.1 hb]
        · exact absurd (UInt8.toNat_inj.1 (show (0x0F : UInt8).toNat = b.toNat from hb)).symm hne
      have hall : h.allFlags = h.opcode.flags := by
        unfold allFlags modRmFlags
        rw [if_neg (show ¬ (h.op1 = 0xF7 ∧ h.regZero = true) from fun hop => h7 ⟨hone 0xF7 hop.1 (by decide), hop.2⟩),
          if_neg (show ¬ (h.op1 = 0xF6 ∧ h.regZero = true) from fun hop => h6 ⟨hone 0xF6 hop.1 (by decide), hop.2⟩),
          ite_self]
      have h6' : (h.opcode == .one 0xF6 && h.regZero) = false := by simpa using h6
      have h7' : (h.opcode == .one 0xF7 && h.regZero) = false := by simpa using h7
      rw [imm, hall, h6', h7', Bool.or_false, if_neg Bool.false_ne_true]

theorem readOpcode_eq {code osize : Nat} (hheld : m.Holds code h.opcode.bytes) :
    ∃ op1, m code = some op1 ∧ ¬ IsPrefix op1 ∧ op1.toNat = h.op1 ∧ readOpcode m code osize =
      some (op1, h.opcode.index, code + h.opcode.bytes.length, osize + h.opcode.bytes.length) := by
  unfold op1 readOpcode
  cases hop : h.opcode with
  | one op =>
    rw [hop] at hheld
    have hread := (Mem.holds_cons.1 hheld).1
    have hno := h.opcode_ok op hop
    refine ⟨op, hread, hno.1, rfl, ?_⟩
    rw [hread, Option.bind_eq_bind, Option.bind_some, if_neg hno.2]
    rfl
  | two op =>
    rw [hop] at hheld
    obtain ⟨h0F, hrest⟩ := Mem.holds_cons.1 hheld
    refine ⟨0x0F, h0F, by decide, rfl, ?_⟩
    rw [h0F, Option.bind_eq_bind, Option.bind_some, if_pos rfl, (Mem.holds_cons.1 hrest).1, Option.bind_some,
      extended_eq]
    rfl

theorem readModRm_eq {code : Nat} (hmodrm : m.Holds code h.modrm.toList)
    (hsib : m.Holds (code + h.modrm.toList.length) h.sib.toList) :
    readModRm m code h.op1 h.opcode.flags h.pfx67 =
      some (h.modrm.toList.length + h.sib.toList.length + h.disp, h.allFlags) := by
  have hflag := h.modrm_ok
  have hsome : h.sib.isSome = h.modrm.any (hasSib h.pfx67) := h.sib_ok
  unfold disp allFlags regZero
  cases hm : h.modrm with
  | none =>
    rw [hm, Option.isSome_none] at hflag
    rw [hm, Option.any_none, Option.isSome_eq_false_iff, Option.isNone_iff_eq_none] at hsome
    rw [readModRm, ← hflag, hsome]
    rfl
  | some b =>
    rw [hm, Option.isSome_some] at hflag
    rw [hm, Option.any_some] at hsome
    rw [hm] at hmodrm hsib
    rw [readModRm_some hflag.symm (Mem.holds_cons.1 hmodrm).1 hsome hsib, Option.isSome_some, if_pos rfl]
    simp [Nat.add_assoc]

/-- The scan measures what stands there. -/
theorem lde_eq (hheld : m.Holds p h.bytes) (hlen : h.prefixes.length < addressSpace) :
    ldeGetOpCodeSize32 m p = some h.size := by
  rw [bytes, Mem.holds_append, Mem.holds_append, Mem.holds_append] at hheld
  obtain ⟨⟨⟨hprefixes, hopcode⟩, hmodrm⟩, hsib⟩ := hheld
  obtain ⟨op1, hop1, hno, hop1eq, hread⟩ := @readOpcode_eq m h (p + h.prefixes.length) (0 + h.prefixes.length) hopcode
  rw [List.length_append, ← Nat.add_assoc] at hmodrm
  rw [List.length_append, List.length_append, ← Nat.add_assoc, ← Nat.add_assoc] at hsib
  have hmodrm := readModRm_eq hmodrm hsib
  unfold Opcode.flags at hmodrm
  rw [ldeGetOpCodeSize32, skipPrefixes_of_holds hprefixes h.prefixes_ok hop1 hno hlen]
  simp only [Option.bind_eq_bind, Option.bind_some, hread, hop1eq, Bool.false_or]
  rw [show h.prefixes.contains 0x67 = h.pfx67 from rfl, hmodrm]
  simp only [Option.bind_some, Option.pure_def, Option.some.injEq, and_seven]
  rw [size, imm_eq, bytes, List.length_append, List.length_append, List.length_append, pfx66]
  split_ifs <;> omega

end Header

theorem readOpcode_some {code osize : Nat} {op : UInt8} {r : UInt8 × Nat × Nat × Nat} (hop : m code = some op)
    (hno : ¬ IsPrefix op) (h : readOpcode m code osize = some r) :
    ∃ o : Opcode, m.Holds code o.bytes ∧ (∀ op', o = .one op' → ¬ IsPrefix op' ∧ op' ≠ 0x0F) ∧
      r.2.1 = o.index ∧ r.2.2.1 = code + o.bytes.length := by
  rw [readOpcode, hop, Option.bind_eq_bind, Option.bind_some] at h
  split at h
  · next h0F =>
    simp only [Option.bind_eq_some_iff, Option.pure_def, Option.some.injEq] at h
    obtain ⟨second, hsecond, rfl⟩ := h
    refine ⟨.two second, ?_, nofun, extended_eq second, rfl⟩
    exact Mem.holds_cons.2 ⟨h0F ▸ hop, Mem.holds_cons.2 ⟨hsecond, Mem.holds_nil m _⟩⟩
  · next h0F =>
    simp only [Option.pure_def, Option.some.injEq] at h
    obtain rfl := h
    refine ⟨.one op, Mem.holds_cons.2 ⟨hop, Mem.holds_nil m _⟩, ?_, rfl, rfl⟩
    rintro op' ⟨⟩
    exact ⟨hno, h0F⟩

theorem offsetLength_some {code : Nat} {pfx67 : Bool} {modrm : UInt8} {n : Nat}
    (h : offsetLength m code pfx67 (modrm.toNat / 64) (modrm.toNat % 8) = some n) :
    ∃ sib : Option UInt8, m.Holds code sib.toList ∧ sib.isSome = hasSib pfx67 modrm := by
  unfold offsetLength at h
  split at h
  · next hyes =>
    obtain ⟨sib, hsib, -⟩ := Option.map_eq_some_iff.1 h
    refine ⟨some sib, Mem.holds_cons.2 ⟨hsib, Mem.holds_nil m _⟩, ?_⟩
    simpa [hasSib, and_assoc] using hyes
  · next hno =>
    refine ⟨none, Mem.holds_nil m _, ?_⟩
    rw [Option.isSome_none, eq_comm, Bool.eq_false_iff]
    simpa [hasSib, and_assoc] using hno

theorem readModRm_isSome {code op1 flags : Nat} {pfx67 : Bool} {r : Nat × Nat}
    (h : readModRm m code op1 flags pfx67 = some r) :
    ∃ modrm sib : Option UInt8, m.Holds code modrm.toList ∧ m.Holds (code + modrm.toList.length) sib.toList ∧
      modrm.isSome = hasFlag flags opX86ModRm ∧ sib.isSome = modrm.any (hasSib pfx67) := by
  unfold readModRm at h
  split at h
  · next hflag =>
    simp only [Option.bind_eq_bind, Option.bind_eq_some_iff] at h
    obtain ⟨modrm, hmodrm, n, hn, -⟩ := h
    obtain ⟨sib, hsib, hsome⟩ := offsetLength_some hn
    exact ⟨some modrm, sib, Mem.holds_cons.2 ⟨hmodrm, Mem.holds_nil m _⟩, hsib, hflag.symm, hsome⟩
  · next hflag =>
    exact ⟨none, none, Mem.holds_nil m _, Mem.holds_nil m _, (Bool.eq_false_iff.2 hflag).symm, rfl⟩

/-- Whatever is measured is a header. -/
theorem exists_header {p n : Nat} (h : ldeGetOpCodeSize32 m p = some n) :
    ∃ hd : Header, m.Holds p hd.bytes ∧ hd.size = n ∧ hd.prefixes.length < addressSpace := by
  have hscan := h
  unfold ldeGetOpCodeSize32 at h
  simp only [Option.bind_eq_bind, Option.bind_eq_some_iff] at h
  obtain ⟨⟨code, osize, pfx66, pfx67⟩, hskip, ⟨op1, op2, code', osize'⟩, hread, ⟨length, flags⟩, hmodrm, -⟩ := h
  obtain ⟨prefixes, op, hprefixes, hall, hop, hno, hlen⟩ := skipPrefixes_some hskip
  rw [skipPrefixes_of_holds hprefixes hall hop hno hlen, Option.some.injEq] at hskip
  cases hskip
  obtain ⟨o, hopcode, hone, rfl, rfl⟩ := readOpcode_some hop hno hread
  obtain ⟨modrm, sib, hmodrm, hsib, hflag, hsome⟩ := readModRm_isSome hmodrm
  let hd : Header := ⟨prefixes, o, modrm, sib, hall, hone, hflag, by rwa [Bool.false_or] at hsome⟩
  have hheld : m.Holds p hd.bytes := by
    simp only [Header.bytes, Mem.holds_append, List.length_append, ← Nat.add_assoc]
    exact ⟨⟨⟨hprefixes, hopcode⟩, hmodrm⟩, hsib⟩
  refine ⟨hd, hheld, ?_, hlen⟩
  have := hd.lde_eq hheld hlen
  rw [hscan, Option.some.injEq] at this
  exact this.symm

/-! ## One instruction -/

/-- What stands before the first byte that is no prefix is determined by the memory. -/
theorem prefixes_unique : ∀ {l l' : List UInt8} {p : Nat} {op op' : UInt8}, m.Holds p l → m.Holds p l' →
    (∀ b ∈ l, IsPrefix b) → (∀ b ∈ l', IsPrefix b) → m (p + l.length) = some op → m (p + l'.length) = some op' →
    ¬ IsPrefix op → ¬ IsPrefix op' → l = l'
  | [], [], _, _, _, _, _, _, _, _, _, _, _ => rfl
  | [], b :: l', p, op, op', _, hl', _, hall', hop, _, hno, _ => by
    have hb := (Mem.holds_cons.1 hl').1
    rw [List.length_nil, Nat.add_zero, hb, Option.some.injEq] at hop
    exact absurd (hop ▸ hall' b List.mem_cons_self) hno
  | b :: l, [], p, op, op', hl, _, hall, _, _, hop', _, hno' => by
    have hb := (Mem.holds_cons.1 hl).1
    rw [List.length_nil, Nat.add_zero, hb, Option.some.injEq] at hop'
    exact absurd (hop' ▸ hall b List.mem_cons_self) hno'
  | b :: l, b' :: l', p, op, op', hl, hl', hall, hall', hop, hop', hno, hno' => by
    rw [Mem.holds_cons] at hl hl'
    rw [List.forall_mem_cons] at hall hall'
    rw [List.length_cons, Nat.add_comm l.length, ← Nat.add_assoc] at hop
    rw [List.length_cons, Nat.add_comm l'.length, ← Nat.add_assoc] at hop'
    obtain rfl : b = b' := Option.some.inj (hl.1.symm.trans hl'.1)
    rw [prefixes_unique hl.2 hl'.2 hall.2 hall'.2 hop hop' hno hno']

/-- Lists of one length at one place are equal. -/
theorem holds_unique {α : Type} {m : Mem α} {p : Nat} {l l' : List α} (h : m.Holds p l) (h' : m.Holds p l')
    (hlen : l.length = l'.length) : l = l' :=
  List.ext_getElem hlen fun i hi hi' => Option.some.inj ((h i hi).symm.trans (h' i hi'))

theorem toList_unique {α : Type} {m : Mem α} {p : Nat} {a a' : Option α} (h : m.Holds p a.toList)
    (h' : m.Holds p a'.toList) (hsome : a.isSome = a'.isSome) : a = a' := by
  have := holds_unique h h' (by cases a <;> cases a' <;> simp_all)
  cases a <;> cases a' <;> simp_all

theorem Header.first_opcode (h : Header) : ∃ op rest, h.opcode.bytes = op :: rest ∧ ¬ IsPrefix op := by
  cases hop : h.opcode with
  | one op => exact ⟨op, [], rfl, (h.opcode_ok op hop).1⟩
  | two op => exact ⟨0x0F, [op], rfl, by decide⟩

theorem opcode_unique {h h' : Header} {p : Nat} (hheld : m.Holds p h.opcode.bytes)
    (hheld' : m.Holds p h'.opcode.bytes) : h.opcode = h'.opcode := by
  have hone : ∀ {h : Header} {op : UInt8}, h.opcode = .one op → op ≠ 0x0F := fun hop => (Header.opcode_ok _ _ hop).2
  cases hop : h.opcode with
  | one op =>
    rw [hop] at hheld
    have hread := (Mem.holds_cons.1 hheld).1
    cases hop' : h'.opcode with
    | one op' =>
      rw [hop'] at hheld'
      rw [Option.some.inj (hread.symm.trans (Mem.holds_cons.1 hheld').1)]
    | two op' =>
      rw [hop'] at hheld'
      exact absurd (Option.some.inj (hread.symm.trans (Mem.holds_cons.1 hheld').1)) (hone hop)
  | two op =>
    rw [hop] at hheld
    have hread := Mem.holds_cons.1 hheld
    cases hop' : h'.opcode with
    | one op' =>
      rw [hop'] at hheld'
      exact absurd (Option.some.inj ((Mem.holds_cons.1 hheld').1.symm.trans hread.1)) (hone hop')
    | two op' =>
      rw [hop'] at hheld'
      have hread' := Mem.holds_cons.1 hheld'
      rw [Option.some.inj ((Mem.holds_cons.1 hread.2).1.symm.trans (Mem.holds_cons.1 hread'.2).1)]

theorem Header.unique {h h' : Header} {p : Nat} (hheld : m.Holds p h.bytes) (hheld' : m.Holds p h'.bytes) : h = h' := by
  simp only [Header.bytes, Mem.holds_append, List.length_append, ← Nat.add_assoc] at hheld hheld'
  obtain ⟨⟨⟨hprefixes, hopcode⟩, hmodrm⟩, hsib⟩ := hheld
  obtain ⟨⟨⟨hprefixes', hopcode'⟩, hmodrm'⟩, hsib'⟩ := hheld'
  have hl : h.prefixes = h'.prefixes := by
    obtain ⟨op, rest, hop, hno⟩ := h.first_opcode
    obtain ⟨op', rest', hop', hno'⟩ := h'.first_opcode
    rw [hop] at hopcode
    rw [hop'] at hopcode'
    exact prefixes_unique hprefixes hprefixes' h.prefixes_ok h'.prefixes_ok (Mem.holds_cons.1 hopcode).1
      (Mem.holds_cons.1 hopcode').1 hno hno'
  rw [← hl] at hopcode' hmodrm' hsib'
  have ho := opcode_unique hopcode hopcode'
  rw [← ho] at hmodrm' hsib'
  have hm := toList_unique hmodrm hmodrm' (by rw [h.modrm_ok, h'.modrm_ok, ho])
  rw [← hm] at hsib'
  have hs := toList_unique hsib hsib' (by rw [h.sib_ok, h'.sib_ok, hm, hl])
  cases h
  cases h'
  cases hl
  cases ho
  cases hm
  cases hs
  rfl

/-- Of the instructions only one stands at a place. -/
theorem Instruction.unique {i j : Instruction} {p : Nat} (hi : m.Holds p i.encode) (hj : m.Holds p j.encode) :
    i = j := by
  simp only [encode, Mem.holds_append, List.length_append, ← Nat.add_assoc] at hi hj
  obtain ⟨⟨hih, hid⟩, himm⟩ := hi
  obtain ⟨⟨hjh, hjd⟩, hjmm⟩ := hj
  have hh := Header.unique hih hjh
  rw [← hh] at hjd hjmm
  have hd := holds_unique hid hjd (by rw [i.disp_length, j.disp_length, hh])
  rw [← hd] at hjmm
  have hmm := holds_unique himm hjmm (by rw [i.imm_length, j.imm_length, hh])
  cases i
  cases j
  cases hh
  cases hd
  cases hmm
  rfl

theorem exists_holds {p : Nat} : ∀ {n : Nat}, (∀ k < n, (m (p + k)).isSome) →
    ∃ l : List UInt8, l.length = n ∧ m.Holds p l
  | 0, _ => ⟨[], rfl, Mem.holds_nil m p⟩
  | n + 1, h => by
    obtain ⟨l, rfl, hl⟩ := exists_holds fun k hk => h k (Nat.lt_succ_of_lt hk)
    obtain ⟨b, hb⟩ := Option.isSome_iff_exists.1 (h l.length (Nat.lt_succ_self _))
    exact ⟨l ++ [b], List.length_append, Mem.holds_concat.2 ⟨hl, hb⟩⟩

/-- Addresses have 32 bits. -/
def Mapped (m : Mem UInt8) : Prop := ∀ a, addressSpace ≤ a → m a = none

theorem Mapped.lt {a : Nat} {b : UInt8} (h : Mapped m) (hread : m a = some b) : a < addressSpace := by
  by_contra hlt
  rw [h a (Nat.le_of_not_lt hlt)] at hread
  cases hread

theorem Header.prefixes_lt {h : Header} {p : Nat} (hmap : Mapped m) (hheld : m.Holds p h.bytes) :
    h.prefixes.length < addressSpace := by
  simp only [Header.bytes, Mem.holds_append, List.length_append, ← Nat.add_assoc] at hheld
  obtain ⟨op, rest, hop, -⟩ := h.first_opcode
  have hopcode := hheld.1.1.2
  rw [hop] at hopcode
  have := hmap.lt (Mem.holds_cons.1 hopcode).1
  omega

/-- The disassembler measures the instruction that stands there, and there is one only. -/
theorem ldeGetOpCodeSize32_instruction {p : Nat} (hmap : Mapped m) :
    (∀ n, (∀ k < n, (m (p + k)).isSome) →
      (ldeGetOpCodeSize32 m p = some n ↔ ∃ i : Instruction, m.Holds p i.encode ∧ i.encode.length = n)) ∧
      ∀ i j : Instruction, m.Holds p i.encode → m.Holds p j.encode → i = j := by
  refine ⟨fun n hread => ?_, fun i j => Instruction.unique⟩
  constructor
  · intro h
    obtain ⟨hd, hheld, rfl, -⟩ := exists_header h
    obtain ⟨rest, hrest, hbytes⟩ := @exists_holds m (p + hd.bytes.length) (hd.disp + hd.imm) fun k hk => by
      have := hread (hd.bytes.length + k) (by rw [Header.size]; omega)
      rwa [← Nat.add_assoc] at this
    refine ⟨⟨hd, rest.take hd.disp, rest.drop hd.disp, ?_, ?_⟩, ?_, ?_⟩
    · rw [List.length_take]
      omega
    · rw [List.length_drop]
      omega
    · rw [Instruction.encode, List.append_assoc, List.take_append_drop, Mem.holds_append]
      exact ⟨hheld, hbytes⟩
    · exact Instruction.encode_length _
  · rintro ⟨i, hi, rfl⟩
    have hh : m.Holds p i.bytes := by
      rw [Instruction.encode, List.append_assoc, Mem.holds_append] at hi
      exact hi.1
    rw [i.encode_length]
    exact Header.lde_eq hh (Header.prefixes_lt hmap hh)

/-- `lea esi, [esi]`. -/
theorem ldeGetOpCodeSize32_lea :
    ∃ i : Instruction, (Mem.ofList [0x8D, 0x74, 0x26, 0x00]).Holds 0 i.encode ∧ i.encode.length = 4 := by
  have hmap : Mapped (Mem.ofList [(0x8D : UInt8), 0x74, 0x26, 0x00]) := fun a ha =>
    List.getElem?_eq_none (Nat.le_trans (by decide) ha)
  exact ((ldeGetOpCodeSize32_instruction hmap).1 4 (by decide)).1 (by decide)

/-- The bytes of an instruction say what it measures, wherever it stands. -/
theorem lde_congr {m' : Mem UInt8} {p p' n : Nat} (h : ldeGetOpCodeSize32 m p = some n)
    (hsame : ∀ k < n, m' (p' + k) = m (p + k)) : ldeGetOpCodeSize32 m' p' = some n := by
  obtain ⟨hd, hheld, rfl, hlen⟩ := exists_header h
  refine Header.lde_eq (fun i hi => ?_) hlen
  rw [hsame i (by rw [Header.size]; omega)]
  exact hheld i hi

theorem lde_pos {p n : Nat} (h : ldeGetOpCodeSize32 m p = some n) : 0 < n := by
  obtain ⟨hd, -, rfl, -⟩ := exists_header h
  obtain ⟨op, rest, hop, -⟩ := hd.first_opcode
  simp only [Header.size, Header.bytes, hop, List.length_append, List.length_cons]
  omega

theorem lde_first {p n : Nat} (h : ldeGetOpCodeSize32 m p = some n) : ∃ b, m p = some b := by
  obtain ⟨hd, hheld, -, -⟩ := exists_header h
  obtain ⟨op, rest, hop, -⟩ := hd.first_opcode
  have hne : 0 < hd.bytes.length := by simp only [Header.bytes, hop, List.length_append, List.length_cons]; omega
  exact ⟨_, by simpa using hheld 0 hne⟩

/-! ## Lengths -/

/-- The bytes that an opcode lets follow, at most. -/
def behindOpcode (op : Nat) : Nat :=
  (if hasFlag (getOpCodeFlags32 op) opX86ModRm then 6 else 0) +
    (if hasFlag (getOpCodeFlags32 op) opX86DataPre6667 || op == 0xF7 then 4 else 0) +
    (if op == 0xF6 then 1 else getOpCodeFlags32 op % 8)

set_option maxRecDepth 4000 in
theorem behindOpcode_le : ∀ op < 256, behindOpcode op ≤ 10 ∧ behindOpcode (op + 0x100) ≤ 9 := by decide

theorem dispLength_le (pfx67 : Bool) (modrm : UInt8) (sib : Option UInt8) : dispLength pfx67 modrm sib ≤ 4 := by
  unfold dispLength
  dsimp only
  split_ifs <;> omega

namespace Header

variable (h : Header)

theorem modrm_le : h.modrm.toList.length + h.sib.toList.length + h.disp ≤
    if hasFlag h.opcode.flags opX86ModRm then 6 else 0 := by
  rw [← h.modrm_ok, disp]
  have hsib := h.sib_ok
  cases hm : h.modrm with
  | none =>
    rw [hm, Option.any_none, Option.isSome_eq_false_iff, Option.isNone_iff_eq_none] at hsib
    simp [hsib]
  | some b =>
    have hdisp := dispLength_le h.pfx67 b h.sib
    have hs : h.sib.toList.length ≤ 1 := by cases h.sib <;> simp
    simp only [Option.map_some, Option.getD_some, Option.toList_some, List.length_singleton, Option.isSome_some,
      if_true]
    omega

theorem index_beq (o : Opcode) (b : UInt8) : (o.index == b.toNat) = (o == .one b) := by
  rw [Bool.eq_iff_iff, beq_iff_eq, beq_iff_eq]
  cases o with
  | one op => rw [Opcode.index, UInt8.toNat_inj, Opcode.one.injEq]
  | two op =>
    have := b.toNat_lt
    refine iff_of_false ?_ nofun
    rw [Opcode.index]
    omega

theorem imm_le : h.imm ≤ (if hasFlag h.opcode.flags opX86DataPre6667 || h.opcode.index == 0xF7 then 4 else 0) +
    (if h.opcode.index == 0xF6 then 1 else h.opcode.flags % 8) := by
  have h6 := index_beq h.opcode 0xF6
  have h7 := index_beq h.opcode 0xF7
  have hz : (h.opcode == .one 0xF6) = true → h.opcode.flags % 8 = 0 := by
    intro hop
    rw [eq_of_beq hop, flags_test.1]
    rfl
  rw [imm, show (0xF7 : Nat) = (0xF7 : UInt8).toNat from rfl, show (0xF6 : Nat) = (0xF6 : UInt8).toNat from rfl, h6, h7]
  cases hasFlag h.opcode.flags opX86DataPre6667 <;> cases h.regZero <;> cases hop6 : h.opcode == .one 0xF6 <;>
    cases h.opcode == .one 0xF7 <;> simp_all <;> split <;> omega

/-- An instruction has eleven bytes at most behind its prefixes. -/
theorem size_le : h.size ≤ h.prefixes.length + 11 := by
  have hmodrm := h.modrm_le
  have himm := h.imm_le
  have hbehind : h.opcode.bytes.length + behindOpcode h.opcode.index ≤ 11 := by
    cases hop : h.opcode with
    | one op =>
      have := (behindOpcode_le op.toNat op.toNat_lt).1
      rw [Opcode.index, Opcode.bytes, List.length_singleton]
      omega
    | two op =>
      have := (behindOpcode_le op.toNat op.toNat_lt).2
      rw [Opcode.index, Opcode.bytes, List.length_cons, List.length_singleton]
      omega
  rw [behindOpcode, show getOpCodeFlags32 h.opcode.index = h.opcode.flags from rfl] at hbehind
  rw [size, bytes, List.length_append, List.length_append, List.length_append]
  omega

end Header

end SiglusExtract.Lde
