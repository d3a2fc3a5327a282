/-
The machine that runs hooked code: a processor of 32 bits, as far as its control flow goes. The relative branches and
the jump through a pointer are decoded; what every other instruction does is a parameter.
-/
import SiglusExtract.Lib.CInt
import SiglusExtract.Lib.Patch
import SiglusExtract.Mp.Lde
import Mathlib.Logic.Relation

namespace SiglusExtract.Mp

open Bytes CInt Lde

/-! ## Instructions in memory -/

/-- `n` bytes from `p` on. -/
def readBytes (m : Mem UInt8) (p n : Nat) : Option (List UInt8) := (List.range n).mapM fun i => m (p + i)

/-- The bytes of the instruction at `ip`. -/
def fetch (m : Mem UInt8) (ip : Nat) : Option (List UInt8) := do
  let len ← ldeGetOpCodeSize32 m ip
  readBytes m ip len

/-- The integer of four bytes. -/
def ofLe32 (d0 d1 d2 d3 : UInt8) : Nat := d0.toNat + 256 * d1.toNat + 65536 * d2.toNat + 16777216 * d3.toNat

/-- The branches whose operand is an offset. -/
inductive Branch
  | jcc (cc : Nat)
  | jmp
  | call
  deriving DecidableEq, Repr

/-- An instruction: a branch with the address of its target, a jump through a pointer, or the bytes of another one. -/
inductive Op
  | branch (kind : Branch) (target : Nat)
  | jmpInd (pointer : Nat)
  | other (bytes : List UInt8)
  deriving DecidableEq, Repr

/-- The instruction of the bytes, which end at `next`. -/
def decodeOp (next : Nat) : List UInt8 → Op
  | [b0, b1] =>
    if b0.toNat / 16 = 7 then .branch (.jcc (b0.toNat % 16)) (u32 (next + i8 b1))
    else if b0 = 0xEB then .branch .jmp (u32 (next + i8 b1))
    else .other [b0, b1]
  | [b0, d0, d1, d2, d3] =>
    if b0 = 0xE9 then .branch .jmp (u32 (next + ofLe32 d0 d1 d2 d3))
    else if b0 = 0xE8 then .branch .call (u32 (next + ofLe32 d0 d1 d2 d3))
    else .other [b0, d0, d1, d2, d3]
  | [b0, b1, d0, d1, d2, d3] =>
    if b0 = 0x0F ∧ b1.toNat / 16 = 8 then .branch (.jcc (b1.toNat % 16)) (u32 (next + ofLe32 d0 d1 d2 d3))
    else if b0 = 0xFF ∧ b1 = 0x25 then .jmpInd (ofLe32 d0 d1 d2 d3)
    else .other [b0, b1, d0, d1, d2, d3]
  | bytes => .other bytes

/-! ## Steps -/

/-- What the processor does besides: whether a condition holds, the push of a return address, and every other
instruction at its address, which jumps, goes on behind itself or stops the program. -/
structure Cpu (σ : Type) where
  cond : Nat → σ → Bool
  push : Nat → σ → σ
  exec : Nat → List UInt8 → σ → Option (Option Nat × σ)

variable {σ : Type}

/-- The instruction `op` at `ip`, which ends at `next`. -/
def execute (cpu : Cpu σ) (m : Mem UInt8) (ip next : Nat) (op : Op) (s : σ) : Option (Nat × σ) :=
  match op with
  | .branch (.jcc cc) target => some (if cpu.cond cc s then target else next, s)
  | .branch .jmp target => some (target, s)
  | .branch .call target => some (target, cpu.push next s)
  | .jmpInd pointer => (dword m pointer).map (·, s)
  | .other bytes => (cpu.exec ip bytes s).map fun r => (r.1.getD next, r.2)

/-- One step. The code, and the pointers that are jumped through, do not change while the program runs. -/
def step (cpu : Cpu σ) (m : Mem UInt8) (c : Nat × σ) : Option (Nat × σ) := do
  let bytes ← fetch m c.1
  execute cpu m c.1 (c.1 + bytes.length) (decodeOp (c.1 + bytes.length) bytes) c.2

/-- Some steps lead from one configuration to the other. -/
abbrev Runs (cpu : Cpu σ) (m : Mem UInt8) : Nat × σ → Nat × σ → Prop :=
  Relation.ReflTransGen fun c c' => step cpu m c = some c'

/-! ## What stands in memory -/

variable {m m' : Mem UInt8} {p : Nat} {bytes : List UInt8}

theorem readBytes_of_holds (h : m.Holds p bytes) : readBytes m p bytes.length = some bytes := h.mapM_range

theorem readBytes_length {n : Nat} (h : readBytes m p n = some bytes) : bytes.length = n := by
  rw [Mem.length_of_mapM h, List.length_range]

theorem getElem?_of_mapM {α β : Type} {f : β → Option α} : ∀ {l : List β} {r : List α}, l.mapM f = some r →
    ∀ {i : Nat} {b : β}, l[i]? = some b → f b = r[i]?
  | [], _, _, i, b, hb => by cases hb
  | a :: l, r, h, i, b, hb => by
    rw [List.mapM_cons] at h
    simp only [Option.bind_eq_bind, Option.bind_eq_some_iff, Option.pure_def, Option.some.injEq] at h
    obtain ⟨x, hx, r', hr', rfl⟩ := h
    cases i with
    | zero =>
      cases hb
      exact hx
    | succ i => exact getElem?_of_mapM hr' hb

theorem holds_of_readBytes {n : Nat} (h : readBytes m p n = some bytes) : m.Holds p bytes := by
  intro i hi
  have hlt : i < n := readBytes_length h ▸ hi
  rw [getElem?_of_mapM h (i := i) (List.getElem?_range hlt), List.getElem?_eq_getElem hi]

theorem fetch_eq_some : fetch m p = some bytes ↔ ldeGetOpCodeSize32 m p = some bytes.length ∧ m.Holds p bytes := by
  unfold fetch
  rw [Option.bind_eq_bind, Option.bind_eq_some_iff]
  constructor
  · rintro ⟨len, hlen, hread⟩
    rw [readBytes_length hread]
    exact ⟨hlen, holds_of_readBytes hread⟩
  · rintro ⟨hlen, hheld⟩
    exact ⟨bytes.length, hlen, readBytes_of_holds hheld⟩

/-- An instruction is fetched wherever its bytes stand. -/
theorem fetch_of_holds {p' : Nat} (h : fetch m p = some bytes) (hheld : m'.Holds p' bytes) :
    fetch m' p' = some bytes := by
  rw [fetch_eq_some] at h ⊢
  refine ⟨lde_congr h.1 fun k hk => ?_, hheld⟩
  rw [h.2 k hk, hheld k hk]

/-- The length of an instruction without prefix and ModRM. -/
theorem lde_plain {o : Opcode} (hone : ∀ op, o = .one op → ¬ IsPrefix op ∧ op ≠ 0x0F)
    (hflag : hasFlag o.flags opX86ModRm = false) (hheld : m.Holds p o.bytes) :
    ldeGetOpCodeSize32 m p =
      some (o.bytes.length + ((if hasFlag o.flags opX86DataPre6667 then 4 else 0) + o.flags % 8)) := by
  let h : Header := ⟨[], o, none, none, nofun, hone, hflag.symm, rfl⟩
  have hbytes : h.bytes = o.bytes := by simp [h, Header.bytes]
  have hsize : h.size = o.bytes.length + ((if hasFlag o.flags opX86DataPre6667 then 4 else 0) + o.flags % 8) := by
    have h66 : h.pfx66 = false := by simp [h, Header.pfx66, Header.pfx67]
    rw [Header.size, Header.imm_eq, h66, hbytes]
    simp [h, Header.disp, Header.allFlags]
  rw [← hsize]
  exact h.lde_eq (hbytes ▸ hheld) (Nat.two_pow_pos 32)

theorem one_ok {op : UInt8} (hno : ¬ IsPrefix op) (hne : op ≠ 0x0F) :
    ∀ op', Opcode.one op = .one op' → ¬ IsPrefix op' ∧ op' ≠ 0x0F := by
  rintro op' ⟨⟩
  exact ⟨hno, hne⟩

set_option maxRecDepth 4000 in
theorem short_flags : ∀ n < 256, n / 16 = 7 ∨ n = 0xEB → hasFlag (getOpCodeFlags32 n) opX86Prefix = false ∧
    n ≠ 0x0F ∧ getOpCodeFlags32 n = 0x81 := by decide

set_option maxRecDepth 4000 in
theorem near_flags : ∀ n < 256, n / 16 = 8 → getOpCodeFlags32 (n + 0x100) = 0x50 := by decide

/-- A short branch has two bytes. -/
theorem lde_short {b : UInt8} (hb : b.toNat / 16 = 7 ∨ b = 0xEB) (hread : m p = some b) :
    ldeGetOpCodeSize32 m p = some 2 := by
  obtain ⟨hno, hne, hflags⟩ := short_flags b.toNat b.toNat_lt (hb.imp_right (congrArg UInt8.toNat))
  have hf : (Opcode.one b).flags = 0x81 := hflags
  have hno : ¬ IsPrefix b := Bool.eq_false_iff.1 hno
  have hne : b ≠ 0x0F := fun h => hne (congrArg UInt8.toNat h)
  have := lde_plain (one_ok hno hne) (by rw [hf]; rfl) (Mem.holds_cons.2 ⟨hread, Mem.holds_nil m _⟩)
  rwa [hf] at this

/-- `call` and `jmp` have five bytes. -/
theorem lde_near {b : UInt8} (hb : b = 0xE8 ∨ b = 0xE9) (hread : m p = some b) : ldeGetOpCodeSize32 m p = some 5 := by
  have hf : ¬ IsPrefix b ∧ b ≠ 0x0F ∧ (Opcode.one b).flags = 0x50 := by rcases hb with rfl | rfl <;> decide
  have := lde_plain (one_ok hf.1 hf.2.1) (by rw [hf.2.2]; rfl) (Mem.holds_cons.2 ⟨hread, Mem.holds_nil m _⟩)
  rwa [hf.2.2] at this

/-- A near branch on a condition has six bytes. -/
theorem lde_jcc {b : UInt8} (hb : b.toNat / 16 = 8) (h0F : m p = some 0x0F) (hread : m (p + 1) = some b) :
    ldeGetOpCodeSize32 m p = some 6 := by
  have hf : (Opcode.two b).flags = 0x50 := near_flags b.toNat b.toNat_lt hb
  have hno : ∀ op, Opcode.two b = .one op → ¬ IsPrefix op ∧ op ≠ 0x0F := nofun
  have := lde_plain hno (by rw [hf]; rfl) (Mem.holds_cons.2 ⟨h0F, Mem.holds_cons.2 ⟨hread, Mem.holds_nil m _⟩⟩)
  rwa [hf] at this

/-- `jmp [pointer]`. -/
def jmpIndHeader : Header where
  prefixes := []
  opcode := .one 0xFF
  modrm := some 0x25
  sib := none
  prefixes_ok := nofun
  opcode_ok := one_ok (by decide) (by decide)
  modrm_ok := by decide
  sib_ok := by decide

/-- A jump through a pointer has six bytes. -/
theorem lde_jmpInd (hFF : m p = some 0xFF) (hread : m (p + 1) = some 0x25) : ldeGetOpCodeSize32 m p = some 6 :=
  jmpIndHeader.lde_eq (Mem.holds_cons.2 ⟨hFF, Mem.holds_cons.2 ⟨hread, Mem.holds_nil m _⟩⟩) (Nat.two_pow_pos 32)

end SiglusExtract.Mp
