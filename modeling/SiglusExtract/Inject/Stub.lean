/-
The code that `InjectDllToRemoteProcess` (my.cpp) puts into another process: `InjectRemote_LoadDll` saves what the
thread was doing, calls `LdrLoadDll` with the path behind its context, reports by a zero in front of the context, and
goes back.
-/
import SiglusExtract.Lib.Journal
import SiglusExtract.Lib.Machine
import SiglusExtract.Lib.Patch

namespace SiglusExtract.Inject

open Bytes Machine

/-! ## The thread -/

/-- The registers of a thread, but for `eip`, and the memory of its process. -/
structure Thread where
  eax : Nat
  ecx : Nat
  edx : Nat
  ebx : Nat
  esp : Nat
  ebp : Nat
  esi : Nat
  edi : Nat
  eflags : Nat
  mem : Mem UInt8

/-- The registers that the code names. -/
inductive Reg
  | eax
  | ecx
  | esp
  | esi
  deriving DecidableEq, Repr

namespace Thread

variable (t : Thread)

def get : Reg → Nat
  | .eax => t.eax
  | .ecx => t.ecx
  | .esp => t.esp
  | .esi => t.esi

def set (v : Nat) : Reg → Thread
  | .eax => { t with eax := v }
  | .ecx => { t with ecx := v }
  | .esp => { t with esp := v }
  | .esi => { t with esi := v }

/-- A push. The stack does not wrap. -/
def push (v : Nat) : Thread := { t with esp := t.esp - 4, mem := t.mem.write (t.esp - 4) (le32 v) }

/-- The value that a pop takes off the stack. -/
def top : Option Nat := dword t.mem t.esp

/-- `DF`, the direction of `lodsd`. -/
def down : Bool := t.eflags.testBit 10

/-- `pushad`. It stores `esp` as it was. -/
def pushad : Thread :=
  [t.eax, t.ecx, t.edx, t.ebx, t.esp, t.ebp, t.esi, t.edi].foldl push t

/-- `popad`. It takes `esp` off the stack and drops it. -/
def popad : Option Thread := do
  let edi ← dword t.mem t.esp
  let esi ← dword t.mem (t.esp + 4)
  let ebp ← dword t.mem (t.esp + 8)
  let ebx ← dword t.mem (t.esp + 16)
  let edx ← dword t.mem (t.esp + 20)
  let ecx ← dword t.mem (t.esp + 24)
  let eax ← dword t.mem (t.esp + 28)
  return { t with
    edi := edi, esi := esi, ebp := ebp, ebx := ebx, edx := edx, ecx := ecx, eax := eax, esp := t.esp + 32 }

end Thread

/-! ## The code -/

/-- The instructions of the code, up to a jump. -/
inductive Instr
  | push (r : Reg)
  | pushad
  | pushfd
  | callNext
  | pop (r : Reg)
  | andImm (r : Reg) (imm : Nat)
  | lodsd
  | store (disp : Nat)
  | xorSelf (r : Reg)
  | xchgEsi
  | clear
  | popfd
  | popad
  | callEax
  | ret
  deriving DecidableEq, Repr

/-- The length of the instruction. -/
def Instr.size : Instr → Nat
  | .push _ | .pop _ | .pushad | .pushfd | .popfd | .popad | .lodsd | .xchgEsi | .ret => 1
  | .callNext => 5
  | .andImm r _ => if r = .eax then 5 else 6
  | .store _ => 4
  | .xorSelf _ | .callEax => 2
  | .clear => 3

/-- What an `and` or a `xor` makes of the flags, given its result. It leaves `DF` alone. -/
structure Alu where
  flags : Nat → Nat → Nat
  keeps : ∀ eflags result, (flags eflags result).testBit 10 = eflags.testBit 10

/-- An instruction that goes on at the next one, at the address `next`. -/
def exec (alu : Alu) (next : Nat) (t : Thread) : Instr → Option Thread
  | .push r => some (t.push (t.get r))
  | .pushad => some t.pushad
  | .pushfd => some (t.push t.eflags)
  | .callNext => some (t.push next)
  | .pop r => t.top.map fun v => { t with esp := t.esp + 4 }.set v r
  | .andImm r imm =>
    let v := t.get r &&& imm
    some { t.set v r with eflags := alu.flags t.eflags v }
  | .lodsd => (dword t.mem t.esi).map fun v => { t with eax := v, esi := if t.down then t.esi - 4 else t.esi + 4 }
  | .store disp => some { t with mem := t.mem.write (t.esp + disp) (le32 t.eax) }
  | .xorSelf r => some { t.set 0 r with eflags := alu.flags t.eflags 0 }
  | .xchgEsi => some { t with eax := t.esi, esi := t.eax }
  | .clear => (dword t.mem t.eax).map fun _ =>
    { t with mem := t.mem.write t.eax (le32 0), eflags := alu.flags t.eflags 0 }
  | .popfd => t.top.map fun v => { t with esp := t.esp + 4, eflags := v }
  | .popad => t.popad
  | .callEax | .ret => none

/-- `InjectRemote_LoadDll`, behind the `int3` that is left out. -/
def injectRemoteLoadDll : List Instr := [
  .push .eax, .pushad, .pushfd, .callNext,
  .pop .esi, .andImm .esi 0xFFFFF000, .lodsd, .store 0x24, .lodsd, .xorSelf .ecx,
  .push .ecx, .push .esp, .push .esi, .push .ecx, .push .ecx, .callEax,
  .pop .eax, .xchgEsi, .andImm .eax 0xFFFFF000, .clear, .popfd, .popad, .ret]

/-- Where the instruction of a number stands, from the entry on. -/
def offset (i : Nat) : Nat := ((injectRemoteLoadDll.take i).map Instr.size).sum

/-- The mask takes an address down to its page. -/
theorem and_page {a page : Nat} (hpage : page % 4096 = 0) (hlow : page ≤ a) (hhigh : a < page + 4096)
    (hlt : page < 2 ^ 32) : a &&& 0xFFFFF000 = page := by
  have h := and_mask a 12 20
  rw [show (2 ^ 20 - 1) <<< 12 = 0xFFFFF000 from rfl] at h
  rw [h]
  omega

/-! ## What is put into the process -/

/-- What the injection is about: the page, the `eip` of the thread and where its stack begins, the address of
`LdrLoadDll`, and the characters of the path. -/
structure Setup where
  buffer : Nat
  eip : Nat
  stackBase : Nat
  ldrLoadDll : Nat
  path : List UInt8

namespace Setup

variable (s : Setup)

/-- `INJECT_REMOTE_LOAD_DLL`. -/
def context : List UInt8 :=
  le32 s.eip ++ le32 s.ldrLoadDll ++ le16 s.path.length ++ le16 s.path.length ++ le32 (s.buffer + 16)

/-- Where the code is put, and the thread is sent to. -/
def entry : Nat := (s.buffer + 16 + s.path.length + 15) / 16 * 16

/-- The address of an instruction. -/
def addr (i : Nat) : Nat := s.entry + offset i

end Setup

variable {alu : Alu} {s : Setup} {t t₀ : Thread} {l : List UInt8} {v : Nat}

/-- A step of the thread in the code. -/
def stubStep (alu : Alu) (s : Setup) (c : Nat × Thread) : Option (Nat × Thread) :=
  injectRemoteLoadDll[c.1]?.bind fun i => (exec alu (s.addr (c.1 + 1)) c.2 i).map fun t => (c.1 + 1, t)

theorem stubStep_of {i : Nat} {ins : Instr} {t' : Thread} (hi : injectRemoteLoadDll[i]? = some ins)
    (h : exec alu (s.addr (i + 1)) t ins = some t') : stubStep alu s (i, t) = some (i + 1, t') := by
  rw [stubStep, hi, Option.bind_some, h]
  rfl

/-- The thread as it was interrupted, and a page that is free: the page has room for the context, the path and the code,
and lies apart from the stack, of which 64 bytes below `esp` are free. -/
structure Free (s : Setup) (t : Thread) : Prop where
  page : s.buffer % 4096 = 0
  high : s.buffer + 4096 ≤ 2 ^ 32
  fits : s.addr 23 ≤ s.buffer + 4096
  length : s.path.length < 2 ^ 16
  eip : 0 < s.eip ∧ s.eip < 2 ^ 32
  away : ¬ Mem.Within s.buffer 4096 s.eip
  ldrLoadDll : s.ldrLoadDll < 2 ^ 32
  regs : ∀ v ∈ [t.eax, t.ecx, t.edx, t.ebx, t.esp, t.ebp, t.esi, t.edi, t.eflags], v < 2 ^ 32
  up : t.down = false
  stack : 64 ≤ t.esp ∧ t.esp ≤ s.stackBase
  apart : s.stackBase ≤ s.buffer ∨ s.buffer + 4096 ≤ t.esp - 64

/-- The thread with the context and the path put into its process. -/
structure Ready (s : Setup) (t : Thread) : Prop extends Free s t where
  context : t.mem.Holds s.buffer s.context
  path : t.mem.Holds (s.buffer + 16) s.path

/-- The registers of a thread on its stack, as the code saves them. -/
def frame (t : Thread) : List UInt8 :=
  le32 t.eflags ++ (le32 t.edi ++ (le32 t.esi ++ (le32 t.ebp ++ (le32 (t.esp - 4) ++ (le32 t.ebx ++ (le32 t.edx ++
    (le32 t.ecx ++ le32 t.eax)))))))

@[simp] theorem frame_length (t : Thread) : (frame t).length = 36 := rfl

/-- The memories agree but for the 64 bytes from `low` on, which are the stack of the code. -/
def Intact (low : Nat) (m₀ m : Mem UInt8) : Prop := ∀ a, ¬ Mem.Within low 64 a → m a = m₀ a

/-- The thread in front of the call, with the 64 bytes below its stack from `low` on. -/
structure Calls (s : Setup) (t₀ : Thread) (low : Nat) (t : Thread) : Prop where
  eax : t.eax = s.ldrLoadDll
  esp : t.esp = low + 4
  esi : t.esi = s.buffer + 8
  intact : Intact low t₀.mem t.mem
  saved : t.mem.Holds (low + 24) (frame t₀ ++ le32 s.eip)
  args : t.mem.Holds (low + 4) (le32 0 ++ (le32 0 ++ (le32 (s.buffer + 8) ++ (le32 (low + 20) ++ le32 0))))

section Stack

variable {m₀ m : Mem UInt8} {low p : Nat}

theorem Intact.write (h : Intact low m₀ m) (hlow : low ≤ p) (hhigh : p + 4 ≤ low + 64) :
    Intact low m₀ (m.write p (le32 v)) := by
  intro a ha
  rw [Mem.write_outside (by rw [le32_length]; omega)]
  exact h a ha

/-- What lies apart from the stack is still there. -/
theorem Intact.holds (h : Intact low m₀ m) (hheld : m₀.Holds p l) (hapart : Mem.Apart low 64 p l.length) :
    m.Holds p l := by
  intro i hi
  rw [h (p + i) (by rcases hapart with h | h <;> omega)]
  exact hheld i hi

/-- A push in front of what lies on the stack. -/
theorem holds_push (h : m.Holds (p + 4) l) : (m.write p (le32 v)).Holds p (le32 v ++ l) :=
  Mem.holds_append.2 ⟨Mem.holds_write _ _ _, h.write (.inl (Nat.le_refl _))⟩

/-- A push below what lies on the stack. -/
theorem holds_below (h : m.Holds p l) {q : Nat} (hq : q + 4 ≤ p) : (m.write q (le32 v)).Holds p l := h.write (.inl hq)

end Stack

/-- Pushes one after the other. -/
theorem foldl_push : ∀ (vs : List Nat) (t : Thread), 4 * vs.length ≤ t.esp →
    ∃ m, vs.foldl Thread.push t = { t with esp := t.esp - 4 * vs.length, mem := m } ∧
      (∀ l, t.mem.Holds t.esp l → m.Holds (t.esp - 4 * vs.length) (vs.reverse.flatMap le32 ++ l)) ∧
      ∀ a, ¬ Mem.Within (t.esp - 4 * vs.length) (4 * vs.length) a → m a = t.mem a
  | [], t, _ => ⟨t.mem, rfl, fun l h => by simpa using h, fun a _ => rfl⟩
  | v :: vs, t, h => by
    rw [List.length_cons] at h
    obtain ⟨m, hrun, hheld, hsame⟩ := foldl_push vs (t.push v) (by show 4 * vs.length ≤ t.esp - 4; omega)
    have hesp : (t.push v).esp - 4 * vs.length = t.esp - 4 * (v :: vs).length := by
      show t.esp - 4 - 4 * vs.length = _
      rw [List.length_cons]
      omega
    rw [hesp] at hrun hheld hsame
    refine ⟨m, hrun, fun l hl => ?_, fun a ha => ?_⟩
    · have hpush : (t.push v).mem.Holds (t.push v).esp (le32 v ++ l) :=
        holds_push (by rwa [Nat.sub_add_cancel (by omega)])
      have := hheld _ hpush
      rwa [← List.append_assoc, ← List.flatMap_singleton le32 v, ← List.flatMap_append, ← List.reverse_cons] at this
    · rw [List.length_cons] at ha hsame
      rw [hsame a (by omega)]
      exact Mem.write_outside (by rw [le32_length]; omega)

theorem pushad_spec (t : Thread) (h32 : 32 ≤ t.esp) : ∃ m, t.pushad = { t with esp := t.esp - 32, mem := m } ∧
    (∀ l, t.mem.Holds t.esp l → m.Holds (t.esp - 32) (le32 t.edi ++ (le32 t.esi ++ (le32 t.ebp ++ (le32 t.esp ++
      (le32 t.ebx ++ (le32 t.edx ++ (le32 t.ecx ++ (le32 t.eax ++ l))))))))) ∧
    ∀ a, ¬ Mem.Within (t.esp - 32) 32 a → m a = t.mem a := by
  obtain ⟨m, hrun, hheld, hsame⟩ := foldl_push [t.eax, t.ecx, t.edx, t.ebx, t.esp, t.ebp, t.esi, t.edi] t h32
  exact ⟨m, hrun, fun l hl => by simpa using hheld l hl, hsame⟩

theorem offset_eq : offset 4 = 8 ∧ offset 23 = 43 := by decide

theorem entry_ge (s : Setup) : s.buffer + 16 ≤ s.entry := by
  unfold Setup.entry
  omega

/-- The context as the code reads it. -/
theorem Ready.dwords {low : Nat} {m : Mem UInt8} (h : Ready s t₀) (hlow : t₀.esp = low + 64)
    (hm : Intact low t₀.mem m) :
    dword m s.buffer = some s.eip ∧ dword m (s.buffer + 4) = some s.ldrLoadDll := by
  have hheld : m.Holds s.buffer s.context := by
    refine hm.holds h.context ?_
    have hlen : s.context.length = 16 := rfl
    have hstack := h.stack
    rcases h.apart with h | h
    · exact .inl (by omega)
    · exact .inr (by omega)
  rw [Setup.context, List.append_assoc, List.append_assoc, List.append_assoc, Mem.holds_append, le32_length,
    Mem.holds_append] at hheld
  exact ⟨dword_of_holds hheld.1 h.eip.2, dword_of_holds hheld.2.1 h.ldrLoadDll⟩

/-- What a run of the code keeps up to the call. -/
abbrev Untouched (low : Nat) (t₀ : Thread) (c : Nat × Thread) : Prop := Intact low t₀.mem c.2.mem

/-- The registers are saved, and the code finds where it stands. -/
theorem leads_save {low : Nat} (hlow : t₀.esp = low + 64) :
    ∃ m, Leads (stubStep alu s) (Untouched low t₀) 4 (0, t₀) (4, { t₀ with esp := low + 20, mem := m }) ∧
      Intact low t₀.mem m ∧ m.Holds (low + 20) (le32 (s.addr 4) ++ frame t₀) := by
  obtain ⟨eax, ecx, edx, ebx, esp, ebp, esi, edi, eflags, m₀⟩ := t₀
  obtain rfl : esp = low + 64 := hlow
  let m1 := m₀.write (low + 60) (le32 eax)
  have hi0 : Intact low m₀ m₀ := fun a _ => rfl
  have hi1 : Intact low m₀ m1 := hi0.write (by omega) (by omega)
  obtain ⟨m2, hpushad, hh2, hsame2⟩ := pushad_spec
    ⟨eax, ecx, edx, ebx, low + 60, ebp, esi, edi, eflags, m1⟩ (by show 32 ≤ low + 60; omega)
  have hh2 := hh2 [] (Mem.holds_nil _ _)
  have hi2 : Intact low m₀ m2 := fun a ha => (hsame2 a (by show ¬ Mem.Within (low + 28) 32 a; omega)).trans (hi1 a ha)
  let m3 := m2.write (low + 24) (le32 eflags)
  have hi3 : Intact low m₀ m3 := hi2.write (by omega) (by omega)
  let m4 := m3.write (low + 20) (le32 (s.addr 4))
  refine ⟨m4, ?_, hi3.write (by omega) (by omega), ?_⟩
  · refine .step hi0 (u := (1, ⟨eax, ecx, edx, ebx, low + 60, ebp, esi, edi, eflags, m1⟩)) rfl ?_
    refine .step hi1 (u := (2, ⟨eax, ecx, edx, ebx, low + 28, ebp, esi, edi, eflags, m2⟩))
      (congrArg (fun t => some (2, t)) hpushad) ?_
    refine .step hi2 (u := (3, ⟨eax, ecx, edx, ebx, low + 24, ebp, esi, edi, eflags, m3⟩)) rfl ?_
    exact .step hi3 rfl rfl
  · have hframe := holds_push (v := s.addr 4) (p := low + 20) (holds_push (v := eflags) (p := low + 24) hh2)
    rw [List.append_nil] at hframe
    exact hframe

/-- The page is found, the slot above the registers gets the return address, and the arguments are pushed. -/
theorem leads_args {low : Nat} {m : Mem UInt8} (h : Ready s t₀) (hlow : t₀.esp = low + 64)
    (hi : Intact low t₀.mem m) (hheld : m.Holds (low + 20) (le32 (s.addr 4) ++ frame t₀)) :
    ∃ t, Leads (stubStep alu s) (Untouched low t₀) 11 (4, { t₀ with esp := low + 20, mem := m }) (15, t) ∧
      Calls s t₀ low t := by
  obtain ⟨haddr, hframe⟩ := Mem.holds_append.1 hheld
  have hfits := h.fits
  have hpage := h.page
  have hhigh := h.high
  have hentry := entry_ge s
  rw [Setup.addr, offset_eq.2] at hfits
  have hL : s.addr 4 = s.entry + 8 := by rw [Setup.addr, offset_eq.1]
  have hpop : dword m (low + 20) = some (s.addr 4) := dword_of_holds haddr (by omega)
  have hand : s.addr 4 &&& 0xFFFFF000 = s.buffer := and_page hpage (by omega) (by omega) (by omega)
  let flags := alu.flags t₀.eflags s.buffer
  have hdown : flags.testBit 10 = false := (alu.keeps _ _).trans h.up
  let m8 := m.write (low + 60) (le32 s.eip)
  have hi8 : Intact low t₀.mem m8 := hi.write (by omega) (by omega)
  have hh8 : m8.Holds (low + 24) (frame t₀ ++ le32 s.eip) :=
    Mem.holds_append.2 ⟨hframe.write (.inr (Nat.le_refl _)), Mem.holds_write _ _ _⟩
  let m11 := m8.write (low + 20) (le32 0)
  have hi11 : Intact low t₀.mem m11 := hi8.write (by omega) (by omega)
  let m12 := m11.write (low + 16) (le32 (low + 20))
  have hi12 : Intact low t₀.mem m12 := hi11.write (by omega) (by omega)
  let m13 := m12.write (low + 12) (le32 (s.buffer + 8))
  have hi13 : Intact low t₀.mem m13 := hi12.write (by omega) (by omega)
  let m14 := m13.write (low + 8) (le32 0)
  have hi14 : Intact low t₀.mem m14 := hi13.write (by omega) (by omega)
  let m15 := m14.write (low + 4) (le32 0)
  let t4 : Thread := { t₀ with esp := low + 24, esi := s.buffer, eflags := flags, mem := m }
  let t9 : Thread := { t4 with eax := s.ldrLoadDll, esi := s.buffer + 8, mem := m8 }
  let t10 : Thread := { t9 with ecx := 0, eflags := alu.flags flags 0 }
  refine ⟨{ t10 with esp := low + 4, mem := m15 }, ?_, ?_⟩
  · refine .step hi (u := (5, { t₀ with esp := low + 24, esi := s.addr 4, mem := m }))
      (stubStep_of rfl (congrArg (Option.map _) hpop)) ?_
    refine .step hi (u := (6, t4)) (stubStep_of rfl ?_) ?_
    · simp [exec, Thread.get, Thread.set, hand, t4, flags]
    refine .step hi (u := (7, { t4 with eax := s.eip, esi := s.buffer + 4 })) (stubStep_of rfl ?_) ?_
    · simp [exec, (h.dwords hlow hi).1, Thread.down, hdown, t4]
    refine .step hi (u := (8, { t4 with eax := s.eip, esi := s.buffer + 4, mem := m8 })) rfl ?_
    refine .step hi8 (u := (9, t9)) (stubStep_of rfl ?_) ?_
    · simp [exec, (h.dwords hlow hi8).2, Thread.down, hdown, t9, t4]
    refine .step hi8 (u := (10, t10)) rfl ?_
    refine .step hi8 (u := (11, { t10 with esp := low + 20, mem := m11 })) rfl ?_
    refine .step hi11 (u := (12, { t10 with esp := low + 16, mem := m12 })) rfl ?_
    refine .step hi12 (u := (13, { t10 with esp := low + 12, mem := m13 })) rfl ?_
    refine .step hi13 (u := (14, { t10 with esp := low + 8, mem := m14 })) rfl ?_
    exact .step hi14 rfl rfl
  · refine ⟨rfl, rfl, rfl, hi14.write (by omega) (by omega), ?_, ?_⟩
    · exact holds_below (holds_below (holds_below (holds_below (holds_below hh8 (by omega)) (by omega)) (by omega))
        (by omega)) (by omega)
    · exact holds_push (holds_push (holds_push (holds_push (Mem.holds_write _ _ _))))

/-- The code up to the call. -/
theorem leads_call {low : Nat} (h : Ready s t₀) (hlow : t₀.esp = low + 64) :
    ∃ t, Leads (stubStep alu s) (Untouched low t₀) 15 (0, t₀) (15, t) ∧ Calls s t₀ low t := by
  obtain ⟨m, hsave, hi, hheld⟩ := @leads_save alu s t₀ low hlow
  obtain ⟨t, hargs, hcalls⟩ := @leads_args alu s t₀ low m h hlow hi hheld
  exact ⟨t, hsave.append hargs, hcalls⟩

/-- The thread behind the call. -/
structure Returns (s : Setup) (t₀ : Thread) (low : Nat) (t : Thread) : Prop where
  esp : t.esp = low + 20
  esi : t.esi = s.buffer + 8
  saved : t.mem.Holds (low + 24) (frame t₀ ++ le32 s.eip)
  handle : (dword t.mem (low + 20)).isSome
  context : dword t.mem s.buffer = some s.eip

/-- Up to the zero in front of the context, there is the return address. -/
def Waits (s : Setup) (c : Nat × Thread) : Prop := c.1 ≤ 19 → dword c.2.mem s.buffer = some s.eip

/-- The registers as the stack holds them. -/
theorem dwords_frame {m : Mem UInt8} {p : Nat} (h : Ready s t₀) (hheld : m.Holds p (frame t₀)) :
    dword m p = some t₀.eflags ∧ dword m (p + 4) = some t₀.edi ∧ dword m (p + 8) = some t₀.esi ∧
      dword m (p + 12) = some t₀.ebp ∧ dword m (p + 20) = some t₀.ebx ∧ dword m (p + 24) = some t₀.edx ∧
      dword m (p + 28) = some t₀.ecx ∧ dword m (p + 32) = some t₀.eax := by
  have hregs := h.regs
  simp only [List.forall_mem_cons] at hregs
  obtain ⟨heax, hecx, hedx, hebx, -, hebp, hesi, hedi, heflags, -⟩ := hregs
  simp only [frame, Mem.holds_append, le32_length, Nat.add_assoc, Nat.reduceAdd] at hheld
  obtain ⟨h0, h4, h8, h12, -, h20, h24, h28, h32⟩ := hheld
  exact ⟨dword_of_holds h0 heflags, dword_of_holds h4 hedi, dword_of_holds h8 hesi, dword_of_holds h12 hebp,
    dword_of_holds h20 hebx, dword_of_holds h24 hedx, dword_of_holds h28 hecx, dword_of_holds h32 heax⟩

/-- `popad` takes the registers back off the stack. -/
theorem popad_frame {p : Nat} (h : Ready s t₀) (hheld : t.mem.Holds p (frame t₀)) (hesp : t.esp = p + 4) :
    t.popad = some { t₀ with eflags := t.eflags, esp := p + 36, mem := t.mem } := by
  obtain ⟨-, hedi, hesi, hebp, hebx, hedx, hecx, heax⟩ := dwords_frame h hheld
  simp only [Thread.popad, hesp, Nat.add_assoc, Nat.reduceAdd, hedi, hesi, hebp, hebx, hedx, hecx, heax,
    Option.bind_eq_bind, Option.bind_some, Option.pure_def]

/-- The code behind the call reports and restores the registers. -/
theorem leads_return {low : Nat} (h : Ready s t₀) (hlow : t₀.esp = low + 64) (ht : Returns s t₀ low t) :
    Leads (stubStep alu s) (Waits s) 6 (16, t)
        (22, { t₀ with esp := low + 60, mem := t.mem.write s.buffer (le32 0) }) ∧
      dword (t.mem.write s.buffer (le32 0)) (low + 60) = some s.eip := by
  obtain ⟨handle, hhandle⟩ := Option.isSome_iff_exists.1 ht.handle
  have hpage := h.page
  have hhigh := h.high
  have hand : (s.buffer + 8) &&& 0xFFFFF000 = s.buffer := and_page hpage (by omega) (by omega) (by omega)
  have hapart : Mem.Apart s.buffer 4 (low + 24) 40 := by
    have hstack := h.stack
    rcases h.apart with h | h
    · exact .inr (by omega)
    · exact .inl (by omega)
  have hheld := ht.saved.write (l := le32 0) hapart
  obtain ⟨hframe, hret⟩ := Mem.holds_append.1 hheld
  have hflags := (dwords_frame h hframe).1
  let m := t.mem.write s.buffer (le32 0)
  obtain ⟨eax, ecx, edx, ebx, esp, ebp, esi, edi, eflags, m₀⟩ := t
  obtain rfl : esp = low + 20 := ht.esp
  obtain rfl : esi = s.buffer + 8 := ht.esi
  let flags := alu.flags eflags s.buffer
  refine ⟨?_, dword_of_holds hret h.eip.2⟩
  have hwait : ∀ {i}, (∀ t : Thread, t.mem = m₀ → Waits s (i, t)) := fun t ht' _ => ht' ▸ ht.context
  refine .step (hwait _ rfl) (u := (17, ⟨handle, ecx, edx, ebx, low + 24, ebp, s.buffer + 8, edi, eflags, m₀⟩))
    (stubStep_of rfl (congrArg (Option.map _) hhandle)) ?_
  refine .step (hwait _ rfl) (u := (18, ⟨s.buffer + 8, ecx, edx, ebx, low + 24, ebp, handle, edi, eflags, m₀⟩)) rfl ?_
  refine .step (hwait _ rfl) (u := (19, ⟨s.buffer, ecx, edx, ebx, low + 24, ebp, handle, edi, flags, m₀⟩))
    (stubStep_of rfl ?_) ?_
  · simp [exec, Thread.get, Thread.set, hand, flags]
  refine .step (hwait _ rfl) (u := (20, ⟨s.buffer, ecx, edx, ebx, low + 24, ebp, handle, edi, alu.flags flags 0, m⟩))
    (stubStep_of rfl (congrArg (Option.map _) ht.context)) ?_
  refine .step (fun h20 => absurd h20 (show ¬ 20 ≤ 19 by decide))
    (u := (21, ⟨s.buffer, ecx, edx, ebx, low + 28, ebp, handle, edi, t₀.eflags, m⟩))
    (stubStep_of rfl (congrArg (Option.map _) hflags)) ?_
  refine .step (fun h21 => absurd h21 (show ¬ 21 ≤ 19 by decide)) (stubStep_of rfl ?_) rfl
  exact popad_frame h hframe rfl

end SiglusExtract.Inject
