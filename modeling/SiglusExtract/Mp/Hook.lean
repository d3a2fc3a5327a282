/-
The installation of a hook (my.cpp, `MemoryPatchManager`): where the hook may stand, the code that is written there, the
trampoline with the instructions that it replaces, and the record by which `RestoreMemory` takes it back.
-/
import SiglusExtract.Lib.Journal
import SiglusExtract.Mp.CopyOp

namespace SiglusExtract.Mp

open Bytes CInt Lde

/-- The `NTSTATUS` values that the patches return. -/
inductive Status
  | success
  | bufferTooSmall
  | noMemory
  | invalidParameter
  | accessDenied
  deriving DecidableEq, Repr

/-! ## The code of a hook -/

/-- `Flags & OpMask`. -/
inductive HookOp
  | jump
  | call
  | push
  | jrax
  | jrcx
  | jrdx
  | jrbx
  | jrbp
  | jrsi
  | jrdi
  | jr10
  deriving DecidableEq, Repr

namespace HookOp

def code : HookOp → Nat
  | jump => 0x00000000
  | call => 0x10000000
  | push => 0x20000000
  | jrax => 0x30000000
  | jrcx => 0x40000000
  | jrdx => 0x50000000
  | jrbx => 0x60000000
  | jrbp => 0x70000000
  | jrsi => 0x80000000
  | jrdi => 0x90000000
  | jr10 => 0xA0000000

/-- `HookOp >= OpJRax && HookOp <= OpJRdi`. -/
def isRegister (op : HookOp) : Bool := jrax.code ≤ op.code ∧ op.code ≤ jrdi.code

end HookOp

/-- `GetSizeOfHookOpSize`: `none` is `ULONG_PTR_MAX`. -/
def getSizeOfHookOpSize (op : HookOp) : Option Nat :=
  match op with
  | .push => some 6
  | .call => some 5
  | .jump => some 5
  | _ => if op.isRegister then some 7 else none

/-- `GenerateHookCode`. -/
def generateHookCode (sourceIp target : Nat) (op : HookOp) (hookOpSize : Nat) : Except Status (List UInt8) :=
  match op with
  | .call => .ok (0xE8 :: le32 (u32 (target - (sourceIp + hookOpSize : Nat))))
  | .jump => .ok (0xE9 :: le32 (u32 (target - (sourceIp + hookOpSize : Nat))))
  | .push => .ok (0x68 :: le32 target ++ [0xC3])
  | _ =>
    if op.isRegister then
      -- a multiple of 0x10000000, which is 0 in a byte and in a word
      let registerIndex := op.code - HookOp.jrax.code
      .ok (UInt8.ofNat (0xB8 + registerIndex) :: le32 target ++ le16 (0xE0FF + registerIndex))
    else .error .invalidParameter

/-- `PatchNop`: more than seven bytes keep what the buffer holds. -/
def patchNop (buffer : List UInt8) : List UInt8 :=
  match buffer.length with
  | 1 => [0x90]
  | 2 => [0x8B, 0xC0]
  | 3 => [0x8D, 0x40, 0x00]
  | 4 => [0x8D, 0x74, 0x26, 0x00]
  | 5 => [0x8B, 0xC0, 0x8D, 0x40, 0x00]
  | 6 => [0x8D, 0x80, 0x00, 0x00, 0x00, 0x00]
  | 7 => [0x8D, 0xB4, 0x26, 0x00, 0x00, 0x00, 0x00]
  | _ => buffer

/-! ## The place of a hook -/

/-- How a round of `GetHookAddressAndSize` goes on: behind the instruction, or at the target of the jump. -/
inductive Round
  | advance (length : Nat)
  | follow (target : Nat)

/-- `jmp short const`. -/
def shortRound (m : Mem UInt8) (hookOpSize buffer opSize length : Nat) : Option (Except Status Round) :=
  (m (buffer + 1)).map fun b1 : UInt8 =>
    if opSize = 0 ∧ b1 ≠ 0 then .ok (.follow (u32 (buffer + i8 b1 + length)))
    else if opSize ≠ 0 ∧ opSize < hookOpSize - length then .error .bufferTooSmall
    else .ok (.advance length)

/-- An instruction that begins with 0xFF: `jmp [rimm]`, or another one. -/
def indirectRound (m : Mem UInt8) (hookOpSize buffer opSize length : Nat) : Option (Except Status Round) :=
  (m (buffer + 1)).bind fun b1 =>
    if b1 = 0x25 ∧ opSize ≠ 0 ∧ opSize + length < hookOpSize then some (.error .bufferTooSmall)
    else if b1 = 0x25 ∧ opSize = 0 ∧ hookOpSize > length then
      ((dword m (buffer + 2)).bind (dword m)).map fun target => .ok (.follow target)
    else some (.ok (.advance length))

/-- A round of `GetHookAddressAndSize`. -/
def hookRound (m : Mem UInt8) (hookOpSize buffer opSize : Nat) : Option (Except Status Round) :=
  (m buffer).bind fun b0 =>
    if b0 = 0xC2 ∨ b0 = 0xC3 then some (.error .bufferTooSmall)
    else (ldeGetOpCodeSize32 m buffer).bind fun length =>
      if b0 = 0xEB then shortRound m hookOpSize buffer opSize length
      else if b0 = 0xFF then indirectRound m hookOpSize buffer opSize length
      else some (.ok (.advance length))

/-- The loop of `GetHookAddressAndSize`: the final address, and the size of the instructions that the hook replaces.
Without fuel it has not come to an end. -/
def hookAddressLoop (m : Mem UInt8) (hookOpSize : Nat) : Nat → Nat → Nat → Nat → Option (Except Status (Nat × Nat))
  | 0, _, _, _ => none
  | fuel + 1, buffer, opSize, finalAddress =>
    if opSize < hookOpSize then
      (hookRound m hookOpSize buffer opSize).bind fun round =>
        match round with
        | .error status => some (.error status)
        | .ok (.advance length) => hookAddressLoop m hookOpSize fuel (buffer + length) (opSize + length) finalAddress
        | .ok (.follow target) => hookAddressLoop m hookOpSize fuel target opSize target
    else some (.ok (finalAddress, opSize))

/-- `GetHookAddressAndSize`. -/
def getHookAddressAndSize (m : Mem UInt8) (fuel address hookOpSize : Nat) : Option (Except Status (Nat × Nat)) :=
  hookAddressLoop m hookOpSize fuel address 0 address

/-! ## What is found -/

variable {σ : Type} {m m' : Mem UInt8} {p stop hookOpSize : Nat}

/-- Whole instructions from an address to `stop`, which begin before `limit` and do not return. -/
inductive Sweep (m : Mem UInt8) (limit stop : Nat) : Nat → Prop
  | nil : Sweep m limit stop stop
  | cons {p n : Nat} (hlt : p < limit) (hret : m p ≠ some 0xC2 ∧ m p ≠ some 0xC3)
      (hlde : ldeGetOpCodeSize32 m p = some n) (rest : Sweep m limit stop (p + n)) : Sweep m limit stop p

theorem Sweep.le {limit : Nat} (h : Sweep m limit stop p) : p ≤ stop := by
  induction h with
  | nil => exact Nat.le_refl stop
  | cons _ _ _ _ ih => exact Nat.le_trans (Nat.le_add_right _ _) ih

theorem step_of_fetch {cpu : Cpu σ} {bytes : List UInt8} (h : fetch m p = some bytes) (s : σ) :
    step cpu m (p, s) = execute cpu m p (p + bytes.length) (decodeOp (p + bytes.length) bytes) s := by
  rw [step, h]
  rfl

theorem step_short {b1 : UInt8} (h : m p = some 0xEB) (h1 : m (p + 1) = some b1) (cpu : Cpu σ) (s : σ) :
    step cpu m (p, s) = some (u32 (p + i8 b1 + 2), s) := by
  have hfetch : fetch m p = some [0xEB, b1] :=
    fetch_eq_some.2 ⟨lde_short (.inr rfl) h, Mem.holds_cons.2 ⟨h, Mem.holds_cons.2 ⟨h1, Mem.holds_nil m _⟩⟩⟩
  have hdecode : decodeOp (p + 2) [0xEB, b1] = .branch .jmp (u32 (p + i8 b1 + 2)) := by
    simp only [decodeOp, show ¬ (0xEB : UInt8).toNat / 16 = 7 by decide, if_false, if_true, Op.branch.injEq, true_and]
    exact u32_congr (by omega)
  rw [step_of_fetch hfetch]
  show execute cpu m p (p + 2) (decodeOp (p + 2) [0xEB, b1]) s = _
  rw [hdecode]
  rfl

theorem step_jmpInd {pointer target : Nat} (h : m p = some 0xFF) (h1 : m (p + 1) = some 0x25)
    (hp : dword m (p + 2) = some pointer) (ht : dword m pointer = some target) (cpu : Cpu σ) (s : σ) :
    step cpu m (p, s) = some (target, s) := by
  obtain ⟨d0, d1, d2, d3, h2, h3, h4, h5, rfl⟩ := dword_eq_some hp
  have hheld : m.Holds p [0xFF, 0x25, d0, d1, d2, d3] := by
    simp only [Mem.holds_cons, Mem.holds_nil, and_true]
    exact ⟨h, h1, h2, h3, h4, h5⟩
  have hfetch : fetch m p = some [0xFF, 0x25, d0, d1, d2, d3] := fetch_eq_some.2 ⟨lde_jmpInd h h1, hheld⟩
  have hdecode : decodeOp (p + 6) [0xFF, 0x25, d0, d1, d2, d3] = .jmpInd (ofLe32 d0 d1 d2 d3) := by
    simp [decodeOp]
  rw [step_of_fetch hfetch]
  show execute cpu m p (p + 6) (decodeOp (p + 6) [0xFF, 0x25, d0, d1, d2, d3]) s = _
  rw [hdecode, execute, ht]
  rfl

/-- The round goes behind the instruction, or follows the jump that it is, before any instruction is taken. -/
def GoesOn (m : Mem UInt8) (buffer opSize n : Nat) (round : Round) : Prop :=
  round = .advance n ∨ opSize = 0 ∧ ∃ target, round = .follow target ∧
    ∀ (σ : Type) (cpu : Cpu σ) s, step cpu m (buffer, s) = some (target, s)

theorem shortRound_goesOn {buffer opSize : Nat} {round : Round} (h : m buffer = some 0xEB)
    (hround : shortRound m hookOpSize buffer opSize 2 = some (.ok round)) : GoesOn m buffer opSize 2 round := by
  obtain ⟨b1, hb1, hround⟩ := Option.map_eq_some_iff.1 hround
  split at hround
  · next hjump =>
    cases hround
    exact .inr ⟨hjump.1, _, rfl, fun _ cpu s => step_short h hb1 cpu s⟩
  · split at hround <;> cases hround
    exact .inl rfl

theorem indirectRound_goesOn {buffer opSize n : Nat} {round : Round} (h : m buffer = some 0xFF)
    (hround : indirectRound m hookOpSize buffer opSize n = some (.ok round)) : GoesOn m buffer opSize n round := by
  obtain ⟨b1, hb1, hround⟩ := Option.bind_eq_some_iff.1 hround
  split at hround
  · cases hround
  · split at hround
    · next hjump =>
      obtain ⟨rfl, hzero, -⟩ := hjump
      obtain ⟨target, htarget, heq⟩ := Option.map_eq_some_iff.1 hround
      cases heq
      obtain ⟨pointer, hpointer, htarget⟩ := Option.bind_eq_some_iff.1 htarget
      exact .inr ⟨hzero, target, rfl, fun _ cpu s => step_jmpInd h hb1 hpointer htarget cpu s⟩
    · cases hround
      exact .inl rfl

theorem hookRound_goesOn {buffer opSize : Nat} {round : Round}
    (h : hookRound m hookOpSize buffer opSize = some (.ok round)) :
    ∃ n, (m buffer ≠ some 0xC2 ∧ m buffer ≠ some 0xC3) ∧ ldeGetOpCodeSize32 m buffer = some n ∧
      GoesOn m buffer opSize n round := by
  obtain ⟨b, hb, h⟩ := Option.bind_eq_some_iff.1 h
  by_cases hret : b = 0xC2 ∨ b = 0xC3
  · rw [if_pos hret] at h
    cases h
  rw [if_neg hret] at h
  obtain ⟨n, hn, h⟩ := Option.bind_eq_some_iff.1 h
  refine ⟨n, by simpa [hb, not_or] using hret, hn, ?_⟩
  split at h
  · next hEB =>
    subst hEB
    obtain rfl : n = 2 := Option.some.inj (hn.symm.trans (lde_short (.inr rfl) hb))
    exact shortRound_goesOn hb h
  · split at h
    · next hFF => exact indirectRound_goesOn (hFF ▸ hb) h
    · cases h
      exact .inl rfl

/-- Once an instruction is taken, the place stays. -/
theorem hookAddressLoop_sweep {fuel opSize finalAddress address size : Nat}
    (h : hookAddressLoop m hookOpSize fuel (finalAddress + opSize) opSize finalAddress = some (.ok (address, size)))
    (hpos : 0 < opSize) :
    address = finalAddress ∧ hookOpSize ≤ size ∧
      Sweep m (finalAddress + hookOpSize) (finalAddress + size) (finalAddress + opSize) := by
  induction fuel generalizing opSize with
  | zero => cases h
  | succ fuel ih =>
    rw [hookAddressLoop] at h
    split at h
    · next hlt =>
      obtain ⟨round, hround, h⟩ := Option.bind_eq_some_iff.1 h
      cases round with
      | error status => cases h
      | ok round =>
        obtain ⟨n, hret, hn, rfl | ⟨hzero, -⟩⟩ := hookRound_goesOn hround
        · dsimp only at h
          rw [Nat.add_assoc] at h
          obtain ⟨ha, hle, hsweep⟩ := ih h (Nat.add_pos_left hpos n)
          exact ⟨ha, hle, .cons (Nat.add_lt_add_left hlt _) hret hn (by rwa [Nat.add_assoc])⟩
        · omega
    · next hlt =>
      cases h
      exact ⟨rfl, Nat.not_lt.1 hlt, .nil⟩

/-- The place that is found is reached from the address that is given, and no more whole instructions are taken there
than the hook needs. -/
theorem hookAddressLoop_spec {fuel buffer address size : Nat} (hpos : 0 < hookOpSize)
    (h : hookAddressLoop m hookOpSize fuel buffer 0 buffer = some (.ok (address, size))) :
    (∀ (σ : Type) (cpu : Cpu σ) s, Runs cpu m (buffer, s) (address, s)) ∧ hookOpSize ≤ size ∧
      Sweep m (address + hookOpSize) (address + size) address := by
  induction fuel generalizing buffer with
  | zero => cases h
  | succ fuel ih =>
    rw [hookAddressLoop, if_pos hpos] at h
    obtain ⟨round, hround, h⟩ := Option.bind_eq_some_iff.1 h
    cases round with
    | error status => cases h
    | ok round =>
      obtain ⟨n, hret, hn, rfl | ⟨-, target, rfl, hstep⟩⟩ := hookRound_goesOn hround
      · dsimp only at h
        rw [Nat.zero_add] at h
        obtain ⟨rfl, hle, hsweep⟩ := hookAddressLoop_sweep h (lde_pos hn)
        exact ⟨fun _ _ _ => .refl, hle, .cons (Nat.lt_add_of_pos_right hpos) hret hn hsweep⟩
      · obtain ⟨hruns, hle, hsweep⟩ := ih h
        exact ⟨fun σ cpu s => .head (hstep σ cpu s) (hruns σ cpu s), hle, hsweep⟩

/-! ## The trampoline -/

/-- `TRAMPOLINE_SIZE`, also the size of `OriginalCode` and of the buffer for the hook. -/
def trampolineSize : Nat := 0x40

/-- `CopyTrampolineStub`, with `bytes` left to copy: what is written, and the status. -/
def copyTrampolineStub (m : Mem UInt8) : Nat → Nat → Nat → Nat → Nat → Option (List UInt8 × Status)
  | 0, _, _, _, _ => none
  | fuel + 1, trampoline, source, bytes, backwardSize =>
    if bytes = 0 then some ([], .success)
    else
      (m source).bind fun b0 =>
        if b0 = 0xC2 ∨ b0 = 0xC3 then some ([], .bufferTooSmall)
        else (copyOneOpCode m trampoline source bytes backwardSize).bind fun r =>
          (copyTrampolineStub m fuel (trampoline + r.1.length) (source + r.2) (bytes - r.2) (backwardSize + r.2)).map
            fun rest => (r.1 ++ rest.1, rest.2)

/-- `GenerateJumpBack`. -/
def generateJumpBack (addressOfJumpAddress : Nat) : List UInt8 := 0xFF :: 0x25 :: le32 addressOfJumpAddress

/-! ## Patches -/

/-- The part of a patch that `HandleFunctionPatch` reads; the source is a virtual address. -/
structure FunctionPatch where
  hookOp : HookOp
  source : Nat
  target : Nat
  /-- A variable for the address of the trampoline is given. -/
  trampoline : Bool
  doNotDisassemble : Bool
  nakedTrampoline : Bool
  keepRawTrampoline : Bool
  executeTrampoline : Bool

/-- `TRAMPOLINE_DATA`: where the trampoline stands, and what `RestoreMemory` needs. The trampoline and
`JumpBackAddress` are in memory. -/
structure TrampolineData where
  trampoline : Nat
  originalCode : List UInt8
  source : Nat

/-- The offset of `JumpBackAddress`, behind `Trampoline`, `OriginalCode` and two sizes. -/
def jumpBackOffset : Nat := 2 * trampolineSize + 8

/-- `sizeof(TRAMPOLINE_DATA)`. -/
def trampolineDataSize : Nat := 0xB8

/-- The bytes of the trampoline at `block`, for `copyOpSize` bytes at `address`. The status of the stub is not looked
at. -/
def trampolineCode (m : Mem UInt8) (patch : FunctionPatch) (block address copyOpSize hookOpSize : Nat) :
    Option (List UInt8) :=
  (copyTrampolineStub m (copyOpSize + 1) block address copyOpSize 0).map fun stub =>
    if copyOpSize = hookOpSize ∧ patch.hookOp = .call ∧ patch.keepRawTrampoline = false then 0xE9 :: stub.1.tail
    else stub.1 ++ generateJumpBack (block + jumpBackOffset)

/-- What a naked trampoline does around its callback: it keeps the registers on the stack and returns through a slot
of its own, or through the return address that a hook with `OpCall` has pushed. -/
def nakedContext (op : HookOp) (returnAddress callBack : Nat) : List UInt8 :=
  (if op = .call then [] else [0x50]) ++ [0x54, 0x50, 0x51, 0x52, 0x53, 0x55, 0x56, 0x57, 0x9C] ++
    0xB8 :: le32 returnAddress ++ [0x89, 0x44, 0x24, 0x24] ++ 0xB8 :: le32 callBack ++ [0x8D, 0x0C, 0x24, 0xFF, 0xD0] ++
    [0x9D, 0x5F, 0x5E, 0x5D, 0x5B, 0x5A, 0x59, 0x58, 0x5C, 0xC3]

/-- `GenerateNakedTrampoline`: the replaced instructions run before the callback with `ExecuteTrampoline`, and behind
it otherwise. -/
def generateNakedTrampoline (m : Mem UInt8) (patch : FunctionPatch) (block address copyOpSize : Nat) :
    Option (List UInt8) :=
  if patch.executeTrampoline then
    (copyTrampolineStub m (copyOpSize + 1) block address copyOpSize 0).map fun stub =>
      if stub.2 = .success then stub.1 ++ nakedContext patch.hookOp (address + copyOpSize) patch.target else stub.1
  else
    let behind := block + (nakedContext patch.hookOp 0 patch.target).length
    (copyTrampolineStub m (copyOpSize + 1) behind address copyOpSize 0).map fun stub =>
      nakedContext patch.hookOp behind patch.target ++ stub.1 ++
        if stub.2 = .success then generateJumpBack (block + jumpBackOffset) else []

/-- The memory with a trampoline and its `JumpBackAddress`, which is written first. -/
def writeTrampoline (m : Mem UInt8) (block jumpBack : Nat) (code : List UInt8) : Mem UInt8 :=
  (m.write (block + jumpBackOffset) (le32 jumpBack)).write block code

/-- What `OriginalCode` holds behind a trampoline that runs over its 64 bytes. -/
def overrun (trampoline originalCode : List UInt8) : List UInt8 :=
  (trampoline.drop trampolineSize ++ originalCode.drop (trampoline.length - trampolineSize)).take originalCode.length

/-- The hook and the `nop`s behind it. -/
def hookBytes (hookBuffer code : List UInt8) (hookOpSize copyOpSize : Nat) : List UInt8 :=
  code ++ patchNop ((hookBuffer.take copyOpSize).drop hookOpSize)

/-- `HandleFunctionPatch` from `GenerateHookCode` on, with `NakedTrampoline`: the hook leads to the trampoline. -/
def handleNakedTrampoline (m : Mem UInt8) (hookBuffer : List UInt8) (block : Option Nat) (protect : Bool)
    (patch : FunctionPatch) (address copyOpSize hookOpSize : Nat) :
    Option (Except Status (Mem UInt8 × Option TrampolineData)) :=
  match block with
  | none => some (.error .noMemory)
  | some block =>
    (readBytes m address copyOpSize).bind fun originalCode =>
      (generateNakedTrampoline m patch block address copyOpSize).map fun trampoline =>
        match generateHookCode address block patch.hookOp hookOpSize with
        | .error status => .error status
        | .ok code =>
          if protect then
            .ok ((writeTrampoline m block (address + copyOpSize) trampoline).write address
              (hookBytes hookBuffer code hookOpSize copyOpSize), some ⟨block, overrun trampoline originalCode, address⟩)
          else .error .accessDenied

/-- `HandleFunctionPatch`: the memory, and the record where there is a trampoline. `hookBuffer` is what
`LocalHookBuffer` holds at first, `block` what the heap gives, and `protect` whether the code can be written. -/
def handleFunctionPatch (m : Mem UInt8) (fuel : Nat) (hookBuffer : List UInt8) (block : Option Nat) (protect : Bool)
    (patch : FunctionPatch) : Option (Except Status (Mem UInt8 × Option TrampolineData)) :=
  if patch.target = 0 ∨ patch.source = 2 ^ 32 - 1 then some (.ok (m, none))
  else match getSizeOfHookOpSize patch.hookOp with
    | none => some (.error .bufferTooSmall)
    | some hookOpSize =>
      (getHookAddressAndSize m fuel patch.source hookOpSize).bind fun place =>
        match place with
        | .error status => some (.error status)
        | .ok (address, copyOpSize) =>
          if patch.nakedTrampoline then
            handleNakedTrampoline m hookBuffer block protect patch address copyOpSize hookOpSize
          else match generateHookCode address patch.target patch.hookOp hookOpSize with
          | .error status => some (.error status)
          | .ok code =>
            let hook := hookBytes hookBuffer code hookOpSize copyOpSize
            if patch.trampoline ∧ patch.doNotDisassemble = false then
              match block with
              | none => some (.error .noMemory)
              | some block =>
                (readBytes m address copyOpSize).bind fun originalCode =>
                  (trampolineCode m patch block address copyOpSize hookOpSize).map fun trampoline =>
                    if protect then
                      .ok ((writeTrampoline m block (address + copyOpSize) trampoline).write address hook,
                        some ⟨block, originalCode, address⟩)
                    else .error .accessDenied
            else if protect then some (.ok (m.write address hook, none))
            else some (.error .accessDenied)

/-- `RestoreMemory` of a trampoline. -/
def restoreMemory (m : Mem UInt8) (t : TrampolineData) : Mem UInt8 := m.write t.source t.originalCode

end SiglusExtract.Mp
