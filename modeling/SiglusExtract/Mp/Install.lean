/-
`HandleFunctionPatch` (my.cpp): what it writes, that the trampoline has room for it, and that the program with the hook
is the program with the handler inserted.
-/
import SiglusExtract.Lib.Journal
import SiglusExtract.Mp.Trampoline

namespace SiglusExtract.Mp

open Bytes CInt Lde

variable {σ : Type} {m m' : Mem UInt8} {p q start limit stop tramp tail hookOpSize n : Nat} {bytes copied : List UInt8}

/-! ## Room -/

theorem two_le_length {next target : Nat} {kind : Branch} (h : decodeOp next bytes = .branch kind target) :
    2 ≤ bytes.length := by
  match bytes with
  | [] => cases h
  | [_] => cases h
  | _ :: _ :: _ => simp

/-- A copy is six bytes long at most where it is longer than the instruction, which then has two. -/
theorem copyOneOpCode_size {forwardSize backwardSize : Nat} (hfetch : fetch m p = some bytes)
    (h : copyOneOpCode m q p forwardSize backwardSize = some (copied, n)) :
    n = bytes.length ∧ (copied.length = n ∨ copied.length ≤ 6 ∧ 2 ≤ n) := by
  obtain ⟨hlde, hheld⟩ := fetch_eq_some.1 hfetch
  obtain rfl : n = bytes.length := Option.some.inj ((copyOneOpCode_length h).symm.trans hlde)
  simp only [copyOneOpCode, hlde, readBytes_of_holds hheld, Option.bind_some, Option.bind_eq_some_iff] at h
  obtain ⟨branch, hbranch, h⟩ := h
  refine ⟨rfl, ?_⟩
  cases branch with
  | none =>
    cases h
    exact .inl rfl
  | some b =>
    obtain ⟨kind, hnear, hdecode⟩ := relativeBranch_some hfetch hbranch
    dsimp only at h
    split at h <;> cases h
    · exact .inl rfl
    · rw [List.length_append, le32_length]
      have := hnear.length_le
      exact .inr ⟨by omega, two_le_length (hdecode 0)⟩

/-- The instruction at an address of the sweep. -/
theorem Sweep.fetch (h : Sweep m limit stop p) (hlt : p < stop) (hread : ∀ a, p ≤ a → a < stop → (m a).isSome) :
    p < limit ∧ ∃ bytes, fetch m p = some bytes ∧ p + bytes.length ≤ stop := by
  cases h with
  | nil => exact absurd hlt (Nat.lt_irrefl _)
  | @cons _ n hlimit _ hlde rest =>
    have hle := rest.le
    obtain ⟨bytes, rfl, hheld⟩ := exists_holds fun k (hk : k < n) => hread (p + k) (Nat.le_add_right p k) (by omega)
    exact ⟨hlimit, bytes, fetch_eq_some.2 ⟨hlde, hheld⟩, hle⟩

/-- Three bytes for one are enough, and fifteen for the last instruction. -/
theorem Twin.room (h : Twin m start stop tramp p q) (hsweep : Sweep m (start + hookOpSize) stop start)
    (hread : ∀ a, start ≤ a → a < stop → (m a).isSome)
    (hmax : ∀ p n, start ≤ p → p < stop → ldeGetOpCodeSize32 m p = some n → n ≤ 15) :
    q ≤ tramp + 3 * (p - start) ∧ q ≤ tramp + 3 * (hookOpSize - 1) + 15 := by
  induction h with
  | start => omega
  | @next p q n copied twin hlt hcopy ih =>
    have hstart := twin.start_le
    obtain ⟨hlimit, bytes, hfetch, -⟩ := (twin.sweep hsweep).fetch hlt fun a ha => hread a (Nat.le_trans hstart ha)
    have hsize := (copyOneOpCode_size hfetch hcopy).2
    have hn := hmax p n hstart hlt (copyOneOpCode_length hcopy)
    omega

/-- The replaced instructions end where the last copy ends. -/
theorem Stubbed.twin (h : Stubbed m m' start stop tail p q) (htwin : Twin m start stop tramp p q)
    (hsweep : Sweep m limit stop p) : Twin m start stop tramp stop tail := by
  induction hsweep generalizing q with
  | nil => exact h.end_eq (Nat.le_refl stop) ▸ htwin
  | @cons p n hlimit _ hlde rest ih =>
    have hlt : p < stop := Nat.lt_of_lt_of_le (Nat.lt_add_of_pos_right (lde_pos hlde)) rest.le
    obtain ⟨copied, n', hcopy, -, hnext⟩ := h.copied hlt htwin.start_le
    obtain rfl : n' = n := Option.some.inj ((copyOneOpCode_length hcopy).symm.trans hlde)
    exact ih hnext (htwin.next hlt hcopy)

theorem Sweep.size_lt (h : Sweep m limit stop p) (hlt : p < limit)
    (hmax : ∀ a n, p ≤ a → a < stop → ldeGetOpCodeSize32 m a = some n → n ≤ 15) : stop < limit + 15 := by
  induction h with
  | nil => omega
  | @cons p n _ _ hlde rest ih =>
    have hn := hmax p n (Nat.le_refl p) (Nat.lt_of_lt_of_le (Nat.lt_add_of_pos_right (lde_pos hlde)) rest.le) hlde
    by_cases hnext : p + n < limit
    · exact ih hnext fun a n ha => hmax a n (by omega)
    · cases rest with
      | nil => omega
      | cons hlt => exact absurd hlt hnext

/-- The stub of a sweep is copied to its end. -/
theorem copyTrampolineStub_success {fuel backwardSize : Nat} {stub : List UInt8} {status : Status}
    (hsweep : Sweep m limit stop p) (h : copyTrampolineStub m fuel q p (stop - p) backwardSize = some (stub, status)) :
    status = .success := by
  induction hsweep generalizing fuel q backwardSize stub with
  | nil =>
    cases fuel with
    | zero => cases h
    | succ fuel =>
      rw [copyTrampolineStub, if_pos (Nat.sub_self _)] at h
      cases h
      rfl
  | @cons p n hlimit hret hlde rest ih =>
    cases fuel with
    | zero => cases h
    | succ fuel =>
      have hpos := lde_pos hlde
      have hle := rest.le
      rw [copyTrampolineStub, if_neg (by omega)] at h
      obtain ⟨b, hb, h⟩ := Option.bind_eq_some_iff.1 h
      rw [if_neg (by rw [hb] at hret; simpa using hret)] at h
      obtain ⟨⟨copied, n'⟩, hcopy, h⟩ := Option.bind_eq_some_iff.1 h
      obtain ⟨⟨stub', status'⟩, hnext, heq⟩ := Option.map_eq_some_iff.1 h
      cases heq
      obtain rfl : n' = n := Option.some.inj ((copyOneOpCode_length hcopy).symm.trans hlde)
      dsimp only at hnext
      rw [show stop - p - n' = stop - (p + n') by omega] at hnext
      exact ih hnext

/-! ## The installed hook -/

variable {fuel copyOpSize : Nat} {hookBuffer : List UInt8} {block : Option Nat} {protect : Bool} {patch : FunctionPatch}
  {t : TrampolineData}

/-- What a successful `HandleFunctionPatch` with a trampoline has found and written. -/
structure Installed (m : Mem UInt8) (fuel : Nat) (hookBuffer : List UInt8) (patch : FunctionPatch) (m' : Mem UInt8)
    (t : TrampolineData) (hookOpSize : Nat) (hookCode trampoline : List UInt8) : Prop where
  size : getSizeOfHookOpSize patch.hookOp = some hookOpSize
  place : getHookAddressAndSize m fuel patch.source hookOpSize = some (.ok (t.source, t.originalCode.length))
  original : m.Holds t.source t.originalCode
  hook : generateHookCode t.source patch.target patch.hookOp hookOpSize = .ok hookCode
  code : trampolineCode m patch t.trampoline t.source t.originalCode.length hookOpSize = some trampoline
  written : m' = (writeTrampoline m t.trampoline (t.source + t.originalCode.length) trampoline).write t.source
    (hookBytes hookBuffer hookCode hookOpSize t.originalCode.length)

theorem handleFunctionPatch_installed
    (h : handleFunctionPatch m fuel hookBuffer block protect patch = some (.ok (m', some t)))
    (hnaked : patch.nakedTrampoline = false) :
    ∃ hookOpSize hookCode trampoline, Installed m fuel hookBuffer patch m' t hookOpSize hookCode trampoline := by
  unfold handleFunctionPatch at h
  split at h
  · cases h
  split at h
  · cases h
  next hookOpSize hsize =>
    obtain ⟨place, hplace, h⟩ := Option.bind_eq_some_iff.1 h
    split at h
    · cases h
    next address copyOpSize =>
      rw [if_neg (Bool.eq_false_iff.1 hnaked)] at h
      split at h
      · cases h
      next hookCode hcode =>
        dsimp only at h
        split at h
        · split at h
          · cases h
          next block =>
            obtain ⟨original, horiginal, h⟩ := Option.bind_eq_some_iff.1 h
            obtain ⟨trampoline, htramp, h⟩ := Option.map_eq_some_iff.1 h
            split at h <;> cases h
            obtain rfl := readBytes_length horiginal
            exact ⟨hookOpSize, hookCode, trampoline, hsize, hplace, holds_of_readBytes horiginal, hcode, htramp, rfl⟩
        · split at h <;> cases h

theorem patchNop_length (buffer : List UInt8) : (patchNop buffer).length = buffer.length := by
  unfold patchNop
  split <;> simp [*]

theorem generateHookCode_length {sourceIp target : Nat} {op : HookOp} {code : List UInt8}
    (hsize : getSizeOfHookOpSize op = some hookOpSize) (h : generateHookCode sourceIp target op hookOpSize = .ok code) :
    code.length = hookOpSize := by
  cases op <;> cases hsize <;> cases h <;> rfl

/-- The address behind the replaced instructions. -/
def TrampolineData.behind (t : TrampolineData) : Nat := t.source + t.originalCode.length

/-- The hook does not write to the address. -/
def TrampolineData.Free (t : TrampolineData) (a : Nat) : Prop :=
  ¬ Mem.Within t.source t.originalCode.length a ∧ ¬ Mem.Within t.trampoline trampolineDataSize a

/-- The heap gives a block apart from the code, and the replaced instructions are none that a processor refuses for
their length. -/
structure Placed (m : Mem UInt8) (hookBuffer : List UInt8) (t : TrampolineData) : Prop where
  buffer : hookBuffer.length = trampolineSize
  short : ∀ p n, t.source ≤ p → p < t.behind → ldeGetOpCodeSize32 m p = some n → n ≤ 15
  apart : Mem.Apart t.source t.originalCode.length t.trampoline trampolineDataSize
  block_le : t.trampoline + trampolineDataSize ≤ 2 ^ 32
  behind_lt : t.behind < 2 ^ 32

variable {hookCode trampoline : List UInt8}

theorem hookOpSize_bounds {op : HookOp} (h : getSizeOfHookOpSize op = some hookOpSize) :
    5 ≤ hookOpSize ∧ hookOpSize ≤ 7 := by
  cases op <;> cases h <;> decide

/-- The replaced instructions are at least as long as the hook. -/
theorem place_sweep {source address size : Nat} {op : HookOp} (hsize : getSizeOfHookOpSize op = some hookOpSize)
    (hplace : getHookAddressAndSize m fuel source hookOpSize = some (.ok (address, size))) :
    hookOpSize ≤ size ∧ Sweep m (address + hookOpSize) (address + size) address :=
  (hookAddressLoop_spec (Nat.lt_of_lt_of_le (by decide) (hookOpSize_bounds hsize).1) hplace).2

theorem place_size_lt {source address size : Nat} {op : HookOp} (hsize : getSizeOfHookOpSize op = some hookOpSize)
    (hplace : getHookAddressAndSize m fuel source hookOpSize = some (.ok (address, size)))
    (hshort : ∀ p n, address ≤ p → p < address + size → ldeGetOpCodeSize32 m p = some n → n ≤ 15) :
    size < hookOpSize + 15 := by
  have hpos := (hookOpSize_bounds hsize).1
  have := (place_sweep hsize hplace).2.size_lt (by omega) hshort
  omega

/-- The copies of the replaced instructions. -/
theorem stub_room {address size fuel : Nat} {stub : List UInt8}
    (hsweep : Sweep m (address + hookOpSize) (address + size) address)
    (hread : ∀ a, address ≤ a → a < address + size → (m a).isSome)
    (hshort : ∀ p n, address ≤ p → p < address + size → ldeGetOpCodeSize32 m p = some n → n ≤ 15)
    (hstub : copyTrampolineStub m fuel tramp address size 0 = some (stub, .success)) :
    stub.length ≤ 3 * (hookOpSize - 1) + 15 := by
  have hstubbed : Stubbed m (m.write tramp stub) address (address + size) (tramp + stub.length) address tramp := by
    refine ⟨fuel, stub, ?_, Mem.holds_write m _ _, rfl⟩
    rwa [Nat.sub_self, Nat.add_sub_cancel_left]
  have hroom := ((hstubbed.twin .start hsweep).room hsweep hread hshort).2
  omega

namespace Installed

variable (h : Installed m fuel hookBuffer patch m' t hookOpSize hookCode trampoline) (hplaced : Placed m hookBuffer t)

include h

theorem sweep : hookOpSize ≤ t.originalCode.length ∧ Sweep m (t.source + hookOpSize) t.behind t.source :=
  place_sweep h.size h.place

theorem readable {a : Nat} (ha : t.source ≤ a) (ha' : a < t.behind) : (m a).isSome := by
  have hlt : a - t.source < t.originalCode.length := by
    unfold TrampolineData.behind at ha'
    omega
  have := h.original (a - t.source) hlt
  rw [Nat.add_sub_cancel' ha] at this
  rw [this]
  rfl

/-- The stub, which the jump back follows but in the trampoline of a call. -/
theorem stub : ∃ stub, copyTrampolineStub m (t.originalCode.length + 1) t.trampoline t.source t.originalCode.length 0 =
    some (stub, .success) ∧ trampoline =
      if t.originalCode.length = hookOpSize ∧ patch.hookOp = .call ∧ patch.keepRawTrampoline = false then
        0xE9 :: stub.tail
      else stub ++ generateJumpBack (t.trampoline + jumpBackOffset) := by
  obtain ⟨⟨stub, status⟩, hstub, rfl⟩ := Option.map_eq_some_iff.1 h.code
  have hsize : t.behind - t.source = t.originalCode.length := Nat.add_sub_cancel_left _ _
  have := copyTrampolineStub_success h.sweep.2 (hsize ▸ hstub)
  exact ⟨stub, this ▸ hstub, rfl⟩

section Fits

variable (hshort : ∀ p n, t.source ≤ p → p < t.behind → ldeGetOpCodeSize32 m p = some n → n ≤ 15)

include hshort

theorem size_lt : t.originalCode.length < hookOpSize + 15 := place_size_lt h.size h.place hshort

theorem stub_length {stub : List UInt8} {fuel : Nat}
    (hstub : copyTrampolineStub m fuel t.trampoline t.source t.originalCode.length 0 = some (stub, .success)) :
    stub.length ≤ 3 * (hookOpSize - 1) + 15 :=
  stub_room h.sweep.2 (fun _ => h.readable) hshort hstub

/-- The trampoline and the replaced instructions have room in their members of the record. -/
theorem fits : trampoline.length ≤ trampolineSize ∧ t.originalCode.length ≤ trampolineSize := by
  obtain ⟨stub, hstub, rfl⟩ := h.stub
  have hlen := h.stub_length hshort hstub
  have hsize := h.size_lt hshort
  have hbounds := hookOpSize_bounds h.size
  constructor
  · split
    · rw [List.length_cons, List.length_tail, trampolineSize]
      omega
    · rw [List.length_append, generateJumpBack, List.length_cons, List.length_cons, le32_length, trampolineSize]
      omega
  · rw [trampolineSize]
    omega

end Fits

include hplaced

theorem hook_length : (hookBytes hookBuffer hookCode hookOpSize t.originalCode.length).length =
    t.originalCode.length := by
  have hle := h.sweep.1
  have hfits := (h.fits hplaced.short).2
  rw [hookBytes, List.length_append, generateHookCode_length h.size h.hook, patchNop_length, List.length_drop,
    List.length_take, hplaced.buffer]
  omega

/-- What the hook writes in the end: itself, the trampoline and the address that it jumps back to. -/
theorem held : m'.Holds t.source hookCode ∧ m'.Holds t.trampoline trampoline ∧
    m'.Holds (t.trampoline + jumpBackOffset) (le32 t.behind) := by
  have hfits := (h.fits hplaced.short).1
  have hlen := h.hook_length hplaced
  have hapart := hplaced.apart
  rw [h.written, writeTrampoline]
  unfold Mem.Apart at hapart
  refine ⟨(Mem.holds_append.1 (Mem.holds_write _ _ _)).1, (Mem.holds_write _ _ _).write ?_,
    ((Mem.holds_write m _ _).write ?_).write ?_⟩
  · rw [hlen, Mem.Apart]
    simp only [trampolineDataSize, trampolineSize] at hapart hfits
    omega
  · exact .inl (by rw [jumpBackOffset]; omega)
  · rw [hlen, Mem.Apart, le32_length]
    simp only [trampolineDataSize, trampolineSize, jumpBackOffset] at hapart ⊢
    omega

theorem same {a : Nat} (ha : t.Free a) : m' a = m a := by
  have hfits := (h.fits hplaced.short).1
  obtain ⟨hsource, hblock⟩ := ha
  simp only [Mem.Within, trampolineDataSize, trampolineSize] at hsource hblock hfits
  rw [h.written, writeTrampoline, Mem.write_outside, Mem.write_outside, Mem.write_outside]
  · simp only [Mem.Within, le32_length, jumpBackOffset, trampolineSize]
    omega
  · simp only [Mem.Within]
    omega
  · rw [h.hook_length hplaced]
    exact hsource

end Installed

/-! ### Naked trampolines -/

theorem nakedContext_length_le (op : HookOp) (returnAddress callBack : Nat) :
    (nakedContext op returnAddress callBack).length ≤ 39 := by
  unfold nakedContext
  split <;> simp [le32_length]

theorem overrun_length (trampoline originalCode : List UInt8) :
    (overrun trampoline originalCode).length = originalCode.length := by
  rw [overrun, List.length_take, List.length_append, List.length_drop, List.length_drop]
  omega

/-- A naked trampoline is the copies of the replaced instructions, what is done around the callback and, where there is
one, the jump back. -/
theorem generateNakedTrampoline_length {address size : Nat} {code : List UInt8}
    (hsweep : Sweep m limit (address + size) address)
    (h : generateNakedTrampoline m patch tramp address size = some code) :
    ∃ q stub, copyTrampolineStub m (size + 1) q address size 0 = some (stub, .success) ∧
      code.length ≤ 39 + stub.length + 6 := by
  unfold generateNakedTrampoline at h
  split at h <;> obtain ⟨⟨stub, status⟩, hstub, rfl⟩ := Option.map_eq_some_iff.1 h
  all_goals
    have hlen := nakedContext_length_le patch.hookOp
    have hsize : address + size - address = size := Nat.add_sub_cancel_left _ _
    obtain rfl := copyTrampolineStub_success hsweep (hsize ▸ hstub)
    refine ⟨_, stub, hstub, ?_⟩
    simp only [if_pos, List.length_append]
  · have := hlen (address + size) patch.target
    omega
  · have := hlen (tramp + (nakedContext patch.hookOp 0 patch.target).length) patch.target
    rw [generateJumpBack, List.length_cons, List.length_cons, le32_length]
    omega

/-- What a successful `HandleFunctionPatch` has found for a naked trampoline. -/
theorem handleFunctionPatch_naked
    (h : handleFunctionPatch m fuel hookBuffer block protect patch = some (.ok (m', some t)))
    (hnaked : patch.nakedTrampoline = true) :
    ∃ hookOpSize original code, getSizeOfHookOpSize patch.hookOp = some hookOpSize ∧
      getHookAddressAndSize m fuel patch.source hookOpSize = some (.ok (t.source, t.originalCode.length)) ∧
      readBytes m t.source t.originalCode.length = some original ∧
      generateNakedTrampoline m patch t.trampoline t.source t.originalCode.length = some code ∧
      t.originalCode = overrun code original := by
  unfold handleFunctionPatch at h
  split at h
  · cases h
  split at h
  · cases h
  next hookOpSize hsize =>
    obtain ⟨place, hplace, h⟩ := Option.bind_eq_some_iff.1 h
    split at h
    · cases h
    next address copyOpSize =>
      unfold handleNakedTrampoline at h
      split at h
      · cases h
      next block =>
        obtain ⟨original, horiginal, h⟩ := Option.bind_eq_some_iff.1 h
        obtain ⟨code, hcode, h⟩ := Option.map_eq_some_iff.1 h
        split at h
        · cases h
        split at h <;> cases h
        obtain rfl := readBytes_length horiginal
        dsimp only
        rw [overrun_length]
        exact ⟨hookOpSize, original, code, hsize, hplace, horiginal, hcode, rfl⟩

/-- A naked trampoline can run over into the saved bytes, by fourteen bytes at most. -/
theorem naked_fits (h : handleFunctionPatch m fuel hookBuffer block protect patch = some (.ok (m', some t)))
    (hnaked : patch.nakedTrampoline = true)
    (hshort : ∀ p n, t.source ≤ p → p < t.behind → ldeGetOpCodeSize32 m p = some n → n ≤ 15) :
    ∃ code, generateNakedTrampoline m patch t.trampoline t.source t.originalCode.length = some code ∧
      code.length ≤ trampolineSize + 14 ∧ t.originalCode.length ≤ trampolineSize := by
  obtain ⟨hookOpSize, original, code, hsize, hplace, horiginal, hcode, -⟩ := handleFunctionPatch_naked h hnaked
  have hbounds := hookOpSize_bounds hsize
  have hsweep := (place_sweep hsize hplace).2
  have hlt := place_size_lt hsize hplace hshort
  obtain ⟨q, stub, hstub, hlen⟩ := generateNakedTrampoline_length hsweep hcode
  have hread (a : Nat) (ha : t.source ≤ a) (ha' : a < t.source + t.originalCode.length) : (m a).isSome := by
    have hheld := holds_of_readBytes horiginal (a - t.source) (by rw [readBytes_length horiginal]; omega)
    rw [Nat.add_sub_cancel' ha] at hheld
    rw [hheld]
    rfl
  have hroom := stub_room hsweep hread hshort hstub
  refine ⟨code, hcode, ?_, ?_⟩ <;> rw [trampolineSize] <;> omega

/-- The trampoline never runs over its 64 bytes unless it is a naked one, and neither do the bytes that it replaces. -/
theorem handleFunctionPatch_fits
    (hpatch : handleFunctionPatch m fuel hookBuffer block protect patch = some (.ok (m', some t)))
    (hshort : ∀ p n, t.source ≤ p → p < t.behind → ldeGetOpCodeSize32 m p = some n → n ≤ 15) :
    ∃ hookOpSize code, getSizeOfHookOpSize patch.hookOp = some hookOpSize ∧
      (if patch.nakedTrampoline then generateNakedTrampoline m patch t.trampoline t.source t.originalCode.length
        else trampolineCode m patch t.trampoline t.source t.originalCode.length hookOpSize) = some code ∧
      code.length ≤ (if patch.nakedTrampoline then trampolineSize + 14 else trampolineSize) ∧
      t.originalCode.length ≤ trampolineSize := by
  cases hnaked : patch.nakedTrampoline with
  | false =>
    obtain ⟨hookOpSize, hookCode, trampoline, h⟩ := handleFunctionPatch_installed hpatch hnaked
    exact ⟨hookOpSize, trampoline, h.size, h.code, h.fits hshort⟩
  | true =>
    obtain ⟨hookOpSize, -, -, hsize, -⟩ := handleFunctionPatch_naked hpatch hnaked
    obtain ⟨code, hcode, hfits⟩ := naked_fits hpatch hnaked hshort
    exact ⟨hookOpSize, code, hsize, hcode, hfits⟩

/-! ## The run of the hooked program -/

variable {cpu : Cpu σ} {code : Nat → Prop} {H : σ → σ → Prop}

/-- A near jump. -/
theorem step_near {target : Nat} (h : m.Holds p (0xE9 :: le32 (u32 (target - (p + 5 : Nat)))))
    (htarget : target < 2 ^ 32) (cpu : Cpu σ) (s : σ) : step cpu m (p, s) = some (target, s) := by
  have hfetch : fetch m p = some ([0xE9] ++ le32 (u32 (target - (p + 5 : Nat)))) :=
    fetch_eq_some.2 ⟨isNear_jmp.measure m p _ h, h⟩
  rw [step_of_fetch hfetch, isNear_jmp.decode]
  have hmod := u32_mod (target - (p + 5 : Nat))
  have heq : u32 ((p + 5 : Nat) + u32 (target - (p + 5 : Nat))) = u32 target := u32_congr (by omega)
  have hu : u32 (target : Int) = target := by
    rw [u32_eq (by omega) (by omega), Int.toNat_natCast]
  show some (u32 ((p + 5 : Nat) + u32 (target - (p + 5 : Nat))), s) = some (target, s)
  rw [heq, hu]

/-- How the processor executes the hooks that are no relative branch: `push` and `ret` leave nothing behind, `mov` and
`jmp` leave the target in eax. -/
structure Absolute (cpu : Cpu σ) (setEax : Nat → σ → σ) : Prop where
  push : ∀ p q target s, ∃ s', cpu.exec p (0x68 :: le32 target) s = some (none, s') ∧
    cpu.exec q [0xC3] s' = some (some target, s)
  mov : ∀ p target s, cpu.exec p (0xB8 :: le32 target) s = some (none, setEax target s)
  jmp : ∀ p target s, cpu.exec p [0xFF, 0xE0] (setEax target s) = some (some target, setEax target s)

/-- The state in which the target of a hook is entered. -/
def HookOp.entered (op : HookOp) (setEax : Nat → σ → σ) (target : Nat) (s : σ) : σ :=
  if op.isRegister then setEax target s else s

/-- The form of a hook for a register does not depend on the register: its index is a multiple of 0x10000000. -/
theorem generateHookCode_register {op : HookOp} (h : op.isRegister = true) (sourceIp target hookOpSize : Nat) :
    generateHookCode sourceIp target op hookOpSize = .ok (0xB8 :: le32 target ++ [0xFF, 0xE0]) := by
  cases op <;> first | rfl | cases h

theorem decodeOp_absolute (b : UInt8) (hb : b ≠ 0xE8 ∧ b ≠ 0xE9) (next target : Nat) :
    decodeOp next (b :: le32 target) = .other (b :: le32 target) := by
  simp [le32, decodeOp, hb.1, hb.2]

theorem lde_absolute {b : UInt8} (hb : b = 0x68 ∨ b = 0xB8) (hread : m p = some b) :
    ldeGetOpCodeSize32 m p = some 5 := by
  have hf : ¬ IsPrefix b ∧ b ≠ 0x0F ∧ (Opcode.one b).flags = 0x10 := by rcases hb with rfl | rfl <;> decide
  have := lde_plain (one_ok hf.1 hf.2.1) (by rw [hf.2.2]; rfl) (Mem.holds_cons.2 ⟨hread, Mem.holds_nil m _⟩)
  rwa [hf.2.2] at this

theorem step_absolute {b : UInt8} {target : Nat} (hb : b = 0x68 ∨ b = 0xB8) (h : m.Holds p (b :: le32 target))
    (cpu : Cpu σ) (s : σ) :
    step cpu m (p, s) = (cpu.exec p (b :: le32 target) s).map fun r => (r.1.getD (p + 5), r.2) := by
  have hfetch : fetch m p = some (b :: le32 target) :=
    fetch_eq_some.2 ⟨lde_absolute hb (Mem.holds_cons.1 h).1, h⟩
  rw [step_of_fetch hfetch, decodeOp_absolute b (by rcases hb with rfl | rfl <;> decide)]
  rfl

theorem step_ret (h : m.Holds p [0xC3]) (cpu : Cpu σ) (s : σ) :
    step cpu m (p, s) = (cpu.exec p [0xC3] s).map fun r => (r.1.getD (p + 1), r.2) := by
  have hlde : ldeGetOpCodeSize32 m p = some 1 :=
    lde_plain (o := .one 0xC3) (one_ok (by decide) (by decide)) (by decide) h
  rw [step_of_fetch (fetch_eq_some.2 ⟨hlde, h⟩)]
  rfl

theorem jmpEax_ok : ∀ op, Opcode.one 0xFF = .one op → ¬ IsPrefix op ∧ op ≠ 0x0F := one_ok (by decide) (by decide)

/-- `jmp eax`. -/
def jmpEaxHeader : Header where
  prefixes := []
  opcode := .one 0xFF
  modrm := some 0xE0
  sib := none
  prefixes_ok := List.forall_mem_nil _
  opcode_ok := jmpEax_ok
  modrm_ok := by decide
  sib_ok := by decide

theorem step_jmpEax (h : m.Holds p [0xFF, 0xE0]) (cpu : Cpu σ) (s : σ) :
    step cpu m (p, s) = (cpu.exec p [0xFF, 0xE0] s).map fun r => (r.1.getD (p + 2), r.2) := by
  have hlde : ldeGetOpCodeSize32 m p = some 2 := jmpEaxHeader.lde_eq h (Nat.two_pow_pos 32)
  rw [step_of_fetch (fetch_eq_some.2 ⟨hlde, h⟩)]
  rfl

/-- A hook that is no call leads to its target. -/
theorem Installed.entry {setEax : Nat → σ → σ}
    (h : Installed m fuel hookBuffer patch m' t hookOpSize hookCode trampoline)
    (hplaced : Placed m hookBuffer t) (hop : patch.hookOp ≠ .call) (htarget : patch.target < 2 ^ 32)
    (habs : patch.hookOp = .jump ∨ Absolute cpu setEax) (s : σ) :
    Runs cpu m' (t.source, s) (patch.target, patch.hookOp.entered setEax patch.target s) := by
  have hheld := (h.held hplaced).1
  have hsize := h.size
  have hcode := h.hook
  cases hreg : patch.hookOp.isRegister with
  | true =>
    have habs := habs.resolve_left fun hjump => by rw [hjump] at hreg; cases hreg
    rw [generateHookCode_register hreg] at hcode
    cases hcode
    rw [HookOp.entered, if_pos hreg]
    obtain ⟨hmov, hjmp⟩ := Mem.holds_append.1 hheld
    have hfirst : step cpu m' (t.source, s) = some (t.source + 5, setEax patch.target s) := by
      rw [step_absolute (.inr rfl) hmov cpu s, habs.mov]
      rfl
    refine .tail (.single hfirst) ((step_jmpEax hjmp cpu _).trans ?_)
    rw [habs.jmp]
    rfl
  | false =>
    rw [HookOp.entered, hreg, if_neg Bool.false_ne_true]
    generalize patch.hookOp = op at hop habs hsize hcode hreg
    cases op with
    | call => exact absurd rfl hop
    | jump =>
      cases hsize
      cases hcode
      exact .single (step_near hheld htarget cpu s)
    | push =>
      cases hsize
      cases hcode
      obtain ⟨hpush, hret⟩ := Mem.holds_append.1 hheld
      obtain ⟨s', hs, hs'⟩ := (habs.resolve_left nofun).push t.source (t.source + 5) patch.target s
      have hfirst : step cpu m' (t.source, s) = some (t.source + 5, s') := by
        rw [step_absolute (.inl rfl) hpush cpu s, hs]
        rfl
      refine .tail (.single hfirst) ((step_ret hret cpu s').trans ?_)
      rw [show t.source + (0x68 :: le32 patch.target).length = t.source + 5 from rfl, hs']
      rfl
    | jr10 => cases hsize
    | jrax => cases hreg
    | jrcx => cases hreg
    | jrdx => cases hreg
    | jrbx => cases hreg
    | jrbp => cases hreg
    | jrsi => cases hreg
    | jrdi => cases hreg

/-- The replaced instructions mean the same where the trampoline has them. -/
structure Hookable (cpu : Cpu σ) (m : Mem UInt8) (hookBuffer : List UInt8) (t : TrampolineData) (code : Nat → Prop) :
    Prop extends Placed m hookBuffer t, Program cpu m t.Free t.source t.behind code where
  movable : ∀ p q bytes, Twin m t.source t.behind t.trampoline p q → p < t.behind → fetch m p = some bytes →
    (decodeOp (p + bytes.length) bytes).Movable cpu m t.Free t.source t.behind t.trampoline p q

/-- Behind the copies there is the jump back. -/
theorem Installed.moved (h : Installed m fuel hookBuffer patch m' t hookOpSize hookCode trampoline)
    (hhook : Hookable cpu m hookBuffer t code) (hop : patch.hookOp ≠ .call) :
    ∃ tail, Moved cpu m m' t.Free t.source t.behind t.trampoline tail ∧
      ∀ s, step cpu m' (tail, s) = some (t.behind, s) := by
  have hplaced := hhook.toPlaced
  obtain ⟨stub, hstub, htramp⟩ := h.stub
  rw [if_neg fun hcall => hop hcall.2.1] at htramp
  obtain ⟨-, hheld, hback⟩ := h.held hplaced
  have hlen := h.stub_length hplaced.short hstub
  have hsize := h.size_lt hplaced.short
  have hbounds := hookOpSize_bounds h.size
  have hblock := hplaced.block_le
  simp only [trampolineDataSize] at hblock
  rw [htramp, Mem.holds_append] at hheld
  refine ⟨t.trampoline + stub.length, ⟨fun a => h.same hplaced, ⟨_, h.sweep.2⟩, ?_,
    Nat.le_of_lt hplaced.behind_lt, by omega, ⟨t.originalCode.length + 1, stub, ?_, hheld.1, rfl⟩,
    hhook.movable⟩, fun s => ?_⟩
  · rw [TrampolineData.behind]
    omega
  · rw [Nat.sub_self, TrampolineData.behind, Nat.add_sub_cancel_left]
    exact hstub
  · obtain ⟨hFF, hrest⟩ := Mem.holds_cons.1 hheld.2
    obtain ⟨h25, hpointer⟩ := Mem.holds_cons.1 hrest
    exact step_jmpInd hFF h25 (dword_of_holds hpointer (by rw [jumpBackOffset, trampolineSize]; omega))
      (dword_of_holds hback hplaced.behind_lt) cpu s

/-- A function that begins with `mov edi, edi`, `push ebp` and `mov ebp, esp`, and a handler that goes on to the
trampoline at 0x100. -/
def sampleCode : List UInt8 := [0x8B, 0xFF, 0x55, 0x8B, 0xEC, 0xC3, 0xE9, 0xF5, 0, 0, 0]

/-- A processor that counts, and stops at `ret`. -/
def countingCpu : Cpu Nat where
  cond _ _ := false
  push _ s := s
  exec _ bytes s := if bytes = [0xC3] then none else some (none, s + 1)

def samplePatch : FunctionPatch where
  hookOp := .jump
  source := 0
  target := 6
  trampoline := true
  doNotDisassemble := false
  nakedTrampoline := false
  keepRawTrampoline := false
  executeTrampoline := false

def sampleTrampoline : TrampolineData where
  trampoline := 0x100
  originalCode := [0x8B, 0xFF, 0x55, 0x8B, 0xEC]
  source := 0

def sampleHooked : Mem UInt8 :=
  (writeTrampoline (Mem.ofList sampleCode) 0x100 5 ([0x8B, 0xFF, 0x55, 0x8B, 0xEC] ++ generateJumpBack 0x188)).write 0
    [0xE9, 1, 0, 0, 0]

/-- The instructions of the function. -/
def SampleAt (p : Nat) : Prop := p = 0 ∨ p = 2 ∨ p = 3 ∨ p = 5

/-- One of the replaced instructions, or the `ret` behind them. -/
theorem SampleAt.fetch {p : Nat} (hp : SampleAt p) :
    ∃ bytes, fetch (Mem.ofList sampleCode) p = some bytes ∧ decodeOp (p + bytes.length) bytes = .other bytes ∧
      (p < 5 ∧ bytes ≠ [0xC3] ∧ SampleAt (p + bytes.length) ∨ p = 5 ∧ bytes = [0xC3]) := by
  rcases hp with rfl | rfl | rfl | rfl
  · exact ⟨[0x8B, 0xFF], by decide, rfl, .inl ⟨by decide, by decide, .inr (.inl rfl)⟩⟩
  · exact ⟨[0x55], by decide, rfl, .inl ⟨by decide, by decide, .inr (.inr (.inl rfl))⟩⟩
  · exact ⟨[0x8B, 0xEC], by decide, rfl, .inl ⟨by decide, by decide, .inr (.inr (.inr rfl))⟩⟩
  · exact ⟨[0xC3], by decide, rfl, .inr ⟨rfl, rfl⟩⟩

theorem SampleAt.step {p s : Nat} {c : Nat × Nat} (hp : SampleAt p)
    (h : step countingCpu (Mem.ofList sampleCode) (p, s) = some c) : p < 5 ∧ SampleAt c.1 := by
  obtain ⟨bytes, hfetch, hdecode, ⟨hlt, hret, hnext⟩ | ⟨-, rfl⟩⟩ := hp.fetch <;>
    rw [step_of_fetch hfetch, hdecode] at h
  · simp only [execute, countingCpu, if_neg hret, Option.map_some, Option.getD_none, Option.some.injEq] at h
    exact ⟨hlt, h ▸ hnext⟩
  · cases h

theorem SampleAt.twin {p q : Nat} (h : Twin (Mem.ofList sampleCode) 0 5 0x100 p q) : SampleAt p := by
  induction h with
  | start => exact .inl rfl
  | next _ hlt hcopy ih =>
    obtain ⟨bytes, hfetch, -, ⟨-, -, hnext⟩ | ⟨rfl, -⟩⟩ := ih.fetch
    · cases (copyOneOpCode_length hcopy).symm.trans (fetch_eq_some.1 hfetch).1
      exact hnext
    · exact absurd hlt (Nat.lt_irrefl 5)

theorem sample_short {p n : Nat} (hp : p < 5) (h : ldeGetOpCodeSize32 (Mem.ofList sampleCode) p = some n) :
    n ≤ 15 := by
  have : ∀ p < 5, (ldeGetOpCodeSize32 (Mem.ofList sampleCode) p).all (· ≤ 15) = true := by decide
  simpa [h] using this p hp

theorem sample_placed : Placed (Mem.ofList sampleCode) (List.replicate 64 0) sampleTrampoline where
  buffer := rfl
  short _ _ _ hp h := sample_short hp h
  apart := .inl (by decide)
  block_le := by decide
  behind_lt := by decide

theorem sample_hookable :
    Hookable countingCpu (Mem.ofList sampleCode) (List.replicate 64 0) sampleTrampoline SampleAt where
  toPlaced := sample_placed
  closed p s c hp h := (hp.step h).2
  entered p s c hp hout h := absurd ⟨Nat.zero_le p, (hp.step h).1⟩ hout
  kept p bytes hp hout h := by
    obtain ⟨bytes', hfetch, -, ⟨hlt, -⟩ | ⟨rfl, rfl⟩⟩ := hp.fetch
    · exact absurd ⟨Nat.zero_le p, hlt⟩ hout
    · cases h.symm.trans hfetch
      refine ⟨fun k hk => ?_, nofun⟩
      rw [List.length_singleton] at hk
      constructor <;> simp only [Mem.Within, sampleTrampoline, List.length_cons, List.length_nil] <;> omega
  movable p q bytes htwin hlt h := by
    obtain ⟨bytes', hfetch, hdecode, ⟨-, hret, -⟩ | ⟨rfl, -⟩⟩ := (SampleAt.twin htwin).fetch
    · cases h.symm.trans hfetch
      rw [hdecode]
      exact fun s => ⟨rfl, fun target s' h => by simp [countingCpu, hret] at h⟩
    · exact absurd hlt (Nat.lt_irrefl 5)

theorem sample_patch :
    handleFunctionPatch (Mem.ofList sampleCode) 8 (List.replicate 64 0) (some 0x100) true samplePatch =
      some (.ok (sampleHooked, some sampleTrampoline)) := rfl

theorem handleFunctionPatch_fits_sample : ∃ hookOpSize code, getSizeOfHookOpSize .jump = some hookOpSize ∧
    trampolineCode (Mem.ofList sampleCode) samplePatch 0x100 0 5 hookOpSize = some code ∧ code.length ≤ trampolineSize ∧
    5 ≤ trampolineSize :=
  handleFunctionPatch_fits sample_patch sample_hookable.short

/-- Two short branches out of the replaced instructions and a `mov` of eleven bytes: as a naked trampoline they take
four bytes of the saved ones. -/
example : (generateNakedTrampoline (Mem.ofList [0x74, 0x7F, 0x75, 0x7F, 0xC7, 0x84, 0x24, 0, 1, 0, 0, 1, 0, 0, 0])
    { samplePatch with nakedTrampoline := true } 0x100 0 15).map List.length = some 68 := by decide +kernel

/-! ## Success -/

/-- The stub of readable code, with the byte behind it, is copied. -/
theorem copyTrampolineStub_isSome (hsweep : Sweep m limit stop p) (hread : ∀ a, p ≤ a → a ≤ stop → (m a).isSome)
    {fuel : Nat} (hfuel : stop - p < fuel) (q backwardSize : Nat) :
    (copyTrampolineStub m fuel q p (stop - p) backwardSize).isSome := by
  induction hsweep generalizing fuel q backwardSize with
  | nil =>
    obtain ⟨fuel, rfl⟩ := Nat.exists_eq_succ_of_ne_zero (Nat.ne_zero_of_lt hfuel)
    rw [copyTrampolineStub, if_pos (Nat.sub_self _)]
    rfl
  | @cons p n hlimit hret hlde rest ih =>
    obtain ⟨fuel, rfl⟩ := Nat.exists_eq_succ_of_ne_zero (Nat.ne_zero_of_lt hfuel)
    have hpos := lde_pos hlde
    have hle := rest.le
    obtain ⟨bytes, rfl, hheld⟩ := exists_holds fun k (hk : k < n) => hread (p + k) (Nat.le_add_right p k) (by omega)
    have hnext := hread (p + 1) (by omega) (by omega)
    obtain ⟨copied, hcopy⟩ := copyOneOpCode_isSome (fetch_eq_some.2 ⟨hlde, hheld⟩) hnext q (stop - p) backwardSize
    obtain ⟨b, hb⟩ := Option.isSome_iff_exists.1 (hread p (Nat.le_refl p) (by omega))
    rw [hb] at hret
    rw [copyTrampolineStub, if_neg (by omega), hb, Option.bind_some, if_neg (by simpa using hret), hcopy,
      Option.bind_some, Option.isSome_map, show stop - p - bytes.length = stop - (p + bytes.length) by omega]
    exact ih (fun a ha => hread a (by omega)) (by omega) _ _

/-- A hook with a trampoline is set in readable code that can be written. -/
theorem handleFunctionPatch_isSome {address size : Nat} (hsize : getSizeOfHookOpSize patch.hookOp = some hookOpSize)
    (htarget : patch.target ≠ 0) (hsource : patch.source ≠ 2 ^ 32 - 1)
    (hplace : getHookAddressAndSize m fuel patch.source hookOpSize = some (.ok (address, size)))
    (hread : ∀ a, address ≤ a → a ≤ address + size → (m a).isSome) (htramp : patch.trampoline = true)
    (hdis : patch.doNotDisassemble = false) (hnaked : patch.nakedTrampoline = false) (hookBuffer : List UInt8)
    (tramp : Nat) :
    ∃ m' original, handleFunctionPatch m fuel hookBuffer (some tramp) true patch =
      some (.ok (m', some ⟨tramp, original, address⟩)) ∧ original.length = size := by
  have hsweep := (place_sweep hsize hplace).2
  obtain ⟨original, rfl, hheld⟩ := @exists_holds m address size fun k hk => hread _ (Nat.le_add_right _ _) (by omega)
  have hstub := @copyTrampolineStub_isSome m address _ _ hsweep hread (original.length + 1) (by omega) tramp 0
  rw [Nat.add_sub_cancel_left] at hstub
  obtain ⟨stub, hstub⟩ := Option.isSome_iff_exists.1 hstub
  have hcode : ∃ code, generateHookCode address patch.target patch.hookOp hookOpSize = .ok code := by
    cases hop : patch.hookOp <;> first | exact ⟨_, rfl⟩ | (rw [hop] at hsize; cases hsize)
  obtain ⟨code, hcode⟩ := hcode
  unfold handleFunctionPatch
  rw [if_neg (not_or.2 ⟨htarget, hsource⟩)]
  simp only [hsize, hplace, Option.bind_some, hcode, htramp, hdis, hnaked, trampolineCode, hstub, Option.map_some,
    readBytes_of_holds hheld]
  exact ⟨_, original, rfl, rfl⟩

/-- The hook is set there: its code is at the place, the trampoline with the jump back in the block, and the replaced
bytes in the record; nothing else is changed. -/
theorem handleFunctionPatch_succeeds {address size : Nat} (hsize : getSizeOfHookOpSize patch.hookOp = some hookOpSize)
    (htarget : patch.target ≠ 0) (hsource : patch.source ≠ 2 ^ 32 - 1)
    (hplace : getHookAddressAndSize m fuel patch.source hookOpSize = some (.ok (address, size)))
    (hread : ∀ a, address ≤ a → a ≤ address + size → (m a).isSome)
    (hshort : ∀ p n, address ≤ p → p < address + size → ldeGetOpCodeSize32 m p = some n → n ≤ 15)
    (htramp : patch.trampoline = true) (hdis : patch.doNotDisassemble = false) (hnaked : patch.nakedTrampoline = false)
    (hbuffer : hookBuffer.length = trampolineSize) (hapart : Mem.Apart address size tramp trampolineDataSize)
    (hblock : tramp + trampolineDataSize ≤ 2 ^ 32) (hbehind : address + size < 2 ^ 32) :
    ∃ m' t hookCode trampoline,
      handleFunctionPatch m fuel hookBuffer (some tramp) true patch = some (.ok (m', some t)) ∧
      t.source = address ∧ t.trampoline = tramp ∧ t.originalCode.length = size ∧ m.Holds address t.originalCode ∧
      generateHookCode address patch.target patch.hookOp hookOpSize = .ok hookCode ∧ m'.Holds address hookCode ∧
      trampolineCode m patch tramp address size hookOpSize = some trampoline ∧ m'.Holds tramp trampoline ∧
      m'.Holds (tramp + jumpBackOffset) (le32 (address + size)) ∧ ∀ a, t.Free a → m' a = m a := by
  obtain ⟨m', original, hpatch, rfl⟩ :=
    handleFunctionPatch_isSome hsize htarget hsource hplace hread htramp hdis hnaked hookBuffer tramp
  obtain ⟨hookOpSize', hookCode, trampoline, h⟩ := handleFunctionPatch_installed hpatch hnaked
  obtain rfl : hookOpSize' = hookOpSize := Option.some.inj (h.size.symm.trans hsize)
  have hplaced : Placed m hookBuffer ⟨tramp, original, address⟩ := ⟨hbuffer, hshort, hapart, hblock, hbehind⟩
  obtain ⟨hhook, hcode, hback⟩ := h.held hplaced
  exact ⟨m', _, hookCode, trampoline, hpatch, rfl, rfl, rfl, h.original, h.hook, hhook, h.code, hcode, hback,
    fun a => h.same hplaced⟩

theorem handleFunctionPatch_succeeds_sample : ∃ m' t hookCode trampoline,
    handleFunctionPatch (Mem.ofList sampleCode) 8 (List.replicate 64 0) (some 0x200) true samplePatch =
      some (.ok (m', some t)) ∧
      t.source = 0 ∧ t.trampoline = 0x200 ∧ t.originalCode.length = 5 ∧
      (Mem.ofList sampleCode).Holds 0 t.originalCode ∧
      generateHookCode 0 6 .jump 5 = .ok hookCode ∧ m'.Holds 0 hookCode ∧
      trampolineCode (Mem.ofList sampleCode) samplePatch 0x200 0 5 5 = some trampoline ∧ m'.Holds 0x200 trampoline ∧
      m'.Holds 0x288 [5, 0, 0, 0] ∧ ∀ a, t.Free a → m' a = Mem.ofList sampleCode a := by
  have hread : ∀ a < 6, ((Mem.ofList sampleCode : Mem UInt8) a).isSome = true := by decide
  exact @handleFunctionPatch_succeeds _ 0x200 5 8 _ samplePatch 0 5 rfl (by decide) (by decide) rfl
    (fun a _ ha => hread a (by omega)) sample_hookable.short rfl rfl rfl rfl (.inl (by decide)) (by decide) (by decide)

/-! ## Calls -/

theorem fetch_call {d : Nat} (h : m.Holds p (0xE8 :: le32 d)) : fetch m p = some (0xE8 :: le32 d) :=
  fetch_eq_some.2 ⟨isNear_call.measure m p d h, h⟩

theorem step_call {d : Nat} (h : m.Holds p (0xE8 :: le32 d)) (cpu : Cpu σ) (s : σ) :
    step cpu m (p, s) = some (u32 ((p + 5 : Nat) + d), cpu.push (p + 5) s) := by
  rw [step_of_fetch (fetch_call h)]
  show execute cpu m p (p + 5) (decodeOp (p + 5) ([0xE8] ++ le32 d)) s = _
  rw [isNear_call.decode]
  rfl

/-- A call that is copied to another place. -/
theorem copyOneOpCode_call {d forwardSize backwardSize : Nat} (hd : d < 2 ^ 32) (h : m.Holds p (0xE8 :: le32 d))
    (hout : isInner (i32 (5 + i32 d)) forwardSize backwardSize = false) :
    copyOneOpCode m q p forwardSize backwardSize =
      some (0xE8 :: le32 (u32 (p + 5 + i32 d - (q + 1 + 4))), 5) := by
  obtain ⟨hE8, hd'⟩ := Mem.holds_cons.1 h
  have hbranch : relativeBranch m p = some (some ([0xE8], i32 d)) := by
    rw [relativeBranch, hE8, Option.bind_some, if_neg (by decide), if_neg (by decide), if_pos (.inl rfl),
      dword_of_holds hd' hd]
    rfl
  rw [copyOneOpCode, isNear_call.measure m p d h, Option.bind_some, hbranch, Option.bind_some]
  exact if_neg (Bool.eq_false_iff.1 hout)

/-- The hook of a call: the handler is called in place of the function, and the trampoline goes on to the function with
the return address of that call. -/
theorem handleFunctionPatch_call {d : Nat}
    (hpatch : handleFunctionPatch m fuel hookBuffer block protect patch = some (.ok (m', some t)))
    (hnaked : patch.nakedTrampoline = false) (hop : patch.hookOp = .call) (hraw : patch.keepRawTrampoline = false)
    (htarget : patch.target < 2 ^ 32) (hplaced : Placed m hookBuffer t) (hd : d < 2 ^ 32)
    (hcall : t.originalCode = 0xE8 :: le32 d)
    (hout : ¬ Mem.Within t.source 5 (u32 (t.behind + d))) (cpu : Cpu σ) (s : σ) :
    step cpu m (t.source, s) = some (u32 (t.behind + d), cpu.push t.behind s) ∧
      step cpu m' (t.source, s) = some (patch.target, cpu.push t.behind s) ∧
      step cpu m' (t.trampoline, s) = some (u32 (t.behind + d), s) := by
  obtain ⟨hookOpSize, hookCode, trampoline, h⟩ := handleFunctionPatch_installed hpatch hnaked
  have hsize := h.size
  have hhook := h.hook
  rw [hop] at hsize hhook
  cases hsize
  cases hhook
  have hlen : t.originalCode.length = 5 := by rw [hcall, List.length_cons, le32_length]
  have hbehind : t.behind = t.source + 5 := by rw [TrampolineData.behind, hlen]
  have hsite : m.Holds t.source (0xE8 :: le32 d) := hcall ▸ h.original
  obtain ⟨hhook, htramp, -⟩ := h.held hplaced
  have hmod := u32_mod (t.behind + d)
  have hmod' := u32_mod (patch.target - (t.source + 5 : Nat))
  have hlt := hplaced.behind_lt
  refine ⟨hbehind ▸ step_call hsite cpu s, ?_, ?_⟩
  · rw [step_call hhook cpu s, hbehind]
    have hu : u32 (patch.target : Int) = patch.target := by
      rw [u32_eq (by omega) (by omega), Int.toNat_natCast]
    rw [show u32 ((t.source + 5 : Nat) + u32 (patch.target - (t.source + 5 : Nat))) = u32 patch.target from
      u32_congr (by omega), hu]
  · have hinner : isInner (i32 (5 + i32 d)) 5 0 = false := by
      have hoffset : i32 ((u32 (t.behind + d) : Int) - t.source) = i32 (5 + i32 d) := by
        have := i32_emod d
        exact i32_congr (by omega)
      rw [Bool.eq_false_iff, ← hoffset]
      intro hin
      have hiff := @inner_iff t.source t.source t.behind .call _ (Nat.le_refl _) (by omega) (by omega) (by omega)
        (u32_lt (t.behind + d))
      rw [Op.inner, hbehind, Nat.add_sub_cancel_left, Nat.sub_self] at hiff
      rw [hbehind] at hin hout
      rcases hiff.1 hin with hrange | heq
      · exact hout ⟨Nat.le_of_lt hrange.1, hrange.2⟩
      · exact hout ⟨Nat.le_of_eq heq.symm, by omega⟩
    obtain ⟨stub, hstub, rfl⟩ := h.stub
    obtain ⟨fuel', copied, n, rest, hcopy, hrest, rfl⟩ := copyTrampolineStub_cons hstub (by omega)
    rw [hlen, copyOneOpCode_call hd hsite hinner] at hcopy
    cases hcopy
    rw [if_pos ⟨hlen, hop, hraw⟩, List.cons_append, List.tail_cons] at htramp
    have hnear : m'.Holds t.trampoline
        (0xE9 :: le32 (u32 ((u32 (t.behind + d) : Nat) - (t.trampoline + 5 : Nat)))) := by
      have hd := i32_emod d
      rw [show u32 ((u32 (t.behind + d) : Int) - (t.trampoline + 5 : Nat)) =
        u32 (t.source + 5 + i32 d - (t.trampoline + 1 + 4)) from u32_congr (by omega)]
      exact (Mem.holds_append.1 htramp).1
    exact step_near hnear (u32_lt _) cpu s

/-- A call of the function at 8. -/
def sampleCall : List UInt8 := [0xE8, 3, 0, 0, 0, 0xC3, 0xC3, 0, 0x90, 0xC3]

def sampleCallPatch : FunctionPatch := { samplePatch with hookOp := .call }

def sampleCallTrampoline : TrampolineData := { sampleTrampoline with originalCode := [0xE8, 3, 0, 0, 0] }

def sampleCallHooked : Mem UInt8 :=
  (writeTrampoline (Mem.ofList sampleCall) 0x100 5 [0xE9, 3, 0xFF, 0xFF, 0xFF]).write 0 [0xE8, 1, 0, 0, 0]

theorem handleFunctionPatch_call_sample : step countingCpu sampleCallHooked (0x100, 7) = some (8, 7) := by
  have hpatch : handleFunctionPatch (Mem.ofList sampleCall) 8 (List.replicate 64 0) (some 0x100) true sampleCallPatch =
      some (.ok (sampleCallHooked, some sampleCallTrampoline)) := by with_unfolding_all rfl
  have hplaced : Placed (Mem.ofList sampleCall) (List.replicate 64 0) sampleCallTrampoline :=
    { buffer := rfl
      short := fun p n _ hp h => by
        have : ∀ p < 5, (ldeGetOpCodeSize32 (Mem.ofList sampleCall) p).all (· ≤ 15) = true := by decide
        simpa [h] using this p hp
      apart := .inl (by decide)
      block_le := by decide
      behind_lt := by decide }
  exact (handleFunctionPatch_call (d := 3) hpatch rfl rfl rfl (by decide) hplaced (by decide) rfl (by decide)
    countingCpu 7).2.2

end SiglusExtract.Mp
