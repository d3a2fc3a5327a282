/-
`CopyOneOpCode` (my.cpp): one instruction of the hooked function, copied into the trampoline. A relative branch becomes
the near form of it with the offset that reaches the old target from the new place, unless the target is among the
instructions that are copied with it.
-/
import SiglusExtract.Mp.Machine

namespace SiglusExtract.Mp

open Bytes CInt Lde

/-- `OpCode` as it is written, in `OpCodeLength` bytes, and `OpOffset` of the branch at `func`; `none` for any other
instruction. -/
def relativeBranch (m : Mem UInt8) (func : Nat) : Option (Option (List UInt8 × Int)) :=
  (m func).bind fun opCode =>
    if opCode.toNat / 16 = 7 then
      (m (func + 1)).map fun b => some ([0x0F, UInt8.ofNat (0x80 + (opCode.toNat - 0x70))], i8 b)
    else if opCode = 0xEB then (m (func + 1)).map fun b => some ([0xE9], i8 b)
    else if opCode = 0xE8 ∨ opCode = 0xE9 then (dword m (func + 1)).map fun d : Nat => some ([opCode], i32 d)
    else
      -- `*(PUSHORT)Func`, also for an instruction of one byte
      (m (func + 1)).bind fun second =>
        if opCode = 0x0F ∧ second.toNat / 16 = 8 then
          (dword m (func + 2)).map fun d : Nat => some ([opCode, second], i32 d)
        else some none

/-- The target, `newOffset` from the instruction, is among the `backwardSize` bytes copied before or the `forwardSize`
bytes to copy; the first byte of the former does not count. -/
def isInner (newOffset : Int) (forwardSize backwardSize : Nat) : Bool :=
  if newOffset < 0 then u32 (-newOffset) < backwardSize else newOffset < forwardSize

/-- `CopyOneOpCode`: what is written at `target`, and `SourceOpLength`. -/
def copyOneOpCode (m : Mem UInt8) (target source forwardSize backwardSize : Nat) : Option (List UInt8 × Nat) :=
  (ldeGetOpCodeSize32 m source).bind fun length =>
    (relativeBranch m source).bind fun branch =>
      match branch with
      | none => (readBytes m source length).map (·, length)
      | some (opCode, opOffset) =>
        if isInner (i32 (length + opOffset)) forwardSize backwardSize then (readBytes m source length).map (·, length)
        else some (opCode ++ le32 (u32 (source + length + opOffset - (target + opCode.length + 4))), length)

variable {m m' : Mem UInt8} {p target source forwardSize backwardSize n : Nat} {bytes copied : List UInt8}

/-! ## Near branches -/

theorem u32_congr {x y : Int} (h : x % 2 ^ 32 = y % 2 ^ 32) : u32 x = u32 y := by
  unfold u32
  omega

theorem i32_congr {x y : Int} (h : x % 2 ^ 32 = y % 2 ^ 32) : i32 x = i32 y := by
  rw [i32_def, i32_def, h]

theorem u32_mod (x : Int) : (u32 x : Int) % 2 ^ 32 = x % 2 ^ 32 := by
  unfold u32
  omega

theorem ofLe32_le32 (n : Nat) : ofLe32 (UInt8.ofNat n) (UInt8.ofNat (n / 256)) (UInt8.ofNat (n / 65536))
    (UInt8.ofNat (n / 16777216)) = n % 2 ^ 32 := by
  simp only [ofLe32, UInt8.toNat_ofNat']
  omega

/-- `opCode`, with an offset of four bytes behind it, is the near form of the branch. -/
structure IsNear (kind : Branch) (opCode : List UInt8) : Prop where
  length_le : opCode.length ≤ 2
  decode : ∀ next d, decodeOp next (opCode ++ le32 d) = .branch kind (u32 (next + d))
  measure : ∀ (m : Mem UInt8) p d, m.Holds p (opCode ++ le32 d) → ldeGetOpCodeSize32 m p = some (opCode.length + 4)

theorem near_target (next d : Nat) : u32 (next + (d % 2 ^ 32 : Nat)) = u32 (next + d) := u32_congr (by omega)

theorem isNear_jcc {b : UInt8} (hb : b.toNat / 16 = 8) : IsNear (.jcc (b.toNat % 16)) [0x0F, b] where
  length_le := Nat.le_refl 2
  decode next d := by
    simp only [le32, List.cons_append, List.nil_append, decodeOp, hb, and_self, if_true, ofLe32_le32, near_target]
  measure m p d h := by
    obtain ⟨h0F, hrest⟩ := Mem.holds_cons.1 h
    exact lde_jcc hb h0F (Mem.holds_cons.1 hrest).1

theorem isNear_jmp : IsNear .jmp [0xE9] where
  length_le := Nat.le_succ 1
  decode next d := by
    simp only [le32, List.cons_append, List.nil_append, decodeOp, if_true, ofLe32_le32, near_target]
  measure m p d h := lde_near (.inr rfl) (Mem.holds_cons.1 h).1

theorem isNear_call : IsNear .call [0xE8] where
  length_le := Nat.le_succ 1
  decode next d := by
    have hne : ¬ (0xE8 : UInt8) = 0xE9 := by decide
    simp only [le32, List.cons_append, List.nil_append, decodeOp, if_true, ofLe32_le32, near_target, if_neg hne]
  measure m p d h := lde_near (.inl rfl) (Mem.holds_cons.1 h).1

/-! ## The branch that is read -/

theorem dword_eq_some {d : Nat} (h : dword m p = some d) :
    ∃ d0 d1 d2 d3, m p = some d0 ∧ m (p + 1) = some d1 ∧ m (p + 2) = some d2 ∧ m (p + 3) = some d3 ∧
      d = ofLe32 d0 d1 d2 d3 := by
  simp only [dword, Option.bind_eq_bind, Option.bind_eq_some_iff, Option.pure_def, Option.some.injEq] at h
  obtain ⟨d0, h0, d1, h1, d2, h2, d3, h3, rfl⟩ := h
  exact ⟨d0, d1, d2, d3, h0, h1, h2, h3, rfl⟩

theorem target_i32 (next d : Nat) : u32 (next + i32 d) = u32 (next + d) := by
  apply u32_congr
  have := i32_emod d
  omega

/-- The bytes of an instruction, read one by one. -/
theorem fetch_unique {l : List UInt8} (h : fetch m p = some bytes) (hlde : ldeGetOpCodeSize32 m p = some l.length)
    (hheld : m.Holds p l) : bytes = l := by
  rw [fetch_eq_some.2 ⟨hlde, hheld⟩, Option.some.injEq] at h
  exact h.symm

/-- A branch that is found is the one that stands there, and is written in its near form. -/
theorem relativeBranch_some {opCode : List UInt8} {opOffset : Int} (hfetch : fetch m p = some bytes)
    (h : relativeBranch m p = some (some (opCode, opOffset))) :
    ∃ kind, IsNear kind opCode ∧ ∀ next : Nat, decodeOp next bytes = .branch kind (u32 (next + opOffset)) := by
  simp only [relativeBranch, Option.bind_eq_some_iff] at h
  obtain ⟨b, hb, h⟩ := h
  split at h
  · next h7 =>
    obtain ⟨b1, hb1, heq⟩ := Option.map_eq_some_iff.1 h
    cases heq
    obtain rfl := fetch_unique (l := [b, b1]) hfetch (lde_short (.inl h7) hb)
      (Mem.holds_cons.2 ⟨hb, Mem.holds_cons.2 ⟨hb1, Mem.holds_nil m _⟩⟩)
    have hcc : (UInt8.ofNat (0x80 + (b.toNat - 0x70))).toNat = b.toNat + 16 := by
      rw [UInt8.toNat_ofNat']
      omega
    refine ⟨.jcc (b.toNat % 16), ?_, fun next => by simp only [decodeOp, h7, if_true]⟩
    have := isNear_jcc (b := UInt8.ofNat (0x80 + (b.toNat - 0x70))) (by omega)
    rwa [hcc, Nat.add_mod_right] at this
  · next h7 =>
    split at h
    · next hEB =>
      subst hEB
      obtain ⟨b1, hb1, heq⟩ := Option.map_eq_some_iff.1 h
      cases heq
      obtain rfl := fetch_unique (l := [0xEB, b1]) hfetch (lde_short (.inr rfl) hb)
        (Mem.holds_cons.2 ⟨hb, Mem.holds_cons.2 ⟨hb1, Mem.holds_nil m _⟩⟩)
      exact ⟨.jmp, isNear_jmp, fun next => by simp [decodeOp]⟩
    · split at h
      · next hnear =>
        obtain ⟨d, hd, heq⟩ := Option.map_eq_some_iff.1 h
        cases heq
        obtain ⟨d0, d1, d2, d3, h0, h1, h2, h3, rfl⟩ := dword_eq_some hd
        obtain rfl := fetch_unique (l := [b, d0, d1, d2, d3]) hfetch (lde_near hnear hb)
          (by simp only [Mem.holds_cons, Mem.holds_nil, and_true]; exact ⟨hb, h0, h1, h2, h3⟩)
        rcases hnear with rfl | rfl
        · exact ⟨.call, isNear_call, fun next => by simp [decodeOp, target_i32]⟩
        · exact ⟨.jmp, isNear_jmp, fun next => by simp [decodeOp, target_i32]⟩
      · obtain ⟨second, hsecond, h⟩ := Option.bind_eq_some_iff.1 h
        split at h
        · next hjcc =>
          obtain ⟨rfl, h8⟩ := hjcc
          obtain ⟨d, hd, heq⟩ := Option.map_eq_some_iff.1 h
          cases heq
          obtain ⟨d0, d1, d2, d3, h0, h1, h2, h3, rfl⟩ := dword_eq_some hd
          obtain rfl := fetch_unique (l := [0x0F, second, d0, d1, d2, d3]) hfetch (lde_jcc h8 hb hsecond)
            (by simp only [Mem.holds_cons, Mem.holds_nil, and_true]; exact ⟨hb, hsecond, h0, h1, h2, h3⟩)
          exact ⟨.jcc (second.toNat % 16), isNear_jcc h8, fun next => by simp [decodeOp, h8, target_i32]⟩
        · cases h

/-- What is read as no branch is none, and does not depend on where it stands. -/
theorem relativeBranch_none (hfetch : fetch m p = some bytes) (h : relativeBranch m p = some none) (next : Nat) :
    (∀ kind target, decodeOp next bytes ≠ .branch kind target) ∧
      ∀ next', decodeOp next' bytes = decodeOp next bytes := by
  simp only [relativeBranch, Option.bind_eq_some_iff] at h
  obtain ⟨b, hb, h⟩ := h
  obtain ⟨hlde, hheld⟩ := fetch_eq_some.1 hfetch
  have hfirst : ∀ (b0 : UInt8) (l : List UInt8), bytes = b0 :: l → b0 = b := by
    rintro b0 l rfl
    exact Option.some.inj ((Mem.holds_cons.1 hheld).1.symm.trans hb)
  split at h
  · obtain ⟨b1, -, heq⟩ := Option.map_eq_some_iff.1 h
    cases heq
  · next h7 =>
    split at h
    · obtain ⟨b1, -, heq⟩ := Option.map_eq_some_iff.1 h
      cases heq
    · next hEB =>
      split at h
      · obtain ⟨d, -, heq⟩ := Option.map_eq_some_iff.1 h
        cases heq
      · next hnear =>
        obtain ⟨second, hsecond, h⟩ := Option.bind_eq_some_iff.1 h
        split at h
        · obtain ⟨d, -, heq⟩ := Option.map_eq_some_iff.1 h
          cases heq
        · next hjcc =>
          have hE8 : b ≠ 0xE8 := fun hb => hnear (.inl hb)
          have hE9 : b ≠ 0xE9 := fun hb => hnear (.inr hb)
          match bytes, hheld, hfirst with
          | [b0, b1], _, hfirst =>
            obtain rfl := hfirst _ _ rfl
            simp [decodeOp, h7, hEB]
          | [b0, d0, d1, d2, d3], _, hfirst =>
            obtain rfl := hfirst _ _ rfl
            simp [decodeOp, hE8, hE9]
          | [b0, b1, d0, d1, d2, d3], hheld, hfirst =>
            obtain rfl := hfirst _ _ rfl
            obtain rfl : b1 = second :=
              Option.some.inj ((Mem.holds_cons.1 (Mem.holds_cons.1 hheld).2).1.symm.trans hsecond)
            simp only [decodeOp, if_neg hjcc]
            refine ⟨fun kind target => ?_, fun _ => trivial⟩
            split <;> nofun
          | [], _, _ => exact ⟨nofun, fun _ => rfl⟩
          | [_], _, _ => exact ⟨nofun, fun _ => rfl⟩
          | [_, _, _], _, _ => exact ⟨nofun, fun _ => rfl⟩
          | [_, _, _, _], _, _ => exact ⟨nofun, fun _ => rfl⟩
          | _ :: _ :: _ :: _ :: _ :: _ :: _ :: _, _, _ => exact ⟨nofun, fun _ => rfl⟩

/-! ## The copy -/

namespace Op

/-- The target is among the instructions that are copied together. -/
def inner (source forwardSize backwardSize : Nat) : Op → Bool
  | .branch _ target => isInner (i32 (target - source)) forwardSize backwardSize
  | _ => false

/-- The branch with its target `by` bytes further on. -/
def move (by' : Int) : Op → Op
  | .branch kind target => .branch kind (u32 (target + by'))
  | op => op

end Op

theorem copyOneOpCode_length (h : copyOneOpCode m target source forwardSize backwardSize = some (copied, n)) :
    ldeGetOpCodeSize32 m source = some n := by
  simp only [copyOneOpCode, Option.bind_eq_some_iff] at h
  obtain ⟨length, hlength, branch, -, h⟩ := h
  rw [hlength, Option.some.injEq]
  split at h
  · obtain ⟨l, -, heq⟩ := Option.map_eq_some_iff.1 h
    exact congrArg Prod.snd heq
  · split at h
    · obtain ⟨l, -, heq⟩ := Option.map_eq_some_iff.1 h
      exact congrArg Prod.snd heq
    · exact congrArg Prod.snd (Option.some.inj h)

/-- The copy of an instruction is the same one with the same target where it stands; only a branch to an inner target
keeps its bytes, and the target moves with it. -/
theorem copyOneOpCode_spec (hfetch : fetch m source = some bytes)
    (h : copyOneOpCode m target source forwardSize backwardSize = some (copied, n)) (hheld : m'.Holds target copied) :
    let op := decodeOp (source + bytes.length) bytes
    fetch m' target = some copied ∧ (copied = bytes ∨ copied.length ≤ 6) ∧
      decodeOp (target + copied.length) copied =
        if op.inner source forwardSize backwardSize then op.move (target - source) else op := by
  intro op
  obtain ⟨hlde, hheldm⟩ := fetch_eq_some.1 hfetch
  simp only [copyOneOpCode, hlde, Option.bind_some, Option.bind_eq_some_iff] at h
  obtain ⟨branch, hbranch, h⟩ := h
  have hread := readBytes_of_holds hheldm
  cases branch with
  | none =>
    rw [hread, Option.map_some, Option.some.injEq, Prod.mk.injEq] at h
    obtain ⟨rfl, -⟩ := h
    obtain ⟨hno, hsame⟩ := relativeBranch_none hfetch hbranch (source + bytes.length)
    refine ⟨fetch_of_holds hfetch hheld, .inl rfl, ?_⟩
    rw [hsame]
    cases hop : op with
    | branch kind target => exact absurd hop (hno kind target)
    | jmpInd pointer => exact hop
    | other l => exact hop
  | some b =>
    obtain ⟨opCode, opOffset⟩ := b
    obtain ⟨kind, hnear, hdecode⟩ := relativeBranch_some hfetch hbranch
    have hmod := u32_mod ((source + bytes.length : Nat) + opOffset)
    have hop : op = .branch kind (u32 ((source + bytes.length : Nat) + opOffset)) := hdecode _
    have hoffset : i32 ((u32 ((source + bytes.length : Nat) + opOffset) : Int) - source) =
        i32 (bytes.length + opOffset) :=
      i32_congr (by omega)
    rw [hop, Op.inner, hoffset]
    dsimp only at h
    split at h
    · next hinner =>
      rw [hread, Option.map_some, Option.some.injEq, Prod.mk.injEq] at h
      obtain ⟨rfl, -⟩ := h
      refine ⟨fetch_of_holds hfetch hheld, .inl rfl, ?_⟩
      rw [if_pos hinner, hdecode, Op.move, Op.branch.injEq]
      exact ⟨rfl, u32_congr (by omega)⟩
    · next hinner =>
      rw [Option.some.injEq, Prod.mk.injEq] at h
      obtain ⟨rfl, -⟩ := h
      have hmod' := u32_mod (source + bytes.length + opOffset - (target + opCode.length + 4))
      have hlen : (opCode ++ le32 (u32 (source + bytes.length + opOffset - (target + opCode.length + 4)))).length =
          opCode.length + 4 := by rw [List.length_append, le32_length]
      have hle := hnear.length_le
      refine ⟨fetch_eq_some.2 ⟨hlen ▸ hnear.measure m' target _ hheld, hheld⟩, .inr (by omega), ?_⟩
      rw [if_neg hinner, hlen, hnear.decode, Op.branch.injEq]
      exact ⟨rfl, u32_congr (by omega)⟩

theorem dword_of_held {k : Nat} (h : m.Holds p bytes) (hk : k + 4 ≤ bytes.length) : ∃ d, dword m (p + k) = some d := by
  have hread : ∀ j < 4, m (p + k + j) = bytes[k + j]? := fun j hj => by
    rw [Nat.add_assoc, h (k + j) (by omega), List.getElem?_eq_getElem (by omega)]
  have h0 := hread 0 (by omega)
  rw [Nat.add_zero] at h0
  simp only [dword, h0, hread 1 (by omega), hread 2 (by omega), hread 3 (by omega), List.getElem?_eq_getElem
    (show k + 0 < bytes.length by omega), List.getElem?_eq_getElem (show k + 1 < bytes.length by omega),
    List.getElem?_eq_getElem (show k + 2 < bytes.length by omega),
    List.getElem?_eq_getElem (show k + 3 < bytes.length by omega)]
  exact ⟨_, rfl⟩

theorem relativeBranch_isSome (hfetch : fetch m p = some bytes) (hnext : (m (p + 1)).isSome) :
    ∃ branch, relativeBranch m p = some branch := by
  obtain ⟨hlde, hheld⟩ := fetch_eq_some.1 hfetch
  obtain ⟨b, hb⟩ := lde_first hlde
  obtain ⟨second, hsecond⟩ := Option.isSome_iff_exists.1 hnext
  rw [relativeBranch, hb, Option.bind_some, hsecond]
  by_cases h7 : b.toNat / 16 = 7
  · rw [if_pos h7]
    exact ⟨_, rfl⟩
  rw [if_neg h7]
  by_cases hEB : b = 0xEB
  · rw [if_pos hEB]
    exact ⟨_, rfl⟩
  rw [if_neg hEB]
  by_cases hnear : b = 0xE8 ∨ b = 0xE9
  · have hlen : bytes.length = 5 := Option.some.inj (hlde.symm.trans (lde_near hnear hb))
    obtain ⟨d, hd⟩ := dword_of_held (k := 1) hheld (by omega)
    rw [if_pos hnear, hd]
    exact ⟨_, rfl⟩
  rw [if_neg hnear, Option.bind_some]
  by_cases hjcc : b = 0x0F ∧ second.toNat / 16 = 8
  · have hlen : bytes.length = 6 := Option.some.inj (hlde.symm.trans (lde_jcc hjcc.2 (hjcc.1 ▸ hb) hsecond))
    obtain ⟨d, hd⟩ := dword_of_held (k := 2) hheld (by omega)
    rw [if_pos hjcc, hd]
    exact ⟨_, rfl⟩
  · rw [if_neg hjcc]
    exact ⟨_, rfl⟩

/-- An instruction with a readable byte behind its first one is copied. -/
theorem copyOneOpCode_isSome (hfetch : fetch m source = some bytes) (hnext : (m (source + 1)).isSome)
    (target forwardSize backwardSize : Nat) :
    ∃ copied, copyOneOpCode m target source forwardSize backwardSize = some (copied, bytes.length) := by
  obtain ⟨hlde, hheld⟩ := fetch_eq_some.1 hfetch
  obtain ⟨branch, hbranch⟩ := relativeBranch_isSome hfetch hnext
  rw [copyOneOpCode, hlde, Option.bind_some, hbranch, Option.bind_some, readBytes_of_holds hheld]
  cases branch with
  | none => exact ⟨bytes, rfl⟩
  | some b =>
    dsimp only
    split
    · exact ⟨bytes, rfl⟩
    · exact ⟨_, rfl⟩

end SiglusExtract.Mp
