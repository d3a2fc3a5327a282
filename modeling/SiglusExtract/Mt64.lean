/-
MT19937-64 (mt64.cpp), seeded in `InitRand`: the numbers are generated in blocks of 312, in place. They are those of
the recurrence, tempered, and there are never 312 zeros in a row.
-/
import SiglusExtract.Lib.ShiftRegister
import Mathlib.Data.List.Basic
import Mathlib.Tactic.Push

namespace SiglusExtract.Mt64

open ShiftRegister

/-! ## The state -/

/-- `NN`. -/
def nn : Nat := 312

/-- `MM`. -/
def mm : Nat := 156

/-- `MATRIX_A`. -/
def matrixA : UInt64 := 0xB5026F5AA96619E9

/-- `UM`. -/
def um : UInt64 := 0xFFFFFFFF80000000

/-- `LM`. -/
def lm : UInt64 := 0x7FFFFFFF

/-- The state vector and the index in it. -/
structure State where
  mt : Nat → UInt64
  mti : Nat

/-- `init_genrand64`. -/
def initGenrand64 (mt : Nat → UInt64) (seed : UInt64) : State :=
  let mt := (List.range' 1 (nn - 1)).foldl (fun (mt : Nat → UInt64) (mti : Nat) =>
    Function.update mt mti
      ((6364136223846793005 : UInt64) * (mt (mti - 1) ^^^ (mt (mti - 1) >>> 62)) + UInt64.ofNat mti))
    (Function.update mt 0 seed)
  ⟨mt, nn⟩

/-- `i++`, and `if (i >= NN) { mt[0] = mt[NN - 1]; i = 1; }`. -/
def nextCell (mt : Nat → UInt64) (i : Nat) : (Nat → UInt64) × Nat :=
  if i + 1 ≥ nn then (Function.update mt 0 (mt (nn - 1)), 1) else (mt, i + 1)

/-- The first loop of `init_by_array64`, with so many rounds left. -/
def keyLoop (initKey : UInt32 → UInt64) (keyLength : UInt64) :
    Nat → (Nat → UInt64) → Nat → UInt32 → (Nat → UInt64) × Nat
  | 0, mt, i, _ => (mt, i)
  | k + 1, mt, i, j =>
    let x := (mt i ^^^ ((mt (i - 1) ^^^ (mt (i - 1) >>> 62)) * 3935559000370003845)) + initKey j + j.toUInt64
    let r := nextCell (Function.update mt i x) i
    keyLoop initKey keyLength k r.1 r.2 (if (j + 1).toUInt64 ≥ keyLength then 0 else j + 1)

/-- The second loop. -/
def mixLoop : Nat → (Nat → UInt64) → Nat → (Nat → UInt64) × Nat
  | 0, mt, i => (mt, i)
  | k + 1, mt, i =>
    let x := (mt i ^^^ ((mt (i - 1) ^^^ (mt (i - 1) >>> 62)) * 2862933555777941757)) - UInt64.ofNat i
    let r := nextCell (Function.update mt i x) i
    mixLoop k r.1 r.2

/-- `init_by_array64`, on what stands at `init_key`. -/
def initByArray64 (mt : Nat → UInt64) (initKey : UInt32 → UInt64) (keyLength : UInt64) : State :=
  let s := initGenrand64 mt 19650218
  let r := keyLoop initKey keyLength (max nn keyLength.toNat) s.mt 1 0
  let r := mixLoop (nn - 1) r.1 r.2
  -- the most significant bit is 1, so the array is not zero
  ⟨Function.update r.1 0 ((1 : UInt64) <<< 63), s.mti⟩

/-! ## The numbers -/

/-- `(mt[i] & UM) | (mt[i + 1] & LM)`. -/
def joined (u v : UInt64) : UInt64 := u &&& um ||| v &&& lm

/-- The cell that comes from two neighbours and a cell `MM` further on, with `mag01` for the low bit. -/
def twist (u v w : UInt64) : UInt64 :=
  w ^^^ (joined u v >>> 1) ^^^ (if joined u v &&& 1 = 0 then 0 else matrixA)

/-- The generation of `NN` words at one time. -/
def generate (mt : Nat → UInt64) : Nat → UInt64 :=
  let mt := (List.range (nn - mm)).foldl (fun mt i =>
    Function.update mt i (twist (mt i) (mt (i + 1)) (mt (i + mm)))) mt
  let mt := (List.range' (nn - mm) (mm - 1)).foldl (fun mt i =>
    Function.update mt i (twist (mt i) (mt (i + 1)) (mt (i + mm - nn)))) mt
  Function.update mt (nn - 1) (twist (mt (nn - 1)) (mt 0) (mt (mm - 1)))

/-- What is done to a word before it is returned. -/
def temper (x : UInt64) : UInt64 :=
  let x := x ^^^ ((x >>> 29) &&& 0x5555555555555555)
  let x := x ^^^ ((x <<< 17) &&& 0x71D67FFFEDA60000)
  let x := x ^^^ ((x <<< 37) &&& 0xFFF7EEE000000000)
  x ^^^ (x >>> 43)

/-- `genrand64_int64`. -/
def genrand64Int64 (s : State) : UInt64 × State :=
  let s := if s.mti ≥ nn then
      let s := if s.mti = nn + 1 then initGenrand64 s.mt 5489 else s
      ⟨generate s.mt, 0⟩
    else s
  (temper (s.mt s.mti), ⟨s.mt, s.mti + 1⟩)

/-- So many calls, one after another. -/
def calls : Nat → State → List UInt64
  | 0, _ => []
  | n + 1, s => (genrand64Int64 s).1 :: calls n (genrand64Int64 s).2

/-! ## The recurrence -/

section Numbers

variable {w : Nat → UInt64}

/-- The sequence of the words. -/
abbrev words (w : Nat → UInt64) : Nat → UInt64 := stream twist nn mm w

/-- The three loops are one block of rounds. -/
theorem generate_eq (mt : Nat → UInt64) : generate mt = (List.range nn).foldl (renew twist nn mm) mt := by
  have hrange : List.range nn = List.range (nn - mm) ++ (List.range' (nn - mm) (mm - 1) ++ [nn - 1]) := by
    decide +kernel
  have hfirst : ∀ (mt : Nat → UInt64), ∀ i ∈ List.range (nn - mm),
      renew twist nn mm mt i = Function.update mt i (twist (mt i) (mt (i + 1)) (mt (i + mm))) := by
    intro mt i hi
    have hi : i < 156 := List.mem_range.1 hi
    rw [renew, Nat.mod_eq_of_lt (show i + 1 < nn by unfold nn; omega),
      Nat.mod_eq_of_lt (show i + mm < nn by unfold nn mm; omega)]
  have hsecond : ∀ (mt : Nat → UInt64), ∀ i ∈ List.range' (nn - mm) (mm - 1),
      renew twist nn mm mt i = Function.update mt i (twist (mt i) (mt (i + 1)) (mt (i + mm - nn))) := by
    intro mt i hi
    obtain ⟨hlow, hhigh⟩ : 156 ≤ i ∧ i < 311 := List.mem_range'_1.1 hi
    rw [renew, Nat.mod_eq_of_lt (show i + 1 < nn by unfold nn; omega),
      Nat.mod_eq_sub_mod (show i + mm ≥ nn by unfold nn mm; omega),
      Nat.mod_eq_of_lt (show i + mm - nn < nn by unfold nn mm; omega)]
  rw [hrange, List.foldl_append, List.foldl_append, List.foldl_cons, List.foldl_nil,
    List.foldl_ext _ _ _ hfirst, List.foldl_ext _ _ _ hsecond]
  rfl

/-- The array holds the words in front of word `k`, the one that comes next. -/
structure At (w : Nat → UInt64) (k : Nat) (s : State) : Prop where
  index : s.mti ≤ nn
  start : s.mti ≤ k
  cells : ∀ j < nn, s.mt j = words w (k - s.mti + j)

theorem genrand64Int64_at {k : Nat} (h : At w k s) :
    (genrand64Int64 s).1 = temper (words w k) ∧ At w (k + 1) (genrand64Int64 s).2 := by
  obtain ⟨hindex, hstart, hcells⟩ := h
  by_cases hfull : s.mti ≥ nn
  · have hne : s.mti ≠ nn + 1 := by omega
    have hmti : s.mti = nn := Nat.le_antisymm hindex hfull
    have hblock (j : Nat) (hj : j < nn) : generate s.mt j = words w (k + j) := by
      rw [generate_eq, block_eq (by decide : 1 < nn) (by decide : mm < nn) hcells hj, hmti,
        Nat.sub_add_cancel (hmti ▸ hstart)]
    simp only [genrand64Int64, if_pos hfull, if_neg hne]
    refine ⟨by rw [hblock 0 (by decide), Nat.add_zero], (by decide : 0 + 1 ≤ nn), Nat.le_add_left 1 k,
      fun j hj => ?_⟩
    show generate s.mt j = words w (k + 1 - (0 + 1) + j)
    rw [hblock j hj, Nat.add_sub_cancel]
  · simp only [genrand64Int64, if_neg hfull]
    have hlt := Nat.lt_of_not_le hfull
    refine ⟨by rw [hcells _ hlt, Nat.sub_add_cancel hstart], hlt, Nat.succ_le_succ hstart, fun j hj => ?_⟩
    rw [hcells j hj, Nat.add_sub_add_right]

theorem calls_at : ∀ {n k : Nat} {s : State}, At w k s →
    calls n s = (List.range n).map fun i => temper (words w (k + i))
  | 0, _, _, _ => rfl
  | n + 1, k, s, h => by
    obtain ⟨hfirst, hnext⟩ := genrand64Int64_at h
    rw [calls, hfirst, calls_at hnext, List.range_succ_eq_map, List.map_cons, List.map_map]
    refine congrArg _ (List.map_congr_left fun i _ => ?_)
    show temper (words w (k + 1 + i)) = temper (words w (k + (i + 1)))
    rw [Nat.add_right_comm, Nat.add_assoc]

/-- A full array is the register itself. -/
theorem at_of_full {s : State} (h : s.mti = nn) : At s.mt nn s := by
  refine ⟨Nat.le_of_eq h, Nat.le_of_eq h, fun j hj => ?_⟩
  rw [h, Nat.sub_self]
  exact iterate_eq s.mt 0 hj

theorem at_init (mt : Nat → UInt64) (initKey : UInt32 → UInt64) (keyLength : UInt64) :
    At (initByArray64 mt initKey keyLength).mt nn (initByArray64 mt initKey keyLength) :=
  at_of_full rfl

/-- Seeded by any key, the calls give the words of the recurrence from word 312 on, each tempered. -/
theorem calls_init (mt : Nat → UInt64) (initKey : UInt32 → UInt64) (keyLength : UInt64) (n : Nat) :
    calls n (initByArray64 mt initKey keyLength) =
      (List.range n).map fun i => temper (words (initByArray64 mt initKey keyLength).mt (nn + i)) :=
  calls_at (at_init mt initKey keyLength)

/-! ## Zeros -/

theorem toNat_shiftRight_le {y s : UInt64} (hs : 0 < s.toNat % 64) : (y >>> s).toNat ≤ y.toNat / 2 := by
  rw [UInt64.toNat_shiftRight, Nat.shiftRight_eq_div_pow]
  exact Nat.div_le_div_left (Nat.le_self_pow (Nat.ne_of_gt hs) 2) (by decide)

/-- Bits that are moved down do not cancel a word. -/
theorem eq_zero_of_shiftRight {x y : UInt64} (hy : y.toNat ≤ x.toNat / 2) (h : x ^^^ y = 0) : x = 0 := by
  obtain rfl := UInt64.xor_eq_zero_iff.1 h
  have hzero : x.toNat = 0 := by omega
  exact UInt64.toNat_inj.1 hzero

/-- Nor do bits that are moved up, with some of them masked. -/
theorem eq_zero_of_shiftLeft {x m : UInt64} {s : Nat} (hs : 0 < s) {y : UInt64}
    (hy : y.toBitVec = x.toBitVec <<< s) (h : x ^^^ (y &&& m) = 0) : x = 0 := by
  have heq : x.toBitVec = (x.toBitVec <<< s) &&& m.toBitVec := by
    rw [← hy]
    exact congrArg UInt64.toBitVec (UInt64.xor_eq_zero_iff.1 h)
  have hbit (i : Nat) : x.toBitVec.getLsbD i = false := by
    induction i using Nat.strongRecOn with
    | _ i ih =>
      rw [heq, BitVec.getLsbD_and, BitVec.getLsbD_shiftLeft]
      by_cases hi : i < s
      · simp [hi]
      · rw [ih (i - s) (by omega)]
        simp
  refine UInt64.toBitVec_inj.1 (BitVec.eq_of_getLsbD_eq fun i _ => ?_)
  rw [hbit i]
  simp

/-- Only 0 is tempered to 0. -/
theorem temper_eq_zero {x : UInt64} (h : temper x = 0) : x = 0 := by
  have hdown (y m : UInt64) : ((y >>> 29) &&& m).toNat ≤ y.toNat / 2 := by
    rw [UInt64.toNat_and]
    exact Nat.le_trans Nat.and_le_left (toNat_shiftRight_le (by decide))
  have h3 := eq_zero_of_shiftRight (toNat_shiftRight_le (by decide)) h
  have h2 := eq_zero_of_shiftLeft (s := 37) (by decide) rfl h3
  have h1 := eq_zero_of_shiftLeft (s := 17) (by decide) rfl h2
  exact eq_zero_of_shiftRight (hdown x _) h1

/-- A cell that comes out zero from a zero was joined to zero: `MATRIX_A` has the top bit, and a word shifted down has
not. -/
theorem joined_eq_zero {u v : UInt64} (h : twist u v 0 = 0) : joined u v = 0 := by
  rw [twist, UInt64.zero_xor] at h
  have heq := UInt64.xor_eq_zero_iff.1 h
  have hdiv : (joined u v >>> 1).toNat = (joined u v).toNat / 2 := by
    rw [UInt64.toNat_shiftRight, Nat.shiftRight_eq_div_pow]
    rfl
  have hlt := (joined u v).toNat_lt
  split at heq
  case isTrue hlow =>
    have hmod : (joined u v).toNat % 2 = 0 := by
      have := congrArg UInt64.toNat hlow
      rwa [UInt64.toNat_and, show (1 : UInt64).toNat = 1 from rfl, Nat.and_one_is_mod] at this
    rw [heq, show (0 : UInt64).toNat = 0 from rfl] at hdiv
    exact UInt64.toNat_inj.1 (show _ = 0 by omega)
  case isFalse =>
    rw [heq, show matrixA.toNat = 0xB5026F5AA96619E9 from rfl] at hdiv
    omega

theorem joined_zero {u v : UInt64} (h : joined u v = 0) (hv : v &&& um = 0) : u &&& um = 0 ∧ v = 0 := by
  obtain ⟨hu, hlm⟩ := UInt64.or_eq_zero_iff.1 h
  refine ⟨hu, ?_⟩
  have hall : v &&& (um ||| lm) = 0 := by
    have hsplit : v &&& (um ||| lm) = v &&& um ||| v &&& lm :=
      UInt64.toBitVec_inj.1 BitVec.and_or_distrib_left
    rw [hsplit, hv, hlm, UInt64.or_self]
  rwa [show um ||| lm = -1 by decide, UInt64.and_neg_one] at hall

/-- Of the words from word `k` on, the register holds only zeros; of the first one only the bits in `UM` are used. -/
structure Zero (w : Nat → UInt64) (k : Nat) : Prop where
  first : words w k &&& um = 0
  rest : ∀ j, 0 < j → j < nn → words w (k + j) = 0

/-- Zeros come from zeros only. -/
theorem Zero.back {k : Nat} (h : Zero w (k + 1)) : Zero w k := by
  have hcell : twist (words w k) (words w (k + 1)) 0 = 0 := by
    have hadd := stream_add (f := twist) w (by decide : 1 < nn) (by decide : mm < nn) k
    have hmm : stream twist nn mm w (k + mm) = 0 := by
      rw [show k + mm = k + 1 + 155 by unfold mm; omega]
      exact h.rest 155 (by decide) (by decide)
    have hnn : words w (k + nn) = 0 := by
      rw [show k + nn = k + 1 + 311 by unfold nn; omega]
      exact h.rest 311 (by decide) (by decide)
    rw [hmm] at hadd
    exact hadd.symm.trans hnn
  obtain ⟨hfirst, hsecond⟩ := joined_zero (joined_eq_zero hcell) h.first
  refine ⟨hfirst, fun j hpos hj => ?_⟩
  obtain _ | _ | j := j
  · contradiction
  · exact hsecond
  · rw [show k + (j + 2) = k + 1 + (j + 1) by omega]
    exact h.rest (j + 1) (Nat.succ_pos j) (Nat.lt_of_succ_lt hj)

theorem not_zero (hw : w 0 &&& um ≠ 0) : ∀ k, ¬ Zero w k
  | 0 => fun h => hw h.first
  | k + 1 => fun h => not_zero hw k h.back

/-- Seeded by any key, wherever one looks there is a number other than 0 among 312 that follow one another. -/
theorem genrand_not_all_zero (mt : Nat → UInt64) (initKey : UInt32 → UInt64) (keyLength : UInt64) (n : Nat) :
    ∃ x ∈ (calls (n + nn) (initByArray64 mt initKey keyLength)).drop n, x ≠ 0 := by
  by_contra hnone
  push Not at hnone
  have hwords (j : Nat) (hj : j < nn) : words (initByArray64 mt initKey keyLength).mt (nn + n + j) = 0 := by
    refine temper_eq_zero (hnone _ (List.mem_iff_getElem?.2 ⟨j, ?_⟩))
    rw [List.getElem?_drop, calls_at (at_init mt initKey keyLength), List.getElem?_map,
      List.getElem?_range (Nat.add_lt_add_left hj n), Option.map_some, Nat.add_assoc]
  refine not_zero (w := (initByArray64 mt initKey keyLength).mt) ?_ (nn + n) ⟨?_, fun j _ hj => hwords j hj⟩
  · have hfirst : (initByArray64 mt initKey keyLength).mt 0 = (1 : UInt64) <<< 63 := by
      simp only [initByArray64, Function.update_self]
    rw [hfirst]
    decide
  · have := hwords 0 (by decide)
    rw [Nat.add_zero] at this
    rw [this, UInt64.zero_and]

end Numbers

end SiglusExtract.Mt64
