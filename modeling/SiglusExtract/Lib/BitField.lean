/-
Fields of a word: the bits from one place on are set to a value, and the other ones stay.
-/
import Mathlib.Data.Nat.Bitwise

namespace BitField

variable {w : Nat}

/-- The `bits` bits from `lowBit` on. -/
def get (dw : BitVec w) (lowBit bits : Nat) : BitVec bits := dw.extractLsb' lowBit bits

/-- The word with the `bits` bits from `lowBit` on cleared, and `value` put in at that place. -/
def set (dw : BitVec w) (lowBit bits : Nat) (value : BitVec w) : BitVec w :=
  (dw &&& ~~~(BitVec.ofNat w (2 ^ bits - 1) <<< lowBit)) ||| value <<< lowBit

/-- The value has no more than `bits` bits. -/
def Fits (value : BitVec w) (bits : Nat) : Prop := value.toNat < 2 ^ bits

instance (value : BitVec w) (bits : Nat) : Decidable (Fits value bits) := inferInstanceAs (Decidable (_ < _))

variable {dw dw' value : BitVec w} {lowBit bits i : Nat}

theorem Fits.getLsbD (h : Fits value bits) (hi : bits ≤ i) : value.getLsbD i = false :=
  Nat.testBit_lt_two_pow (Nat.lt_of_lt_of_le h (Nat.pow_le_pow_right (by decide) hi))

theorem getLsbD_mask (hi : i < w) : (BitVec.ofNat w (2 ^ bits - 1)).getLsbD i = decide (i < bits) := by
  rw [BitVec.getLsbD_ofNat, Nat.testBit_two_pow_sub_one, decide_eq_true hi, Bool.true_and]

theorem getLsbD_set (hi : i < w) : (set dw lowBit bits value).getLsbD i =
    if i < lowBit then dw.getLsbD i
    else (dw.getLsbD i && !decide (i - lowBit < bits)) || value.getLsbD (i - lowBit) := by
  have hsub : i - lowBit < w := by omega
  rw [set, BitVec.getLsbD_or, BitVec.getLsbD_and, BitVec.getLsbD_not, BitVec.getLsbD_shiftLeft,
    BitVec.getLsbD_shiftLeft, getLsbD_mask hsub, decide_eq_true hi]
  by_cases hlow : i < lowBit
  · rw [if_pos hlow, decide_eq_true hlow]
    simp
  · rw [if_neg hlow, decide_eq_false hlow]
    simp

theorem getLsbD_set_inside (hw : lowBit + i < w) (hi : i < bits) :
    (set dw lowBit bits value).getLsbD (lowBit + i) = value.getLsbD i := by
  rw [getLsbD_set hw, if_neg (by omega), Nat.add_sub_cancel_left, decide_eq_true hi, Bool.not_true, Bool.and_false,
    Bool.false_or]

theorem getLsbD_set_outside (hfits : Fits value bits) (hi : i < lowBit ∨ lowBit + bits ≤ i) :
    (set dw lowBit bits value).getLsbD i = dw.getLsbD i := by
  by_cases hw : i < w
  · rw [getLsbD_set hw]
    rcases hi with hlt | hle
    · rw [if_pos hlt]
    · rw [if_neg (by omega), decide_eq_false (by omega), hfits.getLsbD (by omega), Bool.not_false, Bool.and_true,
        Bool.or_false]
  · rw [BitVec.getLsbD_of_ge _ _ (by omega), BitVec.getLsbD_of_ge _ _ (by omega)]

theorem get_set (hw : lowBit + bits ≤ w) : get (set dw lowBit bits value) lowBit bits = value.setWidth bits := by
  apply BitVec.eq_of_getLsbD_eq
  intro i hi
  rw [get, BitVec.getLsbD_extractLsb', getLsbD_set_inside (by omega) hi]
  simp [hi]

/-- Two words with the same bits in a field. -/
theorem get_congr (h : ∀ k, lowBit ≤ k → k < lowBit + bits → dw.getLsbD k = dw'.getLsbD k) :
    get dw lowBit bits = get dw' lowBit bits := by
  apply BitVec.eq_of_getLsbD_eq
  intro i hi
  rw [get, get, BitVec.getLsbD_extractLsb', BitVec.getLsbD_extractLsb', h _ (by omega) (by omega)]

/-- Another field stays. -/
theorem get_set_apart {lowBit' bits' : Nat} (hfits : Fits value bits)
    (hapart : lowBit' + bits' ≤ lowBit ∨ lowBit + bits ≤ lowBit') :
    get (set dw lowBit bits value) lowBit' bits' = get dw lowBit' bits' :=
  get_congr fun _ _ _ => getLsbD_set_outside hfits (by omega)

end BitField
