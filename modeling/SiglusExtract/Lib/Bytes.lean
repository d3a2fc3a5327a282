/-
Little-endian integers in byte memory: reading them through a pointer, writing them as bytes, and
the bit operations on natural numbers that programs use to take them apart.
-/
import SiglusExtract.Lib.Mem
import Mathlib.Data.Nat.Bitwise

namespace Bytes

/-! ## Little-endian integers -/

/-- The four bytes of `n` modulo `2^32`, least significant first. -/
def le32 (n : Nat) : List UInt8 :=
  [UInt8.ofNat n, UInt8.ofNat (n / 256), UInt8.ofNat (n / 65536), UInt8.ofNat (n / 16777216)]

/-- The two bytes of `n` modulo `2^16`, least significant first. -/
def le16 (n : Nat) : List UInt8 := [UInt8.ofNat n, UInt8.ofNat (n / 256)]

/-- The 16-bit integer of two bytes. -/
def leWord (lo hi : UInt8) : Nat := lo.toNat + 256 * hi.toNat

/-- The unsigned 32-bit integer at offset `p`. -/
def dword (m : Mem UInt8) (p : Nat) : Option Nat := do
  let b0 ← m p
  let b1 ← m (p + 1)
  let b2 ← m (p + 2)
  let b3 ← m (p + 3)
  return b0.toNat + 256 * b1.toNat + 65536 * b2.toNat + 16777216 * b3.toNat

/-- The unsigned 16-bit integer at offset `p`. -/
def word (m : Mem UInt8) (p : Nat) : Option Nat := do
  let lo ← m p
  let hi ← m (p + 1)
  return leWord lo hi

@[simp] theorem le32_length (n : Nat) : (le32 n).length = 4 := rfl

@[simp] theorem le16_length (n : Nat) : (le16 n).length = 2 := rfl

theorem ofNat_congr {a b : Nat} (h : a % 256 = b % 256) : UInt8.ofNat a = UInt8.ofNat b := by
  apply UInt8.toNat.inj
  rw [UInt8.toNat_ofNat', UInt8.toNat_ofNat']
  exact h

theorem le16_congr {a b : Nat} (h : a % 65536 = b % 65536) : le16 a = le16 b := by
  rw [le16, le16, ofNat_congr (show a % 256 = b % 256 by omega),
    ofNat_congr (show a / 256 % 256 = b / 256 % 256 by omega)]

theorem le32_congr {a b : Nat} (h : a % 2 ^ 32 = b % 2 ^ 32) : le32 a = le32 b := by
  simp only [le32, List.cons.injEq, and_true]
  refine ⟨?_, ?_, ?_, ?_⟩ <;> apply ofNat_congr <;> omega

theorem dword_of_holds {m : Mem UInt8} {p n : Nat} (h : m.Holds p (le32 n)) (hn : n < 2 ^ 32) :
    dword m p = some n := by
  simp only [le32, Mem.holds_cons] at h
  obtain ⟨h0, h1, h2, h3, -⟩ := h
  simp only [dword, h0, h1, h2, h3, Option.bind_eq_bind, Option.bind_some, Option.pure_def,
    UInt8.toNat_ofNat', Option.some.injEq]
  omega

theorem word_of_holds {m : Mem UInt8} {p n : Nat} (h : m.Holds p (le16 n)) (hn : n < 2 ^ 16) :
    word m p = some n := by
  simp only [le16, Mem.holds_cons] at h
  obtain ⟨h0, h1, -⟩ := h
  simp only [word, leWord, h0, h1, Option.bind_eq_bind, Option.bind_some, Option.pure_def,
    UInt8.toNat_ofNat', Option.some.injEq]
  omega

/-- The four bytes of a dword that was read. -/
theorem holds_of_dword {m : Mem UInt8} {p n : Nat} (h : dword m p = some n) : m.Holds p (le32 n) := by
  simp only [dword, Option.bind_eq_bind, Option.bind_eq_some_iff, Option.pure_def,
    Option.some.injEq] at h
  obtain ⟨b0, h0, b1, h1, b2, h2, b3, h3, rfl⟩ := h
  have := b0.toNat_lt
  have := b1.toNat_lt
  have := b2.toNat_lt
  have := b3.toNat_lt
  simp only [le32, Mem.holds_cons, h0, h1, h2, h3, Mem.holds_nil, and_true, Option.some.injEq]
  refine ⟨?_, ?_, ?_, ?_⟩ <;> apply UInt8.toNat_inj.1 <;> rw [UInt8.toNat_ofNat'] <;> omega

theorem holds_of_word {m : Mem UInt8} {p n : Nat} (h : word m p = some n) : m.Holds p (le16 n) := by
  simp only [word, leWord, Option.bind_eq_bind, Option.bind_eq_some_iff, Option.pure_def, Option.some.injEq] at h
  obtain ⟨lo, h0, hi, h1, rfl⟩ := h
  have := lo.toNat_lt
  have := hi.toNat_lt
  simp only [le16, Mem.holds_cons, h0, h1, Mem.holds_nil, and_true, Option.some.injEq]
  constructor <;> apply UInt8.toNat_inj.1 <;> rw [UInt8.toNat_ofNat'] <;> omega

theorem leWord_lt (lo hi : UInt8) : leWord lo hi < 65536 := by
  have := lo.toNat_lt
  have := hi.toNat_lt
  unfold leWord
  omega

theorem word_eq {m : Mem UInt8} {p : Nat} {lo hi : UInt8} (h0 : m p = some lo) (h1 : m (p + 1) = some hi) :
    word m p = some (leWord lo hi) := by
  simp [word, h0, h1]

theorem word_lt {m : Mem UInt8} {p n : Nat} (h : word m p = some n) : n < 2 ^ 16 := by
  simp only [word, Option.bind_eq_bind, Option.bind_eq_some_iff, Option.pure_def, Option.some.injEq] at h
  obtain ⟨lo, -, hi, -, rfl⟩ := h
  exact leWord_lt lo hi

theorem dword_lt {m : Mem UInt8} {p n : Nat} (h : dword m p = some n) : n < 2 ^ 32 := by
  simp only [dword, Option.bind_eq_bind, Option.bind_eq_some_iff, Option.pure_def,
    Option.some.injEq] at h
  obtain ⟨b0, -, b1, -, b2, -, b3, -, rfl⟩ := h
  have := b0.toNat_lt
  have := b1.toNat_lt
  have := b2.toNat_lt
  have := b3.toNat_lt
  omega

/-- The value depends on its four bytes. -/
theorem dword_congr {m m' : Mem UInt8} {p : Nat} (h : ∀ k < 4, m' (p + k) = m (p + k)) : dword m' p = dword m p := by
  have h0 := h 0 (by omega)
  rw [Nat.add_zero] at h0
  rw [dword, dword, h0, h 1 (by omega), h 2 (by omega), h 3 (by omega)]

theorem word_congr {m m' : Mem UInt8} {p : Nat} (h : ∀ k < 2, m' (p + k) = m (p + k)) : word m' p = word m p := by
  have h0 := h 0 (by omega)
  rw [Nat.add_zero] at h0
  rw [word, word, h0, h 1 (by omega)]

/-! ## Bits of natural numbers -/

theorem and_one (n : Nat) : n &&& 1 = n % 2 := Nat.and_one_is_mod n

theorem and_15 (n : Nat) : n &&& 15 = n % 16 := Nat.and_two_pow_sub_one_eq_mod n 4

theorem shiftRight_one (n : Nat) : n >>> 1 = n / 2 := by rw [Nat.shiftRight_eq_div_pow]

theorem shiftRight_four (n : Nat) : n >>> 4 = n / 16 := by rw [Nat.shiftRight_eq_div_pow]

/-- Setting a bit above all set bits adds it. -/
theorem or_two_pow {n i : Nat} (h : n < 2 ^ i) : n ||| 2 ^ i = n + 2 ^ i := by
  have := Nat.two_pow_add_eq_or_of_lt h 1
  rw [Nat.mul_one] at this
  rw [Nat.or_comm, ← this, Nat.add_comm]

/-- Shifted fields that do not overlap are added by an or. -/
theorem shiftLeft_or {n m i : Nat} (h : m < 2 ^ i) : n <<< i ||| m = n * 2 ^ i + m := by
  rw [Nat.shiftLeft_eq, Nat.mul_comm n, ← Nat.two_pow_add_eq_or_of_lt h]

/-- A mask of `k` ones above `n` zeros. -/
theorem and_mask (a : Nat) (n k : Nat) : a &&& (2 ^ k - 1) <<< n = a / 2 ^ n % 2 ^ k * 2 ^ n := by
  rw [← Nat.shiftLeft_eq, ← Nat.and_two_pow_sub_one_eq_mod, ← Nat.shiftRight_eq_div_pow]
  apply Nat.eq_of_testBit_eq
  intro i
  rw [Nat.testBit_and, Nat.testBit_shiftLeft, Nat.testBit_shiftLeft, Nat.testBit_and, Nat.testBit_shiftRight]
  by_cases h : n ≤ i
  · simp [h]
  · simp [h]

end Bytes
