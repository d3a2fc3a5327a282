/-
Bit streams: the bits of a string of bytes, least significant first, numbers taken off their front, and
the reader that finds such a number in a 16-bit window on the bytes.
-/
import SiglusExtract.Lib.Bytes
import Mathlib.Tactic.Ring

namespace BitStream

open Bytes

/-- The bits of a string of bytes. -/
def bits (l : List UInt8) : List Bool := l.flatMap fun b => (List.range 8).map b.toNat.testBit

/-- The number that has these bits. -/
def value : List Bool → Nat
  | [] => 0
  | b :: l => b.toNat + 2 * value l

/-- Take a number of `n` bits off a stream. -/
def takeBits (n : Nat) (l : List Bool) : Option (Nat × List Bool) :=
  if n ≤ l.length then some (value (l.take n), l.drop n) else none

@[simp] theorem bits_cons (b : UInt8) (l : List UInt8) :
    bits (b :: l) = (List.range 8).map b.toNat.testBit ++ bits l := rfl

@[simp] theorem bits_length : ∀ l : List UInt8, (bits l).length = 8 * l.length
  | [] => rfl
  | b :: l => by
    rw [bits_cons, List.length_append, bits_length l, List.length_map, List.length_range, List.length_cons]
    omega

theorem bits_getElem? : ∀ (l : List UInt8) (j : Nat),
    (bits l)[j]? = (l[j / 8]?).map fun b => b.toNat.testBit (j % 8)
  | [], j => by simp [bits]
  | b :: l, j => by
    rw [bits_cons]
    rcases Nat.lt_or_ge j 8 with hj | hj
    · rw [List.getElem?_append_left (by simpa using hj), Nat.div_eq_of_lt hj, Nat.mod_eq_of_lt hj]
      simp [hj]
    · rw [List.getElem?_append_right (by simpa using hj), List.length_map, List.length_range,
        bits_getElem? l (j - 8), show j / 8 = (j - 8) / 8 + 1 by omega, show j % 8 = (j - 8) % 8 by omega,
        List.getElem?_cons_succ]

theorem testBit_value : ∀ (l : List Bool) (i : Nat), (value l).testBit i = (l[i]?).getD false
  | [], i => by simp [value]
  | b :: l, 0 => by
    rw [value, Nat.testBit_zero, List.getElem?_cons_zero, Option.getD_some]
    cases b <;> simp
  | b :: l, i + 1 => by
    rw [value, Nat.testBit_succ, List.getElem?_cons_succ, ← testBit_value l i]
    cases b <;> simp [show (1 + 2 * value l) / 2 = value l by omega]

theorem takeBits_eq_some {n v : Nat} {l l' : List Bool} (h : takeBits n l = some (v, l')) :
    n ≤ l.length ∧ v = value (l.take n) ∧ l' = l.drop n := by
  unfold takeBits at h
  split at h
  · next hn =>
    rw [Option.some.injEq, Prod.mk.injEq] at h
    exact ⟨hn, h.1.symm, h.2.symm⟩
  · cases h

theorem testBit_leWord (lo hi : UInt8) (k : Nat) :
    (leWord lo hi).testBit k = if k < 8 then lo.toNat.testBit k else hi.toNat.testBit (k - 8) := by
  have h := Nat.testBit_two_pow_mul_add hi.toNat (show lo.toNat < 2 ^ 8 from lo.toNat_lt) k
  rwa [Nat.add_comm] at h

/-! ## Endless streams -/

/-- Bit `j` of a stream of bytes. -/
def streamBit (m : Nat → UInt8) (j : Nat) : Bool := (m (j / 8)).toNat.testBit (j % 8)

/-- The `n` bits from `pos` on, as a number. -/
def field (m : Nat → UInt8) (pos n : Nat) : Nat := value ((List.range n).map fun j => streamBit m (pos + j))

theorem testBit_field (m : Nat → UInt8) (pos n i : Nat) :
    (field m pos n).testBit i = (decide (i < n) && streamBit m (pos + i)) := by
  rw [field, testBit_value, List.getElem?_map]
  rcases Nat.lt_or_ge i n with hi | hi
  · rw [List.getElem?_range hi, decide_eq_true hi]
    rfl
  · rw [List.getElem?_eq_none (by rwa [List.length_range]), decide_eq_false (Nat.not_lt.2 hi)]
    rfl

/-- A field of at most 16 bits behind the shift, in the word at the byte where the shift starts. -/
theorem window_field (m : Nat → UInt8) {p s n : Nat} (hs : s + n ≤ 16) :
    (leWord (m p) (m (p + 1)) >>> s) &&& ((1 <<< n) - 1) = field m (8 * p + s) n := by
  apply Nat.eq_of_testBit_eq
  intro i
  rw [Nat.shiftLeft_eq, Nat.one_mul, Nat.testBit_and, Nat.testBit_two_pow_sub_one, Nat.testBit_shiftRight,
    testBit_field, Bool.and_comm, testBit_leWord, streamBit]
  rcases Nat.lt_or_ge i n with hi | hi
  · split
    · next hk => rw [show (8 * p + s + i) / 8 = p by omega, show (8 * p + s + i) % 8 = s + i by omega]
    · next hk => rw [show (8 * p + s + i) / 8 = p + 1 by omega, show (8 * p + s + i) % 8 = s + i - 8 by omega]
  · rw [decide_eq_false (Nat.not_lt.2 hi), Bool.false_and, Bool.false_and]

/-- A stream that starts with a string of bytes starts with its bits. -/
theorem field_starts {m : Nat → UInt8} {l : List UInt8} (hm : Starts m l) {pos n : Nat} (h : pos + n ≤ 8 * l.length) :
    field m pos n = value (((bits l).drop pos).take n) := by
  apply Nat.eq_of_testBit_eq
  intro i
  rw [testBit_field, testBit_value, List.getElem?_take]
  rcases Nat.lt_or_ge i n with hi | hi
  · rw [if_pos hi, List.getElem?_drop, bits_getElem?, List.getElem?_eq_getElem (by omega), decide_eq_true hi, streamBit,
      hm _ (by omega)]
    rfl
  · rw [if_neg (Nat.not_lt.2 hi), decide_eq_false (Nat.not_lt.2 hi)]
    rfl

end BitStream
