/-
The 32-bit integers of C in two's complement, as integers: results wrap, and a conversion to unsigned
takes the remainder. Reading them from memory of known or unknown content.
-/
import SiglusExtract.Lib.Bytes

namespace CInt

open Bytes

/-- An `int` converted to `unsigned`. -/
def u32 (x : Int) : Nat := (x % 4294967296).toNat

/-- An `int` from the exact result of an operation. -/
@[irreducible] def i32 (x : Int) : Int := if u32 x < 2147483648 then u32 x else u32 x - 4294967296

/-- A `signed char`. -/
def i8 (b : UInt8) : Int := if b.toNat < 128 then b.toNat else b.toNat - 256

/-- The unsigned 16-bit integer at offset `p`. -/
def shortAt (m : Nat → UInt8) (p : Nat) : Nat := leWord (m p) (m (p + 1))

/-- The `int` at offset `p`. -/
def intAt (m : Nat → UInt8) (p : Nat) : Int :=
  i32 ((m p).toNat + 256 * (m (p + 1)).toNat + 65536 * (m (p + 2)).toNat + 16777216 * (m (p + 3)).toNat)

theorem u32_lt (x : Int) : u32 x < 2 ^ 32 := by
  unfold u32
  omega

theorem i32_def (x : Int) : i32 x = if x % 2 ^ 32 < 2 ^ 31 then x % 2 ^ 32 else x % 2 ^ 32 - 2 ^ 32 := by
  unfold i32 u32
  split <;> split <;> omega

theorem i32_upper (x : Int) : i32 x < 2 ^ 31 := by
  rw [i32_def]
  split <;> omega

theorem i32_lower (x : Int) : -2 ^ 31 ≤ i32 x := by
  rw [i32_def]
  split <;> omega

theorem i32_eq {x : Int} (h : -2 ^ 31 ≤ x) (h' : x < 2 ^ 31) : i32 x = x := by
  rw [i32_def]
  split <;> omega

theorem i32_emod (x : Int) : i32 x % 2 ^ 32 = x % 2 ^ 32 := by
  rw [i32_def]
  split <;> omega

theorem u32_eq {x : Int} (h : 0 ≤ x) (h' : x < 2 ^ 32) : u32 x = x.toNat := by
  unfold u32
  rw [Int.emod_eq_of_lt h (by omega)]

/-- An `int` that is written and read back. -/
theorem u32_intAt {m : Nat → UInt8} {p n : Nat} (h : [m p, m (p + 1), m (p + 2), m (p + 3)] = le32 n) :
    u32 (intAt m p) = n % 2 ^ 32 := by
  simp only [le32, List.cons.injEq, and_true] at h
  obtain ⟨h0, h1, h2, h3⟩ := h
  rw [intAt, u32, show (4294967296 : Int) = 2 ^ 32 by decide, i32_emod, h0, h1, h2, h3]
  simp only [UInt8.toNat_ofNat']
  omega

theorem shortAt_lt (m : Nat → UInt8) (p : Nat) : shortAt m p < 2 ^ 16 := leWord_lt _ _

end CInt
