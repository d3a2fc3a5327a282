/-
Byte strings under an XOR key stream: applying the same stream twice restores the string, two
streams commute, and a loop that wraps its key index applies the periodic stream of the key.
-/
import Mathlib.Data.List.Basic
import Mathlib.Data.Nat.Basic

namespace Xor

/-- `d` with byte `i` of the key stream `ks` XORed into byte `i`. -/
def xorKs (ks : Nat → UInt8) (d : List UInt8) : List UInt8 := d.mapIdx fun i b => b ^^^ ks i

@[simp] theorem xorKs_length (ks : Nat → UInt8) (d : List UInt8) : (xorKs ks d).length = d.length := by
  simp [xorKs]

theorem xor_cancel (a b : UInt8) : a ^^^ b ^^^ b = a := by
  rw [UInt8.xor_assoc, UInt8.xor_self, UInt8.xor_zero]

theorem xorKs_getElem? (ks : Nat → UInt8) (d : List UInt8) (i : Nat) :
    (xorKs ks d)[i]? = d[i]?.map (· ^^^ ks i) := by
  simp [xorKs]

/-- Applying a key stream twice restores the string. -/
theorem xorKs_xorKs (ks : Nat → UInt8) (d : List UInt8) : xorKs ks (xorKs ks d) = d := by
  apply List.ext_getElem?
  intro i
  rw [xorKs_getElem?, xorKs_getElem?, Option.map_map]
  cases d[i]? with
  | none => rfl
  | some b => exact congrArg some (xor_cancel b (ks i))

theorem xorKs_append (ks : Nat → UInt8) (d e : List UInt8) :
    xorKs ks (d ++ e) = xorKs ks d ++ xorKs (fun i => ks (d.length + i)) e := by
  simp only [xorKs, List.mapIdx_append, Nat.add_comm]

theorem xorKs_congr {ks ks' : Nat → UInt8} {d : List UInt8} (h : ∀ i < d.length, ks i = ks' i) :
    xorKs ks d = xorKs ks' d := by
  apply List.ext_getElem?
  intro i
  rw [xorKs_getElem?, xorKs_getElem?]
  rcases Nat.lt_or_ge i d.length with hi | hi
  · rw [h i hi]
  · rw [List.getElem?_eq_none hi]
    rfl

/-! ## Key indices that wrap -/

/-- The loop `buf[x] ^= key[k]; k++; k = k & mask`, from key index `k` on. -/
def wrapLoop (key : Nat → UInt8) (mask : Nat) : Nat → List UInt8 → List UInt8
  | _, [] => []
  | k, b :: d => (b ^^^ key k) :: wrapLoop key mask ((k + 1) &&& mask) d

/-- Where the mask wraps indices up to `m` like the remainder by `m`, the loop applies the key
periodically. -/
theorem wrapLoop_eq (key : Nat → UInt8) {mask m : Nat} (hm : 0 < m)
    (hmask : ∀ k < m, (k + 1) &&& mask = (k + 1) % m) :
    ∀ (k : Nat) (d : List UInt8), k < m →
      wrapLoop key mask k d = xorKs (fun i => key ((k + i) % m)) d
  | k, [], _ => rfl
  | k, b :: d, hk => by
    have ih := wrapLoop_eq key hm hmask ((k + 1) % m) d (Nat.mod_lt _ hm)
    simp only [wrapLoop, hmask k hk, ih, xorKs, List.mapIdx_cons, Nat.add_zero, Nat.mod_eq_of_lt hk,
      Nat.mod_add_mod, List.cons.injEq, true_and]
    congr 1
    funext i b
    rw [Nat.add_assoc, Nat.add_comm 1 i]

end Xor
