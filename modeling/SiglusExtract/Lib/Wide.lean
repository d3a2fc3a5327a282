/-
Strings of 16-bit units in byte memory.
-/
import SiglusExtract.Lib.Patch

/-- A string of UTF-16 code units. -/
abbrev WString := List UInt16

namespace Wide

open Bytes

/-- The bytes of a string, little-endian. -/
def bytes (s : WString) : List UInt8 := s.flatMap fun u => le16 u.toNat

@[simp] theorem bytes_cons (u : UInt16) (s : WString) : bytes (u :: s) = le16 u.toNat ++ bytes s := rfl

@[simp] theorem bytes_length : ∀ s : WString, (bytes s).length = 2 * s.length
  | [] => rfl
  | u :: s => by
    rw [bytes_cons, List.length_append, le16_length, bytes_length s, List.length_cons]
    omega

/-- The unit at offset `p`. -/
def unit (m : Mem UInt8) (p : Nat) : Option UInt16 := (word m p).map UInt16.ofNat

/-- `n` units from offset `p` on. -/
def units (m : Mem UInt8) : Nat → Nat → Option WString
  | _, 0 => some []
  | p, n + 1 => do
    let u ← unit m p
    let s ← units m (p + 2) n
    return u :: s

theorem unit_of_holds {m : Mem UInt8} {p : Nat} {u : UInt16} (h : m.Holds p (le16 u.toNat)) :
    unit m p = some u := by
  rw [unit, word_of_holds h u.toNat_lt, Option.map_some, UInt16.ofNat_toNat]

theorem units_of_holds {m : Mem UInt8} : ∀ {p : Nat} {s : WString}, m.Holds p (bytes s) →
    units m p s.length = some s
  | _, [], _ => rfl
  | p, u :: s, h => by
    rw [bytes_cons, Mem.holds_append] at h
    rw [List.length_cons, units, unit_of_holds h.1]
    simp only [Option.bind_eq_bind, Option.bind_some, units_of_holds (show m.Holds (p + 2) (bytes s) from h.2)]
    rfl

theorem unit_same {m m' : Mem UInt8} {p : Nat} (h : m.Same m' p 2) : unit m p = unit m' p := by
  rw [unit, unit, word_same h]

theorem units_same {m m' : Mem UInt8} : ∀ {p n : Nat}, m.Same m' p (2 * n) → units m p n = units m' p n
  | _, 0, _ => rfl
  | p, n + 1, h => by
    rw [units, units, unit_same (h.sub (Nat.le_refl _) (by omega)),
      units_same (h.sub (Nat.le_add_right p 2) (by omega))]

/-- Units that were read lie in the string of bytes. -/
theorem units_le {l : List UInt8} : ∀ {p n : Nat} {s : WString}, units (Mem.ofList l) p n = some s →
    n = 0 ∨ p + 2 * n ≤ l.length
  | _, 0, _, _ => .inl rfl
  | p, n + 1, s, h => by
    simp only [units, Option.bind_eq_bind, Option.bind_eq_some_iff] at h
    obtain ⟨u, hu, t, ht, -⟩ := h
    right
    rcases units_le ht with rfl | h
    · simp only [unit, Option.map_eq_some_iff, word, Option.bind_eq_bind, Option.bind_eq_some_iff] at hu
      obtain ⟨_, ⟨_, -, hi, h1, -⟩, -⟩ := hu
      have := (List.getElem?_eq_some_iff.1 h1).1
      omega
    · omega

/-- The string at offset `p`, up to the NUL that is among `fuel` units. -/
def wcs (m : Mem UInt8) : Nat → Nat → Option WString
  | 0, _ => none
  | fuel + 1, p => (unit m p).bind fun u => if u = 0 then some [] else (wcs m fuel (p + 2)).map (u :: ·)

theorem wcs_of_holds {m : Mem UInt8} : ∀ {s : WString} {p fuel : Nat}, 0 ∉ s → s.length < fuel →
    m.Holds p (bytes (s ++ [0])) → wcs m fuel p = some s
  | [], p, fuel + 1, _, _, h => by
    have hnul : unit m p = some 0 := unit_of_holds (Mem.holds_append.1 h).1
    rw [wcs, hnul, Option.bind_some, if_pos rfl]
  | u :: s, p, fuel + 1, hs, hfuel, h => by
    rw [List.mem_cons, not_or] at hs
    rw [List.cons_append, bytes_cons, Mem.holds_append] at h
    rw [wcs, unit_of_holds h.1, Option.bind_some, if_neg (Ne.symm hs.1),
      wcs_of_holds hs.2 (Nat.lt_of_succ_lt_succ hfuel) (show m.Holds (p + 2) (bytes (s ++ [0])) from h.2)]
    rfl

end Wide
