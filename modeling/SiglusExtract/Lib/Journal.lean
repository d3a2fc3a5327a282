/-
Memory that is written into, and a journal of what was overwritten: undoing all entries, the newest first, gives the
memory back, and an entry may be undone out of turn where no newer one overlaps it.
-/
import SiglusExtract.Lib.Mem
import Mathlib.Tactic.Common

namespace Mem

variable {α : Type} {m m' : Mem α} {p q a : Nat} {l s : List α}

/-! ## Writes -/

/-- The memory with `l` written at `p`. -/
def write (m : Mem α) (p : Nat) (l : List α) : Mem α := fun a => if p ≤ a ∧ a < p + l.length then l[a - p]? else m a

/-- The address is one of the `n` from `p` on. -/
abbrev Within (p n a : Nat) : Prop := p ≤ a ∧ a < p + n

/-- Two ranges without a common address. -/
def Apart (p n q k : Nat) : Prop := p + n ≤ q ∨ q + k ≤ p

instance (p n q k : Nat) : Decidable (Apart p n q k) := inferInstanceAs (Decidable (_ ∨ _))

theorem write_inside (h : Within p l.length a) : m.write p l a = l[a - p]? := if_pos h

theorem write_outside (h : ¬ Within p l.length a) : m.write p l a = m a := if_neg h

@[simp] theorem write_nil (m : Mem α) (p : Nat) : m.write p [] = m := by
  funext a
  exact write_outside fun h => by rw [List.length_nil] at h; omega

theorem holds_write (m : Mem α) (p : Nat) (l : List α) : (m.write p l).Holds p l := by
  intro i hi
  rw [write_inside ⟨Nat.le_add_right p i, Nat.add_lt_add_left hi p⟩, Nat.add_sub_cancel_left,
    List.getElem?_eq_getElem hi]

/-- What lies apart from a write stays. -/
theorem Holds.write (h : m.Holds q s) (hapart : Apart p l.length q s.length) : (m.write p l).Holds q s := by
  intro i hi
  rw [write_outside (by rcases hapart with h | h <;> omega)]
  exact h i hi

/-- Writing what stands there. -/
theorem write_self (h : m.Holds p l) : m.write p l = m := by
  funext a
  by_cases ha : Within p l.length a
  · have := h (a - p) (by omega)
    rw [Nat.add_sub_cancel' ha.1] at this
    rw [write_inside ha, this, List.getElem?_eq_getElem]
  · exact write_outside ha

/-- The second of two writes to one place. -/
theorem write_write (m : Mem α) (p : Nat) (h : l.length = s.length) : (m.write p l).write p s = m.write p s := by
  funext a
  by_cases ha : Within p s.length a
  · rw [write_inside ha, write_inside ha]
  · rw [write_outside ha, write_outside ha, write_outside (h ▸ ha)]

/-- Writes apart from each other. -/
theorem write_comm (m : Mem α) (h : Apart p l.length q s.length) :
    (m.write p l).write q s = (m.write q s).write p l := by
  funext a
  by_cases ha : Within p l.length a
  · have hq : ¬ Within q s.length a := by rcases h with h | h <;> omega
    rw [write_outside hq, write_inside ha, write_inside ha]
  · rw [write_outside (l := l) (m := m.write q s) ha]
    by_cases hq : Within q s.length a
    · rw [write_inside hq, write_inside hq]
    · rw [write_outside hq, write_outside hq, write_outside ha]

theorem write_congr (h : m a = m' a) : m.write p l a = m'.write p l a := by
  unfold write
  rw [h]

/-! ## The journal -/

/-- What stood at a place before it was overwritten. -/
structure Saved (α : Type) where
  place : Nat
  bytes : List α

def restore (m : Mem α) (s : Saved α) : Mem α := m.write s.place s.bytes

/-- All entries undone, the newest, which is the first one, at first. -/
def unwind (m : Mem α) (journal : List (Saved α)) : Mem α := journal.foldl restore m

/-- Two entries without a common address. -/
def Saved.Apart (s t : Saved α) : Prop := Mem.Apart s.place s.bytes.length t.place t.bytes.length

instance (s t : Saved α) : Decidable (s.Apart t) := inferInstanceAs (Decidable (Mem.Apart _ _ _ _))

variable {journal newer older : List (Saved α)} {e : Saved α}

/-- A write whose old bytes are saved is undone. -/
theorem unwind_write (hheld : m.Holds e.place e.bytes) (hlen : l.length = e.bytes.length) :
    unwind (m.write e.place l) (e :: journal) = unwind m journal := by
  rw [unwind, List.foldl_cons, restore, write_write m e.place hlen, write_self hheld]
  rfl

/-- An address has the same content after the undoing as another memory gives it. -/
theorem unwind_congr (h : m a = m' a) : unwind m journal a = unwind m' journal a := by
  induction journal generalizing m m' with
  | nil => exact h
  | cons e journal ih => exact ih (write_congr h)

/-- An entry may be undone before newer ones that lie apart from it. -/
theorem unwind_restore (h : ∀ n ∈ newer, n.Apart e) :
    unwind (restore m e) (newer ++ older) = unwind m (newer ++ e :: older) := by
  induction newer generalizing m with
  | nil => rfl
  | cons n newer ih =>
    rw [List.forall_mem_cons] at h
    have hcomm : restore (restore m e) n = restore (restore m n) e := (write_comm m h.1).symm
    show unwind (restore (restore m e) n) (newer ++ older) = unwind (restore m n) (newer ++ e :: older)
    rw [hcomm, ih h.2]

end Mem
