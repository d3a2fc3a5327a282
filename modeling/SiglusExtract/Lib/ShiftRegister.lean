/-
A shift register that generates a sequence, and an array whose cells are replaced one after another in place: a block
of rounds leaves in the array what the register holds after as many shifts.
-/
import Mathlib.Logic.Function.Iterate

namespace ShiftRegister

variable {α : Type}

/-- The register of `n` cells moves on by one; the new cell comes from the first two and from cell `m`. -/
def shift (f : α → α → α → α) (n m : Nat) (w : Nat → α) : Nat → α :=
  fun j => if j + 1 < n then w (j + 1) else f (w 0) (w 1) (w m)

/-- The sequence that leaves the register. -/
def stream (f : α → α → α → α) (n m : Nat) (w : Nat → α) (k : Nat) : α := ((shift f n m)^[k] w) 0

/-- One round: cell `i` of the array is replaced. -/
def renew (f : α → α → α → α) (n m : Nat) (a : Nat → α) (i : Nat) : Nat → α :=
  Function.update a i (f (a i) (a ((i + 1) % n)) (a ((i + m) % n)))

section Stream

variable {f : α → α → α → α} {n m : Nat}

theorem shift_lt (w : Nat → α) {j : Nat} (h : j + 1 < n) : shift f n m w j = w (j + 1) := if_pos h

theorem shift_last (w : Nat → α) (h : 0 < n) : shift f n m w (n - 1) = f (w 0) (w 1) (w m) :=
  if_neg (by omega)

/-- The cells of the register are the next ones of the sequence. -/
theorem iterate_eq (w : Nat → α) : ∀ {j : Nat} (k : Nat), j < n →
    ((shift f n m)^[k] w) j = stream f n m w (k + j)
  | 0, k, _ => rfl
  | j + 1, k, h => by
    have hstep : ((shift f n m)^[k + 1] w) j = ((shift f n m)^[k] w) (j + 1) := by
      rw [Function.iterate_succ_apply', shift_lt _ h]
    rw [← hstep, iterate_eq w (k + 1) (Nat.lt_of_succ_lt h), Nat.add_right_comm, Nat.add_assoc]

theorem stream_add (w : Nat → α) (hn : 1 < n) (hm : m < n) (k : Nat) :
    stream f n m w (k + n) = f (stream f n m w k) (stream f n m w (k + 1)) (stream f n m w (k + m)) := by
  have hlast : ((shift f n m)^[k + 1] w) (n - 1) = stream f n m w (k + n) := by
    rw [iterate_eq w (k + 1) (by omega), Nat.add_assoc, Nat.add_sub_cancel' (Nat.le_of_lt hn)]
  rw [← hlast, Function.iterate_succ_apply', shift_last _ (Nat.lt_of_succ_lt hn), iterate_eq w k hn,
    iterate_eq w k hm]
  rfl

/-- After `i` rounds the first cells are those behind the register, and the others its own. -/
theorem rounds_eq {a : Nat → α} {w : Nat → α} {k : Nat} (hn : 1 < n) (hm : m < n)
    (h : ∀ j < n, a j = stream f n m w (k + j)) : ∀ i ≤ n, ∀ j < n,
    ((List.range i).foldl (renew f n m) a) j = stream f n m w (if j < i then k + n + j else k + j)
  | 0, _, j, hj => h j hj
  | i + 1, hi, j, hj => by
    have ih := rounds_eq hn hm h i (Nat.le_of_succ_le hi)
    rw [List.range_succ, List.foldl_append, List.foldl_cons, List.foldl_nil, renew]
    by_cases hji : j = i
    · subst hji
      -- the cells that are read have the indices the recurrence asks for
      have hread (d : Nat) (hd : d < n) :
          ((List.range j).foldl (renew f n m) a) ((j + d) % n) = stream f n m w (k + j + d) := by
        rw [ih _ (Nat.mod_lt _ (by omega))]
        congr 1
        by_cases hwrap : j + d < n
        · rw [Nat.mod_eq_of_lt hwrap, if_neg (by omega)]
          omega
        · rw [Nat.mod_eq_sub_mod (by omega), Nat.mod_eq_of_lt (by omega), if_pos (by omega)]
          omega
      have hzero := hread 0 (by omega)
      rw [Nat.add_zero, Nat.mod_eq_of_lt hj] at hzero
      rw [Function.update_self, hzero, hread 1 hn, hread m hm, if_pos (Nat.lt_succ_self j), Nat.add_zero,
        Nat.add_right_comm k n j, stream_add w hn hm]
    · rw [Function.update_of_ne hji, ih j hj]
      congr 1
      by_cases hlt : j < i
      · rw [if_pos hlt, if_pos (by omega)]
      · rw [if_neg hlt, if_neg (by omega)]

/-- A whole block. -/
theorem block_eq {a w : Nat → α} {k : Nat} (hn : 1 < n) (hm : m < n) (h : ∀ j < n, a j = stream f n m w (k + j))
    {j : Nat} (hj : j < n) : ((List.range n).foldl (renew f n m) a) j = stream f n m w (k + n + j) := by
  rw [rounds_eq hn hm h n (Nat.le_refl n) j hj, if_pos hj]

end Stream

end ShiftRegister
