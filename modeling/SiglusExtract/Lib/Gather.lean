/-
Assignments from the cells of one array to those of another, one after the other. Where no cell is assigned twice,
each has what it was assigned in the end.
-/
import Mathlib.Data.List.Nodup
import Mathlib.Data.List.Perm.Subperm
import Mathlib.Data.List.Range

namespace Gather

variable {α : Type}

/-- `buf[dest] = data[src]`. -/
structure Move where
  dest : Nat
  src : Nat
  deriving DecidableEq, Repr

/-- One assignment, `none` where an index is outside. -/
def Move.run (data buf : List α) (m : Move) : Option (List α) := do
  let a ← data[m.src]?
  if m.dest < buf.length then some (buf.set m.dest a) else none

/-- Assignments in order. -/
def run (data : List α) (moves : List Move) (buf : List α) : Option (List α) := moves.foldlM (Move.run data) buf

theorem Move.run_eq {data buf : List α} {m : Move} (hsrc : m.src < data.length) (hdest : m.dest < buf.length) :
    m.run data buf = some (buf.set m.dest data[m.src]) := by
  simp [Move.run, hsrc, hdest]

/-- Assignments inside the two arrays, no cell assigned twice. -/
theorem run_spec {data : List α} : ∀ {moves : List Move} {buf : List α}, (∀ m ∈ moves, m.src < data.length) →
    (∀ m ∈ moves, m.dest < buf.length) → (moves.map Move.dest).Nodup →
      ∃ out, run data moves buf = some out ∧ out.length = buf.length ∧
        (∀ m ∈ moves, out[m.dest]? = data[m.src]?) ∧ ∀ i, i ∉ moves.map Move.dest → out[i]? = buf[i]?
  | [], buf, _, _, _ => ⟨buf, rfl, rfl, nofun, fun _ _ => rfl⟩
  | m :: moves, buf, hsrc, hdest, honce => by
    have hs := hsrc m List.mem_cons_self
    have hd := hdest m List.mem_cons_self
    rw [List.map_cons, List.nodup_cons] at honce
    obtain ⟨out, hrun, hlen, hcells, hsame⟩ := @run_spec data moves (buf.set m.dest data[m.src])
      (fun m' h => hsrc m' (List.mem_cons_of_mem _ h))
      (fun m' h => by rw [List.length_set]; exact hdest m' (List.mem_cons_of_mem _ h)) honce.2
    refine ⟨out, ?_, by rw [hlen, List.length_set], fun m' hm' => ?_, fun i hi => ?_⟩
    · rw [run, List.foldlM_cons, Move.run_eq hs hd]
      exact hrun
    · rcases List.mem_cons.1 hm' with rfl | hm'
      · rw [hsame _ honce.1, List.getElem?_set_self hd, List.getElem?_eq_getElem]
      · exact hcells m' hm'
    · rw [List.map_cons, List.mem_cons, not_or] at hi
      rw [hsame i hi.2, List.getElem?_set_ne (Ne.symm hi.1)]

/-! ## Indices by row and column -/

/-- The cells of `h` rows of width `w`, row by row. -/
theorem flatMap_range (w h : Nat) :
    ((List.range h).flatMap fun y => (List.range w).map fun x => y * w + x) = List.range (h * w) := by
  induction h with
  | zero => rw [Nat.zero_mul]; rfl
  | succ h ih =>
    rw [List.range_succ, List.flatMap_append, ih, Nat.succ_mul, List.range_add, List.flatMap_singleton]

/-- As many indices as there are, every one of them among them: each is there once. -/
theorem perm_range {l : List Nat} {n : Nat} (hlen : l.length ≤ n) (hall : ∀ i < n, i ∈ l) : l.Perm (List.range n) := by
  have hsub : (List.range n).Subperm l := List.nodup_range.subperm fun i hi => hall i (List.mem_range.1 hi)
  exact (hsub.perm_of_length_le (by rw [List.length_range]; exact hlen)).symm

end Gather
