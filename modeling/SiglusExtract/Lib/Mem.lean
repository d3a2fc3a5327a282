/-
Memory as a program sees it through a pointer: a partial map from offsets to values, `none`
where nothing may be touched. `Mem.Holds` says that a list lies at an offset; a `Tape` is a
buffer written front to back, whose cells still hold their old content until they are written.
-/
import Mathlib.Data.List.Basic
import Mathlib.Tactic.Linarith

/-! ## Memory that is read -/

/-- Memory read through a pointer: `none` at offsets that may not be read. -/
abbrev Mem (α : Type) := Nat → Option α

namespace Mem

variable {α : Type}

/-- A list as the whole readable memory. -/
def ofList (l : List α) : Mem α := fun i => l[i]?

/-- The list `s` lies in `m` at offset `p`. -/
def Holds (m : Mem α) (p : Nat) (s : List α) : Prop :=
  ∀ i (h : i < s.length), m (p + i) = some s[i]

instance [DecidableEq α] (m : Mem α) (p : Nat) (s : List α) : Decidable (m.Holds p s) :=
  inferInstanceAs (Decidable (∀ i (h : i < s.length), m (p + i) = some s[i]))

@[simp] theorem holds_nil (m : Mem α) (p : Nat) : Holds m p [] := by
  intro i h; simp at h

theorem holds_cons {m : Mem α} {p : Nat} {a : α} {s : List α} :
    Holds m p (a :: s) ↔ m p = some a ∧ Holds m (p + 1) s := by
  constructor
  · intro h
    refine ⟨h 0 (Nat.zero_lt_succ _), fun i hi => ?_⟩
    have := h (i + 1) (Nat.succ_lt_succ hi)
    rwa [show p + (i + 1) = p + 1 + i by omega] at this
  · rintro ⟨h0, h⟩ i hi
    cases i with
    | zero => exact h0
    | succ i =>
      have := h i (Nat.lt_of_succ_lt_succ hi)
      rwa [show p + 1 + i = p + (i + 1) by omega] at this

theorem holds_append {m : Mem α} {s t : List α} {p : Nat} :
    Holds m p (s ++ t) ↔ Holds m p s ∧ Holds m (p + s.length) t := by
  induction s generalizing p with
  | nil => simp
  | cons a s ih =>
    rw [List.cons_append, holds_cons, holds_cons, ih, List.length_cons,
      show p + 1 + s.length = p + (s.length + 1) by omega, and_assoc]

theorem holds_concat {m : Mem α} {p : Nat} {l : List α} {a : α} :
    m.Holds p (l ++ [a]) ↔ m.Holds p l ∧ m (p + l.length) = some a := by
  rw [holds_append, holds_cons]
  exact and_congr_right fun _ => and_iff_left (holds_nil _ _)

theorem holds_ofList (pre s post : List α) :
    Holds (ofList (pre ++ s ++ post)) pre.length s := by
  intro i hi
  unfold ofList
  rw [List.append_assoc, List.getElem?_append_right (by omega), Nat.add_sub_cancel_left,
    List.getElem?_append_left hi, List.getElem?_eq_getElem hi]

theorem holds_ofList_self (s post : List α) : Holds (ofList (s ++ post)) 0 s := by
  simpa using holds_ofList [] s post

/-- A read of a list, and the list from there on. -/
theorem drop_of_read {l : List α} {p : Nat} {a : α} (h : ofList l p = some a) : l.drop p = a :: l.drop (p + 1) := by
  obtain ⟨hlt, rfl⟩ := List.getElem?_eq_some_iff.1 h
  exact List.drop_eq_getElem_cons hlt

theorem read_of_drop {l : List α} {p : Nat} {a : α} {s : List α} (h : l.drop p = a :: s) :
    ofList l p = some a ∧ l.drop (p + 1) = s := by
  have hget : (l.drop p)[0]? = l[p + 0]? := List.getElem?_drop
  rw [h, Nat.add_zero] at hget
  exact ⟨hget.symm, by rw [← List.drop_drop, h]; rfl⟩

/-- Reading a held list cell by cell. -/
theorem Holds.mapM_range {m : Mem α} {p : Nat} {s : List α} (h : m.Holds p s) :
    (List.range s.length).mapM (fun i => m (p + i)) = some s := by
  induction s generalizing p with
  | nil => rfl
  | cons a s ih =>
    obtain ⟨ha, hs⟩ := holds_cons.1 h
    have ih := ih hs
    have hshift : ((fun i => m (p + i)) ∘ Nat.succ) = fun i => m (p + 1 + i) := by
      funext i
      show m (p + (i + 1)) = _
      congr 1
      omega
    rw [List.length_cons, List.range_succ_eq_map, List.mapM_cons, List.mapM_map, hshift, ih]
    simp [ha]

theorem length_of_mapM {β : Type} {f : β → Option α} : ∀ {l : List β} {r : List α},
    l.mapM f = some r → r.length = l.length
  | [], r, h => by cases h; rfl
  | b :: l, r, h => by
    rw [List.mapM_cons] at h
    simp only [Option.bind_eq_bind, Option.bind_eq_some_iff, Option.pure_def, Option.some.injEq] at h
    obtain ⟨a, -, r', hr', rfl⟩ := h
    rw [List.length_cons, List.length_cons, length_of_mapM hr']

theorem mapM_congr {β : Type} {f g : β → Option α} : ∀ {l : List β}, (∀ b ∈ l, f b = g b) → l.mapM f = l.mapM g
  | [], _ => rfl
  | b :: l, h => by
    rw [List.forall_mem_cons] at h
    rw [List.mapM_cons, List.mapM_cons, h.1, mapM_congr h.2]

theorem mapM_range_eq {f : Nat → Option α} {l : List α} (h : ∀ i (hi : i < l.length), f i = some l[i]) :
    (List.range l.length).mapM f = some l := by
  have hheld : Holds f 0 l := fun i hi => by rw [Nat.zero_add]; exact h i hi
  have := hheld.mapM_range
  simpa only [Nat.zero_add] using this

end Mem

/-! ## Memory of unknown content -/

/-- Memory that may be read everywhere, after `bytes` have been written to its start. -/
def overlay {α : Type} (old : Nat → α) (bytes : List α) : Nat → α := fun i => (bytes[i]?).getD (old i)

/-- The list lies at the start of the memory. -/
def Starts {α : Type} (m : Nat → α) (s : List α) : Prop := ∀ i (h : i < s.length), m i = s[i]

theorem overlay_starts {α : Type} (old : Nat → α) (bytes : List α) : Starts (overlay old bytes) bytes := by
  intro i hi
  rw [overlay, List.getElem?_eq_getElem hi, Option.getD_some]

theorem Starts.of_append {α : Type} {m : Nat → α} {s t : List α} (h : Starts m (s ++ t)) : Starts m s := by
  intro i hi
  rw [h i (by rw [List.length_append]; omega), List.getElem_append_left hi]

/-! ## A buffer written front to back -/

/-- What the memory around a buffer holds before a program writes into it, by offset from the
start of the buffer; `none` where it may not be touched. -/
abbrev Tape (α : Type) := Int → Option α

namespace Tape

variable {α : Type}

/-- The cell at offset `j`, after `out` has been written from the start of the buffer. -/
def peek (init : Tape α) (out : List α) (j : Int) : Option α :=
  if 0 ≤ j ∧ j < out.length then out[j.toNat]? else init j

/-- Write the next cell. -/
def poke (init : Tape α) (out : List α) (a : α) : Option (List α) :=
  (init out.length).map fun _ => out ++ [a]

/-- Copy `len` cells to the end of what is written, each from `dist` cells back; the cells
written on the way are seen by the later ones. -/
def copy (init : Tape α) (dist : Nat) : Nat → List α → Option (List α)
  | 0, out => some out
  | len + 1, out => do
    let a ← init.peek out (out.length - dist)
    let out ← init.poke out a
    copy init dist len out

/-- Room for `n` cells from the start of the buffer. -/
def Room (init : Tape α) (n : Nat) : Prop := ∀ j : Nat, j < n → ∃ a, init j = some a

/-- A buffer of exactly `n` cells with the content `old`, and nothing around it. -/
def cells (n : Nat) (old : Nat → α) : Tape α := fun j => if 0 ≤ j ∧ j < n then some (old j.toNat) else none

theorem cells_room (n : Nat) (old : Nat → α) : (cells n old).Room n := by
  intro j hj
  exact ⟨old j, by simp [cells, hj]⟩

/-- A buffer that is all there is takes a cell while it has one left. -/
theorem cells_poke {n : Nat} {old : Nat → α} {out : List α} {a : α} {out' : List α} :
    (cells n old).poke out a = some out' ↔ out.length < n ∧ out' = out ++ [a] := by
  unfold poke cells
  by_cases h : out.length < n
  · rw [if_pos ⟨by omega, by omega⟩, Option.map_some, Option.some.injEq]
    exact ⟨fun e => ⟨h, e.symm⟩, fun e => e.2.symm⟩
  · rw [if_neg (by omega), Option.map_none]
    exact ⟨fun e => absurd e.symm (Option.some_ne_none _), fun e => absurd e.1 h⟩

/-- It takes a copy that fits and reaches back to its start at most. -/
theorem cells_copy {n : Nat} {old : Nat → α} {dist len : Nat} (hlen : 0 < len) {out : List α} :
    (∃ out', (cells n old).copy dist len out = some out') ↔ dist ≤ out.length ∧ out.length + len ≤ n := by
  induction len generalizing out with
  | zero => exact absurd hlen (Nat.lt_irrefl 0)
  | succ len ih =>
    have hpeek : out.length < n → dist ≤ out.length → ∃ a, (cells n old).peek out (out.length - dist) = some a := by
      intro hlt hd
      unfold peek
      split
      · exact ⟨_, List.getElem?_eq_getElem (by omega)⟩
      · exact ⟨_, if_pos ⟨by omega, by omega⟩⟩
    constructor
    · rintro ⟨out', h⟩
      simp only [copy, Option.bind_eq_bind, Option.bind_eq_some_iff] at h
      obtain ⟨a, ha, out₁, hp, h⟩ := h
      obtain ⟨hlt, rfl⟩ := cells_poke.1 hp
      have hd : dist ≤ out.length := by
        by_contra hd
        unfold peek cells at ha
        rw [if_neg (by omega), if_neg (by omega)] at ha
        cases ha
      rcases Nat.eq_zero_or_pos len with rfl | hpos
      · exact ⟨hd, by omega⟩
      · have := ((ih hpos).1 ⟨out', h⟩).2
        rw [List.length_append, List.length_singleton] at this
        exact ⟨hd, by omega⟩
    · rintro ⟨hd, hn⟩
      obtain ⟨a, ha⟩ := hpeek (by omega) hd
      have hp : (cells n old).poke out a = some (out ++ [a]) := cells_poke.2 ⟨by omega, rfl⟩
      simp only [copy, ha, hp, Option.bind_eq_bind, Option.bind_some]
      rcases Nat.eq_zero_or_pos len with rfl | hpos
      · exact ⟨_, rfl⟩
      · exact (ih hpos).2 ⟨by rw [List.length_append]; omega, by rw [List.length_append, List.length_singleton]; omega⟩

theorem poke_of_room {init : Tape α} {n : Nat} (h : init.Room n) {out : List α} (hlt : out.length < n)
    (a : α) : init.poke out a = some (out ++ [a]) := by
  obtain ⟨b, hb⟩ := h out.length hlt
  simp [poke, hb]

theorem copy_length {init : Tape α} {dist len : Nat} {out out' : List α} (h : init.copy dist len out = some out') :
    out'.length = out.length + len := by
  induction len generalizing out with
  | zero => cases h; rfl
  | succ len ih =>
    simp only [copy, Option.bind_eq_bind, Option.bind_eq_some_iff] at h
    obtain ⟨a, -, out₁, hp, h⟩ := h
    obtain ⟨_, -, rfl⟩ := Option.map_eq_some_iff.1 hp
    rw [ih h, List.length_append, List.length_singleton]
    omega

/-- Where all memory may be touched a copy succeeds, whatever its distance. -/
theorem copy_everywhere (init : Tape α) (hall : ∀ j, ∃ a, init j = some a) (dist len : Nat) (out : List α) :
    ∃ out', init.copy dist len out = some out' := by
  induction len generalizing out with
  | zero => exact ⟨out, rfl⟩
  | succ len ih =>
    obtain ⟨a, ha⟩ : ∃ a, init.peek out (out.length - dist) = some a := by
      unfold peek
      split
      · rename_i h
        exact ⟨_, List.getElem?_eq_getElem (by omega)⟩
      · exact hall _
    obtain ⟨b, hb⟩ := hall out.length
    obtain ⟨out', h⟩ := ih (out ++ [a])
    exact ⟨out', by simp only [copy, ha, poke, hb, Option.bind_eq_bind, Option.bind_some, Option.map_some, h]⟩

theorem peek_back (init : Tape α) {out : List α} {dist : Nat} (h0 : 0 < dist) (hd : dist ≤ out.length) :
    init.peek out (out.length - dist) = out[out.length - dist]? := by
  unfold peek
  rw [if_pos (by omega), show ((out.length : Int) - dist).toNat = out.length - dist by omega]

end Tape
