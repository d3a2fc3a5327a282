/-
Dictionary compression of the LZ77 family over any alphabet: a stream of tokens, each a literal
symbol or a copy of what lies `dist` symbols back, possibly overlapping what it produces.
`expand` is their meaning; a buffer written front to back computes it (`tape_copy`), and a
repetition found in the data is a copy that expands back to it (`copyBack_of_match`).
-/
import SiglusExtract.Lib.Mem

namespace Lz

variable {α : Type}

/-! ## Tokens and their meaning -/

/-- A literal symbol, or a copy of `len` symbols from `dist` symbols back. -/
inductive Token (α : Type)
  | lit (a : α)
  | copy (dist len : Nat)
  deriving Repr, DecidableEq

/-- The symbol `dist` back from the end; `none` when nothing lies there. -/
def back (out : List α) (dist : Nat) : Option α :=
  if 0 < dist ∧ dist ≤ out.length then out[out.length - dist]? else none

/-- `len` more symbols, each the one `dist` back when it is appended. -/
def copyBack (dist : Nat) : Nat → List α → Option (List α)
  | 0, out => some out
  | len + 1, out => (back out dist).bind fun a => copyBack dist len (out ++ [a])

/-- What one token appends. -/
def Token.step (out : List α) : Token α → Option (List α)
  | .lit a => some (out ++ [a])
  | .copy dist len => copyBack dist len out

/-- What a token stream appends to `out`; `none` when a copy reaches back too far. -/
def expand : List (Token α) → List α → Option (List α)
  | [], out => some out
  | t :: ts, out => (t.step out).bind (expand ts)

theorem copyBack_succ {dist len : Nat} {out out' : List α} :
    copyBack dist (len + 1) out = some out' ↔
      ∃ a, back out dist = some a ∧ copyBack dist len (out ++ [a]) = some out' :=
  Option.bind_eq_some_iff

theorem expand_cons {t : Token α} {ts : List (Token α)} {out out' : List α} :
    expand (t :: ts) out = some out' ↔ ∃ o, t.step out = some o ∧ expand ts o = some out' :=
  Option.bind_eq_some_iff

theorem expand_append (ts us : List (Token α)) (out : List α) :
    expand (ts ++ us) out = (expand ts out).bind (expand us) := by
  induction ts generalizing out with
  | nil => rfl
  | cons t ts ih =>
    simp only [List.cons_append, expand]
    cases t.step out with
    | none => rfl
    | some o => simpa using ih o

/-! ## Lengths -/

theorem copyBack_length {dist len : Nat} {out out' : List α} (h : copyBack dist len out = some out') :
    out'.length = out.length + len := by
  induction len generalizing out with
  | zero => simp only [copyBack, Option.some.injEq] at h; subst h; rfl
  | succ len ih =>
    obtain ⟨a, -, h⟩ := copyBack_succ.1 h
    rw [ih h, List.length_append, List.length_singleton]
    omega

/-- How many symbols a token appends. -/
def Token.size : Token α → Nat
  | .lit _ => 1
  | .copy _ len => len

theorem Token.step_length {t : Token α} {out out' : List α} (h : t.step out = some out') :
    out'.length = out.length + t.size := by
  cases t with
  | lit a => simp only [Token.step, Option.some.injEq] at h; subst h; simp [Token.size]
  | copy dist len => exact copyBack_length h

theorem expand_length {ts : List (Token α)} {out out' : List α} (h : expand ts out = some out') :
    out'.length = out.length + (ts.map Token.size).sum := by
  induction ts generalizing out with
  | nil => simp only [expand, Option.some.injEq] at h; subst h; rfl
  | cons t ts ih =>
    obtain ⟨o, ho, h⟩ := expand_cons.1 h
    rw [ih h, Token.step_length ho, List.map_cons, List.sum_cons, Nat.add_assoc]

theorem expand_length_le {ts : List (Token α)} {out out' : List α} (h : expand ts out = some out') :
    out.length ≤ out'.length := by
  rw [expand_length h]
  exact Nat.le_add_right _ _

/-- A stream of tokens that each append something is no longer than what it appends. -/
theorem expand_count_le {ts : List (Token α)} {out out' : List α} (hpos : ∀ t ∈ ts, 0 < t.size)
    (h : expand ts out = some out') : out.length + ts.length ≤ out'.length := by
  induction ts generalizing out with
  | nil => simp only [expand, Option.some.injEq] at h; subst h; simp
  | cons t ts ih =>
    obtain ⟨o, ho, h⟩ := expand_cons.1 h
    have := Token.step_length ho
    have := ih (fun u hu => hpos u (List.mem_cons_of_mem _ hu)) h
    have := hpos t List.mem_cons_self
    simp only [List.length_cons]
    omega

/-! ## What is kept -/

theorem copyBack_prefix {dist len : Nat} {out out' : List α} (h : copyBack dist len out = some out') :
    out <+: out' := by
  induction len generalizing out with
  | zero => simp only [copyBack, Option.some.injEq] at h; subst h; exact List.prefix_rfl
  | succ len ih =>
    obtain ⟨a, -, h⟩ := copyBack_succ.1 h
    exact (List.prefix_append out [a]).trans (ih h)

theorem Token.step_prefix {t : Token α} {out out' : List α} (h : t.step out = some out') : out <+: out' := by
  cases t with
  | lit a => simp only [Token.step, Option.some.injEq] at h; subst h; exact List.prefix_append _ _
  | copy dist len => exact copyBack_prefix h

theorem expand_prefix {ts : List (Token α)} {out out' : List α} (h : expand ts out = some out') : out <+: out' := by
  induction ts generalizing out with
  | nil => simp only [expand, Option.some.injEq] at h; subst h; exact List.prefix_rfl
  | cons t ts ih =>
    obtain ⟨o, ho, h⟩ := expand_cons.1 h
    exact (Token.step_prefix ho).trans (ih h)

/-! ## Copies on a tape -/

theorem back_eq_some {out : List α} {dist : Nat} {a : α} (h : back out dist = some a) :
    0 < dist ∧ dist ≤ out.length ∧ out[out.length - dist]? = some a := by
  unfold back at h
  split at h
  · rename_i hd; exact ⟨hd.1, hd.2, h⟩
  · cases h

/-- A copy loop over a buffer with room for it computes `copyBack`. -/
theorem tape_copy {init : Tape α} {n : Nat} (hroom : init.Room n) {dist len : Nat} {out out' : List α}
    (h : copyBack dist len out = some out') (hn : out'.length ≤ n) : init.copy dist len out = some out' := by
  induction len generalizing out with
  | zero => exact h
  | succ len ih =>
    have hlen := copyBack_length h
    obtain ⟨a, ha, h⟩ := copyBack_succ.1 h
    obtain ⟨h0, hd, hget⟩ := back_eq_some ha
    simp only [Tape.copy, Tape.peek_back init h0 hd, hget, Option.bind_eq_bind, Option.bind_some,
      Tape.poke_of_room hroom (show out.length < n by omega)]
    exact ih h

/-! ## Copies of repetitions -/

/-- A copy repeats what lies `dist` before. -/
theorem copyBack_repeats {dist len : Nat} {out out' : List α} (h : copyBack dist len out = some out') (hlen : 0 < len) :
    0 < dist ∧ dist ≤ out.length ∧ ∀ j < len, out'[out.length + j]? = out'[out.length + j - dist]? := by
  induction len generalizing out with
  | zero => exact absurd hlen (Nat.lt_irrefl 0)
  | succ len ih =>
    obtain ⟨a, ha, h⟩ := copyBack_succ.1 h
    obtain ⟨h0, hd, hget⟩ := back_eq_some ha
    have hpre := copyBack_prefix h
    refine ⟨h0, hd, fun j hj => ?_⟩
    cases j with
    | zero =>
      have hpre := List.prefix_iff_getElem?.1 hpre
      have hlast := hpre out.length (by rw [List.length_append, List.length_singleton]; omega)
      have hback := hpre (out.length - dist) (by rw [List.length_append]; omega)
      rw [List.getElem_append_right (Nat.le_refl _)] at hlast
      rw [List.getElem_append_left (by omega)] at hback
      rw [List.getElem?_eq_getElem (by omega)] at hget
      rw [Nat.add_zero, hlast, hback, hget]
      simp
    | succ j =>
      have := (ih h (by omega)).2.2 j (by omega)
      rwa [List.length_append, List.length_singleton, Nat.add_right_comm, Nat.add_assoc] at this

/-- Where the data repeats what lies `dist` before, a copy reproduces it. -/
theorem copyBack_of_match {data : List α} {p dist len : Nat} (h0 : 0 < dist) (hd : dist ≤ p)
    (hp : p + len ≤ data.length) (hm : ∀ j < len, data[p + j]? = data[p - dist + j]?) :
    copyBack dist len (data.take p) = some (data.take (p + len)) := by
  induction len generalizing p with
  | zero => rfl
  | succ len ih =>
    have hlen : (data.take p).length = p := by rw [List.length_take]; omega
    have hback : back (data.take p) dist = some data[p] := by
      unfold back
      rw [if_pos ⟨h0, by omega⟩, hlen, List.getElem?_take_of_lt (by omega)]
      have := hm 0 (by omega)
      rw [Nat.add_zero, Nat.add_zero] at this
      rw [← this, List.getElem?_eq_getElem (by omega)]
    simp only [copyBack, hback, Option.bind_some]
    rw [show data.take p ++ [data[p]] = data.take (p + 1) by rw [List.take_append_getElem],
      show p + (len + 1) = p + 1 + len by omega]
    refine ih (by omega) (by omega) fun j hj => ?_
    have := hm (j + 1) (by omega)
    rw [show p + 1 + j = p + (j + 1) by omega, this]
    congr 1
    omega

end Lz
