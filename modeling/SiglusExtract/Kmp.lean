/-
`KMP` with `InitNext` (my.h): the search for a keyword by Knuth, Morris and Pratt, with a table that skips the borders
after which the letter that did not match comes again.
-/
import SiglusExtract.Lib.Border
import SiglusExtract.Lib.Bytes
import Mathlib.Logic.Function.Basic

namespace SiglusExtract.Kmp

open Bytes Border

/-! ## The table -/

/-- `piNext`, an array of `LONG_PTR`. -/
abbrev Next := Nat → Int

/-- The bytes at two addresses are the same. -/
def sameByte (m : Mem UInt8) (p q : Nat) : Option Bool := (m p).bind fun a => (m q).map fun b => a = b

/-- The test of both loops: `j == -1`, or the byte at `p` is that of the keyword at `j`. -/
def goesOn (m : Mem UInt8) (p keyWord : Nat) (j : Int) : Option Bool :=
  if j = -1 then some true else sameByte m p (keyWord + j.toNat)

/-- The loop of `InitNext`. -/
def initLoop (m : Mem UInt8) (keyWord keyWordLen : Nat) : Nat → Nat → Int → Next → Option Next
  | 0, _, _, _ => none
  | fuel + 1, i, j, next =>
    if i < keyWordLen then
      (goesOn m (keyWord + i) keyWord j).bind fun on =>
        if on then
          (sameByte m (keyWord + (i + 1)) (keyWord + (j + 1).toNat)).bind fun same =>
            initLoop m keyWord keyWordLen fuel (i + 1) (j + 1)
              (Function.update next (i + 1) (if same then next (j + 1).toNat else j + 1))
        else initLoop m keyWord keyWordLen fuel i (next j.toNat) next
    else some next

/-- `InitNext`. A round raises `2 * i - j`. -/
def initNext (m : Mem UInt8) (keyWord keyWordLen : Nat) (next : Next) : Option Next :=
  initLoop m keyWord keyWordLen (2 * keyWordLen + 2) 0 (-1) (Function.update next 0 (-1))

/-! ## The search -/

/-- The loop of `KMP`: `i` and `j` behind it. -/
def searchLoop (m : Mem UInt8) (next : Next) (src srcLength keyWord keyWordLen : Nat) :
    Nat → Nat → Int → Option (Nat × Int)
  | 0, _, _ => none
  | fuel + 1, i, j =>
    if i ≠ srcLength ∧ j ≠ keyWordLen then
      (goesOn m (src + i) keyWord j).bind fun on =>
        if on then searchLoop m next src srcLength keyWord keyWordLen fuel (i + 1) (j + 1)
        else searchLoop m next src srcLength keyWord keyWordLen fuel i (next j.toNat)
    else some (i, j)

/-- `KMP`: the address of the keyword, if it is found. The table is on the stack. -/
def kmp (m : Mem UInt8) (stack : Next) (src srcLength keyWord keyWordLen : Nat) : Option (Option Nat) :=
  if srcLength = 0 then some none
  else
    (initNext m keyWord keyWordLen stack).bind fun next =>
      (searchLoop m next src srcLength keyWord keyWordLen (2 * srcLength + 2) 0 0).map fun (i, j) =>
        if i = srcLength ∧ j ≠ keyWordLen then none else some (src + i - keyWordLen)

/-! ## InitNext -/

section Init

variable {m : Mem UInt8} {keyWord keyWordLen : Nat}

/-- The keyword, with what is behind it. -/
abbrev word (m : Mem UInt8) (keyWord : Nat) (j : Nat) : Option UInt8 := m (keyWord + j)

theorem sameByte_eq {p q : Nat} (hp : (m p).isSome) (hq : (m q).isSome) :
    sameByte m p q = some (decide (m p = m q)) := by
  obtain ⟨a, ha⟩ := Option.isSome_iff_exists.1 hp
  obtain ⟨b, hb⟩ := Option.isSome_iff_exists.1 hq
  simp [sameByte, ha, hb]

/-- The entries up to `i` are right. -/
def Filled (m : Mem UInt8) (keyWord i : Nat) (next : Next) : Prop := ∀ n ≤ i, Strong (word m keyWord) n (next n)

/-- The entry that a round adds. -/
theorem Filled.advance {i k : Nat} {next : Next} (h : Filled m keyWord i next)
    (hk : IsLongest (word m keyWord) (i + 1) k) :
    Filled m keyWord (i + 1) (Function.update next (i + 1)
      (if decide (word m keyWord (i + 1) = word m keyWord k) = true then next k else k)) := by
  intro n hn
  by_cases hni : n = i + 1
  · rw [hni, Function.update_self]
    have hki := hk.border.1
    split
    · next heq => exact (h k (by omega)).of_longest hk (of_decide_eq_true heq).symm
    · next hne => exact IsLongest.strong hk fun heq => hne (decide_eq_true heq.symm)
  · rw [Function.update_of_ne hni]
    exact h n (by omega)

theorem initLoop_spec (hread : ∀ j ≤ keyWordLen, (word m keyWord j).isSome) :
    ∀ {fuel i : Nat} {j : Int} {next : Next}, i ≤ keyWordLen → Filled m keyWord i next → Extends (word m keyWord) i j →
      2 * keyWordLen + 2 ≤ fuel + 2 * i - j →
      ∃ next', initLoop m keyWord keyWordLen fuel i j next = some next' ∧ Filled m keyWord keyWordLen next'
  | 0, i, j, next, hi, _, hj, hfuel => by
    rcases hj.border with rfl | ⟨k, rfl, hk⟩ <;> omega
  | fuel + 1, i, j, next, hi, hfilled, hj, hfuel => by
    rw [initLoop]
    by_cases hlt : i < keyWordLen
    · rw [if_pos hlt]
      -- the longest border of one letter more is found, and the round adds its entry
      have hadvance (k : Nat) (hjk : j + 1 = k) (hk : IsLongest (word m keyWord) (i + 1) k) :
          ∃ next', ((sameByte m (keyWord + (i + 1)) (keyWord + (j + 1).toNat)).bind fun same =>
            initLoop m keyWord keyWordLen fuel (i + 1) (j + 1)
              (Function.update next (i + 1) (if same then next (j + 1).toNat else j + 1))) = some next' ∧
            Filled m keyWord keyWordLen next' := by
        have hki := hk.border.1
        rw [hjk, Int.toNat_natCast,
          @sameByte_eq m (keyWord + (i + 1)) (keyWord + k) (hread (i + 1) hlt) (hread k (by omega)), Option.bind_some]
        exact initLoop_spec hread hlt (hfilled.advance hk) (extends_of_longest hk) (by omega)
      rcases hj.border with rfl | ⟨k, rfl, hk⟩
      · exact hadvance 0 rfl hj.none
      · have hki := hk.1
        rw [goesOn, if_neg (by omega), Int.toNat_natCast,
          @sameByte_eq m (keyWord + i) (keyWord + k) (hread i (by omega)) (hread k (by omega)), Option.bind_some]
        by_cases heq : word m keyWord i = word m keyWord k
        · rw [if_pos (decide_eq_true heq)]
          exact hadvance (k + 1) rfl (hj.longest hk heq.symm)
        · rw [if_neg (by rwa [decide_eq_true_eq])]
          have hstrong := hfilled k (by omega)
          have hless := hstrong.lt
          exact initLoop_spec hread hi hfilled (hj.fall hk (fun h => heq h.symm) hstrong) (by omega)
    · obtain rfl : i = keyWordLen := by omega
      exact ⟨next, if_neg hlt, hfilled⟩

/-- The table is right, whatever the array held before. -/
theorem initNext_spec (hread : ∀ j ≤ keyWordLen, (word m keyWord j).isSome) (next : Next) :
    ∃ next', initNext m keyWord keyWordLen next = some next' ∧ Filled m keyWord keyWordLen next' := by
  refine initLoop_spec hread (Nat.zero_le _) (fun n hn => ?_) (extends_zero _) (by omega)
  obtain rfl : n = 0 := Nat.le_zero.1 hn
  rw [Function.update_self]
  exact strong_zero _

end Init

/-! ## KMP -/

section Search

variable {m : Mem UInt8} {next : Next} {src srcLength keyWord keyWordLen : Nat}

/-- The keyword stands `x` bytes into the text. -/
abbrev Found (m : Mem UInt8) (src keyWord keyWordLen x : Nat) : Prop :=
  Match (word m keyWord) (word m src) x keyWordLen

/-- What a search has found: the first place of the keyword in the text, or that there is none. -/
def Result (m : Mem UInt8) (src srcLength keyWord keyWordLen : Nat) : Option Nat → Prop
  | some p => ∃ x, p = src + x ∧ x + keyWordLen ≤ srcLength ∧ Found m src keyWord keyWordLen x ∧
      ∀ y < x, ¬ Found m src keyWord keyWordLen y
  | none => ∀ y, y + keyWordLen ≤ srcLength → ¬ Found m src keyWord keyWordLen y

/-- The last `j` of the first `i` bytes are those the keyword begins with, and it stands nowhere before them. -/
structure Searched (m : Mem UInt8) (src keyWord keyWordLen i : Nat) (j : Int) : Prop where
  here : j = -1 ∨ ∃ x k : Nat, j = k ∧ i = x + k ∧ k ≤ keyWordLen ∧ Match (word m keyWord) (word m src) x k
  before : ∀ y : Nat, y + j < i → ¬ Found m src keyWord keyWordLen y

theorem searched_zero : Searched m src keyWord keyWordLen 0 0 :=
  ⟨.inr ⟨0, 0, rfl, rfl, Nat.zero_le _, match_zero _ _ 0⟩, fun y hy => by omega⟩

/-- Past the start of the keyword, or with one byte more. -/
theorem Searched.restart {i : Nat} (h : Searched m src keyWord keyWordLen i (-1)) :
    Searched m src keyWord keyWordLen (i + 1) 0 :=
  ⟨.inr ⟨i + 1, 0, rfl, rfl, Nat.zero_le _, match_zero _ _ _⟩, fun y hy => h.before y (by omega)⟩

theorem Searched.succ {x k : Nat} (h : Searched m src keyWord keyWordLen (x + k) k) (hk : k < keyWordLen)
    (hm : Match (word m keyWord) (word m src) x k) (heq : word m keyWord k = word m src (x + k)) :
    Searched m src keyWord keyWordLen (x + (k + 1)) (k + 1 : Nat) :=
  ⟨.inr ⟨x, k + 1, rfl, rfl, hk, hm.succ heq⟩, fun y hy => h.before y (by omega)⟩

/-- A byte that does not match: no place the table skips holds the keyword. -/
theorem Searched.fall {x k : Nat} {v : Int} (h : Searched m src keyWord keyWordLen (x + k) k) (hk : k < keyWordLen)
    (hm : Match (word m keyWord) (word m src) x k) (hne : word m keyWord k ≠ word m src (x + k))
    (hv : Strong (word m keyWord) k v) : Searched m src keyWord keyWordLen (x + k) v := by
  constructor
  · rcases hv.border with rfl | ⟨l, rfl, hl, -⟩
    · exact .inl rfl
    · have hlk := hl.1
      exact .inr ⟨x + (k - l), l, rfl, by omega, by omega, hm.shift hl⟩
  · intro y hy
    rcases Nat.lt_trichotomy y x with hyx | rfl | hyx
    · exact h.before y (by omega)
    · exact fun hf => hne (hf k hk)
    · exact hv.skip hm hne hk hyx (by omega)

/-- At the end of the text or of the keyword. -/
theorem Searched.result {i : Nat} {j : Int} (h : Searched m src keyWord keyWordLen i j) (hi : i ≤ srcLength)
    (hend : ¬ (i ≠ srcLength ∧ j ≠ keyWordLen)) :
    Result m src srcLength keyWord keyWordLen
      (if i = srcLength ∧ j ≠ keyWordLen then none else some (src + i - keyWordLen)) := by
  split
  · next hout =>
    have hj : j < keyWordLen := by
      rcases h.here with rfl | ⟨x, k, rfl, -, hk, -⟩ <;> omega
    exact fun y hy => h.before y (by omega)
  · next hin =>
    obtain rfl : j = keyWordLen := by omega
    rcases h.here with hj | ⟨x, k, hj, rfl, -, hm⟩
    · omega
    · obtain rfl : keyWordLen = k := by omega
      exact ⟨x, by omega, hi, hm, fun y hy => h.before y (by omega)⟩

theorem searchLoop_spec (hnext : Filled m keyWord keyWordLen next)
    (hread : ∀ j ≤ keyWordLen, (word m keyWord j).isSome) (htext : ∀ j < srcLength, (word m src j).isSome) :
    ∀ {fuel i : Nat} {j : Int}, i ≤ srcLength → Searched m src keyWord keyWordLen i j →
      2 * srcLength + 2 ≤ fuel + 2 * i - j →
      ∃ i' j', searchLoop m next src srcLength keyWord keyWordLen fuel i j = some (i', j') ∧ i' ≤ srcLength ∧
        ¬ (i' ≠ srcLength ∧ j' ≠ keyWordLen) ∧ Searched m src keyWord keyWordLen i' j'
  | 0, i, j, hi, h, hfuel => by
    rcases h.here with rfl | ⟨x, k, rfl, rfl, -⟩ <;> omega
  | fuel + 1, i, j, hi, h, hfuel => by
    rw [searchLoop]
    by_cases hgo : i ≠ srcLength ∧ j ≠ keyWordLen
    · rw [if_pos hgo]
      rcases h.here with rfl | ⟨x, k, rfl, rfl, hk, hm⟩
      · exact searchLoop_spec hnext hread htext (by omega) h.restart (by omega)
      · have hlt : k < keyWordLen := by omega
        rw [goesOn, if_neg (by omega), Int.toNat_natCast,
          @sameByte_eq m (src + (x + k)) (keyWord + k) (htext _ (by omega)) (hread k hk), Option.bind_some]
        by_cases heq : word m src (x + k) = word m keyWord k
        · rw [if_pos (decide_eq_true heq)]
          exact searchLoop_spec hnext hread htext (by omega) (h.succ hlt hm heq.symm) (by omega)
        · rw [if_neg (by rwa [decide_eq_true_eq])]
          have hstrong := hnext k hk
          have hless := hstrong.lt
          exact searchLoop_spec hnext hread htext hi (h.fall hlt hm (fun h => heq h.symm) hstrong) (by omega)
    · exact ⟨i, j, if_neg hgo, hi, hgo, h⟩

/-- A search in a text. -/
theorem kmp_result (stack : Next) (hread : ∀ j ≤ keyWordLen, (word m keyWord j).isSome)
    (htext : ∀ j < srcLength, (word m src j).isSome) (hpos : srcLength ≠ 0) :
    ∃ r, kmp m stack src srcLength keyWord keyWordLen = some r ∧ Result m src srcLength keyWord keyWordLen r := by
  obtain ⟨next, hinit, hnext⟩ := initNext_spec hread stack
  have hfuel : (2 * srcLength + 2 : Int) ≤ (2 * srcLength + 2 : Nat) + 2 * (0 : Nat) - 0 := by omega
  obtain ⟨i, j, hloop, hi, hend, hs⟩ := searchLoop_spec hnext hread htext (Nat.zero_le _) searched_zero hfuel
  rw [kmp, if_neg hpos, hinit, Option.bind_some, hloop, Option.map_some]
  exact ⟨_, rfl, hs.result hi hend⟩

/-- The search ends, reads only the two texts and the byte behind the keyword, and finds the first place of it. -/
theorem kmp_first (stack : Next) (hread : ∀ j ≤ keyWordLen, (word m keyWord j).isSome)
    (htext : ∀ j < srcLength, (word m src j).isSome) (hne : 0 < srcLength ∨ 0 < keyWordLen) :
    ∃ r, kmp m stack src srcLength keyWord keyWordLen = some r ∧ Result m src srcLength keyWord keyWordLen r := by
  by_cases hzero : srcLength = 0
  · exact ⟨none, if_pos hzero, fun y hy => by omega⟩
  · exact kmp_result stack hread htext hzero

/-- "ab" in "aab", with the NUL behind the keyword. -/
def aab : Mem UInt8 := Mem.ofList [97, 97, 98, 97, 98, 0]

theorem kmp_first_aab :
    ∃ r, kmp aab (fun _ => 0) 0 3 3 2 = some r ∧ Result aab 0 3 3 2 r :=
  kmp_first _ (by decide) (by decide) (.inl (by decide))

example : kmp aab (fun _ => 0) 0 3 3 2 = some (some 1) := by decide

end Search

end SiglusExtract.Kmp
