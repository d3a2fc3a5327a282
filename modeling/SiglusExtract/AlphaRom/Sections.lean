/-
`InitializeFuckAlphaRom` (SiglusExtract.cpp; SiglusUniversalPatch.cpp has it as `BypassAlphaRom`): the names of the
game's sections tell which function is hooked against AlphaROM.
-/
import SiglusExtract.PeImage

namespace SiglusExtract.AlphaRom

open Bytes PeImage

/-! ## The sections -/

/-- What is hooked: `VirtualAlloc`, or `GetProcAddress`. -/
inductive Trap
  | virtualAlloc
  | getProcAddress
  deriving DecidableEq, Repr

/-- The test against `'crsr'`, for the name of the section header at `p`. -/
def isRsrc (image : Mem UInt8) (p : Nat) : Option Bool := (dword image (p + 1)).map fun d => d = 0x63727372

/-- The tests against `'tadi'` and `'a'`. The search goes on while both fail. -/
def isIdata (image : Mem UInt8) (p : Nat) : Option Bool :=
  (dword image (p + 1)).bind fun d =>
    if d = 0x74616469 then some true else (word image (p + 5)).map fun w => w = 0x61

/-- The inner loop: `i` behind it. -/
def idataLoop (image : Mem UInt8) (numberOfSections : Nat) : Nat → Nat → Nat → Option Nat
  | 0, _, _ => none
  | fuel + 1, i, p =>
    (isIdata image p).bind fun found =>
      if found then some i
      else if i + 1 < numberOfSections then
        idataLoop image numberOfSections fuel (i + 1) (p + sizeofSectionHeader)
      else some (i + 1)

/-- The outer loop, with the `i` and the header that its test has left. -/
def rsrcLoop (image : Mem UInt8) (numberOfSections : Nat) : Nat → Nat → Nat → Option (Option Trap)
  | 0, _, _ => none
  | fuel + 1, i, p =>
    if i < numberOfSections then
      (isRsrc image p).bind fun found =>
        if found then
          (idataLoop image numberOfSections (numberOfSections + 1) (i + 1) (p + sizeofSectionHeader)).map fun i =>
            some (if i < numberOfSections then .virtualAlloc else .getProcAddress)
        else rsrcLoop image numberOfSections fuel (i + 1) (p + sizeofSectionHeader)
    else some none

/-- `IMAGE_FIRST_SECTION`. -/
def imageFirstSection (image : Mem UInt8) : Option Nat := do
  let lfanew ← dword image 0x3c
  let sizeOfOptionalHeader ← word image (lfanew + 20)
  return lfanew + 24 + sizeOfOptionalHeader

/-- `InitializeFuckAlphaRom`: which function it hooks, if any. -/
def initializeFuckAlphaRom (image : Mem UInt8) : Option (Option Trap) := do
  let first ← imageFirstSection image
  let lfanew ← dword image 0x3c
  let numberOfSections ← word image (lfanew + 6)
  rsrcLoop image numberOfSections (numberOfSections + 1) 0 first

/-! ### What is found -/

section Sections

variable {image : Mem UInt8} {first n : Nat}

/-- The place of the header `k`. -/
def header (first k : Nat) : Nat := first + k * sizeofSectionHeader

theorem header_succ (first k : Nat) : header first k + sizeofSectionHeader = header first (k + 1) := by
  rw [header, header, Nat.succ_mul, Nat.add_assoc]

/-- The names of the `n` headers can be read, and as much behind the last one. -/
def Named (image : Mem UInt8) (first n : Nat) : Prop :=
  ∀ k ≤ n, (dword image (header first k + 1)).isSome ∧ (word image (header first k + 5)).isSome

instance (image : Mem UInt8) (first n : Nat) : Decidable (Named image first n) :=
  inferInstanceAs (Decidable (∀ k ≤ n, (dword image (header first k + 1)).isSome ∧
    (word image (header first k + 5)).isSome))

/-- Behind its first letter the name of the section `k` goes on with `rsrc`. -/
def Rsrc (image : Mem UInt8) (first k : Nat) : Prop := image.Holds (header first k + 1) [114, 115, 114, 99]

/-- Behind its first letter the name of the section `k` goes on with `idat`, or it has six letters of which the last is
`a`: `.idata` does, but so do `.rdata` and `.edata`. -/
def EndsSearch (image : Mem UInt8) (first k : Nat) : Prop :=
  image.Holds (header first k + 1) [105, 100, 97, 116] ∨ image.Holds (header first k + 5) [97, 0]

theorem dword_eq_iff {p d : Nat} (hd : d < 2 ^ 32) : dword image p = some d ↔ image.Holds p (le32 d) :=
  ⟨holds_of_dword, fun h => dword_of_holds h hd⟩

theorem word_eq_iff {p w : Nat} (hw : w < 2 ^ 16) : word image p = some w ↔ image.Holds p (le16 w) :=
  ⟨holds_of_word, fun h => word_of_holds h hw⟩

/-- The first test is that for the name. -/
theorem Named.isRsrc {k : Nat} (h : Named image first n) (hk : k ≤ n) :
    ∃ found, isRsrc image (header first k) = some found ∧ (found = true ↔ Rsrc image first k) := by
  obtain ⟨d, hd⟩ := Option.isSome_iff_exists.1 (h k hk).1
  refine ⟨decide (d = 0x63727372), by rw [AlphaRom.isRsrc, hd, Option.map_some], ?_⟩
  have hname := @dword_eq_iff image (header first k + 1) 0x63727372 (by decide)
  rw [hd, Option.some.injEq] at hname
  rw [decide_eq_true_iff, hname]
  rfl

/-- The other two are those for the names that end the search. -/
theorem Named.isIdata {k : Nat} (h : Named image first n) (hk : k ≤ n) :
    ∃ found, isIdata image (header first k) = some found ∧ (found = true ↔ EndsSearch image first k) := by
  obtain ⟨d, hd⟩ := Option.isSome_iff_exists.1 (h k hk).1
  obtain ⟨w, hw⟩ := Option.isSome_iff_exists.1 (h k hk).2
  refine ⟨decide (d = 0x74616469 ∨ w = 0x61), ?_, ?_⟩
  · rw [AlphaRom.isIdata, hd, Option.bind_some, hw, Option.map_some]
    by_cases hidat : d = 0x74616469 <;> simp [hidat]
  have hname := @dword_eq_iff image (header first k + 1) 0x74616469 (by decide)
  have hletter := @word_eq_iff image (header first k + 5) 0x61 (by decide)
  rw [hd, Option.some.injEq] at hname
  rw [hw, Option.some.injEq] at hletter
  rw [decide_eq_true_iff, hname, hletter]
  rfl

/-- The inner loop ends below the number of sections at the first name that ends the search, and else there or
behind. -/
theorem idataLoop_spec (h : Named image first n) : ∀ {fuel i : Nat}, i ≤ n → n < fuel + i →
    ∃ j, idataLoop image n fuel i (header first i) = some j ∧
      ((j < n ∧ i ≤ j ∧ EndsSearch image first j) ∨ n ≤ j ∧ ∀ k, i ≤ k → k < n → ¬ EndsSearch image first k)
  | 0, i, hi, hfuel => by omega
  | fuel + 1, i, hi, hfuel => by
    rw [idataLoop]
    obtain ⟨found, htest, hends⟩ := h.isIdata hi
    rw [htest, Option.bind_some]
    by_cases hfound : EndsSearch image first i
    · rw [if_pos (hends.2 hfound)]
      by_cases hin : i < n
      · exact ⟨i, rfl, .inl ⟨hin, Nat.le_refl i, hfound⟩⟩
      · exact ⟨i, rfl, .inr ⟨by omega, fun k hk hkn => by omega⟩⟩
    · rw [if_neg fun ht => hfound (hends.1 ht)]
      by_cases hin : i + 1 < n
      · rw [if_pos hin, header_succ]
        obtain ⟨j, hj, hcase⟩ := idataLoop_spec h (Nat.le_of_lt hin) (by omega : n < fuel + (i + 1))
        refine ⟨j, hj, ?_⟩
        rcases hcase with ⟨hjn, hij, hidata⟩ | ⟨hjn, hnone⟩
        · exact .inl ⟨hjn, by omega, hidata⟩
        · refine .inr ⟨hjn, fun k hk hkn => ?_⟩
          rcases Nat.eq_or_lt_of_le hk with rfl | hlt
          · exact hfound
          · exact hnone k hlt hkn
      · rw [if_neg hin]
        refine ⟨i + 1, rfl, .inr ⟨by omega, fun k hk hkn => ?_⟩⟩
        obtain rfl : k = i := by omega
        exact hfound

/-- The section `k` is the first one from `i` on that is called `?rsrc`. -/
def FirstRsrc (image : Mem UInt8) (first n i k : Nat) : Prop :=
  i ≤ k ∧ k < n ∧ Rsrc image first k ∧ ∀ l, i ≤ l → l < k → ¬ Rsrc image first l

/-- What is hooked, by the names. -/
def Chosen (image : Mem UInt8) (first n i : Nat) : Option Trap → Prop
  | none => ∀ k, i ≤ k → k < n → ¬ Rsrc image first k
  | some .virtualAlloc => ∃ k, FirstRsrc image first n i k ∧ ∃ j, k < j ∧ j < n ∧ EndsSearch image first j
  | some .getProcAddress => ∃ k, FirstRsrc image first n i k ∧ ∀ j, k < j → j < n → ¬ EndsSearch image first j

theorem FirstRsrc.pred {i k : Nat} (h : FirstRsrc image first n (i + 1) k) (hno : ¬ Rsrc image first i) :
    FirstRsrc image first n i k := by
  refine ⟨by have := h.1; omega, h.2.1, h.2.2.1, fun l hl hlk => ?_⟩
  rcases Nat.eq_or_lt_of_le hl with rfl | hlt
  · exact hno
  · exact h.2.2.2 l hlt hlk

theorem rsrcLoop_spec (h : Named image first n) : ∀ {fuel i : Nat}, i ≤ n → n < fuel + i →
    ∃ trap, rsrcLoop image n fuel i (header first i) = some trap ∧ Chosen image first n i trap
  | 0, i, hi, hfuel => by omega
  | fuel + 1, i, hi, hfuel => by
    rw [rsrcLoop]
    by_cases hin : i < n
    · obtain ⟨found, htest, hrsrc⟩ := h.isRsrc (Nat.le_of_lt hin)
      rw [if_pos hin, htest, Option.bind_some]
      by_cases hfound : Rsrc image first i
      · have hfirst : FirstRsrc image first n i i := ⟨Nat.le_refl i, hin, hfound, fun l hl hlk => by omega⟩
        obtain ⟨j, hj, hcase⟩ := idataLoop_spec h hin (by omega : n < n + 1 + (i + 1))
        rw [if_pos (hrsrc.2 hfound), header_succ, hj, Option.map_some]
        rcases hcase with ⟨hjn, hij, hidata⟩ | ⟨hjn, hnone⟩
        · exact ⟨_, rfl, by rw [if_pos hjn]; exact ⟨i, hfirst, j, hij, hjn, hidata⟩⟩
        · exact ⟨_, rfl, by rw [if_neg (by omega)]; exact ⟨i, hfirst, fun k hk => hnone k hk⟩⟩
      · rw [if_neg fun ht => hfound (hrsrc.1 ht), header_succ]
        obtain ⟨trap, htrap, hchosen⟩ := rsrcLoop_spec h hin (by omega : n < fuel + (i + 1))
        refine ⟨trap, htrap, ?_⟩
        cases trap with
        | none =>
          intro k hk hkn
          rcases Nat.eq_or_lt_of_le hk with rfl | hlt
          · exact hfound
          · exact hchosen k hlt hkn
        | some trap =>
          cases trap with
          | virtualAlloc =>
            obtain ⟨k, hk, hidata⟩ := hchosen
            exact ⟨k, hk.pred hfound, hidata⟩
          | getProcAddress =>
            obtain ⟨k, hk, hidata⟩ := hchosen
            exact ⟨k, hk.pred hfound, hidata⟩
    · exact ⟨none, if_neg hin, fun k hk hkn => by omega⟩

/-- The loops come to their ends. A game without `?rsrc` is left alone; of the others those with a name behind it that
ends the search get the hook of `VirtualAlloc`, the rest that of `GetProcAddress`. -/
theorem initializeFuckAlphaRom_chosen {lfanew size : Nat} (hlfanew : dword image 0x3c = some lfanew)
    (hsize : word image (lfanew + 20) = some size) (hn : word image (lfanew + 6) = some n)
    (h : Named image (lfanew + 24 + size) n) :
    ∃ trap, initializeFuckAlphaRom image = some trap ∧ Chosen image (lfanew + 24 + size) n 0 trap := by
  obtain ⟨trap, htrap, hchosen⟩ := rsrcLoop_spec h (Nat.zero_le n) (by omega : n < n + 1 + 0)
  refine ⟨trap, ?_, hchosen⟩
  have hfirst : header (lfanew + 24 + size) 0 = lfanew + 24 + size := by rw [header, Nat.zero_mul, Nat.add_zero]
  rw [hfirst] at htrap
  simp [initializeFuckAlphaRom, imageFirstSection, hlfanew, hsize, hn, htrap]

/-- The headers of a game with the sections `.rsrc` and `.idata`. -/
def gameHeaders : List UInt8 :=
  List.replicate 0x3c 0 ++ le32 0x40 ++ List.replicate 6 0 ++ le16 2 ++ List.replicate 12 0 ++ le16 0 ++ le16 0 ++
    [46, 114, 115, 114, 99] ++ List.replicate 35 0 ++ [46, 105, 100, 97, 116, 97] ++ List.replicate 74 0

set_option maxRecDepth 4000 in
theorem initializeFuckAlphaRom_chosen_game :
    ∃ trap, initializeFuckAlphaRom (.ofList gameHeaders) = some trap ∧ Chosen (.ofList gameHeaders) 0x58 2 0 trap :=
  @initializeFuckAlphaRom_chosen (.ofList gameHeaders) 2 0x40 0 (by decide) (by decide) (by decide) (by decide)

set_option maxRecDepth 4000 in
example : initializeFuckAlphaRom (.ofList gameHeaders) = some (some .virtualAlloc) := by decide

-- the import table is looked for, but `.rdata` is taken for it
set_option maxRecDepth 4000 in
example : initializeFuckAlphaRom (.ofList (gameHeaders.set 0x81 114)) = some (some .virtualAlloc) := by decide

end Sections

end SiglusExtract.AlphaRom
