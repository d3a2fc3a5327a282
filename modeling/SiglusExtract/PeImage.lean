/-
`GetOffset` (SiglusExtract.cpp, SiglusUniversalPatch.cpp): the place of an RVA in an image that lies in memory as
it lies in its file. The scan takes the first section whose bounds contain the RVA, the end included, so that
a section that ends where another one starts can stand in its way.
-/
import SiglusExtract.Lib.Bytes
import Mathlib.Data.List.Find

namespace SiglusExtract.PeImage

open Bytes

/-- What `GetOffset` reads of an `IMAGE_SECTION_HEADER`. -/
structure ImageSectionHeader where
  virtualAddress : Nat
  sizeOfRawData : Nat
  pointerToRawData : Nat
  deriving DecidableEq, Repr

/-- `sizeof(IMAGE_NT_HEADERS32)`. -/
def sizeofNtHeaders32 : Nat := 248

/-- `sizeof(IMAGE_SECTION_HEADER)`. -/
def sizeofSectionHeader : Nat := 40

/-- `MAX_SECTION_COUNT`. -/
def maxSectionCount : Nat := 64

/-- The memory by offset from `ModuleBase`, in 32-bit addresses. -/
def fromBase (mem : Mem UInt8) (moduleBase : Nat) : Mem UInt8 := fun off => mem ((moduleBase + off) % 2 ^ 32)

/-- A header of the table, all of it copied. -/
def readHeader (image : Mem UInt8) (p : Nat) : Option ImageSectionHeader := do
  let header ← (List.range sizeofSectionHeader).mapM fun i => image (p + i)
  let virtualAddress ← dword (.ofList header) 12
  let sizeOfRawData ← dword (.ofList header) 16
  let pointerToRawData ← dword (.ofList header) 20
  return ⟨virtualAddress, sizeOfRawData, pointerToRawData⟩

/-- The copy of the section table; it has room for 64 sections. -/
def readTable (image : Mem UInt8) : Option (List ImageSectionHeader) := do
  let lfanew ← dword image 0x3c
  let numberOfSections ← word image (lfanew + 6)
  if numberOfSections > maxSectionCount then none
  else (List.range numberOfSections).mapM fun i =>
    readHeader image (sizeofNtHeaders32 + lfanew + i * sizeofSectionHeader)

/-- The test of the loop; the sum of `DWORD`s wraps. -/
def inBounds (v : Nat) (s : ImageSectionHeader) : Bool :=
  s.virtualAddress ≤ v ∧ v ≤ (s.virtualAddress + s.sizeOfRawData) % 2 ^ 32

/-- The loop over the sections, that stops at the first hit. -/
def searchSection (v : Nat) : List ImageSectionHeader → Nat
  | [] => v
  | s :: sections =>
    if inBounds v s then (s.pointerToRawData + (v - s.virtualAddress)) % 2 ^ 32 else searchSection v sections

/-- `GetOffset`, as an address; `none` where memory is read that is not there, or the table overruns. -/
def getOffset (mem : Mem UInt8) (moduleBase v : Nat) : Option Nat := do
  let sections ← readTable (fromBase mem moduleBase)
  return (searchSection v sections + moduleBase) % 2 ^ 32

/-! ## Images -/

/-- `v` lies in the raw data of the section. -/
def ImageSectionHeader.Covers (s : ImageSectionHeader) (v : Nat) : Prop :=
  s.virtualAddress ≤ v ∧ v < s.virtualAddress + s.sizeOfRawData

/-- The section ends at `v`. -/
def ImageSectionHeader.EndsAt (s : ImageSectionHeader) (v : Nat) : Prop := s.virtualAddress + s.sizeOfRawData = v

instance (s : ImageSectionHeader) (v : Nat) : Decidable (s.Covers v) := inferInstanceAs (Decidable (_ ∧ _))

instance (s : ImageSectionHeader) (v : Nat) : Decidable (s.EndsAt v) := inferInstanceAs (Decidable (_ = _))

/-- What an image says of its sections: not more than the copy has room for, and disjoint. -/
structure Image where
  lfanew : Nat
  sections : List ImageSectionHeader
  lfanew_lt : lfanew < 2 ^ 32
  words : ∀ s ∈ sections, s.virtualAddress < 2 ^ 32 ∧ s.sizeOfRawData < 2 ^ 32 ∧ s.pointerToRawData < 2 ^ 32
  count : sections.length ≤ 64
  disjoint : sections.Pairwise fun s t => ∀ v, ¬ (s.Covers v ∧ t.Covers v)

namespace Image

/-- The headers lie in the memory. -/
structure Loaded (image : Mem UInt8) (img : Image) : Prop where
  lfanew : image.Holds 0x3c (le32 img.lfanew)
  numberOfSections : image.Holds (img.lfanew + 6) (le16 img.sections.length)
  table : ∀ i (hi : i < img.sections.length), ∃ front back : List UInt8, front.length = 12 ∧ back.length = 16 ∧
    image.Holds (sizeofNtHeaders32 + img.lfanew + i * sizeofSectionHeader)
      (front ++ (le32 img.sections[i].virtualAddress ++ (le32 img.sections[i].sizeOfRawData ++
        (le32 img.sections[i].pointerToRawData ++ back))))

/-- The first section that ends at `v`, of those in front of section `i` with the header `s`; of all where the
bounds of that section wrap, so that it is not hit itself. -/
def neighbour (img : Image) (i : Nat) (s : ImageSectionHeader) (v : Nat) : Option ImageSectionHeader :=
  (if s.virtualAddress + s.sizeOfRawData < 2 ^ 32 then img.sections.take i else img.sections).find? fun t => t.EndsAt v

/-- What is hit for `v` maps it to the same place of the file as section `i`. -/
def SameOffset (img : Image) (i : Nat) (s : ImageSectionHeader) (v : Nat) : Prop :=
  match img.neighbour i s v with
  | some t => (t.pointerToRawData + t.sizeOfRawData) % 2 ^ 32 = (s.pointerToRawData + (v - s.virtualAddress)) % 2 ^ 32
  | none => s.virtualAddress + s.sizeOfRawData < 2 ^ 32 ∨ s.pointerToRawData = s.virtualAddress

end Image

/-! ## The table -/

theorem readHeader_eq {image : Mem UInt8} {p : Nat} {s : ImageSectionHeader} {front back : List UInt8}
    (hs : s.virtualAddress < 2 ^ 32 ∧ s.sizeOfRawData < 2 ^ 32 ∧ s.pointerToRawData < 2 ^ 32)
    (hfront : front.length = 12) (hback : back.length = 16)
    (h : image.Holds p (front ++ (le32 s.virtualAddress ++ (le32 s.sizeOfRawData ++
      (le32 s.pointerToRawData ++ back))))) :
    readHeader image p = some s := by
  obtain ⟨hva, hsize, hptr⟩ := hs
  have hlen : (front ++ (le32 s.virtualAddress ++ (le32 s.sizeOfRawData ++ (le32 s.pointerToRawData ++ back)))).length
      = sizeofSectionHeader := by
    simp [hfront, hback, sizeofSectionHeader]
  have hread := h.mapM_range
  rw [hlen] at hread
  have hself := Mem.holds_ofList_self (front ++ (le32 s.virtualAddress ++ (le32 s.sizeOfRawData ++
    (le32 s.pointerToRawData ++ back)))) []
  rw [List.append_nil] at hself
  generalize hheader : front ++ (le32 s.virtualAddress ++ (le32 s.sizeOfRawData ++ (le32 s.pointerToRawData ++ back))) =
    header at hread hself
  have hfields : (Mem.ofList header).Holds 12 (le32 s.virtualAddress) ∧
      (Mem.ofList header).Holds 16 (le32 s.sizeOfRawData) ∧ (Mem.ofList header).Holds 20 (le32 s.pointerToRawData) := by
    rw [← hheader] at hself ⊢
    simp only [Mem.holds_append, hfront, le32_length, Nat.zero_add] at hself
    exact ⟨hself.2.1, hself.2.2.1, hself.2.2.2.1⟩
  rw [readHeader, hread, Option.bind_eq_bind, Option.bind_some, dword_of_holds hfields.1 hva,
    dword_of_holds hfields.2.1 hsize, dword_of_holds hfields.2.2 hptr]
  rfl

theorem readTable_eq {image : Mem UInt8} {img : Image} (h : img.Loaded image) :
    readTable image = some img.sections := by
  have hcount := img.count
  rw [readTable, dword_of_holds h.lfanew img.lfanew_lt, Option.bind_eq_bind, Option.bind_some,
    word_of_holds h.numberOfSections (by omega), Option.bind_some, if_neg (by unfold maxSectionCount; omega)]
  apply Mem.mapM_range_eq
  intro i hi
  obtain ⟨front, back, hfront, hback, hrow⟩ := h.table i hi
  exact readHeader_eq (img.words _ (List.getElem_mem hi)) hfront hback hrow

/-! ## The search -/

theorem searchSection_eq (v : Nat) : ∀ sections : List ImageSectionHeader,
    searchSection v sections = match sections.find? (inBounds v) with
      | some s => (s.pointerToRawData + (v - s.virtualAddress)) % 2 ^ 32
      | none => v
  | [] => rfl
  | s :: sections => by
    rw [searchSection, List.find?_cons]
    cases inBounds v s with
    | true => rfl
    | false => exact searchSection_eq v sections

/-- A section that does not cover `v` is hit where it ends at `v`. -/
theorem inBounds_of_not_covers {s : ImageSectionHeader} {v : Nat} (hv : v < 2 ^ 32) (h : ¬ s.Covers v) :
    inBounds v s = decide (s.EndsAt v) := by
  unfold ImageSectionHeader.Covers at h
  rw [inBounds, decide_eq_decide]
  constructor
  · rintro ⟨hle, hend⟩
    show s.virtualAddress + s.sizeOfRawData = v
    have := Nat.mod_le (s.virtualAddress + s.sizeOfRawData) (2 ^ 32)
    omega
  · rintro rfl
    exact ⟨Nat.le_add_right _ _, by rw [Nat.mod_eq_of_lt hv]⟩

/-- A section that covers `v` is hit where its bounds do not wrap. -/
theorem inBounds_of_covers {s : ImageSectionHeader} {v : Nat} (hva : s.virtualAddress < 2 ^ 32)
    (hsize : s.sizeOfRawData < 2 ^ 32) (h : s.Covers v) :
    inBounds v s = decide (s.virtualAddress + s.sizeOfRawData < 2 ^ 32) := by
  obtain ⟨hle, hlt⟩ := h
  rw [inBounds, decide_eq_decide]
  constructor
  · rintro ⟨-, hend⟩
    omega
  · intro hsum
    rw [Nat.mod_eq_of_lt hsum]
    exact ⟨hle, hlt.le⟩

namespace Image

variable {img : Image} {i : Nat} {s : ImageSectionHeader} {v : Nat}

/-- Of the other sections none covers what section `i` covers. -/
theorem not_covers (hs : img.sections[i]? = some s) (hc : s.Covers v) {j : Nat} (hj : j < img.sections.length)
    (hne : j ≠ i) : ¬ img.sections[j].Covers v := by
  obtain ⟨hi, rfl⟩ := List.getElem?_eq_some_iff.1 hs
  intro hcj
  have hdisj := List.pairwise_iff_getElem.1 img.disjoint
  rcases Nat.lt_or_gt_of_ne hne with hlt | hlt
  · exact hdisj j i hj hi hlt v ⟨hcj, hc⟩
  · exact hdisj i j hi hj hlt v ⟨hc, hcj⟩

/-- The section that is hit: the neighbour, or else section `i` where its bounds do not wrap. -/
theorem find?_inBounds (hs : img.sections[i]? = some s) (hv : v < 2 ^ 32) (hc : s.Covers v) :
    img.sections.find? (inBounds v) =
      (img.neighbour i s v).or (if s.virtualAddress + s.sizeOfRawData < 2 ^ 32 then some s else none) := by
  obtain ⟨hi, hget⟩ := List.getElem?_eq_some_iff.1 hs
  obtain ⟨hva, hsize, -⟩ := img.words s (hget ▸ List.getElem_mem hi)
  have hhit := inBounds_of_covers hva hsize hc
  unfold neighbour
  split
  · next hsum =>
    -- the sections in front of `i` do not cover `v`, and the scan does not come to those behind it
    have hfront : (img.sections.take i).find? (inBounds v) = (img.sections.take i).find? fun t => t.EndsAt v := by
      refine List.find?_congr fun t ht => ?_
      obtain ⟨j, hj, rfl⟩ := List.mem_take_iff_getElem.1 ht
      exact inBounds_of_not_covers hv (not_covers hs hc (by omega) (by omega))
    have hsplit : img.sections = img.sections.take i ++ s :: img.sections.drop (i + 1) := by
      rw [← hget, List.getElem_cons_drop, List.take_append_drop]
    conv_lhs => rw [hsplit]
    rw [List.find?_append, hfront, List.find?_cons, hhit, decide_eq_true hsum]
  · next hsum =>
    rw [Option.or_none]
    refine List.find?_congr fun t ht => ?_
    obtain ⟨j, hj, rfl⟩ := List.mem_iff_getElem.1 ht
    by_cases hji : j = i
    · subst hji
      have hend : ¬ s.EndsAt v := fun h => absurd h hc.2.ne'
      rw [hget, hhit, decide_eq_false hsum, decide_eq_false hend]
    · exact inBounds_of_not_covers hv (not_covers hs hc hj hji)

end Image

/-- An address that a section covers is found through it, unless the scan stops before at a section that ends at
that address and that maps it to another place. -/
theorem getOffset_eq_iff {mem : Mem UInt8} {moduleBase : Nat} {img : Image} (h : img.Loaded (fromBase mem moduleBase))
    {i : Nat} {s : ImageSectionHeader} (hs : img.sections[i]? = some s) {v : Nat} (hv : v < 2 ^ 32) (hc : s.Covers v) :
    getOffset mem moduleBase v = some ((moduleBase + (s.pointerToRawData + (v - s.virtualAddress))) % 2 ^ 32) ↔
      img.SameOffset i s v := by
  obtain ⟨hi, hget⟩ := List.getElem?_eq_some_iff.1 hs
  obtain ⟨hva, hsize, hptr⟩ := img.words s (hget ▸ List.getElem_mem hi)
  have hle := hc.1
  rw [getOffset, readTable_eq h, Option.bind_eq_bind, Option.bind_some, searchSection_eq, Image.find?_inBounds hs hv hc,
    Image.SameOffset, Option.pure_def, Option.some.injEq]
  cases hn : img.neighbour i s v with
  | some t =>
    have hhit := List.find?_some hn
    have hend : t.virtualAddress + t.sizeOfRawData = v := of_decide_eq_true hhit
    rw [Option.some_or]
    show ((t.pointerToRawData + (v - t.virtualAddress)) % 2 ^ 32 + moduleBase) % 2 ^ 32 = _ ↔ _
    rw [show v - t.virtualAddress = t.sizeOfRawData by omega]
    dsimp only
    omega
  | none =>
    rw [Option.none_or]
    by_cases hsum : s.virtualAddress + s.sizeOfRawData < 2 ^ 32
    · rw [if_pos hsum]
      refine iff_of_true ?_ (.inl hsum)
      show ((s.pointerToRawData + (v - s.virtualAddress)) % 2 ^ 32 + moduleBase) % 2 ^ 32 = _
      rw [Nat.mod_add_mod, Nat.add_comm]
    · rw [if_neg hsum]
      dsimp only
      omega

/-- Two sections, the second of which starts where the first one ends, and whose raw data lies behind a gap. -/
def adjacent : Image where
  lfanew := 0x40
  sections := [⟨0x1000, 0x1000, 0x400⟩, ⟨0x2000, 0x200, 0x1600⟩]
  lfanew_lt := by decide
  words := by decide
  count := by decide
  disjoint := by simp [ImageSectionHeader.Covers]; omega

/-- The bytes of its headers. -/
def adjacentFile : List UInt8 :=
  List.replicate 0x3c 0 ++ le32 0x40 ++ List.replicate 6 0 ++ le16 2 ++ List.replicate 240 0 ++
    List.replicate 12 0 ++ le32 0x1000 ++ le32 0x1000 ++ le32 0x400 ++ List.replicate 16 0 ++
    List.replicate 12 0 ++ le32 0x2000 ++ le32 0x200 ++ le32 0x1600 ++ List.replicate 16 0

/-- The file at the usual base. -/
def adjacentMem : Mem UInt8 := fun a => if a < 0x400000 then none else adjacentFile[a - 0x400000]?

theorem adjacent_loaded : adjacent.Loaded (fromBase adjacentMem 0x400000) where
  lfanew := by decide +kernel
  numberOfSections := by decide +kernel
  table := by
    intro i hi
    refine ⟨List.replicate 12 0, List.replicate 16 0, rfl, rfl, ?_⟩
    have hi : i < 2 := hi
    obtain rfl | rfl : i = 0 ∨ i = 1 := by omega
    · show Mem.Holds _ 0x138
        (List.replicate 12 0 ++ (le32 0x1000 ++ (le32 0x1000 ++ (le32 0x400 ++ List.replicate 16 0))))
      decide +kernel
    · show Mem.Holds _ 0x160
        (List.replicate 12 0 ++ (le32 0x2000 ++ (le32 0x200 ++ (le32 0x1600 ++ List.replicate 16 0))))
      decide +kernel

theorem getOffset_eq_iff_adjacent : getOffset adjacentMem 0x400000 0x1004 = some 0x400404 := by
  -- no section is in front of the first one
  have hsame : adjacent.SameOffset 0 ⟨0x1000, 0x1000, 0x400⟩ 0x1004 := .inl (show 0x1000 + 0x1000 < 2 ^ 32 by decide)
  exact (@getOffset_eq_iff adjacentMem 0x400000 adjacent adjacent_loaded 0 _ rfl 0x1004 (by decide) (by decide)).2 hsame

/-- The start of the second section is taken for the end of the first one. -/
theorem getOffset_ne : ¬ ∀ (mem : Mem UInt8) (moduleBase : Nat) (img : Image) (i : Nat) (s : ImageSectionHeader)
    (v : Nat), img.Loaded (fromBase mem moduleBase) → img.sections[i]? = some s → v < 2 ^ 32 → s.Covers v →
      getOffset mem moduleBase v = some ((moduleBase + (s.pointerToRawData + (v - s.virtualAddress))) % 2 ^ 32) := by
  intro h
  have hread : getOffset adjacentMem 0x400000 0x2000 = some 0x401400 := by decide +kernel
  have hsecond := h adjacentMem 0x400000 adjacent 1 ⟨0x2000, 0x200, 0x1600⟩ 0x2000 adjacent_loaded rfl (by decide)
    (by decide)
  rw [hread] at hsecond
  exact absurd hsecond (by decide)

end SiglusExtract.PeImage
