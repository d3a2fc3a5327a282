/-
The match search of the compressor (Compression.cpp): `GenerateTable` fills the failure table of
the look-ahead in the global `OffTable`, `SearchData` runs Knuth–Morris–Pratt over the window.
Whatever the table held before, what `SearchData` returns is a repetition of the look-ahead that
starts inside the window.
-/
import SiglusExtract.Lib.Border
import SiglusExtract.Lib.Bytes
import Mathlib.Data.Finset.Lattice.Fold
import Mathlib.Order.Lattice.Nat

namespace SiglusExtract.Compression

open Bytes Border

/-! ## The failure table -/

/-- The most bytes one match covers. -/
def level : Nat := 8

/-- The fewest bytes a match is accepted for. -/
def acceptLevel : Nat := 3

/-- The global array `OffTable` of `int`s. -/
abbrev OffTable := Nat → Int

namespace OffTable

def set (t : OffTable) (i : Nat) (v : Int) : OffTable := fun j => if j = i then v else t j

/-- `memset` of the first `bytes` bytes to zero: the entries are four bytes each, so the last one
reached may keep its upper bytes. -/
def memset (t : OffTable) (bytes : Nat) : OffTable := fun i =>
  if 4 * i + 4 ≤ bytes then 0
  else if 4 * i < bytes then t i - t i % 256 ^ (bytes - 4 * i)
  else t i

@[simp] theorem set_same (t : OffTable) (i : Nat) (v : Int) : t.set i v i = v := by simp [set]

theorem set_ne (t : OffTable) {i j : Nat} (v : Int) (h : j ≠ i) : t.set i v j = t j := by simp [set, h]

end OffTable

/-- The loop of `GenerateTable`. -/
def generateLoop (input : Mem UInt8) (buffer len : Nat) : Nat → Nat → Nat → OffTable → Option OffTable
  | 0, _, _, _ => none
  | fuel + 1, i, x, t =>
    if i < len then do
      let a ← input (buffer + (i - 1))
      let b ← input (buffer + x)
      if a = b then generateLoop input buffer len fuel (i + 1) (x + 1) (t.set i (x + 1))
      else if 0 < x then generateLoop input buffer len fuel i (t x).toNat t
      else generateLoop input buffer len fuel (i + 1) x (t.set i 0)
    else some t

/-- `GenerateTable` on the `len` bytes at `buffer`. A turn of its loop raises `2 * i - x`. -/
def generateTable (t : OffTable) (input : Mem UInt8) (buffer len : Nat) : Option OffTable :=
  let t := ((t.memset (level + 1)).set 0 (-1)).set 1 0
  generateLoop input buffer len (2 * len + 1) 2 0 t

/-- Entry 0 is the sentinel, and each entry up to `n` a border of the prefix of that length. -/
structure Borders (w : Nat → Option UInt8) (t : OffTable) (n : Nat) : Prop where
  zero : t 0 = -1
  border : ∀ i, 0 < i → i < n → ∃ k : Nat, t i = k ∧ IsBorder w i k

section Table

variable {input : Mem UInt8} {buffer len : Nat}

theorem Borders.set {w : Nat → Option UInt8} {t : OffTable} {i k : Nat} (h : Borders w t i) (hi : 0 < i)
    (hk : IsBorder w i k) : Borders w (t.set i k) (i + 1) := by
  refine ⟨by rw [OffTable.set_ne _ _ (by omega), h.zero], fun j h0 hj => ?_⟩
  by_cases hji : j = i
  · subst hji
    exact ⟨k, OffTable.set_same _ _ _, hk⟩
  · rw [OffTable.set_ne _ _ hji]
    exact h.border j h0 (by omega)

theorem Borders.mono {w : Nat → Option UInt8} {t : OffTable} {n n' : Nat} (h : Borders w t n) (hn : n' ≤ n) :
    Borders w t n' :=
  ⟨h.zero, fun i h0 hi => h.border i h0 (by omega)⟩

/-- Each entry bounds the borders of its prefix as well. -/
structure LongestBorders (w : Nat → Option UInt8) (t : OffTable) (n : Nat) : Prop extends Borders w t n where
  le : ∀ i, 0 < i → i < n → ∀ l : Nat, IsBorder w i l → (l : Int) ≤ t i

theorem LongestBorders.longest {w : Nat → Option UInt8} {t : OffTable} {n i : Nat} (h : LongestBorders w t n)
    (h0 : 0 < i) (hi : i < n) : ∃ k : Nat, t i = k ∧ IsLongest w i k := by
  obtain ⟨k, hk, hb⟩ := h.border i h0 hi
  refine ⟨k, hk, hb, fun l hl => ?_⟩
  have := h.le i h0 hi l hl
  omega

theorem LongestBorders.set {w : Nat → Option UInt8} {t : OffTable} {i k : Nat} (h : LongestBorders w t i)
    (hi : 0 < i) (hk : IsLongest w i k) : LongestBorders w (t.set i k) (i + 1) := by
  refine ⟨h.toBorders.set hi hk.border, fun j h0 hj l hl => ?_⟩
  by_cases hji : j = i
  · subst hji
    rw [OffTable.set_same]
    exact Int.ofNat_le.2 (hk.le l hl)
  · rw [OffTable.set_ne _ _ hji]
    exact h.le j h0 (by omega) l hl

theorem LongestBorders.mono {w : Nat → Option UInt8} {t : OffTable} {n n' : Nat} (h : LongestBorders w t n)
    (hn : n' ≤ n) : LongestBorders w t n' :=
  ⟨h.toBorders.mono hn, fun i h0 hi => h.le i h0 (by omega)⟩

/-- The loop of `GenerateTable` keeps the entries below `i` the longest borders, and `x` a border of
the first `i - 1` bytes which no border of the first `i` exceeds by more than one. -/
theorem generateLoop_spec (hread : ∀ j < len, (input (buffer + j)).isSome) :
    ∀ (fuel i x : Nat) (t : OffTable), 2 ≤ i → LongestBorders (fun j => input (buffer + j)) t i →
      Candidate (fun j => input (buffer + j)) (i - 1) x → 2 * len < fuel + 2 * i - x → 0 < fuel →
      ∃ t', generateLoop input buffer len fuel i x t = some t' ∧
        LongestBorders (fun j => input (buffer + j)) t' (max i len)
  | 0, _, _, _, _, _, _, _, h => absurd h (Nat.lt_irrefl 0)
  | fuel + 1, i, x, t, hi, ht, hx, hfuel, _ => by
    have hxi := hx.border.1
    by_cases hlt : i < len
    · obtain ⟨a, ha⟩ := Option.isSome_iff_exists.1 (hread (i - 1) (by omega))
      obtain ⟨b, hb⟩ := Option.isSome_iff_exists.1 (hread x (by omega))
      have hsucc : i - 1 + 1 = i := by omega
      rw [generateLoop, if_pos hlt]
      simp only [ha, hb, Option.bind_eq_bind, Option.bind_some]
      by_cases hab : a = b
      · rw [if_pos hab]
        -- the border goes on by a byte
        have hlong := hx.extend (show input (buffer + x) = input (buffer + (i - 1)) by rw [ha, hb, hab])
        rw [hsucc] at hlong
        obtain ⟨t', h1, h2⟩ := generateLoop_spec hread fuel (i + 1) (x + 1) (t.set i (x + 1)) (by omega)
          (ht.set (k := x + 1) (by omega) hlong) hlong.candidate (by omega) (by omega)
        exact ⟨t', h1, h2.mono (by omega)⟩
      · rw [if_neg hab]
        have hne : input (buffer + x) ≠ input (buffer + (i - 1)) := by
          rw [ha, hb]
          exact fun h => hab (Option.some.inj h).symm
        by_cases h0 : 0 < x
        · rw [if_pos h0]
          -- fall back to the next shorter border, which lowers `x`
          obtain ⟨k, hk, hlong⟩ := ht.longest h0 (by omega)
          rw [hk, Int.toNat_natCast]
          have := hlong.border.1
          exact generateLoop_spec hread fuel i k t hi ht (hx.fall hne hlong) (by omega) (by omega)
        · rw [if_neg h0]
          -- no border is left: entry `i` is zero
          obtain rfl : x = 0 := by omega
          have hlong := hx.none hne
          rw [hsucc] at hlong
          obtain ⟨t', h1, h2⟩ := generateLoop_spec hread fuel (i + 1) 0 (t.set i 0) (by omega)
            (ht.set (k := 0) (by omega) hlong) hlong.candidate (by omega) (by omega)
          exact ⟨t', h1, h2.mono (by omega)⟩
    · rw [generateLoop, if_neg hlt]
      exact ⟨t, rfl, ht.mono (by omega)⟩

/-- `GenerateTable` terminates and leaves the longest borders of the look-ahead in the entries below
`len`, whatever the table held before. -/
theorem generateTable_spec (t : OffTable) (hread : ∀ j < len, (input (buffer + j)).isSome) :
    ∃ t', generateTable t input buffer len = some t' ∧
      LongestBorders (fun j => input (buffer + j)) t' len := by
  have hinit : LongestBorders (fun j => input (buffer + j)) (((t.memset (level + 1)).set 0 (-1)).set 1 0) 2 := by
    refine LongestBorders.set (k := 0) ⟨⟨OffTable.set_same _ _ _, fun i h0 hi => ?_⟩, fun i h0 hi => ?_⟩
      Nat.one_pos (isLongest_one _)
    · omega
    · omega
  obtain ⟨t', h1, h2⟩ := generateLoop_spec hread (2 * len + 1) 2 0 _ (by omega) hinit
    (isLongest_one _).candidate (by omega) (by omega)
  exact ⟨t', h1, h2.mono (by omega)⟩

end Table

/-! ## The search -/

/-- The loop of `SearchData`: `matchlen` and `offset` of the longest match it met. -/
def searchLoop (input : Mem UInt8) (ptr comp datalen complen : Nat) (t : OffTable) :
    Nat → Nat → Nat → Nat → Nat → Option (Nat × Nat)
  | 0, _, _, _, _ => none
  | fuel + 1, i, x, matchlen, offset =>
    if x < datalen then do
      let a ← input (comp + i)
      let b ← input (ptr + (i + x))
      if a = b then
        if i + 1 = complen then some (i + 1, x)
        else searchLoop input ptr comp datalen complen t fuel (i + 1) x matchlen offset
      else
        let best := if i > matchlen then (i, x) else (matchlen, offset)
        let i' := if t i > 0 then (t i).toNat else 0
        searchLoop input ptr comp datalen complen t fuel i' (x + (i - t i)).toNat best.1 best.2
    else some (matchlen, offset)

/-- `SearchData` for the `complen` bytes at `comp` in the window of `datalen` bytes before
`buffer`: the distance of the match, zero for none, and the value left in `*outlen`. A turn of the
loop raises `2 * x + i`. -/
def searchData (input : Mem UInt8) (buffer datalen comp complen : Nat) (t : OffTable) (outlen : Nat) :
    Option (Nat × Nat) :=
  let ptr := buffer - datalen
  if complen ≤ 2 ∨ datalen ≤ complen then some (0, outlen)
  else do
    let (matchlen, offset) ← searchLoop input ptr comp datalen complen t (2 * datalen + complen + 1) 0 0 0 0
    let (matchlen, offset) := if matchlen < acceptLevel then (0, 0) else (matchlen, buffer - (ptr + offset))
    some (offset, if matchlen > 2 then matchlen - 2 else matchlen)

section Search

variable {input : Mem UInt8} {buffer ptr comp datalen complen : Nat} {t : OffTable}

/-- The loop of `SearchData` ends with the first of the longest matches in the window. It has searched
the positions below `x` and matched `i` bytes at `x`. -/
theorem searchLoop_spec (hread : ∀ i x, i < complen → x < datalen → (input (ptr + (i + x))).isSome)
    (hread' : ∀ i < complen, (input (comp + i)).isSome)
    (ht : LongestBorders (fun j => input (comp + j)) t complen) :
    ∀ (fuel i x matchlen offset : Nat), i < complen →
      Match (fun j => input (comp + j)) (fun j => input (ptr + j)) x i →
      matchlen < complen → (0 < matchlen → offset < datalen) →
      Best (fun j => input (comp + j)) (fun j => input (ptr + j)) complen x matchlen offset →
      2 * datalen + complen < fuel + 2 * x + i → 0 < fuel →
      ∃ ml off, searchLoop input ptr comp datalen complen t fuel i x matchlen offset = some (ml, off) ∧
        ml ≤ complen ∧ (0 < ml → off < datalen) ∧
        Best (fun j => input (comp + j)) (fun j => input (ptr + j)) complen datalen ml off
  | 0, _, _, _, _, _, _, _, _, _, _, h => absurd h (Nat.lt_irrefl 0)
  | fuel + 1, i, x, matchlen, offset, hi, hm, hml, hoff, hbest, hfuel, _ => by
    rw [searchLoop]
    by_cases hx : x < datalen
    · obtain ⟨a, ha⟩ := Option.isSome_iff_exists.1 (hread' i hi)
      obtain ⟨b, hb⟩ := Option.isSome_iff_exists.1 (hread i x hi hx)
      simp only [if_pos hx, ha, hb, Option.bind_eq_bind, Option.bind_some]
      by_cases hab : a = b
      · rw [if_pos hab]
        have hm' := hm.succ (show input (comp + i) = input (ptr + (x + i)) by
          rw [ha, Nat.add_comm x i, hb, hab])
        by_cases hc : i + 1 = complen
        · rw [if_pos hc]
          -- a full match: none is longer, and those before it are shorter
          refine ⟨i + 1, x, rfl, by omega, fun _ => hx, hbest.replace hm' (fun y _ _ n hn _ => by omega) (by omega)⟩
        · rw [if_neg hc]
          exact searchLoop_spec hread hread' ht fuel (i + 1) x matchlen offset (by omega) hm' hml hoff hbest
            (by omega) (by omega)
      · rw [if_neg hab]
        have hne : input (comp + i) ≠ input (ptr + (x + i)) := by
          rw [ha, Nat.add_comm x i, hb]
          exact fun h => hab (Option.some.inj h)
        -- where no position below `x'` is longer than `i`, the longer of the two matches is kept
        have hkeep : ∀ x', (∀ y, x ≤ y → y < x' → ∀ n ≤ complen,
              Match (fun j => input (comp + j)) (fun j => input (ptr + j)) y n → n ≤ i) →
            ∀ best : Nat × Nat, best = (if i > matchlen then (i, x) else (matchlen, offset)) →
            best.1 < complen ∧ (0 < best.1 → best.2 < datalen) ∧
              Best (fun j => input (comp + j)) (fun j => input (ptr + j)) complen x' best.1 best.2 := by
          intro x' hskip best hbest'
          split at hbest'
          · subst hbest'
            exact ⟨hi, fun _ => hx, hbest.replace hm hskip (by omega)⟩
          · subst hbest'
            exact ⟨hml, hoff, hbest.keep hskip (by omega)⟩
        by_cases h0 : i = 0
        · subst h0
          -- the sentinel -1 moves the window on by one
          rw [ht.zero, if_neg (by omega), show ((x : Int) + (((0 : Nat) : Int) - -1)).toNat = x + 1 by omega]
          obtain ⟨k1, k2, k3⟩ := hkeep (x + 1) (fun y h1 h2 n _ hy => by
            obtain rfl : y = x := by omega
            exact hy.le_of_ne hne) _ rfl
          exact searchLoop_spec hread hread' ht fuel 0 (x + 1) _ _ (by omega) (match_zero _ _ _) k1 k2 k3
            (by omega) (by omega)
        · obtain ⟨k, hk, hlong⟩ := ht.longest (by omega) hi
          -- the window moves so far that a border of the match lies on it
          have hki := hlong.border.1
          have hi' : (if t i > 0 then (t i).toNat else 0) = k := by
            rw [hk]
            split <;> omega
          have hx' : ((x : Int) + ((i : Int) - t i)).toNat = x + (i - k) := by rw [hk]; omega
          obtain ⟨k1, k2, k3⟩ := hkeep (x + (i - k)) (fun y h1 h2 n _ hy => by
            by_cases hyx : y = x
            · exact (hyx ▸ hy).le_of_ne hne
            · exact Nat.le_of_lt (hm.lt_of_skip hlong (by omega) h2 hy)) _ rfl
          rw [hi', hx']
          exact searchLoop_spec hread hread' ht fuel k (x + (i - k)) _ _ (by omega) (hm.shift hlong.border)
            k1 k2 k3 (by omega) (by omega)
    · rw [if_neg hx]
      refine ⟨matchlen, offset, rfl, Nat.le_of_lt hml, hoff, hbest.here, fun y hy => ?_, hbest.first⟩
      exact hbest.longest y (by omega)

/-- `SearchData` behind its guard: the first of the longest matches, if it has at least three bytes. -/
theorem searchData_best (hdata : datalen ≤ buffer) (hlen : 2 < complen) (hlt : complen < datalen)
    (hread : ∀ p < datalen + complen, (input (buffer - datalen + p)).isSome)
    (ht : LongestBorders (fun j => input (buffer + j)) t complen) (outlen : Nat) :
    ∃ ml off, Best (fun j => input (buffer + j)) (fun j => input (buffer - datalen + j)) complen datalen ml off ∧
      ml ≤ complen ∧ (0 < ml → off < datalen) ∧
      searchData input buffer datalen buffer complen t outlen =
        if 3 ≤ ml then some (datalen - off, ml - 2) else some (0, 0) := by
  have hcomp : ∀ i < complen, (input (buffer + i)).isSome := by
    intro i hi
    have := hread (datalen + i) (by omega)
    rwa [show buffer - datalen + (datalen + i) = buffer + i by omega] at this
  have hwin : ∀ i x, i < complen → x < datalen → (input (buffer - datalen + (i + x))).isSome :=
    fun i x hi hx => hread (i + x) (by omega)
  obtain ⟨ml, off, hl, hml, hoff, hbest⟩ := searchLoop_spec hwin hcomp ht (2 * datalen + complen + 1) 0 0 0 0
    (by omega) (match_zero _ _ _) (by omega) (by omega) (best_zero _ _ _) (by omega) (by omega)
  refine ⟨ml, off, hbest, hml, hoff, ?_⟩
  unfold searchData
  rw [if_neg (by omega)]
  simp only [hl, Option.bind_eq_bind, Option.bind_some]
  by_cases hacc : 3 ≤ ml
  · have hoff := hoff (by omega)
    simp only [if_neg (show ¬ ml < acceptLevel by unfold acceptLevel; omega), if_pos (show ml > 2 by omega),
      if_pos hacc, show buffer - (buffer - datalen + off) = datalen - off by omega]
  · simp only [if_pos (show ml < acceptLevel by unfold acceptLevel; omega), if_neg hacc]
    rfl

end Search

/-- `SearchData` terminates, and what it returns is no match, or a distance into the window at
which the next `outlen + 2` bytes of the look-ahead stand already. -/
theorem searchData_spec {input : Mem UInt8} {buffer datalen complen : Nat} {t : OffTable}
    (hdata : datalen ≤ buffer) (hread : ∀ p < buffer + complen, (input p).isSome)
    (ht : LongestBorders (fun j => input (buffer + j)) t complen) :
    ∃ offset mlen, searchData input buffer datalen buffer complen t 0 = some (offset, mlen) ∧
      (offset ≠ 0 → offset ≤ datalen ∧ 1 ≤ mlen ∧ mlen + 2 ≤ complen ∧ complen < datalen ∧
        ∀ j < mlen + 2, input (buffer + j) = input (buffer - offset + j)) := by
  by_cases h : complen ≤ 2 ∨ datalen ≤ complen
  · refine ⟨0, 0, ?_, fun h => absurd rfl h⟩
    unfold searchData
    rw [if_pos h]
  · obtain ⟨ml, off, hbest, hml, hoff, hs⟩ := searchData_best hdata (by omega) (by omega)
      (fun p hp => hread _ (by omega)) ht 0
    by_cases hacc : 3 ≤ ml
    · have hoff := hoff (by omega)
      rw [if_pos hacc] at hs
      refine ⟨_, _, hs, fun _ => ⟨by omega, by omega, by omega, by omega, fun j hj => ?_⟩⟩
      rw [show buffer - (datalen - off) + j = buffer - datalen + (off + j) by omega]
      exact hbest.here j (by omega)
    · rw [if_neg hacc] at hs
      exact ⟨0, 0, hs, fun h => absurd rfl h⟩

/-! ## What earlier calls leave behind -/

/-- Nothing is written behind the entries of the look-ahead. -/
theorem generateLoop_frame {input : Mem UInt8} {buffer len : Nat} : ∀ {fuel i x : Nat} {t t' : OffTable},
    generateLoop input buffer len fuel i x t = some t' → ∀ j, len ≤ j → t' j = t j
  | 0, _, _, _, _, h, _, _ => by cases h
  | fuel + 1, i, x, t, t', h, j, hj => by
    rw [generateLoop] at h
    split at h
    · next hlt =>
      simp only [Option.bind_eq_bind, Option.bind_eq_some_iff] at h
      obtain ⟨a, -, b, -, h⟩ := h
      have hset : ∀ v, t.set i v j = t j := fun v => OffTable.set_ne t v (by omega)
      split at h
      · rw [generateLoop_frame h j hj, hset]
      · split at h
        · exact generateLoop_frame h j hj
        · rw [generateLoop_frame h j hj, hset]
    · rw [Option.some.inj h]

/-- The search reads the entries below `complen` only. -/
theorem searchLoop_congr {input : Mem UInt8} {ptr comp datalen complen : Nat} {t u : OffTable}
    (htu : ∀ i < complen, t i = u i) (hlt : ∀ i < complen, t i < complen) : ∀ (fuel i x matchlen offset : Nat),
    i < complen → searchLoop input ptr comp datalen complen t fuel i x matchlen offset =
      searchLoop input ptr comp datalen complen u fuel i x matchlen offset
  | 0, _, _, _, _, _ => rfl
  | fuel + 1, i, x, matchlen, offset, hi => by
    have hnext : (if t i > 0 then (t i).toNat else 0) < complen := by
      have := hlt i hi
      split <;> omega
    rw [searchLoop, searchLoop]
    split
    · cases input (comp + i) with
      | none => rfl
      | some a =>
        cases input (ptr + (i + x)) with
        | none => rfl
        | some b =>
          simp only [Option.bind_eq_bind, Option.bind_some]
          split
          · split
            · rfl
            · exact searchLoop_congr htu hlt fuel (i + 1) x matchlen offset (by omega)
          · rw [← htu i hi]
            exact searchLoop_congr htu hlt fuel _ _ _ _ hnext
    · rfl

theorem searchData_congr {input : Mem UInt8} {complen : Nat} {t u : OffTable} (htu : ∀ i < complen, t i = u i)
    (hlt : ∀ i < complen, t i < complen) (buffer datalen comp outlen : Nat) :
    searchData input buffer datalen comp complen t outlen = searchData input buffer datalen comp complen u outlen := by
  unfold searchData
  split
  · rfl
  · dsimp only
    rw [searchLoop_congr htu hlt _ 0 0 0 0 (by omega)]

/-- Whatever the table holds, `GenerateTable` on a look-ahead of 2 to `LEVEL` bytes terminates, writes inside the table,
and leaves the failure function of the look-ahead in the entries below its length. A search with that table finds what
it would find with the table left behind by any other history. -/
theorem generateTable_history {input : Mem UInt8} {buffer : Nat} {look : List UInt8} (hlook : input.Holds buffer look)
    (h2 : 2 ≤ look.length) (hlevel : look.length ≤ level) (t : OffTable) :
    ∃ t', generateTable t input buffer look.length = some t' ∧ t' 0 = -1 ∧
      (∀ i, 1 ≤ i → i < look.length → ∃ k : Nat, t' i = k ∧ IsLongest (fun j => look[j]?) i k) ∧
      (∀ i > level, t' i = t i) ∧
      ∀ u, ∃ u', generateTable u input buffer look.length = some u' ∧ ∀ datalen outlen,
        searchData input buffer datalen buffer look.length t' outlen =
          searchData input buffer datalen buffer look.length u' outlen := by
  have hread : ∀ j < look.length, (input (buffer + j)).isSome := by
    intro j hj
    rw [hlook j hj]
    rfl
  obtain ⟨t', ht, hb⟩ := generateTable_spec t hread
  refine ⟨t', ht, hb.zero, fun i h1 hi => ?_, fun i hi => ?_, fun u => ?_⟩
  · obtain ⟨k, hk, hlong⟩ := hb.longest h1 hi
    refine ⟨k, hk, hlong.congr fun j hj => ?_⟩
    rw [hlook j (by omega), List.getElem?_eq_getElem]
  · have hmemset : t.memset (level + 1) i = t i := by
      unfold level at hi ⊢
      rw [OffTable.memset, if_neg (by omega), if_neg (by omega)]
    rw [generateLoop_frame ht i (by omega), OffTable.set_ne _ _ (by omega), OffTable.set_ne _ _ (by omega), hmemset]
  · obtain ⟨u', hu, hb'⟩ := generateTable_spec u hread
    refine ⟨u', hu, fun datalen outlen => searchData_congr (fun i hi => ?_) (fun i hi => ?_) _ _ _ _⟩
    · rcases Nat.eq_zero_or_pos i with rfl | h0
      · rw [hb.zero, hb'.zero]
      · obtain ⟨k, hk, hlong⟩ := hb.longest h0 hi
        obtain ⟨l, hl, hlong'⟩ := hb'.longest h0 hi
        rw [hk, hl, Nat.le_antisymm (hlong'.le k hlong.border) (hlong.le l hlong'.border)]
    · rcases Nat.eq_zero_or_pos i with rfl | h0
      · rw [hb.zero]
        omega
      · obtain ⟨k, hk, hlong⟩ := hb.longest h0 hi
        have := hlong.border.1
        omega

/-- The look-ahead `7 8 7 8` over a table of stale entries. -/
theorem generateTable_history_stale :
    ∃ t', generateTable (fun _ => 77) (Mem.ofList [7, 8, 7, 8]) 0 4 = some t' ∧ t' 0 = -1 ∧
      ∃ k : Nat, t' 3 = k ∧ IsLongest (fun j => ([7, 8, 7, 8] : List UInt8)[j]?) 3 k := by
  have hlook : (Mem.ofList [7, 8, 7, 8]).Holds 0 ([7, 8, 7, 8] : List UInt8) := Mem.holds_ofList_self _ []
  obtain ⟨t', ht, h0, hlong, -⟩ := generateTable_history hlook (by decide) (by decide) fun _ => 77
  exact ⟨t', ht, h0, hlong 3 (by decide) (by decide)⟩

/-! ## The longest match -/

/-- What the look-ahead has in common with the text from position `x` of the window on; the text goes
on into the look-ahead. -/
def matchAt (window look : List UInt8) (x : Nat) : Nat := commonPrefix look ((window ++ look).drop x)

/-- The most bytes the look-ahead has in common with the text from a position of the window on. -/
def longestMatch (window look : List UInt8) : Nat := (Finset.range window.length).sup (matchAt window look)

theorem match_iff_le_matchAt {input : Mem UInt8} {p x n : Nat} {window look : List UInt8}
    (hin : input.Holds p (window ++ look)) (hx : x < window.length) (hn : n ≤ look.length) :
    Match (fun j => input (p + window.length + j)) (fun j => input (p + j)) x n ↔ n ≤ matchAt window look x := by
  have htext : ∀ j < look.length, input (p + (x + j)) = (window ++ look)[x + j]? := by
    intro j hj
    have hlt : x + j < (window ++ look).length := by rw [List.length_append]; omega
    rw [hin _ hlt, List.getElem?_eq_getElem hlt]
  have hlook : ∀ j (hj : j < look.length), input (p + window.length + j) = some look[j] :=
    fun j hj => (Mem.holds_append.1 hin).2 j hj
  unfold matchAt
  rw [le_commonPrefix_iff]
  constructor
  · intro h j hj
    refine ⟨look[j], List.getElem?_eq_getElem (by omega), ?_⟩
    rw [List.getElem?_drop, ← htext j (by omega)]
    exact (h j hj).symm.trans (hlook j (by omega))
  · intro h j hj
    obtain ⟨a, h1, h2⟩ := h j hj
    rw [List.getElem?_drop] at h2
    rw [List.getElem?_eq_getElem (by omega)] at h1
    have hlj := hlook j (by omega)
    rw [h1] at hlj
    exact hlj.trans ((htext j (by omega)).trans h2).symm

/-- The best match of a search is the longest one, and the first. -/
theorem best_eq_longestMatch {input : Mem UInt8} {p ml off : Nat} {window look : List UInt8}
    (hin : input.Holds p (window ++ look)) (hml : ml ≤ look.length) (hoff : 0 < ml → off < window.length)
    (h : Best (fun j => input (p + window.length + j)) (fun j => input (p + j)) look.length window.length ml off) :
    ml = longestMatch window look ∧
      (0 < ml → matchAt window look off = ml ∧ ∀ y < off, matchAt window look y < ml) := by
  have hle : ∀ y < window.length, matchAt window look y ≤ ml := by
    intro y hy
    have hcap : matchAt window look y ≤ look.length := by
      by_contra hc
      obtain ⟨a, h1, -⟩ := le_commonPrefix_iff.1 (Nat.le_of_not_lt (fun h' => hc (Nat.le_of_lt_succ h'))) look.length
        (Nat.lt_succ_self _)
      simp at h1
    exact h.longest y hy _ hcap ((match_iff_le_matchAt hin hy hcap).2 (Nat.le_refl _))
  have hsup : longestMatch window look ≤ ml := Finset.sup_le fun y hy => hle y (Finset.mem_range.1 hy)
  rcases Nat.eq_zero_or_pos ml with rfl | hpos
  · exact ⟨(Nat.le_zero.1 hsup).symm, fun h => absurd h (Nat.lt_irrefl 0)⟩
  · have hoff := hoff hpos
    have hat : ml ≤ matchAt window look off := (match_iff_le_matchAt hin hoff hml).1 h.here
    refine ⟨Nat.le_antisymm (Nat.le_trans hat (Finset.le_sup (Finset.mem_range.2 hoff))) hsup,
      fun _ => ⟨Nat.le_antisymm (hle off hoff) hat, fun y hy => ?_⟩⟩
    by_contra hc
    exact Nat.lt_irrefl _ (h.first y hy ml hml ((match_iff_le_matchAt hin (by omega) hml).2 (Nat.le_of_not_lt hc)))

/-- After `GenerateTable` on the look-ahead `SearchData` finds its first longest match in the window,
in whatever memory holds the window and the look-ahead behind it. -/
theorem searchData_longest {input : Mem UInt8} {p : Nat} {window look : List UInt8} (h3 : 3 ≤ look.length)
    (hlt : look.length < window.length) (hin : input.Holds p (window ++ look)) (t : OffTable) (outlen : Nat) :
    ∃ t', generateTable t input (p + window.length) look.length = some t' ∧
      (3 ≤ longestMatch window look → ∃ x < window.length,
        matchAt window look x = longestMatch window look ∧
        (∀ y < x, matchAt window look y < longestMatch window look) ∧
        searchData input (p + window.length) window.length (p + window.length) look.length t' outlen =
          some (window.length - x, longestMatch window look - 2)) ∧
      (longestMatch window look < 3 →
        searchData input (p + window.length) window.length (p + window.length) look.length t' outlen =
          some (0, 0)) := by
  have hread : ∀ j < window.length + look.length, (input (p + j)).isSome := by
    intro j hj
    rw [hin j (by rwa [List.length_append])]
    rfl
  have hlook : ∀ j < look.length, (input (p + window.length + j)).isSome := by
    intro j hj
    rw [Nat.add_assoc]
    exact hread _ (by omega)
  obtain ⟨t', ht, hb⟩ := generateTable_spec t hlook
  obtain ⟨ml, off, hbest, hml, hoff, hs⟩ := searchData_best (Nat.le_add_left _ _) h3 hlt
    (by rwa [Nat.add_sub_cancel]) hb outlen
  rw [Nat.add_sub_cancel] at hbest
  obtain ⟨hmax, hat⟩ := best_eq_longestMatch hin hml hoff hbest
  refine ⟨t', ht, fun h => ?_, fun h => ?_⟩
  · rw [← hmax] at h ⊢
    have hpos : 0 < ml := by omega
    exact ⟨off, hoff hpos, (hat hpos).1, (hat hpos).2, by rw [hs, if_pos h]⟩
  · rw [hs, if_neg (by omega)]

/-- The longest match runs on from the window into the look-ahead. -/
theorem searchData_longest_overlap :
    3 ≤ [7, 8, 7, 8].length ∧ longestMatch [7, 8, 7, 2, 7, 8] [7, 8, 7, 8] = 4 ∧
      ∃ t', generateTable (fun _ => 5) (Mem.ofList [7, 8, 7, 2, 7, 8, 7, 8, 7, 8]) (0 + 6) 4 = some t' ∧
        ∃ x < 6, matchAt [7, 8, 7, 2, 7, 8] [7, 8, 7, 8] x = 4 ∧
          searchData (Mem.ofList [7, 8, 7, 2, 7, 8, 7, 8, 7, 8]) (0 + 6) 6 (0 + 6) 4 t' 0 = some (6 - x, 2) := by
  have hmax : longestMatch [7, 8, 7, 2, 7, 8] [7, 8, 7, 8] = 4 := by decide
  have hin : (Mem.ofList [7, 8, 7, 2, 7, 8, 7, 8, 7, 8]).Holds 0 ([7, 8, 7, 2, 7, 8] ++ ([7, 8, 7, 8] : List UInt8)) :=
    Mem.holds_ofList_self _ []
  obtain ⟨t', ht, hlong, -⟩ := @searchData_longest _ _ _ [7, 8, 7, 8] (by decide) (by decide) hin (fun _ => 5) 0
  obtain ⟨x, hx, hat, -, hs⟩ := hlong (by rw [hmax]; decide)
  rw [hmax] at hat hs
  exact ⟨by decide, hmax, t', ht, x, hx, hat, hs⟩

end SiglusExtract.Compression
