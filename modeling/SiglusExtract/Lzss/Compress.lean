/-
`CompressData` (Compression.cpp). The encoder writes a control byte and up to eight tokens a
group; after the group that reaches the end of the input it writes one more, with one literal read
from behind the input. `outlen` counts the bytes of the tokens up to the end of the input: the last
token is not counted, the control byte of the extra group is. What it counts is a framed token
stream that expands to the input.
-/
import SiglusExtract.Lzss.Format
import SiglusExtract.Lzss.Search
import Mathlib.Tactic.Ring

namespace SiglusExtract.Compression

open Lz Bytes Lzss

/-! ## CompressData -/

/-- `bitmask[]`. -/
def bitmask : List UInt8 := [0x01, 0x02, 0x04, 0x08, 0x10, 0x20, 0x40, 0x80]

/-- The local variables of `CompressData` inside a group: the global `OffTable`, the counters, and
the control byte and the bytes behind it. `inbuffer` has advanced by `curlen`. -/
structure Encoder where
  offTable : OffTable
  curlen : Nat
  outlen : Nat
  ctrlbyte : UInt8
  group : List UInt8

/-- The search for the next match: the refilled table, the distance and the length less two, both
zero where a literal follows. -/
def findMatch (input : Mem UInt8) (len : Nat) (compression : Int) (t : OffTable) (curlen : Nat) :
    Option (OffTable × Nat × Nat) :=
  let tcurlen := if curlen > 0xfff then 0xfff else curlen
  if compression ≠ 0 then do
    let look := if curlen + level > len then level - ((curlen + level) - len) else level
    let t ← generateTable t input curlen look
    let (offset, mlen) ← searchData input curlen tcurlen curlen look t 0
    return (t, offset, mlen)
  else some (t, 0, 0)

/-- One token, the `i`-th of its group. -/
def token (input : Mem UInt8) (len : Nat) (compression : Int) (i : Nat) (e : Encoder) : Option Encoder := do
  let (t, offset, mlen) ← findMatch input len compression e.offTable e.curlen
  if offset = 0 then
    let b ← input e.curlen
    return { e with
      offTable := t, curlen := e.curlen + 1, ctrlbyte := e.ctrlbyte ||| bitmask.getD i 0, group := e.group ++ [b] }
  else
    let out := (offset <<< 4) ||| (mlen &&& 0x0f)
    return { e with
      offTable := t, curlen := e.curlen + (mlen + 2), outlen := e.outlen + 1, group := e.group ++ le16 out }

/-- The tokens of a group from the `i`-th on, `left` of them at most; `outlen` is raised behind
each but the one that reaches the end of the input. -/
def groupFrom (input : Mem UInt8) (len : Nat) (compression : Int) : Nat → Nat → Encoder → Option Encoder
  | 0, _, e => some e
  | left + 1, i, e => do
    let e ← token input len compression i e
    if e.curlen ≥ len then some e
    else groupFrom input len compression left (i + 1) { e with outlen := e.outlen + 1 }

/-- The `while` loop of `CompressData`, one group a turn: the table, `outlen` and the bytes written
behind the header. -/
def encodeLoop (input : Mem UInt8) (len : Nat) (compression : Int) :
    Nat → OffTable → Nat → Nat → List UInt8 → Option (OffTable × Nat × List UInt8)
  | 0, _, _, _, _ => none
  | fuel + 1, t, curlen, outlen, output =>
    if curlen ≤ len then do
      let e ← groupFrom input len compression 8 0 ⟨t, curlen, outlen + 1, 0, []⟩
      encodeLoop input len compression fuel e.offTable e.curlen e.outlen (output ++ e.ctrlbyte :: e.group)
    else some (t, outlen, output)

/-- What `CompressData` leaves: every byte written to the buffer it returns, the size that buffer
was allocated with, `*complen`, and the global table. -/
structure Compressed where
  buffer : List UInt8
  allocated : Nat
  complen : Nat
  offTable : OffTable

/-- `CompressData` on the `len` bytes at `input`. The size `len * 4` is computed as an `int`: where
it overflows there is no result. A group covers at least one byte, so `len + 2` turns of the loop
are never used up. -/
def compressData (t : OffTable) (input : Mem UInt8) (len : Nat) (compression : Int) : Option Compressed :=
  if 2 ^ 31 ≤ len * 4 then none
  else do
    let (t, outlen, output) ← encodeLoop input len compression (len + 2) t 0 0 []
    let outlen := outlen + 8
    return ⟨le32 outlen ++ le32 len ++ output, len * 4, outlen, t⟩

/-- `CompressData` in a heap that is watched: no result where a byte is written behind the block. -/
def compressDataInBlock (t : OffTable) (input : Mem UInt8) (len : Nat) (compression : Int) : Option Compressed :=
  (compressData t input len compression).filter fun c => c.buffer.length ≤ c.allocated

theorem compressDataInBlock_eq_some {t : OffTable} {input : Mem UInt8} {len : Nat} {compression : Int}
    {c : Compressed} : compressDataInBlock t input len compression = some c ↔
      compressData t input len compression = some c ∧ c.buffer.length ≤ c.allocated := by
  rw [compressDataInBlock, Option.filter_eq_some_iff, decide_eq_true_iff]

/-- Four bytes are allocated for each of the input, in an `int`. -/
theorem compressData_allocated {t : OffTable} {input : Mem UInt8} {len : Nat} {compression : Int} {c : Compressed}
    (hc : compressData t input len compression = some c) : len < 2 ^ 29 ∧ c.allocated = len * 4 := by
  unfold compressData at hc
  split at hc
  · cases hc
  · simp only [Option.bind_eq_bind, Option.bind_eq_some_iff] at hc
    obtain ⟨⟨t', outlen, output⟩, -, hc⟩ := hc
    cases hc
    exact ⟨by omega, rfl⟩

/-! ## Tokens -/

section

variable {data : List UInt8} {past : UInt8} {input : Mem UInt8} (hin : input.Holds 0 data) (compression : Int)

include hin in
theorem input_data {p : Nat} (hp : p < data.length) : input p = some data[p] := by
  have := hin p hp
  rwa [Nat.zero_add] at this

include hin in
/-- The search finds no match, or a repetition inside the window that fits a token, is shorter than
what precedes it and ends before the end of the input. -/
theorem findMatch_spec (t : OffTable) {curlen : Nat} (hcur : curlen ≤ data.length) :
    ∃ t' offset mlen, findMatch input data.length compression t curlen = some (t', offset, mlen) ∧
      (offset ≠ 0 → offset ≤ 0xfff ∧ offset ≤ curlen ∧ mlen < 16 ∧ curlen + (mlen + 2) ≤ data.length ∧
        1 ≤ mlen ∧ mlen + 2 < curlen ∧ ∀ j < mlen + 2, data[curlen + j]? = data[curlen - offset + j]?) := by
  unfold findMatch
  by_cases hc : compression ≠ 0
  · simp only [if_pos hc]
    generalize hwin : (if curlen > 0xfff then 0xfff else curlen) = tcurlen
    generalize hlook : (if curlen + level > data.length then level - ((curlen + level) - data.length) else level) =
      look
    have hwin' : tcurlen ≤ curlen ∧ tcurlen ≤ 0xfff := by split at hwin <;> omega
    have hlook' : curlen + look ≤ data.length ∧ look ≤ 8 := by
      unfold level at hlook
      split at hlook <;> omega
    have hread : ∀ p < curlen + look, (input p).isSome := by
      intro p hp
      rw [input_data hin (show p < data.length by omega)]
      rfl
    have hcomp : ∀ j < look, (input (curlen + j)).isSome := fun j hj => hread _ (by omega)
    obtain ⟨t', ht, hb⟩ := generateTable_spec t hcomp
    obtain ⟨offset, mlen, hs, hm⟩ := searchData_spec hwin'.1 hread hb
    refine ⟨t', offset, mlen, by simp [ht, hs], fun h => ?_⟩
    obtain ⟨h1, h2, h3, h4, h5⟩ := hm h
    refine ⟨by omega, by omega, by omega, by omega, h2, by omega, fun j hj => ?_⟩
    have := h5 j hj
    rwa [input_data hin (show curlen + j < data.length by omega),
      input_data hin (show curlen - offset + j < data.length by omega),
      ← List.getElem?_eq_getElem, ← List.getElem?_eq_getElem] at this
  · simp only [if_neg hc]
    exact ⟨t, 0, 0, rfl, fun h => absurd rfl h⟩

/-- What the encoder takes at a position: a copy of three bytes or more, or a literal where, with the whole
input so far in the window, the next three bytes stand nowhere in it. -/
def Choice (data : List UInt8) (compression : Int) (curlen : Nat) : Token UInt8 → Prop
  | .lit _ => compression ≠ 0 → level < curlen → curlen ≤ 0xfff → curlen + acceptLevel ≤ data.length →
      ∀ x < curlen, ∃ j < acceptLevel, data[curlen + j]? ≠ data[x + j]?
  | .copy _ len => compression ≠ 0 ∧ acceptLevel ≤ len

/-- The tokens from a position of the input on. -/
def Chosen (data : List UInt8) (compression : Int) : Nat → List (Token UInt8) → Prop
  | _, [] => True
  | curlen, tk :: ts => Choice data compression curlen tk ∧ Chosen data compression (curlen + tk.size) ts

include hin in
/-- The search passes no match by. -/
theorem findMatch_greedy {t t' : OffTable} {curlen mlen : Nat}
    (hf : findMatch input data.length compression t curlen = some (t', 0, mlen)) (b : UInt8) :
    Choice data compression curlen (.lit b) := by
  intro hc hlevel hwin hlen x hx
  unfold acceptLevel at hlen
  unfold level at hlevel
  have hlook : 3 ≤ (if curlen + level > data.length then level - ((curlen + level) - data.length) else level) ∧
      (if curlen + level > data.length then level - ((curlen + level) - data.length) else level) ≤ 8 ∧
      curlen + (if curlen + level > data.length then level - ((curlen + level) - data.length) else level) ≤
        data.length := by
    unfold level
    split <;> omega
  unfold findMatch at hf
  simp only [if_pos hc, if_neg (show ¬ curlen > 0xfff by omega)] at hf
  generalize (if curlen + level > data.length then level - ((curlen + level) - data.length) else level) = look at *
  have hread : ∀ p < curlen + look, input p = data[p]? := by
    intro p hp
    rw [input_data hin (show p < data.length by omega), List.getElem?_eq_getElem]
  have hsome : ∀ p < curlen + look, (input p).isSome := by
    intro p hp
    rw [input_data hin (show p < data.length by omega)]
    rfl
  have hlook : ∀ j < look, (input (curlen + j)).isSome := fun j hj => hsome _ (by omega)
  obtain ⟨t₁, ht, hb⟩ := generateTable_spec t hlook
  obtain ⟨ml, off, hbest, hml, hoff, hs⟩ := searchData_best (Nat.le_refl curlen) (by omega) (by omega)
    (fun p hp => hsome _ (by omega)) hb 0
  simp only [ht, hs, Option.bind_eq_bind, Option.bind_some] at hf
  -- a match of three bytes would have been taken
  have hshort : ml < 3 := by
    by_contra h3
    have hoff := hoff (by omega)
    simp only [if_pos (Nat.le_of_not_lt h3), Option.bind_some, Option.pure_def, Option.some.injEq, Prod.mk.injEq] at hf
    omega
  by_contra hno
  push Not at hno
  have := hbest.longest x hx 3 (by omega) fun j hj => by
    show input (curlen + j) = input (curlen - curlen + (x + j))
    rw [hread _ (by omega), hread _ (by omega), hno j hj, Nat.sub_self, Nat.zero_add]
  omega

theorem bitmask_getD {i : Nat} (hi : i < 8) : (bitmask.getD i 0).toNat = 2 ^ i := by
  have : ∀ i : Fin 8, (bitmask.getD i 0).toNat = 2 ^ i.val := by decide
  exact this ⟨i, hi⟩

/-- A set control bit, behind lower bits only. -/
theorem ctrl_toNat {c : UInt8} {i : Nat} (hi : i < 8) (hc : c.toNat < 2 ^ i) :
    (c ||| bitmask.getD i 0).toNat = c.toNat + 2 ^ i := by
  rw [UInt8.toNat_or, bitmask_getD hi, or_two_pow hc]

/-- The word written for a match is read back as its distance and length. -/
theorem backRef_out {offset mlen : Nat} (ho : offset ≤ 0xfff) (hm : mlen < 16) :
    ∃ lo hi, le16 ((offset <<< 4) ||| (mlen &&& 0x0f)) = [lo, hi] ∧
      backRef (leWord lo hi) = .copy offset (mlen + 2) := by
  rw [and_15, Nat.mod_eq_of_lt hm, shiftLeft_or (by omega)]
  refine ⟨_, _, rfl, ?_⟩
  simp only [backRef, leWord, UInt8.toNat_ofNat', Token.copy.injEq]
  omega

/-- What a token does to the encoder: it appends the bytes `bs` of a token `tk` with control bit
`bit`, which covers the input up to the new `curlen`. -/
structure TokenStep (data : List UInt8) (i : Nat) (e e' : Encoder) (tk : Token UInt8) (bs : List UInt8)
    (bit : Nat) : Prop where
  group : e'.group = e.group ++ bs
  ctrlbyte : e'.ctrlbyte.toNat = e.ctrlbyte.toNat + bit * 2 ^ i
  bit_le : bit ≤ 1
  outlen : e'.outlen + 1 = e.outlen + bs.length
  curlen : e.curlen < e'.curlen ∧ e'.curlen ≤ data.length
  step : tk.step (data.take e.curlen) = some (data.take e'.curlen)
  frame : ∀ {k c : Nat} {ts : List (Token UInt8)} {s : List UInt8}, Frame k c ts s →
    Frame (k + 1) (bit + 2 * c) (tk :: ts) (bs ++ s)

/-- Where no match is found the token is the next byte. -/
theorem token_of_no_match {len i mlen : Nat} {e : Encoder} {t' : OffTable}
    (hf : findMatch input len compression e.offTable e.curlen = some (t', 0, mlen)) :
    token input len compression i e = (input e.curlen).map fun b =>
      { e with
        offTable := t', curlen := e.curlen + 1, ctrlbyte := e.ctrlbyte ||| bitmask.getD i 0,
        group := e.group ++ [b] } := by
  unfold token
  simp only [hf, Option.bind_eq_bind, Option.bind_some, if_pos]
  cases input e.curlen with
  | none => rfl
  | some b => rfl

include hin in
theorem token_spec {i : Nat} (hi : i < 8) {e : Encoder} (hcur : e.curlen < data.length)
    (hctrl : e.ctrlbyte.toNat < 2 ^ i) :
    ∃ e' tk bs bit, token input data.length compression i e = some e' ∧ TokenStep data i e e' tk bs bit ∧
      Choice data compression e.curlen tk := by
  obtain ⟨t', offset, mlen, hf, hm⟩ := findMatch_spec hin compression e.offTable (Nat.le_of_lt hcur)
  by_cases h0 : offset = 0
  · rw [h0] at hf
    rw [token_of_no_match compression hf, input_data hin hcur, Option.map_some]
    refine ⟨_, .lit data[e.curlen], [data[e.curlen]], 1, rfl, ⟨rfl, ?_, Nat.le_refl 1, rfl, ?_, ?_, ?_⟩,
      findMatch_greedy hin compression hf _⟩
    · rw [ctrl_toNat hi hctrl, Nat.one_mul]
    · exact ⟨Nat.lt_succ_self _, hcur⟩
    · simp [Token.step]
    · intro k c ts s hs
      exact .lit (by omega) (by rwa [show (1 + 2 * c) / 2 = c by omega])
  · obtain ⟨h1, h2, h3, h4, h1', -, h5⟩ := hm h0
    obtain ⟨lo, hi', hle, hback⟩ := backRef_out h1 h3
    have hc : compression ≠ 0 := by
      rintro rfl
      unfold findMatch at hf
      simp only [ne_eq, not_true_eq_false, if_false, Option.some.injEq, Prod.mk.injEq] at hf
      exact h0 hf.2.1.symm
    unfold token
    simp only [hf, Option.bind_eq_bind, Option.bind_some, if_neg h0]
    refine ⟨_, .copy offset (mlen + 2), [lo, hi'], 0, rfl, ⟨?_, ?_, Nat.zero_le 1, rfl, ?_, ?_, ?_⟩,
      hc, Nat.add_le_add_right h1' 2⟩
    · rw [← hle]
    · simp
    · exact ⟨by simp only; omega, h4⟩
    · exact copyBack_of_match (by omega) h2 h4 h5
    · intro k c ts s hs
      rw [← hback]
      exact .copy (by omega) (by rwa [show (0 + 2 * c) / 2 = c by omega])

/-! ## Groups -/

/-- What the rest of a group, from its `i`-th token on with room for `left`, does to the encoder:
it appends the bytes `bs` of the tokens `ts`, their control bits the number `bits`. More of the
stream may only follow while there is input left, and then the group is full. -/
structure GroupStep (data : List UInt8) (left i : Nat) (e e' : Encoder) (ts : List (Token UInt8))
    (bs : List UInt8) (bits : Nat) : Prop where
  group : e'.group = e.group ++ bs
  ctrlbyte : e'.ctrlbyte.toNat = e.ctrlbyte.toNat + bits * 2 ^ i
  outlen : e'.outlen + (if e'.curlen = data.length then 1 else 0) = e.outlen + bs.length
  curlen : e.curlen ≤ e'.curlen ∧ e'.curlen ≤ data.length
  expand : expand ts (data.take e.curlen) = some (data.take e'.curlen)
  frame : ∀ {us : List (Token UInt8)} {s : List UInt8}, (us = [] ∨ e'.curlen < data.length) →
    Frame 0 0 us s → Frame left bits (ts ++ us) (bs ++ s)

theorem TokenStep.size {data : List UInt8} {i : Nat} {e e' : Encoder} {tk : Token UInt8} {bs : List UInt8} {bit : Nat}
    (h : TokenStep data i e e' tk bs bit) : e.curlen + tk.size = e'.curlen := by
  have hlen := Token.step_length h.step
  have hcur := h.curlen
  rw [List.length_take, List.length_take] at hlen
  omega

/-- Choices go on where the tokens before them end. -/
theorem Chosen.append {data : List UInt8} {compression : Int} {ts us : List (Token UInt8)} {curlen : Nat}
    (h : Chosen data compression curlen ts) (h' : Chosen data compression (curlen + (ts.map Token.size).sum) us) :
    Chosen data compression curlen (ts ++ us) := by
  induction ts generalizing curlen with
  | nil => exact h'
  | cons tk ts ih =>
    rw [List.map_cons, List.sum_cons, ← Nat.add_assoc] at h'
    exact ⟨h.1, ih h.2 h'⟩

include hin in
/-- The rest of a group, by induction on the room left in it. -/
theorem groupFrom_spec : ∀ (left i : Nat) (e : Encoder), left + i = 8 → e.curlen < data.length →
    e.ctrlbyte.toNat < 2 ^ i →
    ∃ e' ts bs bits, groupFrom input data.length compression left i e = some e' ∧
      GroupStep data left i e e' ts bs bits ∧ (0 < left → ts ≠ []) ∧ Chosen data compression e.curlen ts
  | 0, i, e, _, hcur, _ => by
    refine ⟨e, [], [], 0, rfl, ⟨by simp, by simp, ?_, ⟨Nat.le_refl _, Nat.le_of_lt hcur⟩, rfl, ?_⟩, by simp, trivial⟩
    · rw [if_neg (by omega)]
      rfl
    · intro us s _ hs
      exact hs
  | left + 1, i, e, hleft, hcur, hctrl => by
    obtain ⟨e₁, tk, bs, bit, htok, h, hchoice⟩ := token_spec hin compression (by omega) hcur hctrl
    have hout := h.outlen
    rw [groupFrom]
    simp only [htok, Option.bind_eq_bind, Option.bind_some]
    by_cases hend : e₁.curlen ≥ data.length
    · rw [if_pos hend]
      have hcur₁ : e₁.curlen = data.length := Nat.le_antisymm h.curlen.2 hend
      -- the end of the input: this token is not counted, and nothing of the stream follows it
      refine ⟨e₁, [tk], bs, bit, rfl, ⟨h.group, h.ctrlbyte, ?_, ⟨Nat.le_of_lt h.curlen.1, h.curlen.2⟩, ?_, ?_⟩,
        by simp, hchoice, trivial⟩
      · rw [if_pos hcur₁, hout]
      · simp only [Lz.expand, h.step, Option.bind_some]
      · rintro us s (rfl | hlt) hs
        · rw [hs.eq_nil]
          exact h.frame (.nil left 0)
        · omega
    · rw [if_neg hend]
      -- the control bits of the rest stand above the one of this token
      have hctrl₁ : e₁.ctrlbyte.toNat < 2 ^ (i + 1) := by
        have hb := Nat.mul_le_mul_right (2 ^ i) h.bit_le
        rw [h.ctrlbyte, Nat.pow_succ]
        omega
      obtain ⟨e', ts, bs', bits, hg, h', -, hchosen⟩ := groupFrom_spec left (i + 1) { e₁ with outlen := e₁.outlen + 1 }
        (by omega) (Nat.lt_of_not_le hend) hctrl₁
      refine ⟨e', tk :: ts, bs ++ bs', bit + 2 * bits, hg, ⟨?_, ?_, ?_, ?_, ?_, ?_⟩, by simp, hchoice,
        h.size ▸ hchosen⟩
      · rw [h'.group, h.group, List.append_assoc]
      · rw [h'.ctrlbyte, h.ctrlbyte, Nat.pow_succ]
        ring
      · rw [h'.outlen, List.length_append]
        simp only
        omega
      · exact ⟨Nat.le_trans (Nat.le_of_lt h.curlen.1) h'.curlen.1, h'.curlen.2⟩
      · simp only [Lz.expand, h.step, Option.bind_some]
        exact h'.expand
      · intro us s hus hs
        rw [List.cons_append, List.append_assoc]
        exact h.frame (h'.frame hus hs)

/-! ## The whole stream -/

include hin in
/-- At the end of the input one more token is made, from the byte behind it: a match would reach past
the end. -/
theorem token_end {e : Encoder} (hcur : e.curlen = data.length) (i : Nat) :
    ∃ t', token input data.length compression i e = (input data.length).map fun b =>
      { e with
        offTable := t', curlen := data.length + 1, ctrlbyte := e.ctrlbyte ||| bitmask.getD i 0,
        group := e.group ++ [b] } := by
  obtain ⟨t', offset, mlen, hf, hm⟩ := findMatch_spec hin compression e.offTable (Nat.le_of_eq hcur)
  have h0 : offset = 0 := by
    by_contra h
    have := (hm h).2.2.2.1
    omega
  rw [h0] at hf
  rw [← hcur] at hf ⊢
  exact ⟨t', token_of_no_match compression hf⟩

include hin in
/-- The group behind the end of the input: a control byte, counted, and the byte behind the input as
a literal, not counted. -/
theorem encodeLoop_end (hpast : input data.length = some past) (fuel : Nat) (t : OffTable) (outlen : Nat)
    (output : List UInt8) :
    ∃ t', encodeLoop input data.length compression (fuel + 2) t data.length outlen output =
      some (t', outlen + 1, output ++ [1, past]) := by
  obtain ⟨t', htok⟩ := token_end hin compression (e := ⟨t, data.length, outlen + 1, 0, []⟩) rfl 0
  refine ⟨t', ?_⟩
  rw [encodeLoop, if_pos (Nat.le_refl _), groupFrom, htok, hpast]
  simp only [Option.map_some, Option.bind_eq_bind, Option.bind_some, if_pos (Nat.le_succ data.length)]
  rw [encodeLoop, if_neg (by omega)]
  rfl

include hin in
/-- That group cannot be written where the byte behind the input cannot be read. -/
theorem encodeLoop_end_none (hpast : input data.length = none) (fuel : Nat) (t : OffTable) (outlen : Nat)
    (output : List UInt8) :
    encodeLoop input data.length compression (fuel + 1) t data.length outlen output = none := by
  obtain ⟨t', htok⟩ := token_end hin compression (e := ⟨t, data.length, outlen + 1, 0, []⟩) rfl 0
  rw [encodeLoop, if_pos (Nat.le_refl _), groupFrom, htok, hpast]
  rfl

include hin in
/-- From a group that starts before the end of the input the loop comes to its end, having written
bytes `s` that frame tokens for the rest of the input. By induction on the turns left. -/
theorem encodeLoop_covers : ∀ (fuel : Nat) (t : OffTable) (curlen outlen : Nat) (output : List UInt8),
    curlen < data.length → data.length + 2 ≤ fuel + curlen →
    ∃ fuel' t' outlen' ts s, encodeLoop input data.length compression fuel t curlen outlen output =
        encodeLoop input data.length compression (fuel' + 2) t' data.length outlen' (output ++ s) ∧
      outlen' + 1 = outlen + s.length ∧ Frame 0 0 ts s ∧ expand ts (data.take curlen) = some data ∧
      Chosen data compression curlen ts
  | 0, _, curlen, _, _, hcur, hfuel => by omega
  | fuel + 1, t, curlen, outlen, output, hcur, hfuel => by
    obtain ⟨e, ts, bs, bits, hg, h, hne, hchosen⟩ := groupFrom_spec hin compression 8 0
      ⟨t, curlen, outlen + 1, 0, []⟩ rfl hcur (by simp)
    have hts := hne (by omega)
    have hctrl : e.ctrlbyte.toNat = bits := by rw [h.ctrlbyte]; simp
    have hgroup : e.group = bs := h.group
    have hout := h.outlen
    have hcurlen := h.curlen
    simp only at hout hcurlen
    rw [encodeLoop, if_pos (Nat.le_of_lt hcur), hg]
    simp only [Option.bind_eq_bind, Option.bind_some, hgroup]
    by_cases hend : e.curlen = data.length
    · rw [if_pos hend] at hout
      obtain ⟨fuel, rfl⟩ : ∃ f, fuel = f + 2 := ⟨fuel - 2, by omega⟩
      refine ⟨fuel, e.offTable, e.outlen, ts, e.ctrlbyte :: bs, by rw [hend], ?_, ?_, ?_, hchosen⟩
      · rw [List.length_cons]
        omega
      · have := h.frame (.inl rfl) (.nil 0 0)
        rw [List.append_nil, List.append_nil] at this
        exact .ctrl hts (by rwa [hctrl])
      · have := h.expand
        rwa [hend, List.take_length] at this
    · rw [if_neg hend] at hout
      -- a group has a token, and a token covers a byte
      have hprog : curlen < e.curlen := by
        have := expand_count_le (h.frame (.inl rfl) (.nil 0 0)).size_pos (by rw [List.append_nil]; exact h.expand)
        have := List.length_pos_iff.2 hts
        simp only [List.append_nil, List.length_take] at *
        omega
      obtain ⟨fuel', t', outlen', us, s, hl, ho, hf, he, hchosen'⟩ :=
        encodeLoop_covers fuel e.offTable e.curlen e.outlen (output ++ e.ctrlbyte :: bs) (by omega) (by omega)
      -- the group has taken as many bytes of the input as its tokens are long
      have hsum : curlen + (ts.map Token.size).sum = e.curlen := by
        have := expand_length h.expand
        simp only [List.length_take] at this
        omega
      refine ⟨fuel', t', outlen', ts ++ us, e.ctrlbyte :: bs ++ s, ?_, ?_, ?_, ?_, hchosen.append (hsum ▸ hchosen')⟩
      · rw [hl, List.append_assoc]
      · rw [List.length_append, List.length_cons]
        omega
      · exact .ctrl (by simp [hts]) (by rw [hctrl]; exact h.frame (.inr (by omega)) hf)
      · rw [expand_append, h.expand, Option.bind_some]
        exact he

include hin in
/-- The whole loop from such a group on: the counted bytes `s`, and two more bytes follow them. -/
theorem encodeLoop_spec (hpast : input data.length = some past) {fuel curlen : Nat} (t : OffTable) (outlen : Nat)
    (output : List UInt8) (hcur : curlen < data.length) (hfuel : data.length + 2 ≤ fuel + curlen) :
    ∃ t' ts s, encodeLoop input data.length compression fuel t curlen outlen output =
        some (t', outlen + s.length, output ++ s ++ [1, past]) ∧
      Frame 0 0 ts s ∧ expand ts (data.take curlen) = some data ∧ Chosen data compression curlen ts := by
  obtain ⟨fuel', t', outlen', ts, s, hl, ho, hf, he, hchosen⟩ := encodeLoop_covers hin compression fuel t curlen outlen
    output hcur hfuel
  -- the control byte of the extra group makes up for the last token in `outlen`
  obtain ⟨t'', hend⟩ := encodeLoop_end hin compression hpast fuel' t' outlen' (output ++ s)
  exact ⟨t'', ts, s, by rw [hl, hend, ho], hf, he, hchosen⟩

/-- What `CompressData` returns for an input whose size times four is an `int`: the header, a framed
token stream that expands to the input, and two more bytes. `complen` covers the stream; where there
is no input it covers the control byte behind it. -/
theorem compressData_chosen (t : OffTable) (hin : input.Holds 0 (data ++ [past])) (compression : Int)
    (hlen : data.length < 2 ^ 29) :
    ∃ c ts s, compressData t input data.length compression = some c ∧
      c.buffer = le32 c.complen ++ le32 data.length ++ s ++ [1, past] ∧
      c.complen = 8 + s.length + (if data.length = 0 then 1 else 0) ∧
      Frame 0 0 ts s ∧ expand ts [] = some data ∧ Chosen data compression 0 ts := by
  obtain ⟨hin, hpast⟩ := Mem.holds_concat.1 hin
  rw [Nat.zero_add] at hpast
  unfold compressData
  rw [if_neg (by omega)]
  by_cases h0 : data.length = 0
  · obtain ⟨t', ht'⟩ := encodeLoop_end hin compression hpast 0 t 0 []
    rw [h0] at ht' ⊢
    rw [ht']
    refine ⟨_, [], [], rfl, rfl, rfl, .nil 0 0, ?_, trivial⟩
    rw [List.length_eq_zero_iff.1 h0]
    rfl
  · obtain ⟨t', ts, s, hl, hf, he, hchosen⟩ := encodeLoop_spec hin compression hpast t 0 []
      (show 0 < data.length by omega) (show data.length + 2 ≤ data.length + 2 + 0 by omega)
    rw [hl]
    refine ⟨_, ts, s, rfl, ?_, ?_, hf, he, hchosen⟩
    · simp
    · rw [if_neg h0]
      simp only
      omega

theorem compressData_spec (t : OffTable) (hin : input.Holds 0 (data ++ [past])) (compression : Int)
    (hlen : data.length < 2 ^ 29) :
    ∃ c ts s, compressData t input data.length compression = some c ∧
      c.buffer = le32 c.complen ++ le32 data.length ++ s ++ [1, past] ∧
      c.complen = 8 + s.length + (if data.length = 0 then 1 else 0) ∧
      Frame 0 0 ts s ∧ expand ts [] = some data := by
  obtain ⟨c, ts, s, hc, hbuf, hcomplen, hf, he, -⟩ := compressData_chosen t hin compression hlen
  exact ⟨c, ts, s, hc, hbuf, hcomplen, hf, he⟩

end

end SiglusExtract.Compression
