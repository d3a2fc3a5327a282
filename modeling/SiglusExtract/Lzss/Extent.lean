/-
What `CompressData` touches. The group it writes behind the end of the input reads one byte too many
and adds a token for it, so what is written is never the stream of the input alone; and the buffer,
four bytes for each byte of the input, holds it and the eight bytes more the packer copies from six
bytes of input on.
-/
import SiglusExtract.Lzss.Compress

namespace SiglusExtract.Compression

open Lz Bytes Lzss

variable {data : List UInt8} {past : UInt8} {input : Mem UInt8}

/-! ## The extra group -/

/-- Nothing follows a stream that is well formed for `n`. -/
theorem decodeFrom_append {n k c : Nat} {out s fin more : List UInt8} (h : decodeFrom n k c out s = some fin)
    (hne : more ≠ []) : decodeFrom n k c out (s ++ more) = none := by
  fun_induction decodeFrom n k c out s with
  | case1 k c out hn =>
    obtain ⟨b, more, rfl⟩ := List.exists_cons_of_ne_nil hne
    cases k with
    | zero => rw [List.nil_append, decodeFrom, if_pos hn]
    | succ k =>
      rw [List.nil_append]
      unfold decodeFrom
      rw [if_pos hn]
  | case2 => cases h
  | case3 => cases h
  | case4 c₀ out c s hn ih =>
    rw [List.cons_append, decodeFrom, if_neg hn]
    exact ih h
  | case5 => cases h
  | case6 k c out b s hn hc ih =>
    rw [List.cons_append]
    unfold decodeFrom
    rw [if_neg hn, if_pos hc]
    exact ih h
  | case7 => cases h
  | case8 k c out b hn hc hi s t ih =>
    rw [Option.bind_eq_some_iff] at h
    obtain ⟨out', ho, h⟩ := h
    rw [List.cons_append, List.cons_append, decodeFrom, if_neg hn, if_neg hc]
    simp only [ho, Option.bind_some, t]
    exact ih out' h

/-- `CompressData` returns a buffer that holds, behind the header, exactly tokens for the input. -/
def Covers (t : OffTable) (input : Mem UInt8) (data : List UInt8) (compression : Int) : Prop :=
  ∃ c ts s, compressData t input data.length compression = some c ∧
    c.buffer = le32 c.complen ++ le32 data.length ++ s ∧ Frame 0 0 ts s ∧ expand ts [] = some data

/-- Where the byte behind the input cannot be read there is no result. -/
theorem compressData_past_none (t : OffTable) (hin : input.Holds 0 data) (hpast : input data.length = none)
    (compression : Int) : compressData t input data.length compression = none := by
  unfold compressData
  split
  · rfl
  · by_cases h0 : data.length = 0
    · rw [h0] at hpast ⊢
      have hend := encodeLoop_end_none hin compression (by rw [h0]; exact hpast) 1 t 0 []
      rw [h0] at hend
      rw [hend]
      rfl
    · obtain ⟨fuel', t', outlen', ts, s, hl, -⟩ := encodeLoop_covers hin compression (data.length + 2) t 0 0 []
        (by omega) (by omega)
      rw [hl, encodeLoop_end_none hin compression hpast]
      rfl

/-- Where it can be read a token for it is written. -/
theorem compressData_past_some (t : OffTable) (hin : input.Holds 0 (data ++ [past])) (compression : Int) :
    ¬ Covers t input data compression := by
  rintro ⟨c, ts, s, hc, hbuf, hf, he⟩
  have hlen : data.length < 2 ^ 29 := by
    by_contra h
    unfold compressData at hc
    rw [if_pos (by omega)] at hc
    cases hc
  obtain ⟨c', ts', s', hc', hbuf', -, hf', he'⟩ := compressData_spec t hin compression hlen
  obtain rfl : c = c' := Option.some.inj (hc.symm.trans hc')
  rw [hbuf', List.append_assoc _ s' [1, past]] at hbuf
  obtain rfl : s' ++ [1, past] = s := List.append_cancel_left hbuf
  -- the bytes before the extra group are a stream of their own
  have hdec : decode data.length s' = some data := decode_eq_some_iff.2 ⟨ts', hf', he', rfl⟩
  have hdec' : decode data.length (s' ++ [1, past]) = some data := decode_eq_some_iff.2 ⟨ts, hf, he, rfl⟩
  have hnone : decode data.length (s' ++ [1, past]) = none := decodeFrom_append hdec (List.cons_ne_nil _ _)
  exact absurd (hdec'.symm.trans hnone) (Option.some_ne_none _)

/-- On no input does `CompressData` read the input alone, and on none does it write the tokens of the
input alone. -/
theorem compressData_extra_token (t : OffTable) (compression : Int) (data : List UInt8) :
    compressData t (Mem.ofList data) data.length compression = none ∧
      ∀ input : Mem UInt8, input.Holds 0 data → ¬ Covers t input data compression := by
  refine ⟨compressData_past_none t ?_ ?_ compression, fun input hin => ?_⟩
  · simpa using Mem.holds_ofList_self data []
  · simp [Mem.ofList]
  · cases hpast : input data.length with
    | none =>
      rintro ⟨c, ts, s, hc, -⟩
      rw [compressData_past_none t hin hpast] at hc
      cases hc
    | some past =>
      exact compressData_past_some t (Mem.holds_concat.2 ⟨hin, by rwa [Nat.zero_add]⟩) compression

/-- One byte is written as two tokens, the second for the byte behind it, and there is no result where
that byte cannot be read. -/
theorem compressData_extra_token_one :
    compressData (fun _ => 0) (Mem.ofList [65]) 1 17 = none ∧
      (compressData (fun _ => 0) (Mem.ofList [65, 66]) 1 17).map Compressed.buffer =
        some [10, 0, 0, 0, 1, 0, 0, 0, 1, 65, 1, 66] ∧
      ¬ Covers (fun _ => 0) (Mem.ofList [65, 66]) [65] 17 := by
  have hin : (Mem.ofList [65, 66]).Holds 0 ([65] ++ [(66 : UInt8)]) := by simpa using Mem.holds_ofList_self [65, 66] []
  exact ⟨by decide +kernel, by decide +kernel, compressData_past_some _ hin 17⟩

/-! ## The size of the buffer -/

/-- The buffer of four bytes for each of the `n` bytes of the input holds all that is written, and the
`complen` bytes and the header of eight bytes the packer copies out of it. -/
structure Compressed.Fits (c : Compressed) (n : Nat) : Prop where
  allocated : c.allocated = n * 4
  written : c.buffer.length ≤ n * 4
  copied : c.complen + 8 ≤ n * 4

section

variable (hin : input.Holds 0 data) (compression : Int)

include hin in
/-- A match needs a window longer than itself: the first six bytes are literals. -/
theorem token_short (hshort : data.length ≤ 6) {e : Encoder} (hcur : e.curlen < data.length) (i : Nat) :
    ∃ e', token input data.length compression i e = some e' ∧ e'.curlen = e.curlen + 1 ∧
      e'.outlen = e.outlen := by
  obtain ⟨t', offset, mlen, hf, hm⟩ := findMatch_spec hin compression e.offTable (Nat.le_of_lt hcur)
  have h0 : offset = 0 := by
    by_contra h
    obtain ⟨-, -, -, h1, h2, h3, -⟩ := hm h
    omega
  rw [h0] at hf
  rw [token_of_no_match compression hf, input_data hin hcur]
  exact ⟨_, rfl, rfl, rfl⟩

include hin in
theorem groupFrom_short (hshort : data.length ≤ 6) : ∀ (left i : Nat) (e : Encoder), e.curlen < data.length →
    data.length ≤ e.curlen + left →
    ∃ e', groupFrom input data.length compression left i e = some e' ∧ e'.curlen = data.length ∧
      e'.outlen + 1 + e.curlen = e.outlen + data.length
  | 0, i, e, hcur, hleft => by omega
  | left + 1, i, e, hcur, hleft => by
    obtain ⟨e₁, htok, hcur₁, hout₁⟩ := token_short hin compression hshort hcur i
    rw [groupFrom]
    simp only [htok, Option.bind_eq_bind, Option.bind_some]
    by_cases hend : e₁.curlen ≥ data.length
    · rw [if_pos hend]
      exact ⟨e₁, rfl, by omega, by omega⟩
    · rw [if_neg hend]
      obtain ⟨e', hg, hcur', hout'⟩ := groupFrom_short hshort left (i + 1) { e₁ with outlen := e₁.outlen + 1 }
        (by simp only; omega) (by simp only; omega)
      simp only at hout'
      exact ⟨e', hg, hcur', by omega⟩

end

/-- A short input is written as one group of literals, and the extra group. -/
theorem compressData_short (t : OffTable) (hin : input.Holds 0 (data ++ [past])) (compression : Int)
    (h0 : 0 < data.length) (hshort : data.length ≤ 6) :
    ∃ c, compressData t input data.length compression = some c ∧ c.complen = data.length + 9 := by
  obtain ⟨hin, hpast⟩ := Mem.holds_concat.1 hin
  rw [Nat.zero_add] at hpast
  obtain ⟨e, hg, hcur, hout⟩ := groupFrom_short hin compression hshort 8 0 ⟨t, 0, 1, 0, []⟩ h0 (by simp only; omega)
  simp only at hout
  obtain ⟨m, hm⟩ : ∃ m, data.length + 1 = m + 2 := ⟨data.length - 1, by omega⟩
  obtain ⟨t', hend⟩ := encodeLoop_end hin compression hpast m e.offTable e.outlen ([] ++ e.ctrlbyte :: e.group)
  unfold compressData
  rw [if_neg (by omega), encodeLoop, if_pos (Nat.zero_le _), Nat.zero_add, hg]
  simp only [Option.bind_eq_bind, Option.bind_some, hcur, hm, hend]
  exact ⟨_, rfl, by simp only; omega⟩

/-- The buffer `CompressData` allocates is large enough from six bytes of input on, as long as its size
is an `int`, and the byte behind the input, which the extra group reads, is there. -/
theorem compressData_fits_iff (t : OffTable) (hin : input.Holds 0 data) (compression : Int) (h0 : 0 < data.length) :
    (∃ c, compressData t input data.length compression = some c ∧ c.Fits data.length) ↔
      6 ≤ data.length ∧ data.length < 2 ^ 29 ∧ input data.length ≠ none := by
  constructor
  · rintro ⟨c, hc, hfit⟩
    cases hpast : input data.length with
    | none =>
      rw [compressData_past_none t hin hpast] at hc
      cases hc
    | some past =>
      refine ⟨?_, (compressData_allocated hc).1, Option.some_ne_none past⟩
      by_contra hlt
      have hin' : input.Holds 0 (data ++ [past]) := Mem.holds_concat.2 ⟨hin, by rwa [Nat.zero_add]⟩
      obtain ⟨c', hc', hcomp⟩ := compressData_short t hin' compression h0 (by omega)
      obtain rfl : c = c' := Option.some.inj (hc.symm.trans hc')
      have := hfit.copied
      omega
  · rintro ⟨h6, hlen, hpast⟩
    obtain ⟨past, hpast⟩ := Option.ne_none_iff_exists'.1 hpast
    have hin' : input.Holds 0 (data ++ [past]) := Mem.holds_concat.2 ⟨hin, by rwa [Nat.zero_add]⟩
    obtain ⟨c, ts, s, hc, hbuf, hcomp, hf, he⟩ := compressData_spec t hin' compression hlen
    -- the stream is an eighth longer than the input at most
    have hs := hf.stream_length_le he
    rw [if_neg (by omega)] at hcomp
    refine ⟨c, hc, (compressData_allocated hc).2, ?_, by omega⟩
    rw [hbuf]
    simp only [List.length_append, le32_length, List.length_cons, List.length_nil]
    omega

/-- Six bytes fit: 23 bytes are copied out of 24. -/
theorem compressData_fits_six : 0 < [1, 2, 3, 4, 5, 6].length ∧
    ∃ c, compressData (fun _ => 0) (Mem.ofList [1, 2, 3, 4, 5, 6, 7]) 6 17 = some c ∧ c.Fits 6 := by
  have hin : (Mem.ofList [1, 2, 3, 4, 5, 6, 7]).Holds 0 [1, 2, 3, 4, 5, (6 : UInt8)] := Mem.holds_ofList_self _ [7]
  exact ⟨by decide, (compressData_fits_iff (fun _ => 0) hin 17 (by decide)).2 (by decide)⟩

/-- One byte does not: twelve bytes are written to four, and eighteen are copied out of them. -/
theorem compressData_overruns_one :
    (compressData (fun _ => 0) (Mem.ofList [65, 66]) 1 17).map
      (fun c => (c.allocated, c.buffer.length, c.complen + 8)) = some (4, 12, 18) ∧
      ¬ ∃ c, compressData (fun _ => 0) (Mem.ofList [65, 66]) 1 17 = some c ∧ c.Fits 1 := by
  have hrun : (compressData (fun _ => 0) (Mem.ofList [65, 66]) 1 17).map
      (fun c => (c.allocated, c.buffer.length, c.complen + 8)) = some (4, 12, 18) := by decide +kernel
  refine ⟨hrun, ?_⟩
  rintro ⟨c, hc, hfit⟩
  rw [hc, Option.map_some, Option.some.injEq, Prod.mk.injEq, Prod.mk.injEq] at hrun
  have := hfit.written
  omega

/-! ## The block -/

/-- The bytes that are written stay inside the block from four bytes of input on. -/
theorem compressData_inside_iff (t : OffTable) (hin : input.Holds 0 (data ++ [past])) (compression : Int)
    {c : Compressed} (hc : compressData t input data.length compression = some c) :
    c.buffer.length ≤ c.allocated ↔ 4 ≤ data.length := by
  obtain ⟨hlen, halloc⟩ := compressData_allocated hc
  obtain ⟨c', ts, s, hc', hbuf, hcomplen, hf, he⟩ := compressData_spec t hin compression hlen
  obtain rfl : c = c' := Option.some.inj (hc.symm.trans hc')
  have hs := hf.stream_length_le he
  have hwritten : c.buffer.length = s.length + 10 := by
    rw [hbuf]
    simp
    omega
  rw [hwritten, halloc]
  constructor
  · intro hfit
    by_contra hshort
    by_cases h0 : data.length = 0
    · omega
    · -- up to six bytes are literals: one byte of the stream for each
      obtain ⟨c', hc', hcomplen'⟩ := compressData_short t hin compression (by omega) (by omega)
      obtain rfl : c = c' := Option.some.inj (hc.symm.trans hc')
      rw [if_neg h0] at hcomplen
      omega
  · omega

end SiglusExtract.Compression
