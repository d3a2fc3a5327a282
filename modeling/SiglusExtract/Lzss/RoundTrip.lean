/-
The LZSS codec as a whole: what `CompressData` writes is decompressed to its input by each decoder,
and the four decoders agree with the reference decoder on every well-formed stream.
-/
import SiglusExtract.Lzss.Asm
import SiglusExtract.Lzss.Decompress
import SiglusExtract.Lzss.Extent

namespace SiglusExtract.Lzss

open Lz Bytes Compression

/-! ## Round trip -/

/-- The stream inside the buffer `CompressData` returns for four bytes or more: `complen` and the length of
the input, then a framed stream that ends no later than `complen`, then bytes that hold nothing. -/
theorem compressData_stream (t : OffTable) {input : Mem UInt8} {data : List UInt8} {past : UInt8}
    (hin : input.Holds 0 (data ++ [past])) (compression : Int) (h4 : 4 ≤ data.length) (hlen : data.length < 2 ^ 29) :
    ∃ c ts s junk, compressDataInBlock t input data.length compression = some c ∧
      c.buffer = le32 c.complen ++ le32 data.length ++ s ++ junk ∧ junk.length = 2 ∧
      c.complen = 8 + s.length ∧ 8 * c.complen ≤ 9 * data.length + 79 ∧
      Frame 0 0 ts s ∧ expand ts [] = some data := by
  obtain ⟨c, ts, s, hc, hbuf, hcl, hf, he⟩ := compressData_spec t hin compression hlen
  rw [if_neg (by omega), Nat.add_zero] at hcl
  have := hf.stream_length_le he
  exact ⟨c, ts, s, [1, past],
    compressDataInBlock_eq_some.2 ⟨hc, (compressData_inside_iff t hin compression hc).2 h4⟩, hbuf, rfl, hcl,
    by omega, hf, he⟩

/-- The round trip of an input, with the byte behind it and the table left by earlier calls: the buffer
starts with `complen` and the length of the input, and `DecompressData` on the bytes from offset 8, cut
off at `complen`, writes the input into a buffer of just its length and reads no byte at `complen` or
behind. -/
def RoundTrip (t : OffTable) (data : List UInt8) (past : UInt8) (compression : Int) : Prop :=
  ∃ c, compressDataInBlock t (Mem.ofList (data ++ [past])) data.length compression = some c ∧
    c.complen < 2 ^ 31 ∧ c.buffer.take 8 = le32 c.complen ++ le32 data.length ∧
    ∀ old : Nat → UInt8, ∃ consumed,
      decompressData (Mem.ofList ((c.buffer.take c.complen).drop 8)) (.cells data.length old) data.length =
        some (consumed, data) ∧ 8 + consumed ≤ c.complen

/-- LZSS round trip: it holds from four bytes on. A shorter input does not fit, with its headers and
the extra group, in four bytes for each of its own. -/
theorem compressData_decompressData_iff (t : OffTable) (data : List UInt8) (past : UInt8) (compression : Int)
    (hlen : data.length < 2 ^ 29) : RoundTrip t data past compression ↔ 4 ≤ data.length := by
  have hin : (Mem.ofList (data ++ [past])).Holds 0 (data ++ [past]) := by
    simpa using Mem.holds_ofList_self (data ++ [past]) []
  constructor
  · rintro ⟨c, hc, -⟩
    obtain ⟨hc, hfit⟩ := compressDataInBlock_eq_some.1 hc
    exact (compressData_inside_iff t hin compression hc).1 hfit
  · intro h4
    obtain ⟨c, ts, s, junk, hc, hbuf, hj, hcomplen, h3, hf, he⟩ := compressData_stream t hin compression h4 hlen
    have hcut : (c.buffer.take c.complen).drop 8 = s := by
      have hall : (le32 c.complen ++ le32 data.length ++ s).length = 8 + s.length := by
        simp
        omega
      rw [hcomplen, hbuf, List.take_left' hall, List.drop_left' (by simp)]
    refine ⟨c, hc, by omega, by rw [hbuf]; simp [le32], fun old => ⟨s.length, ?_, by omega⟩⟩
    rw [hcut]
    exact decompressData_frame (Tape.cells_room _ _) hf (by simpa using Mem.holds_ofList_self s []) he rfl

theorem compressData_decompressData_iff_abcabcabcabc :
    [97, 98, 99, 97, 98, 99, 97, 98, 99, 97, 98, 99].length < 2 ^ 29 ∧
    RoundTrip (fun _ => 77) [97, 98, 99, 97, 98, 99, 97, 98, 99, 97, 98, 99] 0 17 :=
  ⟨by decide, (compressData_decompressData_iff _ _ _ _ (by decide)).2 (by decide)⟩

/-- For one byte twelve are written, to a block of four. -/
theorem not_roundTrip_one :
    (compressData (fun _ => 77) (Mem.ofList ([65] ++ [0])) 1 17).map (fun c => (c.allocated, c.buffer.length)) =
      some (4, 12) ∧ ¬ RoundTrip (fun _ => 77) [65] 0 17 := by
  have hrun : (compressData (fun _ => 77) (Mem.ofList ([65] ++ [0])) 1 17).map
      (fun c => (c.allocated, c.buffer.length)) = some (4, 12) := by decide +kernel
  refine ⟨hrun, ?_⟩
  rintro ⟨c, hc, -⟩
  obtain ⟨hc, hfit⟩ := compressDataInBlock_eq_some.1 hc
  rw [List.length_singleton] at hc
  rw [hc, Option.map_some, Option.some.injEq, Prod.mk.injEq] at hrun
  omega

/-! ## The decoders agree -/

/-- On every stream well formed for `n`, a positive `int`, the four decoders produce the bytes of the
reference decoder: `DecompressData` and `lzss_decompress` from the stream alone, `decompress_data`
with any one byte `after` readable behind it, `RealLive_g00_type1_uncompress` with the header of the
exact lengths before it. The output buffers hold just `n` bytes, or `n + 64` for the last. -/
theorem decoders_agree {n : Nat} (hn : 1 ≤ n) (hint : n < 2 ^ 31) {s out : List UInt8}
    (hdec : decode n s = some out) (old : Nat → UInt8) (after : UInt8) :
    decompressData (Mem.ofList s) (.cells n old) n = some (s.length, out) ∧
      UnpackScene.decompressData (Mem.ofList (s ++ [after])) (.cells n old) n = some out ∧
      UnpackG00.lzssDecompress (Mem.ofList s) (.cells n old) n = some out ∧
      UnpackG00.realLiveG00Type1Uncompress (Mem.ofList (le32 (s.length + 8) ++ le32 n ++ s)) =
        some (out ++ List.replicate 64 0, n) := by
  obtain ⟨ts, hf, he, hl⟩ := decode_frame hdec
  have hroom := Tape.cells_room n old
  have hs : (Mem.ofList s).Holds 0 s := by simpa using Mem.holds_ofList_self s []
  refine ⟨decompressData_frame hroom hf hs he hl, ?_, UnpackG00.lzssDecompress_frame hroom hf hs he hl, ?_⟩
  · exact UnpackScene.decompressData_frame hroom hf (Mem.holds_ofList_self s [after]) (b := after)
      (by simp [Mem.ofList]) he hl
  · exact UnpackG00.realLiveG00Type1Uncompress_frame hf
      (by simpa using Mem.holds_ofList_self (le32 (s.length + 8) ++ le32 n ++ s) []) he hl hn hint
        (by have := hf.stream_length_le he; omega)

theorem decoders_agree_overlap :
    decompressData (Mem.ofList [0xF5, 97, 0x13, 0, 98]) (.cells 7 fun _ => 0) 7 =
      some (5, [97, 97, 97, 97, 97, 97, 98]) ∧
      UnpackScene.decompressData (Mem.ofList ([0xF5, 97, 0x13, 0, 98] ++ [55])) (.cells 7 fun _ => 0) 7 =
        some [97, 97, 97, 97, 97, 97, 98] ∧
      UnpackG00.lzssDecompress (Mem.ofList [0xF5, 97, 0x13, 0, 98]) (.cells 7 fun _ => 0) 7 =
        some [97, 97, 97, 97, 97, 97, 98] ∧
      UnpackG00.realLiveG00Type1Uncompress (Mem.ofList (le32 (5 + 8) ++ le32 7 ++ [0xF5, 97, 0x13, 0, 98])) =
        some ([97, 97, 97, 97, 97, 97, 98] ++ List.replicate 64 0, 7) :=
  decoders_agree (by decide) (by decide) (by decide) (fun _ => 0) 55

end SiglusExtract.Lzss
