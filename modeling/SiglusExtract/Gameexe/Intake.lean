/-
What `UnpackGameexe::Unpack` touches of the buffer that holds the file. `Size - 8` is unsigned, the two lengths are read
whether or not there are as many bytes, and `DecompressData` is not told where the buffer ends.
-/
import SiglusExtract.Gameexe
import SiglusExtract.Lzss.Intake

namespace SiglusExtract.UnpackGameexe

open Bytes CInt Compression Lzss Xor

/-! ## The accesses -/

/-- `Unpack` up to the end of `DecompressData`, a fault being an access outside the file buffer: the memory around the
output, `old` at first, may be read and written everywhere. -/
def intake (code : DecodeControl) (old : Int → UInt8) (file : List UInt8) : Except Failure (List UInt8) :=
  decompress code (fun _ j => some (old j)) file

/-! ## What keeps them inside -/

/-- There is no buffer for a file of that size; or it holds both headers, and there is no buffer for the output, or
tokens for it behind the headers. -/
def Inside (code : DecodeControl) (file : List UInt8) : Prop :=
  size32 file < 2 ^ 31 → 16 ≤ size32 file ∧
    (decompLen code file < 2 ^ 31 → Supplied (decompLen code file) ((plain code file).drop 8))

/-- What `CreateGameexe` packs is taken in. -/
theorem createGameexe_intake (t : OffTable) (infile : List UInt8) (past : UInt8) (code : DecodeControl)
    (old : Int → UInt8) {dat : List UInt8}
    (h : createGameexe t infile past code.privateKey code.datNeedKey = some dat) :
    intake code old dat = .ok (dropBom infile) := by
  obtain ⟨h4, hlen⟩ := length_of_createGameexe h
  obtain ⟨complen, s, hc, hsize, ts, hf, he⟩ := createGameexe_spec t infile past code h4 hlen
  obtain rfl := Option.some.inj (h.symm.trans hc)
  exact decompress_spec code (fun j _ => ⟨old j, rfl⟩) rfl (by omega) hsize hf he

/-- A text of two characters. -/
theorem createGameexe_intake_sample : ∃ dat,
    createGameexe (fun _ => 0) [65, 0, 66, 0] 0 (Vector.replicate 16 0) true = some dat ∧
      intake ⟨Vector.replicate 16 0, true, true, .ssV2⟩ (fun _ => 0) dat = .ok [65, 0, 66, 0] := by
  obtain ⟨complen, s, hc, -⟩ := createGameexe_spec (fun _ => 0) [65, 0, 66, 0] 0
    ⟨Vector.replicate 16 0, true, true, .ssV2⟩ (by decide) (by decide)
  exact ⟨_, hc, createGameexe_intake (fun _ => 0) [65, 0, 66, 0] 0 _ (fun _ => 0) hc⟩

/-- `Unpack` touches the file buffer only inside exactly where the buffer is not allocated, or large enough for the two
headers and holds the tokens for the length it announces. -/
theorem intake_inside_iff (code : DecodeControl) (old : Int → UInt8) (file : List UInt8) :
    intake code old file ≠ .error .fault ↔ Inside code file := by
  unfold Inside
  by_cases h31 : size32 file < 2 ^ 31
  · rw [intake, decompress_eq code _ h31, forall_prop_of_true h31]
    by_cases h16 : size32 file < 16
    · rw [if_pos h16]
      exact iff_of_false (fun h => h rfl) fun h => absurd h.1 (Nat.not_le.2 h16)
    · rw [if_neg h16, and_iff_right (Nat.not_lt.1 h16)]
      by_cases hn : decompLen code file < 2 ^ 31
      · rw [if_pos hn, forall_prop_of_true hn, ← @decompressData_supplied_iff _ old]
        cases decompressData (Mem.ofList ((plain code file).drop 8)) (fun j => some (old j)) (decompLen code file) with
        | none =>
          refine iff_of_false (fun h => h rfl) ?_
          rintro ⟨r, hr⟩
          cases hr
        | some r => exact iff_of_true (fun h => by cases h) ⟨r, rfl⟩
      · rw [if_neg hn]
        exact iff_of_true (fun h => by cases h) fun h => absurd h hn
  · rw [intake, decompress, heapAlloc, if_neg h31]
    exact iff_of_true (fun h => by cases h) fun h => absurd h h31

/-- Seven bytes send the XOR pass out of the buffer, eleven bytes the read of the second length, and both headers with
nothing behind them the decoder. -/
theorem not_intake_inside :
    (∀ code old, intake code old (List.replicate 7 0) = .error .fault) ∧
      (∀ code old, intake code old (List.replicate 11 0) = .error .fault) ∧
      intake ⟨Vector.replicate 16 0, false, false, .ssV2⟩ (fun _ => 0)
        (List.replicate 8 0 ++ xorKs gameExeStream (le32 8 ++ le32 1)) = .error .fault := by
  refine ⟨fun code old => ?_, fun code old => ?_, ?_⟩
  · rw [intake, decompress_eq code _ (by decide), if_pos (by decide)]
  · rw [intake, decompress_eq code _ (by decide), if_pos (by decide)]
  · rfl

end SiglusExtract.UnpackGameexe
