/-
A WAV stream in memory, as the Vorbis and FLAC converters find it: the header that `make_wavheader` has
written, taken as words of 16 bits, and samples of 16 bits.
-/
import SiglusExtract.Nwa.Data

namespace SiglusExtract.Nwa

open Bytes CInt

/-! ## Samples -/

/-- A sample of 16 bits: its high byte is signed. -/
def sample (lo hi : UInt8) : Int := i8 hi * 256 + lo.toNat

/-- The samples of some bytes, in order. -/
def samples : List UInt8 → List Int
  | lo :: hi :: l => sample lo hi :: samples l
  | _ => []

theorem samples_length (l : List UInt8) : (samples l).length = l.length / 2 := by
  induction l using samples.induct with
  | case1 lo hi l ih =>
    rw [samples, List.length_cons, ih, List.length_cons, List.length_cons]
    omega
  | case2 l h =>
    match l with
    | [] | [_] => simp [samples]
    | lo :: hi :: l => exact absurd rfl (h lo hi l)

/-- Samples are taken one after the other: those in front, and those of what follows them. -/
theorem samples_split (k : Nat) (l : List UInt8) :
    samples (l.take (2 * k)) ++ samples (l.drop (2 * k)) = samples l := by
  induction k generalizing l with
  | zero => rfl
  | succ k ih =>
    match l with
    | lo :: hi :: l =>
      rw [show 2 * (k + 1) = 2 * k + 1 + 1 by omega]
      simp only [List.take_succ_cons, List.drop_succ_cons, samples, List.cons_append]
      rw [ih l]
    | [] | [_] =>
      -- no sample at all
      rw [List.take_of_length_le (by simp <;> omega), List.drop_eq_nil_of_le (by simp <;> omega)]
      exact List.append_nil _

/-! ## The words of a header -/

/-- The words of the header that its fields make: riff size, channels, samples and bytes per second, block
alignment, bits per sample. -/
def fieldWords (size channels bps freq : Int) : List Nat :=
  let byps := i32 (bps + 7) >>> 3
  [u32 (size + 0x24) % 2 ^ 16, u32 (size + 0x24) / 2 ^ 16, u32 channels % 2 ^ 16, u32 freq % 2 ^ 16, u32 freq / 2 ^ 16,
    u32 (freq * byps * channels) % 2 ^ 16, u32 (freq * byps * channels) / 2 ^ 16, u32 (byps * channels) % 2 ^ 16,
    u32 bps % 2 ^ 16]

/-- All the words in front of the tag of the data. -/
def headerWords (size channels bps freq : Int) : List Nat :=
  let byps := i32 (bps + 7) >>> 3
  [0x4952, 0x4646, u32 (size + 0x24) % 2 ^ 16, u32 (size + 0x24) / 2 ^ 16, 0x4157, 0x4556, 0x6d66, 0x2074, 16, 0, 1,
    u32 channels % 2 ^ 16, u32 freq % 2 ^ 16, u32 freq / 2 ^ 16, u32 (freq * byps * channels) % 2 ^ 16,
    u32 (freq * byps * channels) / 2 ^ 16, u32 (byps * channels) % 2 ^ 16, u32 bps % 2 ^ 16]

theorem headerWords_length (size channels bps freq : Int) : (headerWords size channels bps freq).length = 18 := rfl

theorem headerWords_lt (size channels bps freq : Int) : ∀ w ∈ headerWords size channels bps freq, w < 2 ^ 16 := by
  have hlo : ∀ n : Nat, n % 2 ^ 16 < 2 ^ 16 := fun n => Nat.mod_lt n (by decide)
  have hhi : ∀ x : Int, u32 x / 2 ^ 16 < 2 ^ 16 := fun x => by
    have := u32_lt x
    omega
  simp only [headerWords, List.forall_mem_cons, hlo, hhi, true_and]
  decide

theorem le32_words (n : Nat) : le32 n = le16 (n % 2 ^ 16) ++ le16 (n / 2 ^ 16) := by
  simp only [le32, le16, List.cons_append, List.nil_append, List.cons.injEq, and_true]
  refine ⟨?_, ?_, ?_, ?_⟩ <;> apply ofNat_congr <;> omega

theorem le16_mod (n : Nat) : le16 (n % 2 ^ 16) = le16 n := le16_congr (Nat.mod_mod n (2 ^ 16))

theorem makeWavheader_words (size channels bps freq : Int) : makeWavheader size channels bps freq =
    (headerWords size channels bps freq).flatMap le16 ++ (ascii "data" ++ le32 (u32 size)) := by
  have hriff : ascii "RIFF" = le16 0x4952 ++ le16 0x4646 := by decide
  have hwave : ascii "WAVE" = le16 0x4157 ++ le16 0x4556 := by decide
  have hfmt : ascii "fmt " = le16 0x6d66 ++ le16 0x2074 := by decide
  have hsize : le32 16 = le16 16 ++ le16 0 := by decide
  simp only [makeWavheader, headerWords, hriff, hwave, hfmt, hsize, List.flatMap_cons, List.flatMap_nil,
    le32_words (u32 _), le16_mod, List.append_assoc, List.append_nil]

/-- A word that the tag differs from in all the fields differs from it in the whole header. -/
theorem headerWords_ne_iff (size channels bps freq : Int) :
    (∀ w ∈ headerWords size channels bps freq, w ≠ 0x6164) ↔ ∀ w ∈ fieldWords size channels bps freq, w ≠ 0x6164 := by
  simp [headerWords, fieldWords]

end SiglusExtract.Nwa
