/-
The two LZSS decoders written in C++: `DecompressData` (Compression.cpp) and the guarded
`RealLive_g00_type1_uncompress` (UnpackG00.h). Each reads its input through a pointer and writes
its output front to back; on a framed token stream each computes what the tokens expand to.
-/
import SiglusExtract.Lzss.Format

namespace SiglusExtract

open Lz Bytes Lzss

/-! ## DecompressData -/

namespace Compression

/-- The inner loop of `DecompressData`: `loop` tokens at most, `len` the control byte shifted so
far, `inbuffer` the read position and `out` what has been written to `outbuffer`. -/
def tokenLoop (input : Mem UInt8) (outbuffer : Tape UInt8) (decomplen : Nat) :
    Nat → Nat → Nat → List UInt8 → Option (Nat × List UInt8)
  | 0, _, inbuffer, out => some (inbuffer, out)
  | loop + 1, len, inbuffer, out =>
    if out.length = decomplen then some (inbuffer, out)
    else if len &&& 1 ≠ 0 then do
      let b ← input inbuffer
      let out ← outbuffer.poke out b
      tokenLoop input outbuffer decomplen loop (len >>> 1) (inbuffer + 1) out
    else do
      let data ← word input inbuffer
      let templen := (data &&& 0x0f) + 2
      let out ← outbuffer.copy (data >>> 4) templen out
      tokenLoop input outbuffer decomplen loop (len >>> 1) (inbuffer + 2) out

/-- The outer loop of `DecompressData`, one control byte a turn. -/
def groupLoop (input : Mem UInt8) (outbuffer : Tape UInt8) (decomplen : Nat) :
    Nat → Nat → List UInt8 → Option (Nat × List UInt8)
  | 0, _, _ => none
  | fuel + 1, inbuffer, out =>
    if out.length < decomplen then do
      let len ← input inbuffer
      let (inbuffer, out) ← tokenLoop input outbuffer decomplen 8 len.toNat (inbuffer + 1) out
      groupLoop input outbuffer decomplen fuel inbuffer out
    else some (inbuffer, out)

/-- `DecompressData`: the bytes written to `outbuffer` and how far `inbuffer` was advanced. Every
turn of the outer loop writes a byte, so `decomplen + 1` turns are never used up. -/
def decompressData (input : Mem UInt8) (outbuffer : Tape UInt8) (decomplen : Nat) :
    Option (Nat × List UInt8) :=
  groupLoop input outbuffer decomplen (decomplen + 1) 0 []

section Frames

variable {input : Mem UInt8} {outbuffer : Tape UInt8} {n : Nat}

theorem tokenLoop_done {out : List UInt8} (hn : out.length = n) (k c p : Nat) :
    tokenLoop input outbuffer n k c p out = some (p, out) := by
  cases k with
  | zero => rfl
  | succ k => unfold tokenLoop; rw [if_pos hn]

theorem groupLoop_done {out : List UInt8} (hn : out.length = n) (fuel p : Nat) :
    groupLoop input outbuffer n (fuel + 1) p out = some (p, out) := by
  unfold groupLoop
  rw [if_neg (by omega)]

theorem groupLoop_step {out : List UInt8} (hlt : out.length < n) {p : Nat} {c : UInt8}
    (hc : input p = some c) (fuel : Nat) :
    groupLoop input outbuffer n (fuel + 1) p out =
      (tokenLoop input outbuffer n 8 c.toNat (p + 1) out).bind fun r =>
        groupLoop input outbuffer n fuel r.1 r.2 := by
  rw [groupLoop, if_pos hlt, hc]
  rfl

theorem tokenLoop_lit (hroom : outbuffer.Room n) {out : List UInt8} (hlt : out.length < n) {k c p : Nat}
    (hc : c % 2 = 1) {b : UInt8} (hb : input p = some b) :
    tokenLoop input outbuffer n (k + 1) c p out =
      tokenLoop input outbuffer n k (c / 2) (p + 1) (out ++ [b]) := by
  rw [tokenLoop, if_neg (by omega), if_pos (by rw [and_one]; omega), hb, shiftRight_one]
  simp only [Option.bind_eq_bind, Option.bind_some, Tape.poke_of_room hroom hlt]

theorem tokenLoop_copy {out out' : List UInt8} (hlt : out.length < n) {k c p : Nat} (hc : c % 2 = 0)
    {t : Nat} (ht : word input p = some t) (hcopy : outbuffer.copy (t / 16) (t % 16 + 2) out = some out') :
    tokenLoop input outbuffer n (k + 1) c p out =
      tokenLoop input outbuffer n k (c / 2) (p + 2) out' := by
  rw [tokenLoop, if_neg (by omega), if_neg (by rw [and_one]; omega), ht, shiftRight_one]
  simp only [Option.bind_eq_bind, Option.bind_some, and_15, shiftRight_four, hcopy]

/-- From any point of a framed stream the two loops produce what its tokens expand to and stop
right behind it. A turn of the outer loop is only spent on a control byte, and a control byte is
followed by a token. -/
theorem tokenLoop_frame (hroom : outbuffer.Room n) {k c : Nat} {ts : List (Token UInt8)} {s : List UInt8}
    (h : Frame k c ts s) {p fuel : Nat} {out fin : List UInt8} (hs : input.Holds p s)
    (he : expand ts out = some fin) (hn : fin.length = n) (hfuel : ts.length ≤ fuel)
    (hfuel' : k = 0 ∨ ts = [] → ts.length < fuel) :
    ((tokenLoop input outbuffer n k c p out).bind fun r => groupLoop input outbuffer n fuel r.1 r.2) =
      some (p + s.length, fin) := by
  induction h generalizing p fuel out with
  | nil k c =>
    cases he
    obtain ⟨fuel, rfl⟩ := Nat.exists_eq_succ_of_ne_zero (Nat.ne_zero_of_lt (hfuel' (.inr rfl)))
    rw [tokenLoop_done hn, Option.bind_some, groupLoop_done hn]
    rfl
  | @ctrl c₀ c ts s hne hf ih =>
    obtain ⟨fuel, rfl⟩ := Nat.exists_eq_succ_of_ne_zero (Nat.ne_zero_of_lt (hfuel' (.inl rfl)))
    obtain ⟨hc, hs⟩ := Mem.holds_cons.1 hs
    have hcount := expand_count_le hf.size_pos he
    have hpos := List.length_pos_iff.2 hne
    -- the control bits are used up, so the inner loop is over and the outer one takes a turn
    show groupLoop input outbuffer n (fuel + 1) p out = _
    rw [groupLoop_step (by omega) hc, ih hs he (by omega) (by simp [hne]), List.length_cons,
      show p + 1 + s.length = p + (s.length + 1) by omega]
  | @lit k c b ts s hc hf ih =>
    obtain ⟨hb, hs⟩ := Mem.holds_cons.1 hs
    have hcount := expand_count_le (Frame.lit (b := b) hc hf).size_pos he
    rw [List.length_cons] at hcount hfuel
    rw [tokenLoop_lit hroom (by omega) hc hb, ih hs he (by omega) (by omega), List.length_cons,
      show p + 1 + s.length = p + (s.length + 1) by omega]
  | @copy k c lo hi ts s hc hf ih =>
    obtain ⟨hlo, hs⟩ := Mem.holds_cons.1 hs
    obtain ⟨hhi, hs⟩ := Mem.holds_cons.1 hs
    have hcount := expand_count_le (Lzss.Frame.copy hc hf).size_pos he
    rw [List.length_cons] at hcount hfuel
    obtain ⟨out', ho, he⟩ := expand_cons.1 he
    have hcopy := tape_copy hroom ho (hn ▸ expand_length_le he)
    rw [tokenLoop_copy (by omega) hc (word_eq hlo hhi) hcopy, ih hs he (by omega) (by omega),
      List.length_cons, List.length_cons, show p + 2 + s.length = p + (s.length + 1 + 1) by omega]

/-- `DecompressData` on a framed stream writes what its tokens expand to, and reads nothing
behind it. -/
theorem decompressData_frame (hroom : outbuffer.Room n) {ts : List (Token UInt8)} {s fin : List UInt8}
    (h : Frame 0 0 ts s) (hs : input.Holds 0 s) (he : expand ts [] = some fin) (hn : fin.length = n) :
    decompressData input outbuffer n = some (s.length, fin) := by
  have hcount := expand_count_le h.size_pos he
  rw [List.length_nil, Nat.zero_add] at hcount
  have := tokenLoop_frame hroom h hs he hn (show ts.length ≤ n + 1 by omega) (by omega)
  rwa [Nat.zero_add] at this

end Frames

end Compression

/-! ## RealLive_g00_type1_uncompress -/

namespace UnpackG00

/-- The control byte: the next one is read when `bit_count` has run out. -/
def type1Control (compr : Mem UInt8) (curbyte bitCount flag : Nat) : Option (Nat × Nat × Nat) :=
  if bitCount = 0 then (compr curbyte).map fun f => (curbyte + 1, 8, f.toNat)
  else some (curbyte, bitCount, flag)

/-- The `while` loop of `RealLive_g00_type1_uncompress`. -/
def type1Loop (compr : Mem UInt8) (uncompr : Tape UInt8) (uncomprlen comprlen : Nat) :
    Nat → Nat → Nat → Nat → List UInt8 → Option (List UInt8)
  | 0, _, _, _, _ => none
  | fuel + 1, curbyte, bitCount, flag, out =>
    if out.length < uncomprlen ∧ curbyte < comprlen then do
      let (curbyte, bitCount, flag) ← type1Control compr curbyte bitCount flag
      if flag &&& 1 ≠ 0 then do
        let b ← compr curbyte
        let out ← uncompr.poke out b
        type1Loop compr uncompr uncomprlen comprlen fuel (curbyte + 1) (bitCount - 1) (flag >>> 1) out
      else do
        let count ← compr curbyte
        let hi ← compr (curbyte + 1)
        let offset := (hi.toNat <<< 4) ||| (count.toNat >>> 4)
        let count := (count.toNat &&& 0xf) + 2
        let out ← uncompr.copy offset count out
        type1Loop compr uncompr uncomprlen comprlen fuel (curbyte + 2) (bitCount - 1) (flag >>> 1) out
    else some out

/-- `RealLive_g00_type1_uncompress` on the compressed block at `compr`: the buffer it returns, 64
bytes longer than the announced length and zeroed first, and the length it reports. A zero
announced length means that the block is stored. -/
def realLiveG00Type1Uncompress (compr : Mem UInt8) : Option (List UInt8 × Nat) := do
  let comprlen := ((← dword compr 0) + 2 ^ 32 - 8) % 2 ^ 32
  let uncomprlen ← dword compr 4
  if uncomprlen ≠ 0 then
    let size := (uncomprlen + 64) % 2 ^ 32
    let comprlen := (comprlen + 8) % 2 ^ 32
    let out ← type1Loop compr (.cells size fun _ => 0) uncomprlen comprlen (uncomprlen + 1) 8 0 0 []
    return (out ++ List.replicate (size - out.length) 0, uncomprlen)
  else
    let actualData ← (List.range comprlen).mapM fun i => compr (8 + i)
    return (actualData, comprlen)

section Frames

variable {compr : Mem UInt8} {uncompr : Tape UInt8} {n comprlen : Nat}

theorem type1Loop_done {out : List UInt8} (hn : out.length = n) (fuel cur k c : Nat) :
    type1Loop compr uncompr n comprlen (fuel + 1) cur k c out = some out := by
  rw [type1Loop, if_neg (by omega)]

/-- Reading a control byte goes on as if its eight bits had been there already. -/
theorem type1Loop_ctrl {out : List UInt8} (hlt : out.length < n) {cur : Nat} (hcur : cur + 1 < comprlen)
    {f : UInt8} (hf : compr cur = some f) (fuel c : Nat) :
    type1Loop compr uncompr n comprlen (fuel + 1) cur 0 c out =
      type1Loop compr uncompr n comprlen (fuel + 1) (cur + 1) 8 f.toNat out := by
  unfold type1Loop
  rw [if_pos ⟨hlt, by omega⟩, if_pos ⟨hlt, hcur⟩]
  simp only [type1Control, if_pos, hf, Option.map_some, Option.bind_eq_bind, Option.bind_some]
  rfl

theorem type1Loop_lit (hroom : uncompr.Room n) {out : List UInt8} (hlt : out.length < n) {cur : Nat}
    (hcur : cur < comprlen) {k c : Nat} (hc : c % 2 = 1) {b : UInt8} (hb : compr cur = some b) (fuel : Nat) :
    type1Loop compr uncompr n comprlen (fuel + 1) cur (k + 1) c out =
      type1Loop compr uncompr n comprlen fuel (cur + 1) k (c / 2) (out ++ [b]) := by
  rw [type1Loop, if_pos ⟨hlt, hcur⟩, type1Control, if_neg (by omega)]
  simp only [Option.bind_eq_bind, Option.bind_some, if_pos (show c &&& 1 ≠ 0 by rw [and_one]; omega), hb,
    Tape.poke_of_room hroom hlt, shiftRight_one, Nat.add_sub_cancel]

theorem offset_eq (lo hi : UInt8) : hi.toNat <<< 4 ||| lo.toNat >>> 4 = leWord lo hi / 16 := by
  have := lo.toNat_lt
  rw [shiftRight_four, shiftLeft_or (by omega)]
  unfold leWord
  omega

theorem count_eq (lo hi : UInt8) : (lo.toNat &&& 0xf) + 2 = leWord lo hi % 16 + 2 := by
  rw [and_15]
  unfold leWord
  omega

theorem type1Loop_copy {out out' : List UInt8} (hlt : out.length < n) {cur : Nat} (hcur : cur < comprlen)
    {k c : Nat} (hc : c % 2 = 0) {lo hi : UInt8} (hlo : compr cur = some lo) (hhi : compr (cur + 1) = some hi)
    (hcopy : uncompr.copy (leWord lo hi / 16) (leWord lo hi % 16 + 2) out = some out') (fuel : Nat) :
    type1Loop compr uncompr n comprlen (fuel + 1) cur (k + 1) c out =
      type1Loop compr uncompr n comprlen fuel (cur + 2) k (c / 2) out' := by
  rw [type1Loop, if_pos ⟨hlt, hcur⟩, type1Control, if_neg (by omega)]
  simp only [Option.bind_eq_bind, Option.bind_some, if_neg (show ¬ c &&& 1 ≠ 0 by rw [and_one]; omega), hlo,
    hhi, offset_eq, count_eq lo hi, hcopy, shiftRight_one, Nat.add_sub_cancel]

/-- From any point of a framed stream that ends at `comprlen`, the loop produces what its tokens
expand to. -/
theorem type1Loop_frame (hroom : uncompr.Room n) {k c : Nat} {ts : List (Token UInt8)} {s : List UInt8}
    (h : Frame k c ts s) {cur fuel : Nat} {out fin : List UInt8} (hs : compr.Holds cur s)
    (hend : cur + s.length = comprlen) (he : expand ts out = some fin) (hn : fin.length = n)
    (hfuel : ts.length < fuel) : type1Loop compr uncompr n comprlen fuel cur k c out = some fin := by
  obtain ⟨fuel, rfl⟩ := Nat.exists_eq_succ_of_ne_zero (Nat.ne_zero_of_lt hfuel)
  induction h generalizing cur fuel out with
  | nil k c =>
    cases he
    exact type1Loop_done hn fuel cur k c
  | @ctrl c₀ c ts s hne hf ih =>
    obtain ⟨hc, hs⟩ := Mem.holds_cons.1 hs
    have hcount := expand_count_le hf.size_pos he
    have hpos := List.length_pos_iff.2 hne
    have hs0 := List.length_pos_iff.2 (hf.ne_nil hne)
    rw [List.length_cons] at hend
    -- the control byte is read inside the turn of the token behind it: the fuel stays
    rw [type1Loop_ctrl (by omega) (by omega) hc]
    exact ih hs (by omega) he fuel hfuel
  | @lit k c b ts s hc hf ih =>
    obtain ⟨hb, hs⟩ := Mem.holds_cons.1 hs
    have hcount := expand_count_le (Frame.lit (b := b) hc hf).size_pos he
    rw [List.length_cons] at hcount hfuel hend
    obtain ⟨fuel, rfl⟩ := Nat.exists_eq_succ_of_ne_zero (show fuel ≠ 0 by omega)
    rw [type1Loop_lit hroom (by omega) (by omega) hc hb]
    exact ih hs (by omega) he fuel (by omega)
  | @copy k c lo hi ts s hc hf ih =>
    obtain ⟨hlo, hs⟩ := Mem.holds_cons.1 hs
    obtain ⟨hhi, hs⟩ := Mem.holds_cons.1 hs
    have hcount := expand_count_le (Lzss.Frame.copy hc hf).size_pos he
    rw [List.length_cons] at hcount hfuel
    rw [List.length_cons, List.length_cons] at hend
    obtain ⟨out', ho, he⟩ := expand_cons.1 he
    have hcopy := tape_copy hroom ho (hn ▸ expand_length_le he)
    obtain ⟨fuel, rfl⟩ := Nat.exists_eq_succ_of_ne_zero (show fuel ≠ 0 by omega)
    rw [type1Loop_copy (by omega) (by omega) hc hlo hhi hcopy]
    exact ih hs (by omega) he fuel (by omega)

/-- `RealLive_g00_type1_uncompress` on a framed stream behind its header, the compressed length
exact: the announced length, and a buffer that starts with what the tokens expand to. -/
theorem realLiveG00Type1Uncompress_frame {ts : List (Token UInt8)} {s fin : List UInt8} (h : Frame 0 0 ts s)
    (hs : compr.Holds 0 (le32 (s.length + 8) ++ le32 n ++ s)) (he : expand ts [] = some fin)
    (hn : fin.length = n) (h0 : 0 < n) (hn32 : n < 2 ^ 31) (hs32 : s.length + 8 < 2 ^ 32) :
    realLiveG00Type1Uncompress compr = some (fin ++ List.replicate 64 0, n) := by
  rw [Mem.holds_append, Mem.holds_append] at hs
  obtain ⟨⟨hc, hu⟩, hs⟩ := hs
  have hu : compr.Holds 4 (le32 n) := hu
  have hs : compr.Holds 8 s := hs
  have hroom : (Tape.cells (n + 64) fun _ => (0 : UInt8)).Room n := fun j hj => Tape.cells_room (n + 64) _ j (by omega)
  have hcount := expand_count_le h.size_pos he
  rw [List.length_nil, Nat.zero_add] at hcount
  have hloop := type1Loop_frame hroom h hs (show 8 + s.length = s.length + 8 by omega) he hn
    (show ts.length < n + 1 by omega)
  have hlen : ((s.length + 8 + 2 ^ 32 - 8) % 2 ^ 32 + 8) % 2 ^ 32 = s.length + 8 := by omega
  simp only [realLiveG00Type1Uncompress, dword_of_holds hc hs32, dword_of_holds hu (by omega),
    Option.bind_eq_bind, Option.bind_some, if_pos (show n ≠ 0 by omega), hlen,
    show (n + 64) % 2 ^ 32 = n + 64 by omega, hloop, hn, Nat.add_sub_cancel_left, Option.pure_def]

end Frames

end UnpackG00

end SiglusExtract
