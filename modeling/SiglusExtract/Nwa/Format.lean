/-
The format of an NWA block, from the description at the head of nwa2wav.cpp: one raw sample a channel, and
a list of tokens that tell the samples one after the other. Where a block has tokens for them, `NWADecode`
writes the samples that they tell.
-/
import SiglusExtract.Nwa.Decode
import Mathlib.Data.Int.ModEq

namespace SiglusExtract.Nwa

open Bytes CInt BitStream

/-! ## Tokens -/

/-- How a sample follows from the last one of its channel. -/
inductive Element
  | same
  | reset
  | add (δ : Int)
  deriving DecidableEq, Repr

def Element.apply : Element → Int → Int
  | .same, p => p
  | .reset, _ => 0
  | .add δ, p => p + δ

/-- A token tells one sample, and that of type 0 as many more as it repeats. -/
inductive Token
  | same (repeats : Nat)
  | reset
  | add (δ : Int)
  deriving DecidableEq, Repr

def Token.elements : Token → List Element
  | .same repeats => List.replicate (repeats + 1) .same
  | .reset => [.reset]
  | .add δ => [.add δ]

/-- A number of `n` bits, the highest of which is its sign. -/
def signMagnitude (n b : Nat) : Int :=
  if b.testBit (n - 1) then -(b % 2 ^ (n - 1) : Nat) else (b % 2 ^ (n - 1) : Nat)

/-- The width of the mantissa of types 1 to 7, and how far it is shifted. -/
def mantissa (level type : Nat) : Nat × Nat :=
  if level < 3 then
    if type = 7 then (8 - level, 9 + level) else (5 - level, 2 + level + type)
  else
    if type = 7 then (8, 9) else (3 + level, 1 + type)

/-- How often a sample repeats: 0, or 1 and two bits, or 1, 3 and eight bits. -/
def takeRepeats (l : List Bool) : Option (Nat × List Bool) := do
  let (short, l) ← takeBits 1 l
  if short ≠ 1 then return (short, l)
  let (middle, l) ← takeBits 2 l
  if middle ≠ 3 then return (middle, l)
  let (long, l) ← takeBits 8 l
  return (long, l)

/-- A difference: its mantissa as a signed number, shifted. -/
def takeDifference (level type : Nat) (l : List Bool) : Option (Token × List Bool) := do
  let (b, l) ← takeBits (mantissa level type).1 l
  return (.add (signMagnitude (mantissa level type).1 b * 2 ^ (mantissa level type).2), l)

/-- The token at the front of a stream: a type of three bits and what belongs to it. -/
def takeToken (level : Nat) (runs : Bool) (l : List Bool) : Option (Token × List Bool) := do
  let (type, l) ← takeBits 3 l
  if type = 0 then
    if runs then (takeRepeats l).map fun (repeats, l) => (.same repeats, l) else return (.same 0, l)
  else if type = 7 then
    let (flag, l) ← takeBits 1 l
    if flag = 1 then return (.reset, l) else takeDifference level type l
  else takeDifference level type l

/-- The first `k` tokens of a stream, `none` where it has not that many. -/
def takeTokens (level : Nat) (runs : Bool) : Nat → List Bool → Option (List Token)
  | 0, _ => some []
  | k + 1, l => do
    let (token, l) ← takeToken level runs l
    let tokens ← takeTokens level runs k l
    return token :: tokens

/-! ## Samples -/

/-- The last samples of the channels in front of sample `i`: the channels take turns. -/
def predictors (first : Nat → Int) (channels : Nat) (es : List Element) : Nat → Nat → Int
  | 0, c => first c
  | i + 1, c =>
    if i % channels = c then (es[i]?.getD .same).apply (predictors first channels es i c)
    else predictors first channels es i c

/-- Sample `i`: the last one of its channel once its element has been applied. -/
def reference (first : Nat → Int) (channels : Nat) (es : List Element) (i : Nat) : Int :=
  predictors first channels es (i + 1) (i % channels)

/-- The raw sample of channel `c`. -/
def rawSample (info : NwaInfo) (block : List UInt8) (c : Nat) : Int :=
  if info.bps = 8 then (block[c]?.getD 0).toNat else leWord (block[2 * c]?.getD 0) (block[2 * c + 1]?.getD 0)

/-- A sample in a file: its residue modulo `2 ^ bps`. -/
def sampleBytes (bps : Nat) (x : Int) : List UInt8 :=
  if bps = 8 then [UInt8.ofNat (x % 2 ^ 8).toNat] else le16 (x % 2 ^ 16).toNat

/-- The block has its raw samples, and its stream begins with these tokens, which tell `n` samples or more. -/
structure Tells (info : NwaInfo) (block : List UInt8) (n : Nat) (tokens : List Token) : Prop where
  start : info.streamStart ≤ block.length
  stream : takeTokens info.compLevel info.useRunLength tokens.length ((bits block).drop (8 * info.streamStart)) =
    some tokens
  enough : n ≤ (tokens.flatMap Token.elements).length

/-! ## Codes are tokens -/

/-- The token that a code stands for. -/
def Code.token : Code → Token
  | .zero => .reset
  | .diff bits shift b => .add (signMagnitude bits b * 2 ^ shift)
  | .run n => .same n

theorem mantissa_large (info : NwaInfo) : mantissa info.compLevel 7 = info.largeDiff := by
  unfold mantissa NwaInfo.largeDiff
  by_cases hl : info.compLevel < 3
  · rw [if_pos hl, if_pos rfl, if_neg (by omega), Nat.add_comm]
  · rw [if_neg hl, if_pos rfl, if_pos (by omega)]

theorem mantissa_small (info : NwaInfo) {type : Nat} (h : type ≠ 7) :
    mantissa info.compLevel type = info.smallDiff type := by
  unfold mantissa NwaInfo.smallDiff
  by_cases hl : info.compLevel < 3
  · rw [if_pos hl, if_neg h, if_neg (by omega), Nat.add_right_comm]
  · rw [if_neg hl, if_neg h, if_pos (by omega), Nat.add_comm]

theorem takeDifference_eq {level type bits shift : Nat} (h : mantissa level type = (bits, shift)) (l : List Bool) :
    takeDifference level type l = (takeBits bits l).bind fun (b, l) => some ((Code.diff bits shift b).token, l) := by
  rw [takeDifference, h]
  rfl

/-- The stream read as codes and as tokens. -/
theorem takeToken_eq (info : NwaInfo) (l : List Bool) : takeToken info.compLevel info.useRunLength l =
    (takeCode info l).map fun (code, l) => (code.token, l) := by
  unfold takeToken takeCode
  simp only [Option.bind_eq_bind, Option.pure_def, Option.map_bind, Function.comp_def]
  congr 1
  funext ⟨type, l₁⟩
  dsimp only
  by_cases h7 : type = 7
  · -- a large difference, or the sample 0
    rw [if_neg (by omega), if_pos h7, if_pos h7, h7, Option.map_bind]
    congr 1
    funext ⟨flag, l₂⟩
    dsimp only [Function.comp_def]
    by_cases h1 : flag = 1
    · rw [if_pos h1, if_pos h1]
      rfl
    · rw [if_neg h1, if_neg h1, takeDifference_eq (mantissa_large info), Option.map_bind]
      rfl
  · rw [if_neg h7, if_neg h7]
    by_cases h0 : type = 0
    · -- the length of a run in one, three or eleven bits
      rw [if_pos h0, if_neg (not_not.2 h0)]
      by_cases hr : info.useRunLength
      · simp only [if_pos hr, takeRepeats, Option.bind_eq_bind, Option.pure_def, Option.map_bind, Function.comp_def,
          apply_ite (Option.map _), Option.map_some, Code.token]
      · rw [if_neg hr, if_neg hr]
        rfl
    · rw [if_neg h0, if_pos h0, takeDifference_eq (mantissa_small info h7), Option.map_bind]
      rfl

/-! ## The decoder follows the elements -/

/-- What is left of the stream, and of the run that it is in. -/
structure Left (info : NwaInfo) (l : List Bool) (runlength : Nat) (es : List Element) (tokens : List Token) : Prop where
  stream : takeTokens info.compLevel info.useRunLength tokens.length l = some tokens
  elements : es = List.replicate runlength .same ++ tokens.flatMap Token.elements

theorem takeTokens_cons {info : NwaInfo} {l : List Bool} {token : Token} {tokens : List Token}
    (h : takeTokens info.compLevel info.useRunLength (token :: tokens).length l = some (token :: tokens)) :
    ∃ code l', takeCode info l = some (code, l') ∧ code.token = token ∧
      takeTokens info.compLevel info.useRunLength tokens.length l' = some tokens := by
  simp only [List.length_cons, takeTokens, takeToken_eq, Option.bind_eq_bind, Option.bind_eq_some_iff,
    Option.map_eq_some_iff, Option.pure_def, Option.some.injEq, List.cons.injEq] at h
  obtain ⟨_, ⟨⟨code, l'⟩, hcode, rfl⟩, rest, hrest, htoken, rfl⟩ := h
  exact ⟨code, l', hcode, htoken, hrest⟩

theorem setCur_cur (p : Predictor) : p.setCur p.cur = p := by
  unfold Predictor.setCur Predictor.cur
  split <;> rfl

theorem setCur_runlength {p : Predictor} {r : Nat} (h : p.runlength = r) (x : Int) :
    p.setCur x = { p.setCur x with runlength := r } := by
  subst h
  unfold Predictor.setCur
  split <;> rfl

@[simp] theorem next_runlength (info : NwaInfo) (p : Predictor) : (p.next info).runlength = p.runlength := by
  unfold Predictor.next
  split <;> rfl

theorem and_mask (b n : Nat) : (b &&& 1 <<< n ≠ 0 ↔ b.testBit n) ∧ b &&& (1 <<< n) - 1 = b % 2 ^ n := by
  rw [Nat.shiftLeft_eq, Nat.one_mul, Nat.and_two_pow_sub_one_eq_mod, Nat.and_two_pow]
  have := Nat.two_pow_pos n
  cases b.testBit n <;> simp

/-- A difference as the decoder takes it apart. -/
theorem apply_diff (p : Predictor) (bits shift b : Nat) :
    p.apply (.diff bits shift b) = p.setCur (i32 (p.cur + signMagnitude bits b * 2 ^ shift)) := by
  obtain ⟨hsign, hmag⟩ := and_mask b (bits - 1)
  unfold Predictor.apply signMagnitude
  simp only [hmag]
  rw [Nat.shiftLeft_eq (b % _), Int.natCast_mul, Int.natCast_pow]
  by_cases hneg : b.testBit (bits - 1)
  · rw [if_pos (hsign.2 hneg), if_pos hneg, Int.neg_mul, Int.sub_eq_add_neg]
    rfl
  · rw [if_neg (mt hsign.1 hneg), if_neg hneg]
    rfl

theorem Element.apply_modEq (e : Element) {a b n : Int} (h : a ≡ b [ZMOD n]) : e.apply a ≡ e.apply b [ZMOD n] := by
  cases e with
  | same => exact h
  | reset => exact Int.ModEq.refl 0
  | add δ => exact h.add_right δ

section Depth

variable {info : NwaInfo} (hbps : info.bps = 8 ∨ info.bps = 16)
include hbps

theorem i32_modEq (x : Int) : i32 x ≡ x [ZMOD 2 ^ info.bps] := by
  have h : i32 x ≡ x [ZMOD 2 ^ 32] := i32_emod x
  rcases hbps with h8 | h16
  · rw [h8]
    exact h.of_dvd (by decide)
  · rw [h16]
    exact h.of_dvd (by decide)

theorem emit_eq {p : Predictor} {x : Int} (h : p.cur ≡ x [ZMOD 2 ^ info.bps]) :
    p.emit info = sampleBytes info.bps x := by
  unfold Predictor.emit sampleBytes
  rcases hbps with h8 | h16
  · rw [h8] at h
    rw [if_pos h8, if_pos h8, u32]
    have : p.cur % 256 = x % 256 := h
    exact congrArg (fun b => [b]) (ofNat_congr (by omega))
  · rw [h16] at h
    rw [if_neg (by omega), if_neg (by omega), u32]
    have : p.cur % 65536 = x % 65536 := h
    exact le16_congr (by omega)

/-- One sample: the element in front is applied to the last sample of the channel. -/
theorem takeSample_left {l : List Bool} {p : Predictor} {e : Element} {es : List Element} {tokens : List Token}
    (h : Left info l p.runlength (e :: es) tokens) :
    ∃ l' x r tokens', takeSample info l p = some (l', { p.setCur x with runlength := r }) ∧
      x ≡ e.apply p.cur [ZMOD 2 ^ info.bps] ∧ Left info l' r es tokens' := by
  obtain ⟨hstream, helements⟩ := h
  unfold takeSample
  cases hr : p.runlength with
  | succ r =>
    -- inside a run
    rw [hr, List.replicate_succ, List.cons_append, List.cons.injEq] at helements
    obtain ⟨rfl, rfl⟩ := helements
    refine ⟨l, p.cur, r, tokens, ?_, Int.ModEq.refl _, hstream, rfl⟩
    rw [if_neg (Nat.succ_ne_zero r), setCur_cur]
    rfl
  | zero =>
    rw [hr, List.replicate_zero, List.nil_append] at helements
    cases tokens with
    | nil => cases helements
    | cons token tokens =>
      obtain ⟨code, l', hcode, rfl, hrest⟩ := takeTokens_cons hstream
      rw [if_pos rfl, hcode, Option.map_some]
      cases code with
      | zero =>
        obtain ⟨rfl, rfl⟩ := List.cons.inj helements
        exact ⟨l', 0, 0, tokens, congrArg some (congrArg _ (setCur_runlength hr 0)), Int.ModEq.refl _, hrest, rfl⟩
      | diff bits shift b =>
        obtain ⟨rfl, rfl⟩ := List.cons.inj helements
        refine ⟨l', _, 0, tokens, ?_, i32_modEq hbps _, hrest, rfl⟩
        dsimp only
        rw [apply_diff, ← setCur_runlength hr]
        rfl
      | run r =>
        obtain ⟨rfl, rfl⟩ := List.cons.inj helements
        refine ⟨l', p.cur, r, tokens, ?_, Int.ModEq.refl _, hrest, rfl⟩
        rw [setCur_cur]
        rfl

/-- The raw samples, as the decoder reads them. -/
theorem firstSample_modEq {m : Nat → UInt8} {block : List UInt8} (hm : Starts m block) {c : Nat}
    (h : (c + 1) * info.byps ≤ block.length) :
    firstSample info m (c * info.byps) ≡ rawSample info block c [ZMOD 2 ^ info.bps] := by
  unfold firstSample rawSample
  unfold NwaInfo.byps at h ⊢
  rcases hbps with h8 | h16
  · rw [if_pos h8] at h ⊢
    rw [if_pos h8, if_pos h8, Nat.mul_one, hm c (by omega), List.getElem?_eq_getElem (by omega), Option.getD_some,
      h8, i8]
    split
    · exact Int.ModEq.refl _
    · exact Int.sub_emod_right _ _
  · rw [if_neg (by omega)] at h ⊢
    rw [if_neg (by omega), if_neg (by omega), shortAt, Nat.mul_comm c, hm (2 * c) (by omega), hm (2 * c + 1) (by omega),
      List.getElem?_eq_getElem (by omega), List.getElem?_eq_getElem (by omega)]
    rfl

/-- The size of the output counts in whole samples. -/
theorem nwaDecode_samples (m : Nat → UInt8) (datasize outdatasize : Int) :
    nwaDecode info m datasize outdatasize =
      nwaDecode info m datasize ((outdatasize.tdiv (info.bps / 8 : Nat)).toNat * info.byps : Nat) := by
  unfold nwaDecode
  rw [Int.natCast_mul, bps_div hbps, Int.mul_tdiv_cancel _ (by have := byps_pos info; omega), Int.toNat_natCast]

/-! ## Block by block -/

/-- In front of sample `i` the decoder has the last samples of the channels, modulo the width of a sample. -/
structure Tracks (info : NwaInfo) (first : Nat → Int) (es : List Element) (i : Nat) (p : Predictor) : Prop where
  flip : p.flip = decide (i % info.channels = 1)
  d0 : p.d0 ≡ predictors first info.channels es i 0 [ZMOD 2 ^ info.bps]
  d1 : info.channels = 2 → p.d1 ≡ predictors first info.channels es i 1 [ZMOD 2 ^ info.bps]

theorem tracks_firstSamples {m : Nat → UInt8} {block : List UInt8} (hm : Starts m block)
    (h : info.streamStart ≤ block.length) (es : List Element) :
    Tracks info (rawSample info block) es 0 (firstSamples info m) := by
  have hone : info.byps ≤ info.streamStart ∧ (info.channels = 2 → 2 * info.byps ≤ info.streamStart) := by
    unfold NwaInfo.streamStart
    split <;> omega
  refine ⟨by simp [firstSamples], ?_, fun h2 => ?_⟩
  · have := firstSample_modEq hbps hm (c := 0) (by omega)
    rwa [Nat.zero_mul] at this
  · have := firstSample_modEq hbps hm (c := 1) (by have := hone.2 h2; omega)
    rw [Nat.one_mul] at this
    unfold firstSamples
    rwa [if_pos h2]

variable (hch : info.channels = 1 ∨ info.channels = 2) {first : Nat → Int} {es : List Element} {i : Nat} {p : Predictor}
include hch

omit hbps in
theorem Tracks.cur (hp : Tracks info first es i p) :
    p.cur ≡ predictors first info.channels es i (i % info.channels) [ZMOD 2 ^ info.bps] := by
  unfold Predictor.cur
  rw [hp.flip]
  by_cases h1 : i % info.channels = 1
  · rw [decide_eq_true h1, if_pos rfl, h1]
    exact hp.d1 (by rcases hch with h | h <;> rw [h] at h1 ⊢; omega)
  · rw [decide_eq_false h1, if_neg Bool.false_ne_true, show i % info.channels = 0 by
      rcases hch with h | h <;> rw [h] at h1 ⊢ <;> omega]
    exact hp.d0

omit hbps in
/-- A sample and the turn to the next channel. -/
theorem Tracks.next {e : Element} {x : Int} (hp : Tracks info first es i p) (he : es[i]? = some e)
    (hx : x ≡ e.apply p.cur [ZMOD 2 ^ info.bps]) (r : Nat) :
    Predictor.cur { p.setCur x with runlength := r } ≡ reference first info.channels es i [ZMOD 2 ^ info.bps] ∧
      Tracks info first es (i + 1) (Predictor.next info { p.setCur x with runlength := r }) := by
  have href : x ≡ reference first info.channels es i [ZMOD 2 ^ info.bps] := by
    rw [reference, predictors, if_pos rfl, he]
    exact hx.trans (e.apply_modEq (hp.cur hch))
  have hflip := hp.flip
  have hkeep : ∀ c, i % info.channels ≠ c →
      predictors first info.channels es (i + 1) c = predictors first info.channels es i c := fun c hc => if_neg hc
  by_cases h1 : i % info.channels = 1
  · -- the second channel of two
    have h2 : info.channels = 2 := by rcases hch with h | h <;> rw [h] at h1 ⊢; omega
    rw [decide_eq_true h1] at hflip
    rw [reference, h1] at href
    simp only [Predictor.setCur, Predictor.cur, Predictor.next, hflip, h2, if_true]
    rw [reference, ← h2, h1]
    refine ⟨href, ?_, ?_, fun _ => href⟩
    · rw [h2] at h1 ⊢
      exact (decide_eq_false (by omega)).symm
    · rw [hkeep 0 (by omega)]
      exact hp.d0
  · have h0 : i % info.channels = 0 := by rcases hch with h | h <;> rw [h] at h1 ⊢ <;> omega
    rw [decide_eq_false h1] at hflip
    rw [reference, h0] at href
    simp only [Predictor.setCur, Predictor.cur, Predictor.next, hflip, if_false, Bool.false_eq_true]
    rw [reference, h0]
    rcases hch with h | h
    · rw [if_neg (by omega)]
      refine ⟨href, ?_, href, fun h2 => by omega⟩
      rw [h]
      exact (decide_eq_false (by omega)).symm
    · rw [if_pos h]
      refine ⟨href, ?_, href, fun h2 => ?_⟩
      · rw [h] at h0 ⊢
        exact (decide_eq_true (by omega)).symm
      · rw [hkeep 1 h1]
        exact hp.d1 h2

/-- The samples from sample `i` on. -/
theorem takeSamples_left : ∀ {n i : Nat} {l : List Bool} {p : Predictor} {tokens : List Token},
    Left info l p.runlength (es.drop i) tokens → Tracks info first es i p → i + n ≤ es.length →
      takeSamples info n l p =
        some ((List.range' i n).flatMap fun j => sampleBytes info.bps (reference first info.channels es j))
  | 0, _, _, _, _, _, _, _ => rfl
  | n + 1, i, l, p, tokens, hl, hp, hn => by
    rw [List.drop_eq_getElem_cons (by omega)] at hl
    obtain ⟨l', x, r, tokens', hsample, hx, hl'⟩ := takeSample_left hbps hl
    obtain ⟨hcur, hnext⟩ := hp.next hch (List.getElem?_eq_getElem (by omega)) hx r
    have hleft : Left info l' (Predictor.next info { p.setCur x with runlength := r }).runlength
        (es.drop (i + 1)) tokens' := by
      rw [next_runlength]
      exact hl'
    have hrest := takeSamples_left (n := n) hleft hnext (by omega)
    rw [takeSamples, hsample]
    simp only [Option.bind_eq_bind, Option.bind_some, hrest, Option.pure_def]
    rw [List.range'_succ, List.flatMap_cons, emit_eq hbps hcur]

end Depth

/-- A block that has tokens for the samples that are asked for: as many samples are written, and each is the
one that its element makes of the last sample of its channel, modulo the width of a sample. -/
theorem nwaDecode_reference {info : NwaInfo} (hch : info.channels = 1 ∨ info.channels = 2)
    (hbps : info.bps = 8 ∨ info.bps = 16) (hl : info.compLevel ≤ 5) {m : Nat → UInt8} {block : List UInt8}
    (hm : Starts m block) {datasize outdatasize : Int} (hd : block.length ≤ datasize) {tokens : List Token}
    (ht : Tells info block (outdatasize.tdiv (info.bps / 8 : Nat)).toNat tokens) :
    (nwaDecode info m datasize outdatasize).length = (outdatasize.tdiv (info.bps / 8 : Nat)).toNat * (info.bps / 8) ∧
      nwaDecode info m datasize outdatasize =
        (List.range (outdatasize.tdiv (info.bps / 8 : Nat)).toNat).flatMap fun i =>
          sampleBytes info.bps (reference (rawSample info block) info.channels (tokens.flatMap Token.elements) i) := by
  obtain ⟨hstart, hstream, henough⟩ := ht
  rw [nwaDecode_samples hbps]
  generalize (outdatasize.tdiv (info.bps / 8 : Nat)).toNat = n at henough ⊢
  have htracks := tracks_firstSamples hbps (overlay_starts (fun _ => 0) block) hstart (tokens.flatMap Token.elements)
  have hsamples : blockSamples info block n = some ((List.range n).flatMap fun i =>
      sampleBytes info.bps (reference (rawSample info block) info.channels (tokens.flatMap Token.elements) i)) := by
    unfold blockSamples
    by_cases h0 : n = 0
    · rw [if_pos h0, h0]
      rfl
    · rw [if_neg h0, if_pos hstart, takeSamples_left hbps hch ⟨hstream, rfl⟩ htracks (by omega), List.range_eq_range']
  have hdecode := nwaDecode_eq hbps hl hm hsamples hd
  rw [hdecode, blockSamples_length hsamples, bps_div hbps]
  exact ⟨rfl, rfl⟩

/-- Stereo: a sample of each channel repeated, and then a difference. -/
theorem nwaDecode_reference_run :
    nwaDecode ⟨2, 16, 0, true⟩ (overlay (fun _ => 0) [5, 0, 7, 0, 88, 4]) 6 6 = le16 5 ++ le16 7 ++ le16 21 := by
  rw [(@nwaDecode_reference ⟨2, 16, 0, true⟩ (.inr rfl) (.inr rfl) (by decide) _ _
    (overlay_starts (fun _ => 0) [5, 0, 7, 0, 88, 4]) 6 6 (by decide) [.same 1, .add 16]
    ⟨by decide, by decide, by decide⟩).2]
  decide

end SiglusExtract.Nwa
