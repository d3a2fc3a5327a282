/-
`NWADecode` (nwa2wav.cpp): the samples of one block from its bit stream. Below it, what the stream says
read as a list of bits; the decoder, which looks at it through a 16-bit window and is told only where
the compressed data ends, writes the same samples wherever the bits suffice.
-/
import SiglusExtract.Lib.BitStream
import SiglusExtract.Lib.CInt
import SiglusExtract.Lib.FieldTree

namespace SiglusExtract.Nwa

open Bytes CInt BitStream FieldTree

/-- `NWAInfo`: what the decoder has to know of a file. -/
structure NwaInfo where
  channels : Nat
  bps : Nat
  compLevel : Nat
  useRunLength : Bool
  deriving DecidableEq, Repr

/-- `NWAInfo_sw2`. -/
def NwaInfo.sw2 : NwaInfo := ⟨2, 16, 2, false⟩

/-! ## Samples -/

/-- One code of a bit stream: a difference as it stands in the stream, with its width and its shift. -/
inductive Code
  | zero
  | diff (bits shift b : Nat)
  | run (n : Nat)
  deriving DecidableEq, Repr

/-- The last sample of each channel, the channel that is next, and how often its sample still repeats. -/
structure Predictor where
  d0 : Int
  d1 : Int
  flip : Bool
  runlength : Nat
  deriving DecidableEq, Repr

namespace Predictor

/-- `d[flip_flag]`. -/
def cur (p : Predictor) : Int := if p.flip then p.d1 else p.d0

def setCur (p : Predictor) (d : Int) : Predictor := if p.flip then { p with d1 := d } else { p with d0 := d }

/-- What a code does to the next sample. -/
def apply (p : Predictor) : Code → Predictor
  | .zero => p.setCur 0
  | .diff bits shift b =>
    let mask1 := 1 <<< (bits - 1)
    let mask2 := (1 <<< (bits - 1)) - 1
    if b &&& mask1 ≠ 0 then p.setCur (i32 (p.cur - ((b &&& mask2) <<< shift : Nat)))
    else p.setCur (i32 (p.cur + ((b &&& mask2) <<< shift : Nat)))
  | .run n => { p with runlength := n }

/-- The bytes of the next sample. -/
def emit (info : NwaInfo) (p : Predictor) : List UInt8 :=
  if info.bps = 8 then [UInt8.ofNat (u32 p.cur)] else le16 (u32 p.cur)

/-- After a sample is written: the other channel is next. -/
def next (info : NwaInfo) (p : Predictor) : Predictor := if info.channels = 2 then { p with flip := !p.flip } else p

end Predictor

/-- Width and shift of a large difference. -/
def NwaInfo.largeDiff (info : NwaInfo) : Nat × Nat :=
  if info.compLevel ≥ 3 then (8, 9) else (8 - info.compLevel, 2 + 7 + info.compLevel)

/-- Width and shift of a difference of type 1 to 6. -/
def NwaInfo.smallDiff (info : NwaInfo) (type : Nat) : Nat × Nat :=
  if info.compLevel ≥ 3 then (info.compLevel + 3, 1 + type) else (5 - info.compLevel, 2 + type + info.compLevel)

/-! ## The decoder -/

/-- Where the decoder stands in the compressed data. -/
structure Cursor where
  data : Nat
  shift : Nat
  deriving DecidableEq, Repr

/-- `getbits`. -/
def getbits (m : Nat → UInt8) (c : Cursor) (bits : Nat) : Nat × Cursor :=
  let c := if c.shift > 8 then ⟨c.data + 1, c.shift - 8⟩ else c
  ((shortAt m c.data >>> c.shift) &&& ((1 <<< bits) - 1), { c with shift := c.shift + bits })

/-- Successive calls of `getbits`: what they return, and the cursor behind them. -/
def getbitsRun (m : Nat → UInt8) : List Nat → Cursor → List Nat × Cursor
  | [], c => ([], c)
  | bits :: widths, c =>
    let (v, c) := getbits m c bits
    let (vs, c) := getbitsRun m widths c
    (v :: vs, c)

/-- The code at the cursor. -/
def readCode (info : NwaInfo) (m : Nat → UInt8) (c : Cursor) : Code × Cursor :=
  let (type, c) := getbits m c 3
  if type = 7 then
    let (unused, c) := getbits m c 1
    if unused = 1 then (.zero, c)
    else
      let (b, c) := getbits m c info.largeDiff.1
      (.diff info.largeDiff.1 info.largeDiff.2 b, c)
  else if type ≠ 0 then
    let (b, c) := getbits m c (info.smallDiff type).1
    (.diff (info.smallDiff type).1 (info.smallDiff type).2 b, c)
  else if info.useRunLength then
    let (runlength, c) := getbits m c 1
    if runlength = 1 then
      let (runlength, c) := getbits m c 2
      if runlength = 3 then
        let (runlength, c) := getbits m c 8
        (.run runlength, c)
      else (.run runlength, c)
    else (.run runlength, c)
  else (.run 0, c)

/-- One sample: inside a run nothing is read. -/
def readSample (info : NwaInfo) (m : Nat → UInt8) (c : Cursor) (p : Predictor) : Cursor × Predictor :=
  if p.runlength = 0 then
    let (code, c) := readCode info m c
    (c, p.apply code)
  else (c, { p with runlength := p.runlength - 1 })

/-- The loop of `NWADecode`: at most `n` samples, and none from the end of the compressed data on. -/
def decodeLoop (info : NwaInfo) (m : Nat → UInt8) (dataend : Int) : Nat → Cursor → Predictor → List UInt8
  | 0, _, _ => []
  | n + 1, c, p =>
    if c.data ≥ dataend then []
    else
      let (c, p) := readSample info m c p
      p.emit info ++ decodeLoop info m dataend n c (p.next info)

/-- The bytes of a sample. -/
def NwaInfo.byps (info : NwaInfo) : Nat := if info.bps = 8 then 1 else 2

/-- A first sample: a `char` or a `short` that is read unsigned. -/
def firstSample (info : NwaInfo) (m : Nat → UInt8) (p : Nat) : Int :=
  if info.bps = 8 then i8 (m p) else shortAt m p

/-- Where the bit stream starts, behind one sample a channel. -/
def NwaInfo.streamStart (info : NwaInfo) : Nat := if info.channels = 2 then 2 * info.byps else info.byps

/-- The samples in front of the bit stream; `d[1]` is used only where it is read. -/
def firstSamples (info : NwaInfo) (m : Nat → UInt8) : Predictor where
  d0 := firstSample info m 0
  d1 := if info.channels = 2 then firstSample info m info.byps else 0
  flip := false
  runlength := 0

/-- `NWADecode`: what is written to `outdata`. -/
def nwaDecode (info : NwaInfo) (m : Nat → UInt8) (datasize outdatasize : Int) : List UInt8 :=
  decodeLoop info m datasize (outdatasize.tdiv (info.bps / 8 : Nat)).toNat ⟨info.streamStart, 0⟩ (firstSamples info m)

/-! ## What the bits say -/

/-- The code at the front of a stream. -/
def takeCode (info : NwaInfo) (l : List Bool) : Option (Code × List Bool) := do
  let (type, l) ← takeBits 3 l
  if type = 7 then
    let (unused, l) ← takeBits 1 l
    if unused = 1 then return (.zero, l)
    let (b, l) ← takeBits info.largeDiff.1 l
    return (.diff info.largeDiff.1 info.largeDiff.2 b, l)
  if type ≠ 0 then
    let (b, l) ← takeBits (info.smallDiff type).1 l
    return (.diff (info.smallDiff type).1 (info.smallDiff type).2 b, l)
  if info.useRunLength then
    let (short, l) ← takeBits 1 l
    if short ≠ 1 then return (.run short, l)
    let (middle, l) ← takeBits 2 l
    if middle ≠ 3 then return (.run middle, l)
    let (long, l) ← takeBits 8 l
    return (.run long, l)
  return (.run 0, l)

/-- One sample of a stream. -/
def takeSample (info : NwaInfo) (l : List Bool) (p : Predictor) : Option (List Bool × Predictor) :=
  if p.runlength = 0 then (takeCode info l).map fun (code, l) => (l, p.apply code)
  else some (l, { p with runlength := p.runlength - 1 })

/-- `n` samples of a stream, `none` where it has not that many. -/
def takeSamples (info : NwaInfo) : Nat → List Bool → Predictor → Option (List UInt8)
  | 0, _, _ => some []
  | n + 1, l, p => do
    let (l, p) ← takeSample info l p
    let rest ← takeSamples info n l (p.next info)
    return p.emit info ++ rest

/-- A block holds the codes of `n` samples: what they are. Only its own bytes are looked at. -/
def blockSamples (info : NwaInfo) (block : List UInt8) (n : Nat) : Option (List UInt8) :=
  if n = 0 then some []
  else if info.streamStart ≤ block.length then
    takeSamples info n ((bits block).drop (8 * info.streamStart)) (firstSamples info (overlay (fun _ => 0) block))
  else none

/-- One sample more, and the rest behind it. -/
theorem sample_bind_eq_some {info : NwaInfo} {σ : Type} (x : Option (σ × Predictor))
    (rest : σ → Predictor → Option (List UInt8)) {out : List UInt8} :
    (x.bind fun r => (rest r.1 r.2).bind fun tail => some (r.2.emit info ++ tail)) = some out ↔
      ∃ s p tail, x = some (s, p) ∧ rest s p = some tail ∧ p.emit info ++ tail = out := by
  simp only [Option.bind_eq_some_iff, Option.some.injEq, Prod.exists]
  constructor
  · rintro ⟨s, p, hx, tail, htail, rfl⟩
    exact ⟨s, p, tail, hx, htail, rfl⟩
  · rintro ⟨s, p, tail, hx, htail, rfl⟩
    exact ⟨s, p, hx, tail, htail, rfl⟩

theorem takeSamples_succ {info : NwaInfo} {n : Nat} {l : List Bool} {p : Predictor} {out : List UInt8} :
    takeSamples info (n + 1) l p = some out ↔ ∃ l' p' rest, takeSample info l p = some (l', p') ∧
      takeSamples info n l' (p'.next info) = some rest ∧ p'.emit info ++ rest = out :=
  sample_bind_eq_some (takeSample info l p) fun l p => takeSamples info n l (p.next info)

/-! ## Codes as fields -/

/-- The fields of a code, as `NWADecode` asks for them. -/
def codeFields (info : NwaInfo) : FieldTree Code :=
  .field 3 fun type =>
    if type = 7 then
      .field 1 fun unused =>
        if unused = 1 then .done .zero
        else .field info.largeDiff.1 fun b => .done (.diff info.largeDiff.1 info.largeDiff.2 b)
    else if type ≠ 0 then
      .field (info.smallDiff type).1 fun b => .done (.diff (info.smallDiff type).1 (info.smallDiff type).2 b)
    else if info.useRunLength then
      .field 1 fun runlength =>
        if runlength = 1 then
          .field 2 fun runlength =>
            if runlength = 3 then .field 8 fun runlength => .done (.run runlength) else .done (.run runlength)
        else .done (.run runlength)
    else .done (.run 0)

theorem codeFields_takeBits (info : NwaInfo) (l : List Bool) : (codeFields info).run takeBits l = takeCode info l := by
  simp only [codeFields, takeCode, run_field, run_ite, run_done]
  refine Option.bind_congr fun ⟨type, l₁⟩ _ => ?_
  split
  · refine Option.bind_congr fun ⟨unused, l₂⟩ _ => ?_
    split <;> rfl
  · split
    · rfl
    · split
      · refine Option.bind_congr fun ⟨short, l₂⟩ _ => ?_
        simp only [ite_not]
        split
        · refine Option.bind_congr fun ⟨middle, l₃⟩ _ => ?_
          split <;> rfl
        · rfl
      · rfl

theorem codeFields_getbits (info : NwaInfo) (m : Nat → UInt8) (c : Cursor) :
    (codeFields info).run (fun bits c => some (getbits m c bits)) c = some (readCode info m c) := by
  simp only [codeFields, readCode, run_field, run_ite, run_done, Option.bind_some]
  split
  · split <;> rfl
  · split
    · rfl
    · split
      · split
        · split <;> rfl
        · rfl
      · rfl

/-! ## The bit reader -/

/-- The bit in front of which the cursor stands. -/
def Cursor.pos (c : Cursor) : Nat := 8 * c.data + c.shift

/-- One call: the byte pointer passes a byte first where the shift has passed it. -/
theorem getbits_eq (m : Nat → UInt8) {c : Cursor} (hs : c.shift ≤ 16) (n : Nat) :
    ∃ data shift, 8 * data + shift = c.pos ∧ shift ≤ 8 ∧
      getbits m c n = ((shortAt m data >>> shift) &&& ((1 <<< n) - 1), ⟨data, shift + n⟩) := by
  unfold getbits Cursor.pos
  by_cases h8 : c.shift > 8
  · exact ⟨c.data + 1, c.shift - 8, by omega, by omega, by simp only [if_pos h8]⟩
  · exact ⟨c.data, c.shift, rfl, by omega, by simp only [if_neg h8]⟩

theorem getbits_field (m : Nat → UInt8) {c : Cursor} (hs : c.shift ≤ 16) {n : Nat} (hn : n ≤ 8) :
    (getbits m c n).1 = field m c.pos n ∧ (getbits m c n).2.pos = c.pos + n ∧ (getbits m c n).2.shift ≤ 16 := by
  obtain ⟨data, shift, hpos, hle, hget⟩ := getbits_eq m hs n
  rw [hget, ← hpos, Cursor.pos]
  refine ⟨window_field m (by omega), ?_, ?_⟩
  · exact (Nat.add_assoc _ _ _).symm
  · show shift + n ≤ 16
    omega

theorem getbitsRun_fields (m : Nat → UInt8) : ∀ {widths : List Nat} {c : Cursor}, (∀ w ∈ widths, w ≤ 8) → c.shift ≤ 16 →
    (∀ k (hk : k < widths.length),
      (getbitsRun m widths c).1[k]? = some (field m (c.pos + (widths.take k).sum) widths[k])) ∧
      (getbitsRun m widths c).2.shift ≤ 16
  | [], _, _, hs => ⟨nofun, hs⟩
  | w :: widths, c, hw, hs => by
    rw [List.forall_mem_cons] at hw
    obtain ⟨hval, hpos, hs'⟩ := getbits_field m hs hw.1
    obtain ⟨hfields, hshift⟩ := getbitsRun_fields m hw.2 hs'
    refine ⟨fun k hk => ?_, hshift⟩
    cases k with
    | zero => exact congrArg some hval
    | succ k =>
      have hk' := hfields k (Nat.lt_of_succ_lt_succ hk)
      rw [hpos, Nat.add_assoc] at hk'
      exact hk'

/-- `getbits` from the shift 0 on, for widths of 1 to 8: the `k`-th call returns the bits of the stream behind those of
the calls before it, least significant first, and the shift is at most 16 between the calls. -/
theorem getbits_lsbFirst (m : Nat → UInt8) (data : Nat) {widths : List Nat} (hw : ∀ w ∈ widths, 1 ≤ w ∧ w ≤ 8) :
    (∀ k (hk : k < widths.length), (getbitsRun m widths ⟨data, 0⟩).1[k]? =
        some (field m (8 * data + (widths.take k).sum) widths[k])) ∧
      ∀ k, (getbitsRun m (widths.take k) ⟨data, 0⟩).2.shift ≤ 16 := by
  constructor
  · exact (getbitsRun_fields m (fun w hmem => (hw w hmem).2) (Nat.zero_le _)).1
  · intro k
    exact (getbitsRun_fields m (fun w hmem => (hw w (List.mem_of_mem_take hmem)).2) (Nat.zero_le _)).2

/-- Widths that end on both sides of a byte. -/
theorem getbits_lsbFirst_widths :
    (∀ k (hk : k < [8, 8, 3].length), (getbitsRun (fun i => UInt8.ofNat (i + 1)) [8, 8, 3] ⟨0, 0⟩).1[k]? =
        some (field (fun i => UInt8.ofNat (i + 1)) (8 * 0 + ([8, 8, 3].take k).sum) [8, 8, 3][k])) ∧
      ∀ k, (getbitsRun (fun i => UInt8.ofNat (i + 1)) ([8, 8, 3].take k) ⟨0, 0⟩).2.shift ≤ 16 :=
  getbits_lsbFirst (fun i => UInt8.ofNat (i + 1)) 0 (by decide)

/-! ## The decoder finds what the bits say -/

/-- The cursor stands in front of the rest `l` of the bits of a block. -/
structure Cursor.At (c : Cursor) (block : List UInt8) (l : List Bool) : Prop where
  rest : l = (bits block).drop (8 * c.data + c.shift)
  inside : 8 * c.data + c.shift ≤ 8 * block.length
  shift_le : c.shift ≤ 16

theorem largeDiff_width (info : NwaInfo) : 0 < info.largeDiff.1 ∧ info.largeDiff.1 ≤ 8 := by
  unfold NwaInfo.largeDiff
  split <;> simp only <;> omega

theorem smallDiff_width {info : NwaInfo} (hl : info.compLevel ≤ 5) (type : Nat) :
    0 < (info.smallDiff type).1 ∧ (info.smallDiff type).1 ≤ 8 := by
  unfold NwaInfo.smallDiff
  split <;> simp only <;> omega

theorem codeFields_widths {info : NwaInfo} (hl : info.compLevel ≤ 5) :
    (codeFields info).Widths fun n => 0 < n ∧ n ≤ 8 := by
  refine ⟨by decide, fun type => .ite ⟨by decide, fun unused => .ite trivial ?_⟩ (.ite ?_ (.ite ?_ trivial))⟩
  · exact ⟨largeDiff_width info, fun _ => trivial⟩
  · exact ⟨smallDiff_width hl type, fun _ => trivial⟩
  · refine ⟨by decide, fun short => .ite ⟨by decide, fun middle => .ite ?_ trivial⟩ trivial⟩
    exact ⟨by decide, fun _ => trivial⟩

theorem takeCode_length {info : NwaInfo} {l l' : List Bool} {code : Code} (h : takeCode info l = some (code, l')) :
    3 ≤ l.length := by
  unfold takeCode at h
  simp only [Option.bind_eq_bind, Option.bind_eq_some_iff] at h
  obtain ⟨⟨type, l₁⟩, h₁, -⟩ := h
  exact (takeBits_eq_some h₁).1

section Reader

variable {m : Nat → UInt8} {block : List UInt8} (hm : Starts m block)
include hm

theorem getbits_at {c : Cursor} {l l' : List Bool} (hc : c.At block l) {n v : Nat} (h0 : 0 < n) (hn : n ≤ 8)
    (h : takeBits n l = some (v, l')) : ∃ c', getbits m c n = (v, c') ∧ c'.At block l' ∧ 0 < c'.shift := by
  obtain ⟨rfl, hin, hs⟩ := hc
  obtain ⟨hlen, rfl, rfl⟩ := takeBits_eq_some h
  rw [List.length_drop, bits_length] at hlen
  obtain ⟨data, shift, hpos, hle, hget⟩ := getbits_eq m hs n
  have hval := (getbits_field m hs hn).1
  rw [Cursor.pos] at hpos hval
  rw [hget, field_starts hm (by omega)] at hval
  refine ⟨⟨data, shift + n⟩, hget.trans (congrArg (·, _) hval), ⟨?_, ?_, ?_⟩,
    Nat.lt_of_lt_of_le h0 (Nat.le_add_left n shift)⟩
  · rw [List.drop_drop, ← hpos, Nat.add_assoc]
  · show 8 * data + (shift + n) ≤ _
    omega
  · show shift + n ≤ 16
    omega

theorem readCode_at {info : NwaInfo} (hl : info.compLevel ≤ 5) {c : Cursor} {l l' : List Bool}
    (hc : c.At block l) {code : Code} (h : takeCode info l = some (code, l')) :
    ∃ c', readCode info m c = (code, c') ∧ c'.At block l' ∧ 0 < c'.shift := by
  have hsim : Simulates (fun n => 0 < n ∧ n ≤ 8) (fun l c => Cursor.At c block l ∧ 0 < c.shift) takeBits
      fun n c => some (getbits m c n) := by
    rintro n l c v l' ⟨h0, hn⟩ ⟨hc, -⟩ h
    obtain ⟨c', e, hc'⟩ := getbits_at hm hc h0 hn h
    exact ⟨c', congrArg some e, hc'⟩
  -- every code starts with a type of three bits, and behind it the cursor has moved
  rw [← codeFields_takeBits, codeFields, run_field, Option.bind_eq_some_iff] at h
  obtain ⟨⟨type, l₁⟩, h₁, h⟩ := h
  obtain ⟨c₁, e₁, hc₁⟩ := getbits_at hm hc (by decide) (by decide) h₁
  obtain ⟨c', hrun, hc'⟩ := hsim.run ((codeFields_widths hl).2 type) hc₁ h
  have hcode := codeFields_getbits info m c
  rw [codeFields, run_field, Option.bind_some, e₁, hrun] at hcode
  exact ⟨c', (Option.some.inj hcode).symm, hc'⟩

/-- A sample: the compressed data has not ended in front of it, whether it needs a code or is repeated. -/
theorem readSample_at {info : NwaInfo} (hl : info.compLevel ≤ 5) {c : Cursor} {l l' : List Bool}
    (hc : c.At block l) {p p' : Predictor} (hrun : p.runlength ≠ 0 → 0 < c.shift)
    (h : takeSample info l p = some (l', p')) :
    c.data < block.length ∧ ∃ c', readSample info m c p = (c', p') ∧ c'.At block l' ∧ 0 < c'.shift := by
  unfold takeSample at h
  unfold readSample
  by_cases h0 : p.runlength = 0
  · simp only [if_pos h0, Option.map_eq_some_iff, Prod.mk.injEq] at h ⊢
    obtain ⟨⟨code, l₁⟩, h₁, rfl, rfl⟩ := h
    have hlen := takeCode_length h₁
    rw [hc.rest, List.length_drop, bits_length] at hlen
    obtain ⟨c', e, hc', hs⟩ := readCode_at hm hl hc h₁
    exact ⟨by omega, c', by simp only [e, and_self], hc', hs⟩
  · simp only [if_neg h0, Option.some.injEq, Prod.mk.injEq] at h ⊢
    obtain ⟨rfl, rfl⟩ := h
    -- a repeated sample takes no bits, but the cursor has moved since the block began
    have hs := hrun h0
    have := hc.inside
    exact ⟨by omega, c, ⟨rfl, rfl⟩, hc, hs⟩

theorem decodeLoop_at {info : NwaInfo} (hl : info.compLevel ≤ 5) {dataend : Int} (hend : block.length ≤ dataend) :
    ∀ {n : Nat} {c : Cursor} {l : List Bool} {p : Predictor} {out : List UInt8}, c.At block l →
      (p.runlength ≠ 0 → 0 < c.shift) → takeSamples info n l p = some out →
      decodeLoop info m dataend n c p = out
  | 0, c, l, p, out, _, _, h => Option.some.inj h
  | n + 1, c, l, p, out, hc, hrun, h => by
    obtain ⟨l', p', rest, h₁, h₂, rfl⟩ := takeSamples_succ.1 h
    obtain ⟨hlt, c', e, hc', hs⟩ := readSample_at hm hl hc hrun h₁
    rw [decodeLoop, if_neg (by omega), e]
    exact congrArg _ (decodeLoop_at hl hend hc' (fun _ => hs) h₂)

theorem firstSamples_starts {info : NwaInfo} {m' : Nat → UInt8} (hm' : Starts m' block)
    (h : info.streamStart ≤ block.length) : firstSamples info m = firstSamples info m' := by
  have hfirst : ∀ p, p + info.byps ≤ block.length → firstSample info m p = firstSample info m' p := by
    intro p hp
    unfold firstSample
    unfold NwaInfo.byps at hp
    split at hp
    · next h8 => rw [if_pos h8, if_pos h8, hm p (by omega), hm' p (by omega)]
    · next h8 =>
      rw [if_neg h8, if_neg h8, shortAt, shortAt, hm p (by omega), hm (p + 1) (by omega), hm' p (by omega),
        hm' (p + 1) (by omega)]
  unfold NwaInfo.streamStart at h
  unfold firstSamples
  split at h
  · next h2 => rw [if_pos h2, if_pos h2, hfirst 0 (by omega), hfirst info.byps (by omega)]
  · next h2 => rw [if_neg h2, if_neg h2, hfirst 0 (by omega)]

end Reader

theorem byps_pos (info : NwaInfo) : 0 < info.byps := by
  unfold NwaInfo.byps
  split <;> decide

@[simp] theorem emit_length (info : NwaInfo) (p : Predictor) : (p.emit info).length = info.byps := by
  unfold Predictor.emit NwaInfo.byps
  split <;> rfl

theorem decodeLoop_length_le (info : NwaInfo) (m : Nat → UInt8) (dataend : Int) :
    ∀ (n : Nat) (c : Cursor) (p : Predictor), (decodeLoop info m dataend n c p).length ≤ n * info.byps
  | 0, _, _ => Nat.zero_le _
  | n + 1, c, p => by
    rw [decodeLoop]
    split
    · exact Nat.zero_le _
    · rw [List.length_append, emit_length, Nat.succ_mul, Nat.add_comm]
      exact Nat.add_le_add_right (decodeLoop_length_le info m dataend n _ _) _

theorem readCode_pos {info : NwaInfo} (hl : info.compLevel ≤ 5) (m : Nat → UInt8) {c : Cursor} (hs : c.shift ≤ 16) :
    (readCode info m c).2.pos ≤ c.pos + 14 ∧ (readCode info m c).2.shift ≤ 16 := by
  have hlarge := (largeDiff_width info).2
  have hsmall := fun type => (smallDiff_width hl type).2
  obtain ⟨-, hpos, hshift⟩ := getbits_field m hs (show 3 ≤ 8 by decide)
  obtain ⟨-, hpos₁, hshift₁⟩ := getbits_field m hshift (show 1 ≤ 8 by decide)
  obtain ⟨-, hpos₂, hshift₂⟩ := getbits_field m hshift₁ (show 2 ≤ 8 by decide)
  obtain ⟨-, hposL, hshiftL⟩ := getbits_field m hshift₁ hlarge
  obtain ⟨-, hposS, hshiftS⟩ := getbits_field m hshift (hsmall (getbits m c 3).1)
  obtain ⟨-, hpos₈, hshift₈⟩ := getbits_field m hshift₂ (show 8 ≤ 8 by decide)
  have := hsmall (getbits m c 3).1
  unfold readCode
  dsimp only
  split
  · split <;> dsimp only <;> omega
  · split
    · dsimp only
      omega
    · split
      · split
        · split <;> dsimp only <;> omega
        · dsimp only
          omega
      · dsimp only
        omega

theorem decodeLoop_length_ge {info : NwaInfo} (hl : info.compLevel ≤ 5) (m : Nat → UInt8) (dataend : Int) :
    ∀ {n k : Nat} {c : Cursor} {p : Predictor}, c.shift ≤ 16 → k ≤ n → c.pos + 14 * k ≤ 8 * dataend →
      k * info.byps ≤ (decodeLoop info m dataend n c p).length
  | n, 0, c, p, _, _, _ => by simp
  | n + 1, k + 1, c, p, hs, hk, hroom => by
    have hread : (readSample info m c p).1.pos ≤ c.pos + 14 ∧ (readSample info m c p).1.shift ≤ 16 := by
      unfold readSample
      split
      · exact readCode_pos hl m hs
      · exact ⟨Nat.le_add_right _ _, hs⟩
    have hlt : ¬ c.data ≥ dataend := by
      unfold Cursor.pos at hroom
      omega
    rw [decodeLoop, if_neg hlt, List.length_append, emit_length, Nat.succ_mul, Nat.add_comm]
    exact Nat.add_le_add_left (decodeLoop_length_ge hl m dataend hread.2 (by omega) (by omega)) _

theorem takeSamples_length (info : NwaInfo) : ∀ {n : Nat} {l : List Bool} {p : Predictor} {out : List UInt8},
    takeSamples info n l p = some out → out.length = n * info.byps
  | 0, l, p, out, h => by
    rw [← Option.some.inj h, Nat.zero_mul, List.length_nil]
  | n + 1, l, p, out, h => by
    obtain ⟨l', p', rest, -, h₂, rfl⟩ := takeSamples_succ.1 h
    rw [List.length_append, emit_length, takeSamples_length info h₂, Nat.succ_mul, Nat.add_comm]

theorem blockSamples_length {info : NwaInfo} {block : List UInt8} {n : Nat} {out : List UInt8}
    (h : blockSamples info block n = some out) : out.length = n * info.byps := by
  unfold blockSamples at h
  split at h
  · next h0 => rw [← Option.some.inj h, h0, Nat.zero_mul, List.length_nil]
  · split at h
    · exact takeSamples_length info h
    · cases h

/-- A block with a sample is not empty. -/
theorem blockSamples_pos {info : NwaInfo} {block : List UInt8} {n : Nat} {out : List UInt8}
    (h : blockSamples info block n = some out) (hn : n ≠ 0) : 0 < block.length := by
  unfold blockSamples at h
  rw [if_neg hn] at h
  split at h
  · next hlen =>
    have : 0 < info.streamStart := by
      have := byps_pos info
      unfold NwaInfo.streamStart
      split <;> omega
    omega
  · cases h

section Depth

variable {info : NwaInfo} (hbps : info.bps = 8 ∨ info.bps = 16)
include hbps

theorem bps_div : info.bps / 8 = info.byps := by
  unfold NwaInfo.byps
  rcases hbps with h | h <;> simp [h]

/-- The decoder never writes past the bytes it is asked for. -/
theorem nwaDecode_length_le (m : Nat → UInt8) (datasize outdatasize : Int) :
    ((nwaDecode info m datasize outdatasize).length : Int) ≤ max 0 outdatasize := by
  have h := decodeLoop_length_le info m datasize (outdatasize.tdiv (info.bps / 8 : Nat)).toNat
    ⟨info.streamStart, 0⟩ (firstSamples info m)
  unfold nwaDecode
  rw [bps_div hbps] at h ⊢
  rcases Int.le_total 0 outdatasize with h0 | h0
  · rw [Int.tdiv_eq_ediv_of_nonneg h0] at h ⊢
    obtain ⟨k, rfl⟩ := Int.eq_ofNat_of_zero_le h0
    rw [← Int.natCast_ediv, Int.toNat_natCast] at h ⊢
    have := Nat.div_mul_le_self k info.byps
    omega
  · have : outdatasize.tdiv info.byps ≤ 0 := by
      rw [← Int.neg_neg outdatasize, Int.neg_tdiv]
      exact Int.neg_nonpos_of_nonneg (Int.tdiv_nonneg (by omega) (Int.natCast_nonneg _))
    rw [Int.toNat_of_nonpos this] at h ⊢
    omega

/-- A sample takes 14 bits at most, so that many samples are written before the compressed data ends. -/
theorem nwaDecode_length_ge (hl : info.compLevel ≤ 5) {m : Nat → UInt8} {n : Nat} {datasize outdatasize : Int}
    (hn : (n * info.byps : Nat) ≤ outdatasize) (hroom : 8 * info.streamStart + 14 * n ≤ 8 * datasize) :
    n * info.byps ≤ (nwaDecode info m datasize outdatasize).length := by
  refine decodeLoop_length_ge hl m datasize (Nat.zero_le _) ?_ (by simpa [Cursor.pos] using hroom)
  have hpos := byps_pos info
  rw [bps_div hbps, Int.tdiv_eq_ediv_of_nonneg (by omega)]
  have := Int.le_ediv_of_mul_le (show (0 : Int) < info.byps by omega) (Int.natCast_mul n info.byps ▸ hn)
  omega

/-- Where the bits of the block suffice, the decoder writes the samples they say, whatever lies behind the
block and however much further the compressed data is said to reach. -/
theorem nwaDecode_eq (hl : info.compLevel ≤ 5) {m : Nat → UInt8} {block : List UInt8} (hm : Starts m block)
    {n : Nat} {out : List UInt8} (h : blockSamples info block n = some out) {datasize : Int}
    (hd : block.length ≤ datasize) : nwaDecode info m datasize (n * info.byps : Nat) = out := by
  have hn : ((n * info.byps : Nat) : Int).tdiv (info.bps / 8 : Nat) = n := by
    rw [bps_div hbps, Int.natCast_mul, Int.mul_tdiv_cancel _ (by have := byps_pos info; omega)]
  unfold nwaDecode
  rw [hn, Int.toNat_natCast]
  unfold blockSamples at h
  split at h
  · next h0 =>
    subst h0
    exact Option.some.inj h
  · split at h
    · next hlen =>
      rw [firstSamples_starts hm (overlay_starts _ block) hlen]
      exact decodeLoop_at hm hl hd ⟨by rw [Nat.add_zero], by simp only; omega, Nat.zero_le _⟩ (fun h => absurd rfl h) h
    · cases h

end Depth

end SiglusExtract.Nwa
