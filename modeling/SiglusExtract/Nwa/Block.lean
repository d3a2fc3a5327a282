/-
What `NWADecode` reads of a block. Its test for the end looks at the byte pointer, which lags behind the bits, and
`getbits` reads two bytes wherever the bits of a field are: the decoder stays inside the block exactly where every field
that it reads starts with eight bits of the block left, the first with sixteen.
-/
import SiglusExtract.Nwa.Decode

namespace SiglusExtract.Nwa

open Bytes CInt BitStream FieldTree

/-! ## The decoder on memory of its own -/

/-- `getbits` moves the byte pointer first. -/
def Cursor.norm (c : Cursor) : Cursor := if c.shift > 8 then ⟨c.data + 1, c.shift - 8⟩ else c

/-- `getbits`, `none` where one of the two bytes may not be read. -/
def getbitsIn (m : Mem UInt8) : Reader Cursor := fun bits c =>
  (word m c.norm.data).map fun w =>
    ((w >>> c.norm.shift) &&& ((1 <<< bits) - 1), { c.norm with shift := c.norm.shift + bits })

/-- One sample by a reader of fields. -/
def sampleBy {σ : Type} (get : Reader σ) (info : NwaInfo) (s : σ) (p : Predictor) : Option (σ × Predictor) :=
  if p.runlength = 0 then ((codeFields info).run get s).map fun (code, s) => (s, p.apply code)
  else some (s, { p with runlength := p.runlength - 1 })

/-- `n` samples by a reader of fields. -/
def samplesBy {σ : Type} (get : Reader σ) (info : NwaInfo) : Nat → σ → Predictor → Option (List UInt8)
  | 0, _, _ => some []
  | n + 1, s, p => do
    let (s, p) ← sampleBy get info s p
    let rest ← samplesBy get info n s (p.next info)
    return p.emit info ++ rest

/-- The loop of `NWADecode`. -/
def decodeLoopIn (info : NwaInfo) (m : Mem UInt8) (dataend : Int) : Nat → Cursor → Predictor → Option (List UInt8)
  | 0, _, _ => some []
  | n + 1, c, p =>
    if c.data ≥ dataend then some []
    else do
      let (c, p) ← sampleBy (getbitsIn m) info c p
      let rest ← decodeLoopIn info m dataend n c (p.next info)
      return p.emit info ++ rest

def firstSampleIn (info : NwaInfo) (m : Mem UInt8) (p : Nat) : Option Int :=
  if info.bps = 8 then (m p).map i8 else (word m p).map Int.ofNat

def firstSamplesIn (info : NwaInfo) (m : Mem UInt8) : Option Predictor := do
  let d0 ← firstSampleIn info m 0
  let d1 ← (if info.channels = 2 then firstSampleIn info m info.byps else some 0)
  return ⟨d0, d1, false, 0⟩

/-- How many samples `NWADecode` is asked for. -/
def NwaInfo.dsize (info : NwaInfo) (outdatasize : Int) : Nat := (outdatasize.tdiv (info.bps / 8 : Nat)).toNat

/-- `NWADecode`, `none` where it reads what may not be read. -/
def nwaDecodeIn (info : NwaInfo) (m : Mem UInt8) (datasize outdatasize : Int) : Option (List UInt8) := do
  let p ← firstSamplesIn info m
  decodeLoopIn info m datasize (info.dsize outdatasize) ⟨info.streamStart, 0⟩ p

/-! ## What it should read -/

/-- At most `n` samples: those that the complete codes at the front of a stream tell. -/
def containedSamples (info : NwaInfo) : Nat → List Bool → Predictor → List UInt8
  | 0, _, _ => []
  | n + 1, l, p =>
    match takeSample info l p with
    | none => []
    | some (l, p) => p.emit info ++ containedSamples info n l (p.next info)

/-- The bits of a block behind its first samples. -/
def streamBits (info : NwaInfo) (block : List UInt8) : List Bool := (bits block).drop (8 * info.streamStart)

/-- The first samples of a block that has them. -/
def blockStart (info : NwaInfo) (block : List UInt8) : Predictor := firstSamples info (overlay (fun _ => 0) block)

/-- The bytes read are those of the block, and the samples written those that its complete codes tell. -/
def Contained (info : NwaInfo) (block : List UInt8) (outdatasize : Int) : Prop :=
  nwaDecodeIn info (Mem.ofList block) block.length outdatasize =
    some (containedSamples info (info.dsize outdatasize) (streamBits info block) (blockStart info block))

/-- A field that starts with at least eight bits left. -/
def takeRoomy : Reader (List Bool) := fun n l => if 8 ≤ l.length then takeBits n l else none

/-- The block has codes for the samples asked for: each field starts with eight bits left, the first with sixteen. -/
def Roomy (info : NwaInfo) (block : List UInt8) (outdatasize : Int) : Prop :=
  16 ≤ (streamBits info block).length ∧
    ∃ out, samplesBy takeRoomy info (info.dsize outdatasize) (streamBits info block) (blockStart info block) = some out

/-! ## Samples by readers -/

section Readers

variable {info : NwaInfo} {σ τ : Type} {get : Reader σ} {get' : Reader τ} {R : σ → τ → Prop}

theorem sampleBy_takeBits (l : List Bool) (p : Predictor) : sampleBy takeBits info l p = takeSample info l p := by
  rw [sampleBy, takeSample, codeFields_takeBits]

theorem sampleBy_getbits (m : Nat → UInt8) (c : Cursor) (p : Predictor) :
    sampleBy (fun bits c => some (getbits m c bits)) info c p = some (readSample info m c p) := by
  unfold sampleBy readSample
  rw [codeFields_getbits]
  split <;> rfl

/-- Readers that simulate one another tell the same sample. -/
theorem sampleBy_simulates (hl : info.compLevel ≤ 5) (h : Simulates (fun n => 0 < n ∧ n ≤ 8) R get get') {s s' : σ}
    {t : τ} (hR : R s t) {p p' : Predictor} (hs : sampleBy get info s p = some (s', p')) :
    ∃ t', sampleBy get' info t p = some (t', p') ∧ R s' t' := by
  unfold sampleBy at hs ⊢
  split at hs
  · next h0 =>
    obtain ⟨⟨code, s₁⟩, hrun, hs⟩ := Option.map_eq_some_iff.1 hs
    cases hs
    obtain ⟨t', hrun', hR'⟩ := h.run (codeFields_widths hl) hR hrun
    exact ⟨t', by rw [if_pos h0, hrun', Option.map_some], hR'⟩
  · next h0 =>
    cases hs
    exact ⟨t, by rw [if_neg h0], hR⟩

theorem samplesBy_succ {n : Nat} {s : σ} {p : Predictor} {out : List UInt8} :
    samplesBy get info (n + 1) s p = some out ↔ ∃ s' p' rest, sampleBy get info s p = some (s', p') ∧
      samplesBy get info n s' (p'.next info) = some rest ∧ p'.emit info ++ rest = out :=
  sample_bind_eq_some (sampleBy get info s p) fun s p => samplesBy get info n s (p.next info)

theorem samplesBy_simulates (hl : info.compLevel ≤ 5) (h : Simulates (fun n => 0 < n ∧ n ≤ 8) R get get') :
    ∀ {n : Nat} {s : σ} {t : τ} {p : Predictor} {out : List UInt8}, R s t → samplesBy get info n s p = some out →
      samplesBy get' info n t p = some out
  | 0, s, t, p, out, _, h₀ => h₀
  | n + 1, s, t, p, out, hR, h₀ => by
    obtain ⟨s', p', rest, hs, hrest, rfl⟩ := samplesBy_succ.1 h₀
    obtain ⟨t', hs', hR'⟩ := sampleBy_simulates hl h hR hs
    exact samplesBy_succ.2 ⟨t', p', rest, hs', samplesBy_simulates hl h hR' hrest, rfl⟩

theorem samplesBy_takeBits : ∀ (n : Nat) (l : List Bool) (p : Predictor),
    samplesBy takeBits info n l p = takeSamples info n l p
  | 0, _, _ => rfl
  | n + 1, l, p => by
    simp only [samplesBy, takeSamples, sampleBy_takeBits, samplesBy_takeBits n]

end Readers

/-- Complete codes for `n` samples are what a stream says of `n` samples. -/
theorem containedSamples_of_takeSamples {info : NwaInfo} :
    ∀ {n : Nat} {l : List Bool} {p : Predictor} {out : List UInt8},
    takeSamples info n l p = some out → containedSamples info n l p = out
  | 0, l, p, out, h => Option.some.inj h
  | n + 1, l, p, out, h => by
    obtain ⟨l', p', rest, hs, hrest, rfl⟩ := takeSamples_succ.1 h
    rw [containedSamples, hs]
    exact congrArg _ (containedSamples_of_takeSamples hrest)

/-! ## The same decoder -/

theorem getbitsIn_everywhere (m : Nat → UInt8) :
    getbitsIn (fun i => some (m i)) = fun bits c => some (getbits m c bits) := rfl

theorem decodeLoopIn_everywhere (info : NwaInfo) (m : Nat → UInt8) (dataend : Int) :
    ∀ (n : Nat) (c : Cursor) (p : Predictor),
    decodeLoopIn info (fun i => some (m i)) dataend n c p = some (decodeLoop info m dataend n c p)
  | 0, _, _ => rfl
  | n + 1, c, p => by
    rw [decodeLoopIn, decodeLoop, getbitsIn_everywhere, sampleBy_getbits]
    split
    · rfl
    · simp only [Option.bind_eq_bind, Option.bind_some, decodeLoopIn_everywhere info m dataend n]
      rfl

/-! ## The window and the block -/

section Window

variable {m : Nat → UInt8} {block : List UInt8} (hm : Starts m block)
include hm

/-- `getbits` touches the block only where the window at the moved pointer lies in it. -/
theorem getbitsIn_block (n : Nat) (c : Cursor) : getbitsIn (Mem.ofList block) n c =
    if c.norm.data + 1 < block.length then some (getbits m c n) else none := by
  unfold getbitsIn
  by_cases h : c.norm.data + 1 < block.length
  · have hword : word (Mem.ofList block) c.norm.data = some (shortAt m c.norm.data) := by
      rw [shortAt, hm _ h, hm _ (Nat.lt_of_succ_lt h)]
      exact word_eq (List.getElem?_eq_getElem _) (List.getElem?_eq_getElem _)
    rw [if_pos h, hword]
    rfl
  · have hhi : Mem.ofList block (c.norm.data + 1) = none := List.getElem?_eq_none (Nat.not_lt.1 h)
    rw [if_neg h, word, hhi]
    cases Mem.ofList block c.norm.data <;> rfl

omit hm in
/-- The window lies in the block where eight bits are left, and sixteen at a shift of 0. -/
theorem Cursor.At.norm_lt_iff {c : Cursor} {l : List Bool} (hc : c.At block l) :
    c.norm.data + 1 < block.length ↔ 8 ≤ l.length ∧ (c.shift = 0 → 16 ≤ l.length) := by
  obtain ⟨rfl, hin, hs⟩ := hc
  rw [List.length_drop, bits_length]
  unfold Cursor.norm
  by_cases h8 : c.shift > 8
  · rw [if_pos h8]
    show c.data + 1 + 1 < _ ↔ _
    omega
  · rw [if_neg h8]
    omega

/-- Between the fields of a block whose stream is not empty. -/
structure Cursor.Among (c : Cursor) (block : List UInt8) (l : List Bool) : Prop where
  at_rest : c.At block l
  data_lt : c.data < block.length

omit hm in
theorem Cursor.At.among {c : Cursor} {l : List Bool} (hc : c.At block l) (hs : 0 < c.shift) : c.Among block l := by
  have := hc.inside
  exact ⟨hc, by omega⟩

/-- What is read inside the block starts with eight bits left. -/
theorem getbitsIn_takeRoomy :
    Simulates (fun n => 0 < n ∧ n ≤ 8) (Cursor.Among · block ·) (getbitsIn (Mem.ofList block)) takeRoomy := by
  intro n c l v c' hn hc h
  rw [getbitsIn_block hm] at h
  split at h
  · next hlt =>
    obtain ⟨h8, -⟩ := hc.at_rest.norm_lt_iff.1 hlt
    have htake : takeBits n l = some (value (l.take n), l.drop n) := if_pos (Nat.le_trans hn.2 h8)
    obtain ⟨c₁, hget, hc₁, hs⟩ := getbits_at hm hc.at_rest hn.1 hn.2 htake
    rw [hget] at h
    cases h
    exact ⟨l.drop n, by rw [takeRoomy, if_pos h8, htake], hc₁.among hs⟩
  · cases h

/-- Conversely, where the first field has its sixteen bits. -/
theorem takeRoomy_getbitsIn : Simulates (fun n => 0 < n ∧ n ≤ 8)
    (fun l c => Cursor.Among c block l ∧ (c.shift = 0 → 16 ≤ l.length)) takeRoomy (getbitsIn (Mem.ofList block)) := by
  rintro n l c v l' hn ⟨hc, h16⟩ h
  rw [takeRoomy] at h
  split at h
  · next h8 =>
    obtain ⟨c', hget, hc', hs⟩ := getbits_at hm hc.at_rest hn.1 hn.2 h
    refine ⟨c', ?_, hc'.among hs, fun h0 => absurd h0 (Nat.ne_of_gt hs)⟩
    rw [getbitsIn_block hm, if_pos (hc.at_rest.norm_lt_iff.2 ⟨h8, h16⟩), hget]
  · cases h

/-- What is read inside the block is read in any memory that starts with it. -/
theorem getbitsIn_getbits {W : Nat → Prop} :
    Simulates W Eq (getbitsIn (Mem.ofList block)) (getbitsIn fun i => some (m i)) := by
  rintro n c _ v c' - rfl h
  rw [getbitsIn_block hm] at h
  split at h
  · exact ⟨c', h, rfl⟩
  · cases h

end Window

theorem takeRoomy_takeBits {W : Nat → Prop} : Simulates W Eq takeRoomy takeBits := by
  rintro n l _ v l' - rfl h
  rw [takeRoomy] at h
  split at h
  · exact ⟨l', h, rfl⟩
  · cases h

/-! ## The loop -/

section Loop

variable {info : NwaInfo} (hl : info.compLevel ≤ 5) {block : List UInt8}

theorem decodeLoopIn_succ {mem : Mem UInt8} {dataend : Int} {n : Nat} {c : Cursor} (hc : c.data < dataend)
    {p : Predictor} {out : List UInt8} : decodeLoopIn info mem dataend (n + 1) c p = some out ↔
      ∃ c' p' rest, sampleBy (getbitsIn mem) info c p = some (c', p') ∧
        decodeLoopIn info mem dataend n c' (p'.next info) = some rest ∧ p'.emit info ++ rest = out := by
  rw [decodeLoopIn, if_neg (Int.not_le.2 hc)]
  exact sample_bind_eq_some (sampleBy (getbitsIn mem) info c p) fun c p =>
    decodeLoopIn info mem dataend n c (p.next info)

include hl

/-- A loop that stays inside the block is the loop on any memory that starts with it. -/
theorem decodeLoop_of_decodeLoopIn {m : Nat → UInt8} (hm : Starts m block) {dataend : Int} : ∀ {n : Nat} {c : Cursor}
    {p : Predictor} {out : List UInt8}, decodeLoopIn info (Mem.ofList block) dataend n c p = some out →
    decodeLoopIn info (fun i => some (m i)) dataend n c p = some out
  | 0, c, p, out, h => h
  | n + 1, c, p, out, h => by
    rcases Int.lt_or_le c.data dataend with hc | hc
    · obtain ⟨c', p', rest, hs, hrest, rfl⟩ := (decodeLoopIn_succ hc).1 h
      obtain ⟨_, hs', rfl⟩ := sampleBy_simulates hl (getbitsIn_getbits hm) rfl hs
      exact (decodeLoopIn_succ hc).2 ⟨c', p', rest, hs', decodeLoop_of_decodeLoopIn hm hrest, rfl⟩
    · rw [decodeLoopIn, if_pos hc] at h ⊢
      exact h

/-- Once the stream has begun the test for its end never ends the loop: a loop that stays inside the block finds roomy
codes for all its samples. -/
theorem roomy_of_decodeLoopIn : ∀ {n : Nat} {c : Cursor} {l : List Bool} {p : Predictor} {out : List UInt8},
    c.Among block l → decodeLoopIn info (Mem.ofList block) block.length n c p = some out →
    samplesBy takeRoomy info n l p = some out
  | 0, c, l, p, out, _, h => h
  | n + 1, c, l, p, out, hc, h => by
    obtain ⟨c', p', rest, hs, hrest, rfl⟩ := (decodeLoopIn_succ (Int.ofNat_lt.2 hc.data_lt)).1 h
    obtain ⟨l', hs', hc'⟩ := sampleBy_simulates hl (getbitsIn_takeRoomy (overlay_starts (fun _ => 0) block)) hc hs
    exact samplesBy_succ.2 ⟨l', p', rest, hs', roomy_of_decodeLoopIn hc' hrest, rfl⟩

theorem decodeLoopIn_of_roomy : ∀ {n : Nat} {c : Cursor} {l : List Bool} {p : Predictor} {out : List UInt8},
    c.Among block l → (c.shift = 0 → 16 ≤ l.length) → samplesBy takeRoomy info n l p = some out →
    decodeLoopIn info (Mem.ofList block) block.length n c p = some out
  | 0, c, l, p, out, _, _, h => h
  | n + 1, c, l, p, out, hc, h16, h => by
    obtain ⟨l', p', rest, hs, hrest, rfl⟩ := samplesBy_succ.1 h
    obtain ⟨c', hs', hc', h16'⟩ :=
      sampleBy_simulates hl (takeRoomy_getbitsIn (overlay_starts (fun _ => 0) block)) ⟨hc, h16⟩ hs
    exact (decodeLoopIn_succ (Int.ofNat_lt.2 hc.data_lt)).2
      ⟨c', p', rest, hs', decodeLoopIn_of_roomy hc' h16' hrest, rfl⟩

/-- Roomy codes are complete. -/
theorem containedSamples_of_roomy {n : Nat} {l : List Bool} {p : Predictor} {out : List UInt8}
    (h : samplesBy takeRoomy info n l p = some out) : containedSamples info n l p = out := by
  apply containedSamples_of_takeSamples
  rw [← samplesBy_takeBits]
  exact samplesBy_simulates hl takeRoomy_takeBits rfl h

omit hl in
/-- The first field of a stream is read in sixteen bits. -/
theorem decodeLoopIn_first {n : Nat} {c : Cursor} {l : List Bool} (hc : c.Among block l) (h0 : c.shift = 0)
    {p : Predictor} (hp : p.runlength = 0) {out : List UInt8}
    (h : decodeLoopIn info (Mem.ofList block) block.length (n + 1) c p = some out) : 16 ≤ l.length := by
  obtain ⟨c', p', rest, hs, -, -⟩ := (decodeLoopIn_succ (Int.ofNat_lt.2 hc.data_lt)).1 h
  rw [sampleBy, if_pos hp, Option.map_eq_some_iff] at hs
  obtain ⟨r, hrun, -⟩ := hs
  rw [codeFields, run_field, getbitsIn_block (overlay_starts (fun _ => 0) block)] at hrun
  split at hrun
  · next hlt => exact (hc.at_rest.norm_lt_iff.1 hlt).2 h0
  · cases hrun

end Loop

/-! ## The whole block -/

/-- The first samples are read inside a block that has them. -/
theorem firstSamplesIn_block {info : NwaInfo} {m : Nat → UInt8} {block : List UInt8} (hm : Starts m block)
    (h : info.streamStart ≤ block.length) : firstSamplesIn info (Mem.ofList block) = some (firstSamples info m) := by
  have hfirst : ∀ p, p + info.byps ≤ block.length →
      firstSampleIn info (Mem.ofList block) p = some (firstSample info m p) := by
    intro p hp
    unfold firstSampleIn firstSample
    unfold NwaInfo.byps at hp
    split at hp
    · next h8 =>
      have hb : Mem.ofList block p = some (m p) := by
        rw [hm p (by omega)]
        exact List.getElem?_eq_getElem _
      rw [if_pos h8, if_pos h8, hb, Option.map_some]
    · next h8 =>
      have hw : word (Mem.ofList block) p = some (shortAt m p) := by
        rw [shortAt, hm p (by omega), hm (p + 1) (by omega)]
        exact word_eq (List.getElem?_eq_getElem _) (List.getElem?_eq_getElem _)
      rw [if_neg h8, if_neg h8, hw]
      rfl
  unfold NwaInfo.streamStart at h
  unfold firstSamplesIn firstSamples
  split at h
  · next h2 =>
    rw [hfirst 0 (by omega), if_pos h2, if_pos h2, hfirst info.byps (by omega)]
    rfl
  · next h2 =>
    rw [hfirst 0 (by omega), if_neg h2, if_neg h2]
    rfl

theorem streamBits_length (info : NwaInfo) (block : List UInt8) :
    (streamBits info block).length = 8 * (block.length - info.streamStart) := by
  rw [streamBits, List.length_drop, bits_length, Nat.mul_sub]

/-- In front of a stream that is not empty. -/
theorem among_streamStart {info : NwaInfo} {block : List UInt8} (h : info.streamStart < block.length) :
    Cursor.Among ⟨info.streamStart, 0⟩ block (streamBits info block) :=
  ⟨⟨by rw [Nat.add_zero, streamBits], Nat.mul_le_mul_left 8 (Nat.le_of_lt h), Nat.zero_le _⟩, h⟩

/-- `NWADecode` on a block with its first samples reads inside it, and writes the samples of its complete codes, exactly
where no sample is asked for, nothing is behind the first ones, or the codes of all that are asked for are roomy. -/
theorem nwaDecodeIn_contained_iff {info : NwaInfo} (hl : info.compLevel ≤ 5) {block : List UInt8}
    (hlen : info.streamStart ≤ block.length) (outdatasize : Int) : Contained info block outdatasize ↔
      info.dsize outdatasize = 0 ∨ block.length = info.streamStart ∨ Roomy info block outdatasize := by
  have hfirst := firstSamplesIn_block (overlay_starts (fun _ => 0) block) hlen
  have hloop : nwaDecodeIn info (Mem.ofList block) block.length outdatasize = decodeLoopIn info (Mem.ofList block)
      block.length (info.dsize outdatasize) ⟨info.streamStart, 0⟩ (blockStart info block) := by
    rw [nwaDecodeIn, hfirst]
    rfl
  unfold Contained Roomy
  rw [hloop]
  cases hn : info.dsize outdatasize with
  | zero => exact iff_of_true rfl (.inl rfl)
  | succ n =>
    rw [or_iff_right (Nat.succ_ne_zero n)]
    rcases Nat.eq_or_lt_of_le hlen with heq | hlt
    · -- the one case in which the test for the end ends the loop
      refine iff_of_true ?_ (.inl heq.symm)
      have hnil : streamBits info block = [] := List.eq_nil_of_length_eq_zero (by rw [streamBits_length]; omega)
      have hcode : takeSample info [] (blockStart info block) = none := rfl
      rw [decodeLoopIn, if_pos (Int.ofNat_le.2 heq.ge), hnil, containedSamples, hcode]
    · rw [or_iff_right (Nat.ne_of_gt hlt)]
      have hc := among_streamStart hlt
      constructor
      · intro h
        exact ⟨decodeLoopIn_first hc rfl rfl h, _, roomy_of_decodeLoopIn hl hc h⟩
      · rintro ⟨h16, out, hout⟩
        rw [containedSamples_of_roomy hl hout]
        exact decodeLoopIn_of_roomy hl hc (fun _ => h16) hout

/-- A code of eight bits in front of another byte. -/
theorem nwaDecodeIn_contained_iff_spare : Contained ⟨1, 16, 0, false⟩ [0, 0, 9, 0] 2 :=
  (nwaDecodeIn_contained_iff (by decide) (by decide) 2).2 (.inr (.inr ⟨by decide, [8, 0], by decide +kernel⟩))

/-- A block that is one complete code: to read it the decoder looks at the byte behind the block, and asked for two
samples it tells the second by what is there. -/
theorem not_contained : ¬ Contained ⟨1, 16, 0, false⟩ [0, 0, 9] 2 ∧
    nwaDecodeIn ⟨1, 16, 0, false⟩ (Mem.ofList [0, 0, 9]) 3 2 = none ∧
    nwaDecode ⟨1, 16, 0, false⟩ (overlay (fun _ => 9) [0, 0, 9]) 3 4 = [8, 0, 16, 0] ∧
    containedSamples ⟨1, 16, 0, false⟩ 2 (streamBits ⟨1, 16, 0, false⟩ [0, 0, 9])
      (blockStart ⟨1, 16, 0, false⟩ [0, 0, 9]) = [8, 0] := by
  have hnone : nwaDecodeIn ⟨1, 16, 0, false⟩ (Mem.ofList [0, 0, 9]) 3 2 = none := by decide
  refine ⟨fun h => ?_, hnone, by decide +kernel, by decide +kernel⟩
  rw [Contained] at h
  cases hnone.symm.trans h

end SiglusExtract.Nwa
