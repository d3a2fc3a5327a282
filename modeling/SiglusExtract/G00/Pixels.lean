/-
`UnpackG00::lzss_decompress_24bit`, the decoder of type 0 pictures. A literal is three bytes of a pixel
and the fourth is set to 0xFF; a back-reference copies whole pixels with `rep movsd`. On every stream
that is well formed in pixels it stores what the tokens expand to, over pixels instead of bytes, and
the output pointer stands on a pixel at every token.
-/
import SiglusExtract.Lzss.Asm

namespace SiglusExtract

open Lz Bytes Lzss

/-! ## Pixels and their streams -/

/-- The bytes of a pixel in a stream. -/
structure Pixel where
  blue : UInt8
  green : UInt8
  red : UInt8
  deriving Repr, DecidableEq

/-- A pixel as it is stored, opaque. -/
def Pixel.bytes (p : Pixel) : List UInt8 := [p.blue, p.green, p.red, 0xFF]

/-- The pixels of a picture as they are stored. -/
def raster (ps : List Pixel) : List UInt8 := ps.flatMap Pixel.bytes

theorem raster_append (ps qs : List Pixel) : raster (ps ++ qs) = raster ps ++ raster qs := List.flatMap_append

theorem raster_concat (ps : List Pixel) (p : Pixel) :
    raster (ps ++ [p]) = raster ps ++ [p.blue] ++ [p.green] ++ [p.red] ++ [0xFF] := by
  simp [raster, Pixel.bytes]

theorem raster_length (ps : List Pixel) : (raster ps).length = 4 * ps.length := by
  induction ps with
  | nil => rfl
  | cons p ps ih =>
    rw [← List.singleton_append, raster_append, List.length_append, ih, List.length_append]
    show 4 + _ = 4 * (1 + _)
    omega

/-- The `j`-th byte of the `i`-th pixel. -/
theorem raster_getElem? {ps : List Pixel} {i j : Nat} {p : Pixel} (hp : ps[i]? = some p) (hj : j < 4) :
    (raster ps)[4 * i + j]? = p.bytes[j]? := by
  induction ps generalizing i with
  | nil => cases hp
  | cons q ps ih =>
    rw [← List.singleton_append, raster_append]
    cases i with
    | zero =>
      cases hp
      rw [List.getElem?_append_left (by rw [raster_length]; simp; omega)]
      simp [raster]
    | succ i =>
      rw [List.getElem?_append_right (by rw [raster_length]; simp; omega), raster_length,
        show 4 * (i + 1) + j - 4 * [q].length = 4 * i + j by simp; omega]
      exact ih hp

/-- Every fourth byte of a picture is 0xFF. -/
theorem raster_alpha {ps : List Pixel} {i : Nat} (hi : i < ps.length) : (raster ps)[4 * i + 3]? = some 0xFF := by
  rw [raster_getElem? (List.getElem?_eq_getElem hi) (by omega)]
  rfl

/-- With `k` bits left in the control byte `c`, the bytes hold the tokens: a literal is a pixel, a
back-reference counts pixels. -/
inductive PixelFrame : Nat → Nat → List (Token Pixel) → List UInt8 → Prop
  | nil (k c : Nat) : PixelFrame k c [] []
  | ctrl {c₀ : Nat} {c : UInt8} {ts : List (Token Pixel)} {s : List UInt8} :
      ts ≠ [] → PixelFrame 8 c.toNat ts s → PixelFrame 0 c₀ ts (c :: s)
  | lit {k c : Nat} {p : Pixel} {ts : List (Token Pixel)} {s : List UInt8} :
      c % 2 = 1 → PixelFrame k (c / 2) ts s →
      PixelFrame (k + 1) c (.lit p :: ts) (p.blue :: p.green :: p.red :: s)
  | copy {k c : Nat} {lo hi : UInt8} {ts : List (Token Pixel)} {s : List UInt8} :
      c % 2 = 0 → PixelFrame k (c / 2) ts s →
      PixelFrame (k + 1) c (.copy (leWord lo hi / 16) (leWord lo hi % 16 + 1) :: ts) (lo :: hi :: s)

theorem PixelFrame.size_pos {k c : Nat} {ts : List (Token Pixel)} {s : List UInt8} (h : PixelFrame k c ts s) :
    ∀ t ∈ ts, 0 < t.size := by
  induction h with
  | nil => simp
  | ctrl _ _ ih => exact ih
  | lit _ _ ih =>
    intro t ht
    rcases List.mem_cons.1 ht with rfl | ht
    · exact Nat.one_pos
    · exact ih t ht
  | copy _ _ ih =>
    intro t ht
    rcases List.mem_cons.1 ht with rfl | ht
    · exact Nat.succ_pos _
    · exact ih t ht

/-! ## The machine -/

namespace Lzss24

open LzssAsm (Regs Label)

/-- `movsd` from `edi - eax`: four bytes are read, then four are stored. -/
def movsd (dst : Tape UInt8) (eax : Nat) (edi : List UInt8) : Option (List UInt8) := do
  let b₀ ← dst.peek edi (edi.length - eax)
  let b₁ ← dst.peek edi (edi.length - eax + 1)
  let b₂ ← dst.peek edi (edi.length - eax + 2)
  let b₃ ← dst.peek edi (edi.length - eax + 3)
  let edi ← dst.poke edi b₀
  let edi ← dst.poke edi b₁
  let edi ← dst.poke edi b₂
  dst.poke edi b₃

/-- `rep movsd`: `esi` and `edi` move on together, so the distance stays. -/
def repMovsd (dst : Tape UInt8) (eax : Nat) : Nat → List UInt8 → Option (List UInt8)
  | 0, edi => some edi
  | ecx + 1, edi => (movsd dst eax edi).bind (repMovsd dst eax ecx)

/-- The code from a label to the next jump; `n` is the distance of `dst_end` from `dst`. -/
def step (src : Mem UInt8) (dst : Tape UInt8) (n : Nat) : Label → Regs → Option (Label × Regs)
  | .loop1, r =>
    if r.edi.length = n then some (.exit, r)
    else do
      let dl ← src r.esi
      return (.loop2, { r with esi := r.esi + 1, dl := dl, dh := 8 })
  | .loop2, r =>
    if r.edi.length = n then some (.exit, r)
    else if r.dl &&& 1 = 0 then some (.decompTag, r)
    else do
      -- movsw
      let b₀ ← src r.esi
      let b₁ ← src (r.esi + 1)
      let edi ← dst.poke r.edi b₀
      let edi ← dst.poke edi b₁
      -- movsb, and the alpha byte
      let b₂ ← src (r.esi + 2)
      let edi ← dst.poke edi b₂
      let edi ← dst.poke edi 0xFF
      return (.decompTag2, { r with esi := r.esi + 3, edi := edi })
  | .decompTag, r => do
    let eax ← word src r.esi
    let ecx := (eax &&& 0xf) + 1
    let edi ← repMovsd dst ((eax >>> 4) <<< 2) ecx r.edi
    return (.decompTag2, { r with esi := r.esi + 2, edi := edi })
  | .decompTag2, r =>
    let dh := r.dh - 1
    some (if dh ≠ 0 then .loop2 else .loop1, { r with dl := r.dl >>> 1, dh := dh })
  | .exit, r => some (.exit, r)

/-- At most `fuel` steps, down to `End`: the bytes stored. -/
def run (src : Mem UInt8) (dst : Tape UInt8) (n : Nat) : Nat → Label → Regs → Option (List UInt8)
  | _, .exit, r => some r.edi
  | 0, _, _ => none
  | fuel + 1, l, r => (step src dst n l r).bind fun x => run src dst n fuel x.1 x.2

end Lzss24

/-- `UnpackG00::lzss_decompress_24bit`. A token stores a pixel and takes at most four steps, so a run
that meets the end of the output does so within `n + 3` steps. -/
def UnpackG00.lzssDecompress24bit (src : Mem UInt8) (dst : Tape UInt8) (dstLen : Nat) : Option (List UInt8) :=
  Lzss24.run src dst dstLen (dstLen + 3) .loop1 ⟨0, [], 0, 0⟩

/-! ## Runs over framed streams -/

namespace Lzss24

open LzssAsm (Regs Label labelOf labelOf_ne_exit and_one_eq_zero shiftRight_toNat)

variable {src : Mem UInt8} {dst : Tape UInt8} {n m : Nat}

theorem run_step {fuel : Nat} {l : Label} {r : Regs} (hl : l ≠ .exit) (l' : Label) (r' : Regs)
    (h : step src dst n l r = some (l', r')) : run src dst n (fuel + 1) l r = run src dst n fuel l' r' := by
  cases l <;> first | exact absurd rfl hl | (rw [run] <;> simp [h])

/-- The four bytes of a pixel are stored where there is room for it. -/
theorem poke_pixel (hroom : dst.Room (4 * m)) {ps : List Pixel} (hlt : ps.length < m) (p : Pixel) :
    dst.poke (raster ps) p.blue = some (raster ps ++ [p.blue]) ∧
      dst.poke (raster ps ++ [p.blue]) p.green = some (raster ps ++ [p.blue] ++ [p.green]) ∧
      dst.poke (raster ps ++ [p.blue] ++ [p.green]) p.red = some (raster ps ++ [p.blue] ++ [p.green] ++ [p.red]) ∧
      dst.poke (raster ps ++ [p.blue] ++ [p.green] ++ [p.red]) 0xFF = some (raster (ps ++ [p])) := by
  have hlen := raster_length ps
  have hpoke : ∀ (out : List UInt8) (b : UInt8), out.length < (raster ps).length + 4 →
      dst.poke out b = some (out ++ [b]) := fun out b h => Tape.poke_of_room hroom (by omega) b
  refine ⟨hpoke _ _ (by omega), hpoke _ _ (by simp), hpoke _ _ (by simp), ?_⟩
  rw [raster_concat]
  exact hpoke _ _ (by simp)

/-- A byte of the pixel `d` back. -/
theorem peek_pixel {ps : List Pixel} {d j : Nat} {p : Pixel} (hp : back ps d = some p) (hj : j < 4) :
    dst.peek (raster ps) ((raster ps).length - (4 * d : Nat) + j) = p.bytes[j]? := by
  obtain ⟨h0, hd, hget⟩ := back_eq_some hp
  have hlen := raster_length ps
  unfold Tape.peek
  rw [if_pos (by omega), ← raster_getElem? hget hj]
  congr 1
  omega

/-- `movsd` copies a pixel whole, alpha byte and all. -/
theorem movsd_raster (hroom : dst.Room (4 * m)) {ps : List Pixel} (hlt : ps.length < m) {d : Nat} {p : Pixel}
    (hp : back ps d = some p) : movsd dst (4 * d) (raster ps) = some (raster (ps ++ [p])) := by
  have h0 : dst.peek (raster ps) ((raster ps).length - (4 * d : Nat)) = some p.blue := by
    rw [← Int.add_zero ((raster ps).length - (4 * d : Nat) : Int)]
    exact peek_pixel hp (show 0 < 4 by omega)
  have h1 : dst.peek (raster ps) ((raster ps).length - (4 * d : Nat) + 1) = some p.green :=
    peek_pixel hp (show 1 < 4 by omega)
  have h2 : dst.peek (raster ps) ((raster ps).length - (4 * d : Nat) + 2) = some p.red :=
    peek_pixel hp (show 2 < 4 by omega)
  have h3 : dst.peek (raster ps) ((raster ps).length - (4 * d : Nat) + 3) = some 0xFF :=
    peek_pixel hp (show 3 < 4 by omega)
  obtain ⟨k0, k1, k2, k3⟩ := poke_pixel hroom hlt p
  simp only [movsd, h0, h1, h2, h3, k0, k1, k2, k3, Option.bind_eq_bind, Option.bind_some]

/-- `rep movsd` copies pixels one by one, overlapping or not. -/
theorem repMovsd_raster (hroom : dst.Room (4 * m)) {d len : Nat} {ps ps' : List Pixel}
    (h : copyBack d len ps = some ps') (hm : ps'.length ≤ m) :
    repMovsd dst (4 * d) len (raster ps) = some (raster ps') := by
  induction len generalizing ps with
  | zero =>
    cases h
    rfl
  | succ len ih =>
    have hlen := copyBack_length h
    obtain ⟨p, hp, h⟩ := copyBack_succ.1 h
    rw [repMovsd, movsd_raster hroom (by omega) hp, Option.bind_some]
    exact ih h

/-- The end of a token: one control bit less. -/
theorem step_decompTag2 (src : Mem UInt8) (dst : Tape UInt8) (n : Nat) (r : Regs) {k : Nat} (hk : r.dh.toNat = k + 1) :
    step src dst n .decompTag2 r = some (labelOf k, { r with dl := r.dl >>> 1, dh := r.dh - 1 }) ∧
      (r.dh - 1).toNat = k := by
  show LzssAsm.step src dst n true .decompTag2 r = _ ∧ _
  exact LzssAsm.step_decompTag2 r hk

/-- At the end of the output the machine stops at either label. -/
theorem run_end {r : Regs} (hn : r.edi.length = n) (fuel k : Nat) :
    run src dst n (fuel + 1) (labelOf k) r = some r.edi := by
  rw [run_step (labelOf_ne_exit k) .exit r (by unfold labelOf; split <;> simp [step, hn])]
  simp [run]

/-- From any point of a framed stream the machine stores the pixels its tokens expand to. -/
theorem run_frame {m : Nat} (hroom : dst.Room (4 * m)) {k c : Nat} {ts : List (Token Pixel)} {s : List UInt8}
    (h : PixelFrame k c ts s) {fuel esi : Nat} {ps fin : List Pixel} {dl dh : UInt8} (hs : src.Holds esi s)
    (hdh : k ≠ 0 → dh.toNat = k) (hdl : k ≠ 0 → dl.toNat = c) (he : expand ts ps = some fin) (hm : fin.length = m)
    (hfuel : 4 * ts.length + 2 ≤ fuel) (hfuel' : k = 0 ∨ ts = [] → 4 * ts.length + 3 ≤ fuel) :
    run src dst (4 * m) fuel (labelOf k) ⟨esi, raster ps, dl, dh⟩ = some (raster fin) := by
  have hlen := raster_length
  induction h generalizing fuel esi ps dl dh with
  | nil k c =>
    obtain ⟨fuel, rfl⟩ : ∃ f, fuel = f + 1 := ⟨fuel - 1, by omega⟩
    cases he
    exact run_end (by rw [hlen, hm]) fuel k
  | @ctrl c₀ c ts s hne hf ih =>
    obtain ⟨fuel, rfl⟩ : ∃ f, fuel = f + 1 := ⟨fuel - 1, by omega⟩
    obtain ⟨hc, hs⟩ := Mem.holds_cons.1 hs
    have hcount := expand_count_le hf.size_pos he
    have hpos := List.length_pos_iff.2 hne
    have hfuel' := hfuel' (.inl rfl)
    -- a control byte is followed by a token, so the output is not at its end yet
    rw [run_step (labelOf_ne_exit 0) .loop2 ⟨esi + 1, raster ps, c, 8⟩
      (by simp [labelOf, step, hlen, hc]; omega)]
    exact ih hs (fun _ => rfl) (fun _ => rfl) he (by omega) (by simp [hne])
  | @lit k c p ts s hc hf ih =>
    obtain ⟨fuel, rfl⟩ : ∃ f, fuel = f + 2 := ⟨fuel - 2, by omega⟩
    obtain ⟨hb, hs⟩ := Mem.holds_cons.1 hs
    obtain ⟨hg, hs⟩ := Mem.holds_cons.1 hs
    obtain ⟨hr, hs⟩ := Mem.holds_cons.1 hs
    have hcount := expand_count_le (PixelFrame.lit (p := p) hc hf).size_pos he
    rw [List.length_cons] at hcount hfuel
    have hdl' : ¬ dl &&& 1 = 0 := by rw [and_one_eq_zero, hdl (by omega)]; omega
    have hend : (raster ps).length ≠ 4 * m := by rw [hlen]; omega
    obtain ⟨k0, k1, k2, k3⟩ := poke_pixel hroom (show ps.length < m by omega) p
    obtain ⟨htag, hdh'⟩ :=
      step_decompTag2 src dst (4 * m) ⟨esi + 3, raster (ps ++ [p]), dl, dh⟩ (hdh (Nat.succ_ne_zero k))
    -- `movsw`, `movsb` and the alpha byte store the pixel
    have hlit : step src dst (4 * m) (labelOf (k + 1)) ⟨esi, raster ps, dl, dh⟩ =
        some (.decompTag2, ⟨esi + 3, raster (ps ++ [p]), dl, dh⟩) := by
      show step src dst (4 * m) .loop2 _ = _
      simp only [step, if_neg hend, if_neg hdl', hb, hg, hr, k0, k1, k2, k3, Option.bind_eq_bind, Option.bind_some]
      rfl
    rw [run_step (labelOf_ne_exit _) _ _ hlit, run_step (by simp) _ _ htag]
    exact ih hs (fun _ => hdh') (fun _ => by rw [shiftRight_toNat, hdl (by omega)]) he (by omega) (by omega)
  | @copy k c lo hi ts s hc hf ih =>
    obtain ⟨fuel, rfl⟩ : ∃ f, fuel = f + 3 := ⟨fuel - 3, by rw [List.length_cons] at hfuel; omega⟩
    obtain ⟨hlo, hs⟩ := Mem.holds_cons.1 hs
    obtain ⟨hhi, hs⟩ := Mem.holds_cons.1 hs
    have hcount := expand_count_le (PixelFrame.copy hc hf).size_pos he
    rw [List.length_cons] at hcount hfuel
    obtain ⟨ps', ho, he⟩ := expand_cons.1 he
    have hdl' : dl &&& 1 = 0 := by rw [and_one_eq_zero, hdl (by omega)]; exact hc
    have hend : (raster ps).length ≠ 4 * m := by rw [hlen]; omega
    have hcopy := repMovsd_raster hroom ho (hm ▸ expand_length_le he)
    obtain ⟨htag, hdh'⟩ := step_decompTag2 src dst (4 * m) ⟨esi + 2, raster ps', dl, dh⟩ (hdh (Nat.succ_ne_zero k))
    rw [run_step (labelOf_ne_exit _) .decompTag ⟨esi, raster ps, dl, dh⟩ (by simp [labelOf, step, hend, hdl']),
      run_step (by simp) .decompTag2 ⟨esi + 2, raster ps', dl, dh⟩
        (by simp [step, word_eq hlo hhi, and_15, shiftRight_four, Nat.shiftLeft_eq, Nat.mul_comm _ 4, hcopy]),
      run_step (by simp) _ _ htag]
    exact ih hs (fun _ => hdh') (fun _ => by rw [shiftRight_toNat, hdl (by omega)]) he (by omega) (by omega)

end Lzss24

/-! ## Pictures of type 0 -/

/-- On a stream that is well formed in pixels `lzss_decompress_24bit` terminates with the pixels its
tokens expand to, every fourth byte 0xFF; it reads the stream alone. -/
theorem UnpackG00.lzssDecompress24bit_frame {src : Mem UInt8} {dst : Tape UInt8} {ts : List (Token Pixel)}
    {s : List UInt8} {ps : List Pixel} (h : PixelFrame 0 0 ts s) (hs : src.Holds 0 s)
    (he : expand ts [] = some ps) (hroom : dst.Room (4 * ps.length)) :
    lzssDecompress24bit src dst (4 * ps.length) = some (raster ps) ∧ (raster ps).length = 4 * ps.length ∧
      ∀ i < ps.length, (raster ps)[4 * i + 3]? = some 0xFF := by
  have hcount := expand_count_le h.size_pos he
  rw [List.length_nil, Nat.zero_add] at hcount
  have hrun : Lzss24.run src dst (4 * ps.length) (4 * ps.length + 3) (LzssAsm.labelOf 0) ⟨0, raster [], 0, 0⟩ =
      some (raster ps) :=
    Lzss24.run_frame hroom h hs (fun h => absurd rfl h) (fun h => absurd rfl h) he rfl (by omega) (by omega)
  exact ⟨hrun, raster_length ps, fun i hi => raster_alpha hi⟩

/-- A literal pixel, and a copy of three that repeats it. -/
theorem UnpackG00.lzssDecompress24bit_frame_repeat :
    lzssDecompress24bit (Mem.ofList [1, 10, 20, 30, 0x12, 0]) (.cells 16 fun _ => 0) 16 =
        some [10, 20, 30, 0xFF, 10, 20, 30, 0xFF, 10, 20, 30, 0xFF, 10, 20, 30, 0xFF] ∧
      ∀ i < 4, [10, 20, 30, 0xFF, 10, 20, 30, 0xFF, 10, 20, 30, 0xFF, 10, 20, 30, 0xFF][4 * i + 3]? =
        some (0xFF : UInt8) := by
  have hcopy : PixelFrame 7 0 [.copy (leWord 0x12 0 / 16) (leWord 0x12 0 % 16 + 1)] [0x12, 0] :=
    .copy rfl (.nil 6 0)
  have hframe : PixelFrame 0 0 [.lit ⟨10, 20, 30⟩, .copy 1 3] [1, 10, 20, 30, 0x12, 0] :=
    .ctrl (List.cons_ne_nil _ _) (.lit rfl hcopy)
  have hfour : expand [.lit ⟨10, 20, 30⟩, .copy 1 3] [] = some (List.replicate 4 (⟨10, 20, 30⟩ : Pixel)) := by decide
  have hrun := lzssDecompress24bit_frame hframe (Mem.holds_ofList_self _ []) hfour (Tape.cells_room 16 fun _ => 0)
  exact ⟨hrun.1, hrun.2.2⟩

/-- The decoding of `extract_g00_type0_pic`, from the file at `pheader` into a new buffer of
`decompress_length` bytes, `old` what memory holds there. -/
def UnpackG00.extractG00Type0Pic (pheader : Mem UInt8) (old : Nat → UInt8) : Option (List UInt8) := do
  -- behind `g00_header_t`, packed to five bytes: `compress_length`, `decompress_length`
  let decompressLength ← dword pheader (5 + 4)
  lzssDecompress24bit (fun i => pheader (13 + i)) (.cells decompressLength old) decompressLength

end SiglusExtract
