/-
The two LZSS decoders written in x86 assembly: `UnpackScene::decompress_data` and
`UnpackG00::lzss_decompress`. Their code between two labels is one step of a small machine: the
control bits are shifted out of `dl`, `dh` counts them, and `rep movsb` copies byte by byte. The
routines differ at `Loop1` only: `lzss_decompress` tests for the end before it reads a control
byte, `decompress_data` reads one more when the last token used up the eighth bit.
-/
import SiglusExtract.Lzss.Format

namespace SiglusExtract

open Lz Bytes Lzss

namespace LzssAsm

/-! ## The machine -/

/-- The registers that live across a label: `esi` as the offset read next, `edi` as the bytes
stored so far, and the two halves of `dx`. -/
structure Regs where
  esi : Nat
  edi : List UInt8
  dl : UInt8
  dh : UInt8

/-- The labels of the routines. -/
inductive Label
  | loop1 | loop2 | decompTag | decompTag2 | exit
  deriving DecidableEq

/-- The code from a label to the next jump; `endTest` says whether `Loop1` starts with the test
for the end of the output, `n` is the distance of that end from the start. -/
def step (src : Mem UInt8) (dst : Tape UInt8) (n : Nat) (endTest : Bool) :
    Label → Regs → Option (Label × Regs)
  | .loop1, r =>
    if endTest = true ∧ r.edi.length = n then some (.exit, r)
    else do
      let dl ← src r.esi
      return (.loop2, { r with esi := r.esi + 1, dl := dl, dh := 8 })
  | .loop2, r =>
    if r.edi.length = n then some (.exit, r)
    else if r.dl &&& 1 = 0 then some (.decompTag, r)
    else do
      -- movsb
      let b ← src r.esi
      let edi ← dst.poke r.edi b
      return (.decompTag2, { r with esi := r.esi + 1, edi := edi })
  | .decompTag, r => do
    let eax ← word src r.esi
    let ecx := (eax &&& 0xf) + 2
    -- rep movsb from `edi - eax`
    let edi ← dst.copy (eax >>> 4) ecx r.edi
    return (.decompTag2, { r with esi := r.esi + 2, edi := edi })
  | .decompTag2, r =>
    let dh := r.dh - 1
    some (if dh ≠ 0 then .loop2 else .loop1, { r with dl := r.dl >>> 1, dh := dh })
  | .exit, r => some (.exit, r)

/-- At most `fuel` steps, down to `End`: the bytes stored. -/
def run (src : Mem UInt8) (dst : Tape UInt8) (n : Nat) (endTest : Bool) :
    Nat → Label → Regs → Option (List UInt8)
  | _, .exit, r => some r.edi
  | 0, _, _ => none
  | fuel + 1, l, r => (step src dst n endTest l r).bind fun x => run src dst n endTest fuel x.1 x.2

/-- A routine from its entry. A token stores a byte and takes at most four steps, so a run that
meets the end of the output does so within `4 * n + 3` steps; past it the test never succeeds. -/
def start (src : Mem UInt8) (dst : Tape UInt8) (n : Nat) (endTest : Bool) : Option (List UInt8) :=
  run src dst n endTest (4 * n + 3) .loop1 ⟨0, [], 0, 0⟩

end LzssAsm

/-- `UnpackScene::decompress_data`. -/
def UnpackScene.decompressData (compData : Mem UInt8) (decompBegin : Tape UInt8) (decompLen : Nat) :
    Option (List UInt8) :=
  LzssAsm.start compData decompBegin decompLen false

/-- `UnpackG00::lzss_decompress`. -/
def UnpackG00.lzssDecompress (src : Mem UInt8) (dst : Tape UInt8) (dstLen : Nat) : Option (List UInt8) :=
  LzssAsm.start src dst dstLen true

namespace LzssAsm

/-! ## Runs over framed streams -/

variable {src : Mem UInt8} {dst : Tape UInt8} {n : Nat} {endTest : Bool}

theorem run_step {fuel : Nat} {l : Label} {r : Regs} (hl : l ≠ .exit) (l' : Label) (r' : Regs)
    (h : step src dst n endTest l r = some (l', r')) :
    run src dst n endTest (fuel + 1) l r = run src dst n endTest fuel l' r' := by
  cases l <;> first | exact absurd rfl hl | (rw [run] <;> simp [h])

theorem shiftRight_toNat (x : UInt8) : (x >>> 1).toNat = x.toNat / 2 := by
  rw [UInt8.toNat_shiftRight]
  exact shiftRight_one _

theorem and_one_eq_zero (x : UInt8) : x &&& 1 = 0 ↔ x.toNat % 2 = 0 := by
  rw [← UInt8.toNat_inj, UInt8.toNat_and]
  show x.toNat &&& 1 = 0 ↔ _
  rw [and_one]

/-- The label reached with `k` control bits left. -/
def labelOf (k : Nat) : Label := if k = 0 then .loop1 else .loop2

theorem labelOf_ne_exit (k : Nat) : labelOf k ≠ .exit := by
  unfold labelOf
  split <;> simp

theorem toNat_pred {r : Regs} {k : Nat} (hk : r.dh.toNat = k + 1) : (r.dh - 1).toNat = k := by
  rw [UInt8.toNat_sub_of_le _ _ (by rw [UInt8.le_iff_toNat_le]; simp; omega), hk]
  rfl

/-- The end of a token: one control bit less. -/
theorem step_decompTag2 (r : Regs) {k : Nat} (hk : r.dh.toNat = k + 1) :
    step src dst n endTest .decompTag2 r =
        some (labelOf k, { r with dl := r.dl >>> 1, dh := r.dh - 1 }) ∧ (r.dh - 1).toNat = k := by
  have h1 := toNat_pred hk
  refine ⟨?_, h1⟩
  simp only [step, labelOf]
  by_cases h : k = 0
  · rw [if_pos h, if_neg (by rw [not_not, ← UInt8.toNat_inj, h1, h]; rfl)]
  · rw [if_neg h, if_pos (by rintro he; rw [he] at h1; exact h h1.symm)]

/-- At the end of the output the machine stops, after one more control byte if it does not test. -/
theorem run_end {r : Regs} (hn : r.edi.length = n) (hafter : endTest = false → ∃ b, src r.esi = some b)
    (fuel k : Nat) : run src dst n endTest (fuel + 3) (labelOf k) r = some r.edi := by
  have hexit : ∀ (fuel : Nat) (r : Regs), r.edi.length = n →
      run src dst n endTest (fuel + 1) .loop2 r = some r.edi := by
    intro fuel r hn
    rw [run_step (by simp) .exit r (by simp [step, hn])]
    simp [run]
  by_cases hk : k = 0
  · rw [labelOf, if_pos hk]
    cases ht : endTest with
    | true =>
      rw [run_step (by simp) .exit r (by simp [step, hn])]
      simp [run]
    | false =>
      obtain ⟨b, hb⟩ := hafter ht
      rw [run_step (by simp) .loop2 { r with esi := r.esi + 1, dl := b, dh := 8 }
        (by simp [step, hb]), ← ht]
      exact hexit _ _ hn
  · rw [labelOf, if_neg hk]
    exact hexit _ _ hn

/-- From any point of a framed stream the machine stores what its tokens expand to. The byte
behind the stream matters to the routine without the end test only, and not by its value. -/
theorem run_frame (hroom : dst.Room n) {k c : Nat} {ts : List (Token UInt8)} {s : List UInt8}
    (h : Frame k c ts s) {fuel : Nat} {r : Regs} {fin : List UInt8} (hs : src.Holds r.esi s)
    (hafter : endTest = false → ∃ b, src (r.esi + s.length) = some b) (hdh : k ≠ 0 → r.dh.toNat = k)
    (hdl : k ≠ 0 → r.dl.toNat = c) (he : expand ts r.edi = some fin) (hn : fin.length = n)
    (hfuel : 4 * ts.length + 2 ≤ fuel) (hfuel' : k = 0 ∨ ts = [] → 4 * ts.length + 3 ≤ fuel) :
    run src dst n endTest fuel (labelOf k) r = some fin := by
  induction h generalizing fuel r with
  | nil k c =>
    -- no token is left: the next test for the end succeeds
    obtain ⟨fuel, rfl⟩ : ∃ f, fuel = f + 3 := ⟨fuel - 3, by have := hfuel' (.inr rfl); omega⟩
    simp only [expand, Option.some.injEq] at he
    subst he
    exact run_end hn (fun ht => hafter ht) fuel k
  | @ctrl c₀ c ts s hne hf ih =>
    obtain ⟨fuel, rfl⟩ : ∃ f, fuel = f + 1 := ⟨fuel - 1, by omega⟩
    obtain ⟨hc, hs⟩ := Mem.holds_cons.1 hs
    have hcount := expand_count_le hf.size_pos he
    have hpos := List.length_pos_iff.2 hne
    -- a control byte is followed by a token, so the output is not at its end yet
    have hend : ¬ (endTest = true ∧ r.edi.length = n) := by rintro ⟨-, h⟩; omega
    rw [run_step (labelOf_ne_exit 0) .loop2 { r with esi := r.esi + 1, dl := c, dh := 8 }
      (by simp [labelOf, step, hend, hc])]
    refine ih (r := { r with esi := r.esi + 1, dl := c, dh := 8 }) hs (fun ht => ?_) (fun _ => rfl) (fun _ => rfl)
      he (by have := hfuel' (.inl rfl); omega) (by simp [hne])
    obtain ⟨b, hb⟩ := hafter ht
    exact ⟨b, by rw [List.length_cons] at hb; rw [← hb]; congr 1; simp only; omega⟩
  | @lit k c b ts s hc hf ih =>
    obtain ⟨fuel, rfl⟩ : ∃ f, fuel = f + 2 := ⟨fuel - 2, by omega⟩
    obtain ⟨hb, hs⟩ := Mem.holds_cons.1 hs
    have hcount := expand_count_le (Frame.lit (b := b) hc hf).size_pos he
    rw [List.length_cons] at hcount hfuel
    have hdl' : ¬ r.dl &&& 1 = 0 := by rw [and_one_eq_zero, hdl (by omega)]; omega
    -- `movsb` stores the literal, then the control bits move on
    obtain ⟨htag, hdh'⟩ := step_decompTag2 (n := n)
      { r with esi := r.esi + 1, edi := r.edi ++ [b] } (hdh (by omega))
    rw [run_step (labelOf_ne_exit _) .decompTag2 { r with esi := r.esi + 1, edi := r.edi ++ [b] }
        (by simp [labelOf, step, show r.edi.length ≠ n by omega, hdl', hb,
              Tape.poke_of_room hroom (show r.edi.length < n by omega)]),
      run_step (by simp) _ _ htag]
    refine ih hs (fun ht => ?_) (fun _ => hdh') (fun _ => by rw [shiftRight_toNat, hdl (by omega)]) he (by omega)
      (by omega)
    obtain ⟨b', hb'⟩ := hafter ht
    exact ⟨b', by rw [List.length_cons] at hb'; rw [← hb']; congr 1; simp only; omega⟩
  | @copy k c lo hi ts s hc hf ih =>
    obtain ⟨fuel, rfl⟩ : ∃ f, fuel = f + 2 := ⟨fuel - 2, by omega⟩
    obtain ⟨hlo, hs⟩ := Mem.holds_cons.1 hs
    obtain ⟨hhi, hs⟩ := Mem.holds_cons.1 hs
    have hcount := expand_count_le (Lzss.Frame.copy hc hf).size_pos he
    rw [List.length_cons] at hcount hfuel
    obtain ⟨fuel, rfl⟩ : ∃ f, fuel = f + 1 := ⟨fuel - 1, by omega⟩
    obtain ⟨out', ho, he⟩ := expand_cons.1 he
    -- `rep movsb` may read what it has just stored: the copy of the token does the same
    have hcopy := tape_copy hroom ho (hn ▸ expand_length_le he)
    have hdl' : r.dl &&& 1 = 0 := by rw [and_one_eq_zero, hdl (by omega)]; exact hc
    obtain ⟨htag, hdh'⟩ := step_decompTag2 (n := n)
      { r with esi := r.esi + 2, edi := out' } (hdh (by omega))
    rw [run_step (labelOf_ne_exit _) .decompTag r
        (by simp [labelOf, step, show r.edi.length ≠ n by omega, hdl']),
      run_step (by simp) .decompTag2 { r with esi := r.esi + 2, edi := out' }
        (by simp [step, word_eq hlo hhi, and_15, shiftRight_four, hcopy]),
      run_step (by simp) _ _ htag]
    refine ih hs (fun ht => ?_) (fun _ => hdh') (fun _ => by rw [shiftRight_toNat, hdl (by omega)]) he (by omega)
      (by omega)
    obtain ⟨b', hb'⟩ := hafter ht
    exact ⟨b', by rw [List.length_cons, List.length_cons] at hb'; rw [← hb']; congr 1; simp only; omega⟩

theorem start_frame (hroom : dst.Room n) {ts : List (Token UInt8)} {s fin : List UInt8} (h : Frame 0 0 ts s)
    (hs : src.Holds 0 s) (hafter : endTest = false → ∃ b, src s.length = some b)
    (he : expand ts [] = some fin) (hn : fin.length = n) : start src dst n endTest = some fin := by
  have hcount := expand_count_le h.size_pos he
  rw [List.length_nil, Nat.zero_add] at hcount
  exact run_frame hroom h (r := ⟨0, [], 0, 0⟩) hs (by simpa using hafter) (by simp) (by simp) he hn (by omega)
    (by omega)

end LzssAsm

/-- `decompress_data` on a framed stream stores what its tokens expand to; one byte behind the
stream may be read. -/
theorem UnpackScene.decompressData_frame {src : Mem UInt8} {dst : Tape UInt8} {n : Nat} (hroom : dst.Room n)
    {ts : List (Token UInt8)} {s fin : List UInt8} (h : Frame 0 0 ts s) (hs : src.Holds 0 s)
    {b : UInt8} (hafter : src s.length = some b) (he : expand ts [] = some fin) (hn : fin.length = n) :
    decompressData src dst n = some fin :=
  LzssAsm.start_frame hroom h hs (fun _ => ⟨b, hafter⟩) he hn

/-- `lzss_decompress` on a framed stream stores what its tokens expand to, and reads nothing
behind it. -/
theorem UnpackG00.lzssDecompress_frame {src : Mem UInt8} {dst : Tape UInt8} {n : Nat} (hroom : dst.Room n)
    {ts : List (Token UInt8)} {s fin : List UInt8} (h : Frame 0 0 ts s) (hs : src.Holds 0 s)
    (he : expand ts [] = some fin) (hn : fin.length = n) : lzssDecompress src dst n = some fin :=
  LzssAsm.start_frame hroom h hs (by simp) he hn

end SiglusExtract
