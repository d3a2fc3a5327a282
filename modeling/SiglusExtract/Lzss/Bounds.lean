/-
The LZSS decoders on any input. `DecompressData`, `decompress_data` and `lzss_decompress` compare the
output pointer with its end for equality between two tokens: they stop inside the output exactly
where the sizes of the tokens add up to the announced length. Distances do not matter to them.
-/
import SiglusExtract.Lzss.Asm
import SiglusExtract.Lzss.Decompress

namespace SiglusExtract

open Lz Bytes Lzss

namespace Lzss

/-- How many symbols the tokens append. -/
def total (ts : List (Token UInt8)) : Nat := (ts.map Token.size).sum

@[simp] theorem total_cons (t : Token UInt8) (ts : List (Token UInt8)) : total (t :: ts) = t.size + total ts := rfl

@[simp] theorem lit_size (b : UInt8) : (Token.lit b).size = 1 := rfl

@[simp] theorem backRef_size (t : Nat) : (backRef t).size = t % 16 + 2 := rfl

theorem Frame.length_le_total {k c : Nat} {ts : List (Token UInt8)} {s : List UInt8} (h : Frame k c ts s) :
    ts.length ≤ total ts := by
  induction h with
  | nil => exact Nat.le_refl 0
  | ctrl _ _ ih => exact ih
  | lit _ _ ih =>
    rw [List.length_cons, total_cons, lit_size]
    omega
  | copy _ _ ih =>
    rw [List.length_cons, total_cons, backRef_size]
    omega

/-- The memory starts with a framed token stream whose sizes add up to `n`. -/
def Lands (src : Nat → UInt8) (n : Nat) : Prop :=
  ∃ ts s, Frame 0 0 ts s ∧ Mem.Holds (fun i => some (src i)) 0 s ∧ total ts = n

/-- Two bytes behind a control byte of zero overrun an output of one. -/
theorem not_lands_zero : ¬ Lands (fun _ => 0) 1 := by
  rintro ⟨ts, s, hf, hs, hn⟩
  cases hf with
  | nil => cases hn
  | ctrl hne hf =>
    obtain ⟨hc, hs⟩ := Mem.holds_cons.1 hs
    cases hc
    cases hf with
    | nil => exact hne rfl
    | lit hc => cases hc
    | copy _ _ =>
      rw [total_cons, backRef_size] at hn
      omega

end Lzss

/-! ## The assembly decoders -/

namespace LzssAsm

variable {src : Nat → UInt8} {old : Int → UInt8} {n : Nat} {endTest : Bool}

/-- The machine with all memory readable and writable. -/
abbrev runAll (src : Nat → UInt8) (old : Int → UInt8) (n : Nat) (endTest : Bool) :
    Nat → Label → Regs → Option (List UInt8) :=
  run (fun i => some (src i)) (fun j => some (old j)) n endTest

theorem run_mono {src : Mem UInt8} {dst : Tape UInt8} {fuel : Nat} {l : Label} {r : Regs} {out : List UInt8}
    (h : run src dst n endTest fuel l r = some out) (m : Nat) : run src dst n endTest (fuel + m) l r = some out := by
  induction fuel generalizing l r with
  | zero =>
    cases l with
    | exit => cases m <;> exact h
    | _ => cases h
  | succ fuel ih =>
    rw [Nat.succ_add]
    cases l with
    | exit => exact h
    | _ =>
      simp only [run, Option.bind_eq_some_iff] at h ⊢
      obtain ⟨x, hx, h⟩ := h
      exact ⟨x, hx, ih h⟩

/-- A run that stops gets through the steps it starts with. -/
theorem run_cut {src : Mem UInt8} {dst : Tape UInt8} {fuel m : Nat} {l l' : Label} {r r' : Regs}
    {out : List UInt8} (hl : l' ≠ .exit)
    (hstep : ∀ f, run src dst n endTest (f + m) l r = run src dst n endTest f l' r')
    (h : run src dst n endTest fuel l r = some out) :
    ∃ f, fuel = f + m ∧ run src dst n endTest f l' r' = some out := by
  by_cases hm : m ≤ fuel
  · refine ⟨fuel - m, by omega, ?_⟩
    rw [← hstep, Nat.sub_add_cancel hm, h]
  · have := run_mono h (m - fuel)
    rw [show fuel + (m - fuel) = 0 + m by omega, hstep] at this
    cases l' <;> first | exact absurd rfl hl | cases this

/-- The control byte is read where the output is not at its end. -/
theorem runAll_ctrl {r : Regs} (hr : r.edi.length ≠ n) (fuel : Nat) :
    runAll src old n endTest (fuel + 1) (labelOf 0) r =
      runAll src old n endTest fuel (labelOf 8) { r with esi := r.esi + 1, dl := src r.esi, dh := 8 } :=
  run_step (labelOf_ne_exit 0) .loop2 _ (by simp [labelOf, step, hr])

theorem runAll_lit {r : Regs} {k : Nat} (hr : r.edi.length ≠ n) (hdh : r.dh.toNat = k + 1)
    (hdl : r.dl.toNat % 2 = 1) (fuel : Nat) :
    runAll src old n endTest (fuel + 2) (labelOf (k + 1)) r = runAll src old n endTest fuel (labelOf k)
      { r with esi := r.esi + 1, edi := r.edi ++ [src r.esi], dl := r.dl >>> 1, dh := r.dh - 1 } := by
  have hdl' : ¬ r.dl &&& 1 = 0 := by rw [and_one_eq_zero]; omega
  rw [runAll, run_step (labelOf_ne_exit _) .decompTag2 { r with esi := r.esi + 1, edi := r.edi ++ [src r.esi] }
      (by simp [labelOf, step, hr, hdl', Tape.poke]),
    run_step (by simp) _ _ (step_decompTag2 { r with esi := r.esi + 1, edi := r.edi ++ [src r.esi] } hdh).1]

theorem runAll_copy (src : Nat → UInt8) (old : Int → UInt8) (n : Nat) (endTest : Bool) {r : Regs} {k : Nat}
    (hr : r.edi.length ≠ n) (hdh : r.dh.toNat = k + 1) (hdl : r.dl.toNat % 2 = 0) :
    ∃ out : List UInt8, out.length = r.edi.length + (leWord (src r.esi) (src (r.esi + 1)) % 16 + 2) ∧
      ∀ fuel, runAll src old n endTest (fuel + 3) (labelOf (k + 1)) r = runAll src old n endTest fuel (labelOf k)
        { r with esi := r.esi + 2, edi := out, dl := r.dl >>> 1, dh := r.dh - 1 } := by
  obtain ⟨out, hcopy⟩ := Tape.copy_everywhere (fun j => some (old j)) (fun j => ⟨_, rfl⟩)
    (leWord (src r.esi) (src (r.esi + 1)) / 16) (leWord (src r.esi) (src (r.esi + 1)) % 16 + 2) r.edi
  refine ⟨out, Tape.copy_length hcopy, fun fuel => ?_⟩
  have hdl' : r.dl &&& 1 = 0 := by rw [and_one_eq_zero, hdl]
  rw [runAll, run_step (labelOf_ne_exit _) .decompTag r (by simp [labelOf, step, hr, hdl']),
    run_step (by simp) .decompTag2 { r with esi := r.esi + 2, edi := out }
      (by simp [step, word_eq (m := fun i => some (src i)) rfl rfl, and_15, shiftRight_four, hcopy]),
    run_step (by simp) _ _ (step_decompTag2 { r with esi := r.esi + 2, edi := out } hdh).1]

/-- A run that stops has read off a stream that lands on the end of the output. By induction on the
fuel: a token takes a step at least. -/
theorem frame_of_runAll : ∀ (fuel k : Nat) (r : Regs) (out : List UInt8), (k ≠ 0 → r.dh.toNat = k) →
    runAll src old n endTest fuel (labelOf k) r = some out →
    out.length = n ∧ ∃ ts s, Frame k r.dl.toNat ts s ∧ Mem.Holds (fun i => some (src i)) r.esi s ∧
      r.edi.length + total ts = n := by
  intro fuel
  induction fuel using Nat.strong_induction_on with
  | _ fuel ih =>
    intro k r out hdh hrun
    by_cases hr : r.edi.length = n
    · have hend : runAll src old n endTest (fuel + 3) (labelOf k) r = some r.edi :=
        run_end hr (fun _ => ⟨_, rfl⟩) fuel k
      have hout : out = r.edi := Option.some.inj ((run_mono hrun 3).symm.trans hend)
      exact ⟨by rw [hout, hr], [], [], .nil _ _, Mem.holds_nil _ _, hr⟩
    · cases k with
      | zero =>
        obtain ⟨f, rfl, hcut⟩ := run_cut (labelOf_ne_exit 8) (runAll_ctrl hr) hrun
        obtain ⟨hout, ts, s, hf, hs, hn⟩ := ih f (by omega) 8 _ out (fun _ => rfl) hcut
        refine ⟨hout, ts, src r.esi :: s, .ctrl ?_ hf, Mem.holds_cons.2 ⟨rfl, hs⟩, hn⟩
        rintro rfl
        exact hr hn
      | succ k =>
        have hdh := hdh (Nat.succ_ne_zero k)
        have hdh' := toNat_pred hdh
        rcases Nat.mod_two_eq_zero_or_one r.dl.toNat with hdl | hdl
        · obtain ⟨out', hlen, hstep⟩ := runAll_copy src old n endTest hr hdh hdl
          obtain ⟨f, rfl, hcut⟩ := run_cut (labelOf_ne_exit k) hstep hrun
          obtain ⟨hout, ts, s, hf, hs, hn⟩ := ih f (by omega) k _ out (fun _ => hdh') hcut
          simp only [shiftRight_toNat] at hf hs hn
          refine ⟨hout, _, src r.esi :: src (r.esi + 1) :: s, .copy hdl hf,
            Mem.holds_cons.2 ⟨rfl, Mem.holds_cons.2 ⟨rfl, hs⟩⟩, ?_⟩
          rw [total_cons, backRef_size]
          omega
        · obtain ⟨f, rfl, hcut⟩ := run_cut (labelOf_ne_exit k) (runAll_lit hr hdh hdl) hrun
          obtain ⟨hout, ts, s, hf, hs, hn⟩ := ih f (by omega) k _ out (fun _ => hdh') hcut
          simp only [shiftRight_toNat, List.length_append, List.length_singleton] at hf hs hn
          refine ⟨hout, _, src r.esi :: s, .lit hdl hf, Mem.holds_cons.2 ⟨rfl, hs⟩, ?_⟩
          rw [total_cons, lit_size]
          omega

/-- Conversely the machine stops behind a stream that lands there. -/
theorem runAll_frame {k c : Nat} {ts : List (Token UInt8)} {s : List UInt8} (h : Frame k c ts s) {r : Regs}
    (hs : Mem.Holds (fun i => some (src i)) r.esi s) (hdh : k ≠ 0 → r.dh.toNat = k) (hdl : k ≠ 0 → r.dl.toNat = c)
    (hn : r.edi.length + total ts = n) :
    ∃ fuel out, runAll src old n endTest fuel (labelOf k) r = some out ∧ out.length = n := by
  induction h generalizing r with
  | nil k c => exact ⟨3, r.edi, run_end hn (fun _ => ⟨_, rfl⟩) 0 k, hn⟩
  | @ctrl c₀ c ts s hne hf ih =>
    obtain ⟨hc, hs⟩ := Mem.holds_cons.1 hs
    have hlen := hf.length_le_total
    have hpos := List.length_pos_iff.2 hne
    obtain ⟨fuel, out, hrun, hout⟩ := ih (r := { r with esi := r.esi + 1, dl := src r.esi, dh := 8 }) hs
      (fun _ => rfl) (fun _ => congrArg UInt8.toNat (Option.some.inj hc)) hn
    exact ⟨fuel + 1, out, by rw [runAll_ctrl (by omega), hrun], hout⟩
  | @lit k c b ts s hc hf ih =>
    obtain ⟨hb, hs⟩ := Mem.holds_cons.1 hs
    rw [total_cons, lit_size] at hn
    have hdh := hdh (Nat.succ_ne_zero k)
    have hdl := hdl (Nat.succ_ne_zero k)
    obtain ⟨fuel, out, hrun, hout⟩ := ih
      (r := { r with esi := r.esi + 1, edi := r.edi ++ [src r.esi], dl := r.dl >>> 1, dh := r.dh - 1 }) hs
      (fun _ => toNat_pred hdh)
      (fun _ => by rw [shiftRight_toNat, hdl])
      (by rw [List.length_append, List.length_singleton]; omega)
    exact ⟨fuel + 2, out, by rw [runAll_lit (by omega) hdh (by omega), hrun], hout⟩
  | @copy k c lo hi ts s hc hf ih =>
    obtain ⟨hlo, hs⟩ := Mem.holds_cons.1 hs
    obtain ⟨hhi, hs⟩ := Mem.holds_cons.1 hs
    rw [total_cons, backRef_size] at hn
    have hdh := hdh (Nat.succ_ne_zero k)
    have hdl := hdl (Nat.succ_ne_zero k)
    obtain ⟨out', hlen, hstep⟩ := runAll_copy src old n endTest (show r.edi.length ≠ n by omega) hdh
      (by omega)
    rw [Option.some.inj hlo, Option.some.inj hhi] at hlen
    obtain ⟨fuel, out, hrun, hout⟩ := ih
      (r := { r with esi := r.esi + 2, edi := out', dl := r.dl >>> 1, dh := r.dh - 1 }) hs
      (fun _ => toNat_pred hdh)
      (fun _ => by rw [shiftRight_toNat, hdl]) (by simp only; omega)
    exact ⟨fuel + 3, out, by rw [hstep, hrun], hout⟩

/-- From its entry the machine stops having written inside the output exactly where the stream lands
on its end. -/
theorem runAll_inside_iff :
    (∃ fuel out, runAll src old n endTest fuel .loop1 ⟨0, [], 0, 0⟩ = some out ∧ out.length ≤ n) ↔ Lands src n := by
  constructor
  · rintro ⟨fuel, out, hrun, -⟩
    obtain ⟨-, ts, s, hf, hs, hn⟩ := frame_of_runAll fuel 0 ⟨0, [], 0, 0⟩ out (fun h => absurd rfl h) hrun
    exact ⟨ts, s, hf, hs, by simpa using hn⟩
  · rintro ⟨ts, s, hf, hs, hn⟩
    obtain ⟨fuel, out, hrun, hout⟩ : ∃ fuel out, runAll src old n endTest fuel (labelOf 0) ⟨0, [], 0, 0⟩ = some out ∧
        out.length = n :=
      runAll_frame hf hs (fun h => absurd rfl h) (fun h => absurd rfl h) (by simpa using hn)
    exact ⟨fuel, out, hrun, Nat.le_of_eq hout⟩

end LzssAsm

/-! ## DecompressData -/

namespace Compression

variable {src : Nat → UInt8} {old : Int → UInt8} {n : Nat}

/-- The two loops with all memory around the output readable and writable, from inside a group. -/
abbrev loopsOn (input : Mem UInt8) (old : Int → UInt8) (n fuel k c p : Nat) (out : List UInt8) :
    Option (Nat × List UInt8) :=
  (tokenLoop input (fun j => some (old j)) n k c p out).bind fun r =>
    groupLoop input (fun j => some (old j)) n fuel r.1 r.2

section LoopsOn

variable {input : Mem UInt8}

theorem loopsOn_ctrl {out : List UInt8} (hlt : out.length < n) (fuel c p : Nat) :
    loopsOn input old n (fuel + 1) 0 c p out =
      (input p).bind fun b => loopsOn input old n fuel 8 b.toNat (p + 1) out := by
  show groupLoop input (fun j => some (old j)) n (fuel + 1) p out = _
  cases hb : input p with
  | none => rw [groupLoop, if_pos hlt, hb]; rfl
  | some b => exact groupLoop_step hlt hb fuel

theorem loopsOn_done {out : List UInt8} {k : Nat} (hn : out.length = n ∨ k = 0 ∧ n < out.length) (fuel c p : Nat) :
    loopsOn input old n (fuel + 1) k c p out = some (p, out) := by
  rcases hn with hn | ⟨rfl, hn⟩
  · unfold loopsOn
    rw [tokenLoop_done hn, Option.bind_some, groupLoop_done hn]
  · show groupLoop input (fun j => some (old j)) n (fuel + 1) p out = _
    rw [groupLoop, if_neg (by omega)]

theorem loopsOn_lit {out : List UInt8} (hne : out.length ≠ n) {c : Nat} (hc : c % 2 = 1) (fuel k p : Nat) :
    loopsOn input old n fuel (k + 1) c p out =
      (input p).bind fun b => loopsOn input old n fuel k (c / 2) (p + 1) (out ++ [b]) := by
  unfold loopsOn
  rw [tokenLoop, if_neg hne, if_pos (by rw [and_one]; omega), shiftRight_one]
  cases input p with
  | none => rfl
  | some b => rfl

theorem loopsOn_copy_none {out : List UInt8} (hne : out.length ≠ n) {c p : Nat} (hc : c % 2 = 0)
    (hw : word input p = none) (fuel k : Nat) : loopsOn input old n fuel (k + 1) c p out = none := by
  unfold loopsOn
  rw [tokenLoop, if_neg hne, if_neg (by rw [and_one]; omega), hw]
  rfl

theorem loopsOn_copy (old : Int → UInt8) {out : List UInt8} (hne : out.length ≠ n) {c p t : Nat} (hc : c % 2 = 0)
    (hw : word input p = some t) :
    ∃ out' : List UInt8, out'.length = out.length + (t % 16 + 2) ∧
      ∀ fuel k, loopsOn input old n fuel (k + 1) c p out = loopsOn input old n fuel k (c / 2) (p + 2) out' := by
  obtain ⟨out', hcopy⟩ := Tape.copy_everywhere (fun j => some (old j)) (fun j => ⟨_, rfl⟩) (t / 16) (t % 16 + 2) out
  refine ⟨out', Tape.copy_length hcopy, fun fuel k => ?_⟩
  unfold loopsOn
  rw [tokenLoop, if_neg hne, if_neg (by rw [and_one]; omega), hw, shiftRight_one]
  simp only [Option.bind_eq_bind, Option.bind_some, and_15, shiftRight_four, hcopy]

end LoopsOn

/-- The two loops with all memory readable and writable, from inside a group. -/
abbrev loopsAll (src : Nat → UInt8) (old : Int → UInt8) (n fuel k c p : Nat) (out : List UInt8) :
    Option (Nat × List UInt8) :=
  (tokenLoop (fun i => some (src i)) (fun j => some (old j)) n k c p out).bind fun r =>
    groupLoop (fun i => some (src i)) (fun j => some (old j)) n fuel r.1 r.2

theorem loopsAll_ctrl {out : List UInt8} (hlt : out.length < n) (fuel c p : Nat) :
    loopsAll src old n (fuel + 1) 0 c p out = loopsAll src old n fuel 8 (src p).toNat (p + 1) out :=
  loopsOn_ctrl hlt fuel c p

theorem loopsAll_done {out : List UInt8} {k : Nat} (hn : out.length = n ∨ k = 0 ∧ n < out.length) (fuel c p : Nat) :
    loopsAll src old n (fuel + 1) k c p out = some (p, out) :=
  loopsOn_done hn fuel c p

theorem loopsAll_lit {out : List UInt8} (hne : out.length ≠ n) {c : Nat} (hc : c % 2 = 1) (fuel k p : Nat) :
    loopsAll src old n fuel (k + 1) c p out = loopsAll src old n fuel k (c / 2) (p + 1) (out ++ [src p]) :=
  loopsOn_lit hne hc fuel k p

theorem loopsAll_copy (src : Nat → UInt8) (old : Int → UInt8) {out : List UInt8} (hne : out.length ≠ n) {c : Nat}
    (hc : c % 2 = 0) (p : Nat) :
    ∃ out' : List UInt8, out'.length = out.length + (leWord (src p) (src (p + 1)) % 16 + 2) ∧
      ∀ fuel k, loopsAll src old n fuel (k + 1) c p out = loopsAll src old n fuel k (c / 2) (p + 2) out' :=
  loopsOn_copy old hne hc (word_eq rfl rfl)

/-- The loops end on any input, at the end of the output or behind it: a turn of the outer loop that
does not reach it writes eight tokens. -/
theorem loopsAll_ends : ∀ (fuel k c p : Nat) (out : List UInt8), n ≤ fuel + 1 + out.length →
    (k = 0 → out.length < n → n < fuel + 1 + out.length) →
    ∃ p' fin, loopsAll src old n (fuel + 1) k c p out = some (p', fin) ∧ n ≤ fin.length
  | fuel, k + 1, c, p, out, h, _ => by
    by_cases hn : out.length = n
    · exact ⟨p, out, loopsAll_done (.inl hn) fuel c p, Nat.le_of_eq hn.symm⟩
    · rcases Nat.mod_two_eq_zero_or_one c with hc | hc
      · obtain ⟨out', hlen, hstep⟩ := loopsAll_copy src old hn hc p
        rw [hstep]
        exact loopsAll_ends fuel k _ _ out' (by omega) (by omega)
      · rw [loopsAll_lit hn hc]
        exact loopsAll_ends fuel k _ _ _ (by rw [List.length_append]; omega)
          (by rw [List.length_append, List.length_singleton]; omega)
  | 0, 0, c, p, out, _, h => by
    have hge : n ≤ out.length := by
      by_contra hlt
      have := h rfl (by omega)
      omega
    exact ⟨p, out, loopsAll_done (by omega) 0 c p, hge⟩
  | fuel + 1, 0, c, p, out, h, h' => by
    by_cases hlt : out.length < n
    · rw [loopsAll_ctrl hlt]
      have := h' rfl hlt
      exact loopsAll_ends fuel 8 _ _ out (by omega) (by omega)
    · exact ⟨p, out, loopsAll_done (by omega) (fuel + 1) c p, by omega⟩

/-- Loops that end at the end of the output have read off a stream that lands there. -/
theorem frame_of_loopsAll : ∀ (fuel k c p : Nat) (out : List UInt8) (p' : Nat) (fin : List UInt8),
    loopsAll src old n fuel k c p out = some (p', fin) → fin.length = n →
    ∃ ts s, Frame k c ts s ∧ Mem.Holds (fun i => some (src i)) p s ∧ out.length + total ts = n
  | fuel, k + 1, c, p, out, p', fin, h, hfin => by
    by_cases hn : out.length = n
    · exact ⟨[], [], .nil _ _, Mem.holds_nil _ _, hn⟩
    · rcases Nat.mod_two_eq_zero_or_one c with hc | hc
      · obtain ⟨out', hlen, hstep⟩ := loopsAll_copy src old hn hc p
        rw [hstep] at h
        obtain ⟨ts, s, hf, hs, hsum⟩ := frame_of_loopsAll fuel k _ _ out' p' fin h hfin
        refine ⟨_, src p :: src (p + 1) :: s, .copy hc hf,
          Mem.holds_cons.2 ⟨rfl, Mem.holds_cons.2 ⟨rfl, hs⟩⟩, ?_⟩
        rw [total_cons, backRef_size]
        omega
      · rw [loopsAll_lit hn hc] at h
        obtain ⟨ts, s, hf, hs, hsum⟩ := frame_of_loopsAll fuel k _ _ _ p' fin h hfin
        rw [List.length_append, List.length_singleton] at hsum
        refine ⟨_, src p :: s, .lit hc hf, Mem.holds_cons.2 ⟨rfl, hs⟩, ?_⟩
        rw [total_cons, lit_size]
        omega
  | 0, 0, c, p, out, p', fin, h, _ => by cases h
  | fuel + 1, 0, c, p, out, p', fin, h, hfin => by
    by_cases hn : out.length = n
    · exact ⟨[], [], .nil _ _, Mem.holds_nil _ _, hn⟩
    · by_cases hlt : out.length < n
      · rw [loopsAll_ctrl hlt] at h
        obtain ⟨ts, s, hf, hs, hsum⟩ := frame_of_loopsAll fuel 8 _ _ out p' fin h hfin
        refine ⟨ts, src p :: s, .ctrl ?_ hf, Mem.holds_cons.2 ⟨rfl, hs⟩, hsum⟩
        rintro rfl
        exact hn hsum
      · rw [loopsAll_done (by omega)] at h
        cases h
        exact absurd hfin hn

/-- Conversely a stream that lands there makes the loops end there. -/
theorem loopsAll_frame {k c : Nat} {ts : List (Token UInt8)} {s : List UInt8} (h : Frame k c ts s) {p fuel p' : Nat}
    {out fin : List UInt8} (hs : Mem.Holds (fun i => some (src i)) p s) (hn : out.length + total ts = n)
    (hrun : loopsAll src old n fuel k c p out = some (p', fin)) : fin.length = n := by
  induction h generalizing p fuel out with
  | nil k c =>
    cases fuel with
    | zero =>
      unfold loopsAll at hrun
      rw [tokenLoop_done hn] at hrun
      cases hrun
    | succ fuel =>
      rw [loopsAll_done (.inl hn), Option.some.injEq, Prod.mk.injEq] at hrun
      rw [← hrun.2]
      exact hn
  | @ctrl c₀ c ts s hne hf ih =>
    obtain ⟨hc, hs⟩ := Mem.holds_cons.1 hs
    have hlen := hf.length_le_total
    have hpos := List.length_pos_iff.2 hne
    cases fuel with
    | zero => cases hrun
    | succ fuel =>
      rw [loopsAll_ctrl (by omega), Option.some.inj hc] at hrun
      exact ih hs hn hrun
  | @lit k c b ts s hc hf ih =>
    obtain ⟨hb, hs⟩ := Mem.holds_cons.1 hs
    rw [total_cons, lit_size] at hn
    rw [loopsAll_lit (by omega) hc] at hrun
    exact ih hs (by rw [List.length_append, List.length_singleton]; omega) hrun
  | @copy k c lo hi ts s hc hf ih =>
    obtain ⟨hlo, hs⟩ := Mem.holds_cons.1 hs
    obtain ⟨hhi, hs⟩ := Mem.holds_cons.1 hs
    rw [total_cons, backRef_size] at hn
    obtain ⟨out', hlen, hstep⟩ := loopsAll_copy src old (show out.length ≠ n by omega) hc p
    rw [Option.some.inj hlo, Option.some.inj hhi] at hlen
    rw [hstep] at hrun
    exact ih hs (by omega) hrun

/-- `DecompressData` always stops; it has written inside the output exactly where the stream lands on
its end. -/
theorem decompressData_inside_iff :
    (∃ p out, decompressData (fun i => some (src i)) (fun j => some (old j)) n = some (p, out) ∧ out.length ≤ n) ↔
      Lands src n := by
  obtain ⟨p', fin, hrun, hge⟩ : ∃ p' fin, loopsAll src old n (n + 1) 0 0 0 [] = some (p', fin) ∧ n ≤ fin.length :=
    loopsAll_ends n 0 0 0 [] (by omega) (by omega)
  have hdec : decompressData (fun i => some (src i)) (fun j => some (old j)) n = some (p', fin) := hrun
  rw [hdec]
  constructor
  · rintro ⟨p, out, hout, hle⟩
    cases hout
    obtain ⟨ts, s, hf, hs, hn⟩ := frame_of_loopsAll (n + 1) 0 0 0 [] p' fin hrun (by omega)
    exact ⟨ts, s, hf, hs, by simpa using hn⟩
  · rintro ⟨ts, s, hf, hs, hn⟩
    exact ⟨p', fin, rfl, Nat.le_of_eq (loopsAll_frame hf hs (by simpa using hn) hrun)⟩

end Compression

/-! ## The three decoders -/

/-- With all memory readable and writable, each of the three decoders stops having written nothing
behind the announced length exactly where the token sizes read off the data add up to that length. -/
theorem lzss_decoders_inside_iff (src : Nat → UInt8) (old : Int → UInt8) (n : Nat) :
    ((∃ p out, Compression.decompressData (fun i => some (src i)) (fun j => some (old j)) n = some (p, out) ∧
        out.length ≤ n) ↔ Lands src n) ∧
      ((∃ fuel out, LzssAsm.runAll src old n false fuel .loop1 ⟨0, [], 0, 0⟩ = some out ∧ out.length ≤ n) ↔
        Lands src n) ∧
      ((∃ fuel out, LzssAsm.runAll src old n true fuel .loop1 ⟨0, [], 0, 0⟩ = some out ∧ out.length ≤ n) ↔
        Lands src n) :=
  ⟨Compression.decompressData_inside_iff, LzssAsm.runAll_inside_iff, LzssAsm.runAll_inside_iff⟩

/-- Back-references for two bytes where one is announced: `DecompressData` writes a group of them,
sixteen bytes, and the other two never stop. -/
theorem lzss_decoders_overrun_zero :
    (Compression.decompressData (fun _ => some 0) (fun _ => some 0) 1).map (fun r => r.2.length) = some 16 ∧
      ∀ fuel, LzssAsm.runAll (fun _ => 0) (fun _ => 0) 1 false fuel .loop1 ⟨0, [], 0, 0⟩ = none ∧
        LzssAsm.runAll (fun _ => 0) (fun _ => 0) 1 true fuel .loop1 ⟨0, [], 0, 0⟩ = none := by
  have hnever : ∀ endTest fuel,
      LzssAsm.runAll (fun _ => 0) (fun _ => 0) 1 endTest fuel .loop1 ⟨0, [], 0, 0⟩ = none := by
    intro endTest fuel
    cases hrun : LzssAsm.runAll (fun _ => 0) (fun _ => 0) 1 endTest fuel .loop1 ⟨0, [], 0, 0⟩ with
    | none => rfl
    | some out =>
      obtain ⟨hout, -⟩ := LzssAsm.frame_of_runAll fuel 0 ⟨0, [], 0, 0⟩ out (fun h => absurd rfl h) hrun
      exact absurd (LzssAsm.runAll_inside_iff.1 ⟨fuel, out, hrun, Nat.le_of_eq hout⟩) not_lands_zero
  exact ⟨by decide +kernel, fun fuel => ⟨hnever false fuel, hnever true fuel⟩⟩

end SiglusExtract
