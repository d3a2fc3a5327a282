/-
The hooked program (my.cpp, `MemoryPatchManager`): the trampoline does what the instructions did that the hook replaces,
and so the program runs as before, with the handler inserted at each call of the function.
-/
import SiglusExtract.Mp.Hook

namespace SiglusExtract.Mp

open Bytes CInt Lde

variable {σ : Type} {m m' : Mem UInt8} {p q start limit stop tramp tail : Nat}

/-! ## Twins -/

/-- The instruction at the first address of `start` … `stop` is copied to the second one. -/
inductive Twin (m : Mem UInt8) (start stop tramp : Nat) : Nat → Nat → Prop
  | start : Twin m start stop tramp start tramp
  | next {p q n : Nat} {copied : List UInt8} (twin : Twin m start stop tramp p q) (hlt : p < stop)
      (hcopy : copyOneOpCode m q p (stop - p) (p - start) = some (copied, n)) :
      Twin m start stop tramp (p + n) (q + copied.length)

theorem Twin.start_le (h : Twin m start stop tramp p q) : start ≤ p := by
  induction h with
  | start => exact Nat.le_refl start
  | next _ _ _ ih => exact Nat.le_trans ih (Nat.le_add_right _ _)

theorem Twin.sweep (h : Twin m start stop tramp p q) (hsweep : Sweep m limit stop start) : Sweep m limit stop p := by
  induction h with
  | start => exact hsweep
  | next _ hlt hcopy ih =>
    cases ih with
    | nil => exact absurd hlt (Nat.lt_irrefl stop)
    | cons _ _ hlde rest =>
      rw [copyOneOpCode_length hcopy, Option.some.injEq] at hlde
      exact hlde ▸ rest

/-- The stub from `p` on is what stands at `q`, and ends at `tail`. -/
def Stubbed (m m' : Mem UInt8) (start stop tail p q : Nat) : Prop :=
  ∃ fuel stub, copyTrampolineStub m fuel q p (stop - p) (p - start) = some (stub, .success) ∧ m'.Holds q stub ∧
    q + stub.length = tail

/-- A round of `CopyTrampolineStub`. -/
theorem copyTrampolineStub_cons {fuel bytes backwardSize : Nat} {stub : List UInt8}
    (h : copyTrampolineStub m fuel q p bytes backwardSize = some (stub, .success)) (hpos : bytes ≠ 0) :
    ∃ fuel' copied n rest, copyOneOpCode m q p bytes backwardSize = some (copied, n) ∧
      copyTrampolineStub m fuel' (q + copied.length) (p + n) (bytes - n) (backwardSize + n) = some (rest, .success) ∧
      stub = copied ++ rest := by
  cases fuel with
  | zero => cases h
  | succ fuel =>
    rw [copyTrampolineStub, if_neg hpos] at h
    obtain ⟨b, -, h⟩ := Option.bind_eq_some_iff.1 h
    split at h
    · cases h
    · obtain ⟨⟨copied, n⟩, hcopy, h⟩ := Option.bind_eq_some_iff.1 h
      obtain ⟨⟨rest, status⟩, hrest, heq⟩ := Option.map_eq_some_iff.1 h
      cases heq
      exact ⟨fuel, copied, n, rest, hcopy, hrest, rfl⟩

theorem Stubbed.copied (h : Stubbed m m' start stop tail p q) (hlt : p < stop) (hstart : start ≤ p) :
    ∃ copied n, copyOneOpCode m q p (stop - p) (p - start) = some (copied, n) ∧ m'.Holds q copied ∧
      Stubbed m m' start stop tail (p + n) (q + copied.length) := by
  obtain ⟨fuel, stub, hstub, hheld, htail⟩ := h
  obtain ⟨fuel', copied, n, rest, hcopy, hrest, rfl⟩ := copyTrampolineStub_cons hstub (Nat.sub_ne_zero_of_lt hlt)
  obtain ⟨hheld, hheldrest⟩ := Mem.holds_append.1 hheld
  rw [List.length_append] at htail
  refine ⟨copied, n, hcopy, hheld, fuel', rest, ?_, hheldrest, by omega⟩
  rwa [show stop - (p + n) = stop - p - n by omega, show p + n - start = p - start + n by omega]

theorem Twin.stubbed (h : Twin m start stop tramp p q) (hstub : Stubbed m m' start stop tail start tramp) :
    Stubbed m m' start stop tail p q := by
  induction h with
  | start => exact hstub
  | next twin hlt hcopy ih =>
    obtain ⟨copied, n, hcopy', -, hnext⟩ := ih.copied hlt twin.start_le
    cases hcopy.symm.trans hcopy'
    exact hnext

theorem Stubbed.end_eq (h : Stubbed m m' start stop tail p q) (hle : stop ≤ p) : q = tail := by
  obtain ⟨fuel, stub, hstub, -, rfl⟩ := h
  cases fuel with
  | zero => cases hstub
  | succ fuel =>
    rw [copyTrampolineStub, if_pos (Nat.sub_eq_zero_of_le hle)] at hstub
    cases hstub
    rfl

/-! ## Targets -/

/-- The targets that keep their place among the copied instructions: the others behind the first one, and the branch
itself. -/
theorem inner_iff (kind : Branch) {target : Nat} (hstart : start ≤ p) (hstop : p < stop) (hmax : stop ≤ 2 ^ 32)
    (hsize : stop - start < 2 ^ 31) (htarget : target < 2 ^ 32) :
    (Op.branch kind target).inner p (stop - p) (p - start) = true ↔ start < target ∧ target < stop ∨ target = p := by
  have hi := i32_def (target - p)
  have hu := u32_mod (-i32 (target - p))
  have hlt := u32_lt (-i32 (target - p))
  show isInner (i32 (target - p)) (stop - p) (p - start) = true ↔ _
  unfold isInner
  split <;> rw [decide_eq_true_eq] <;> split at hi <;> omega

/-! ## The run of the copies -/

/-- Not behind the first one of the replaced instructions. -/
def Outside (start stop p : Nat) : Prop := p ≤ start ∨ stop ≤ p

/-- Where the hooked program stands when the original one stands at `p`: at the same address, or at the copy. -/
def Matches (m : Mem UInt8) (start stop tramp p q : Nat) : Prop :=
  (Outside start stop p ∧ q = p) ∨ (start < p ∧ Twin m start stop tramp p q)

/-- The instruction means the same at `q`: it is no call, an inner target keeps its distance, and nothing else but the
end of the instruction depends on the place. -/
def Op.Movable (cpu : Cpu σ) (m : Mem UInt8) (free : Nat → Prop) (start stop tramp p q : Nat) : Op → Prop
  | .branch kind target => kind ≠ .call ∧ (target = start → p ≠ start) ∧ (start < target → target < stop →
      ∃ q', Twin m start stop tramp target q' ∧ q' + p = q + target)
  | .jmpInd pointer => (∀ k < 4, free (pointer + k)) ∧
      ∀ target, dword m pointer = some target → Outside start stop target
  | .other bytes => ∀ s, cpu.exec q bytes s = cpu.exec p bytes s ∧
      ∀ target s', cpu.exec p bytes s = some (some target, s') → Outside start stop target

/-- The replaced instructions and their copies, which end at `tail`, in a memory that is the old one where it is
`free`. -/
structure Moved (cpu : Cpu σ) (m m' : Mem UInt8) (free : Nat → Prop) (start stop tramp tail : Nat) : Prop where
  same : ∀ a, free a → m' a = m a
  sweep : ∃ limit, Sweep m limit stop start
  small : stop - start < 2 ^ 31
  stop_le : stop ≤ 2 ^ 32
  tail_lt : tail < 2 ^ 32
  stubbed : Stubbed m m' start stop tail start tramp
  movable : ∀ p q bytes, Twin m start stop tramp p q → p < stop → fetch m p = some bytes →
    (decodeOp (p + bytes.length) bytes).Movable cpu m free start stop tramp p q

variable {cpu : Cpu σ} {bytes : List UInt8} {free : Nat → Prop}

theorem decodeOp_target {next target : Nat} {kind : Branch} (h : decodeOp next bytes = .branch kind target) :
    target < 2 ^ 32 := by
  unfold decodeOp at h
  split at h
  · split at h
    · cases h
      exact u32_lt _
    · split at h <;> cases h
      exact u32_lt _
  · split at h
    · cases h
      exact u32_lt _
    · split at h <;> cases h
      exact u32_lt _
  · split at h
    · cases h
      exact u32_lt _
    · split at h <;> cases h
  · cases h

theorem Stubbed.le (h : Stubbed m m' start stop tail p q) : q ≤ tail := by
  obtain ⟨_, _, _, _, rfl⟩ := h
  exact Nat.le_add_right _ _

theorem Matches.of_outside (h : Outside start stop p) : Matches m start stop tramp p p := .inl ⟨h, rfl⟩

theorem fetch_of_step {c : Nat × σ} {s : σ} (h : step cpu m (p, s) = some c) : ∃ bytes, fetch m p = some bytes ∧
    execute cpu m p (p + bytes.length) (decodeOp (p + bytes.length) bytes) s = some c := by
  rw [step, Option.bind_eq_bind, Option.bind_eq_some_iff] at h
  exact h

theorem fetch_length (h : fetch m p = some bytes) : 0 < bytes.length := lde_pos (fetch_eq_some.1 h).1

/-- Where a branch that is moved leads, if it is taken and if it is not. -/
theorem Moved.branch {kind : Branch} {target n : Nat} {copied : List UInt8}
    (h : Moved cpu m m' free start stop tramp tail) (htwin : Twin m start stop tramp p q) (hlt : p < stop)
    (hfetch : fetch m p = some bytes)
    (hcopy : copyOneOpCode m q p (stop - p) (p - start) = some (copied, n)) (hheld : m'.Holds q copied)
    (hop : decodeOp (p + bytes.length) bytes = .branch kind target) :
    fetch m' q = some copied ∧ Matches m start stop tramp (p + bytes.length) (q + copied.length) ∧
      ∃ target', decodeOp (q + copied.length) copied = .branch kind target' ∧
        Matches m start stop tramp target target' := by
  obtain ⟨hfetch', -, hdecode⟩ := copyOneOpCode_spec hfetch hcopy hheld
  have hlen : n = bytes.length :=
    Option.some.inj ((copyOneOpCode_length hcopy).symm.trans (fetch_eq_some.1 hfetch).1)
  have hpos := fetch_length hfetch
  have hstart := htwin.start_le
  have hnext := htwin.next hlt hcopy
  refine ⟨hfetch', .inr ⟨by omega, hlen ▸ hnext⟩, ?_⟩
  obtain ⟨-, hself, hland⟩ := by simpa only [hop, Op.Movable] using h.movable p q bytes htwin hlt hfetch
  have htarget := decodeOp_target hop
  have hinner := inner_iff kind hstart hlt h.stop_le h.small htarget
  rw [hop] at hdecode
  by_cases hin : (Op.branch kind target).inner p (stop - p) (p - start) = true
  · rw [if_pos hin, Op.move] at hdecode
    have hrange : start < target ∧ target < stop := by
      rcases hinner.1 hin with hrange | rfl
      · exact hrange
      · refine ⟨Nat.lt_of_le_of_ne hstart fun heq => hself heq.symm heq.symm, hlt⟩
    obtain ⟨q', htwin', hdist⟩ := hland hrange.1 hrange.2
    have hle := (htwin'.stubbed h.stubbed).le
    have htail := h.tail_lt
    have hq' : u32 (target + (q - p)) = q' := by
      rw [u32_eq (by omega) (by omega)]
      omega
    exact ⟨q', hq' ▸ hdecode, .inr ⟨hrange.1, htwin'⟩⟩
  · rw [if_neg hin] at hdecode
    have hout := mt hinner.2 hin
    exact ⟨target, hdecode, .of_outside (by unfold Outside; omega)⟩

/-- A step of a replaced instruction is a step of its copy. -/
theorem Moved.step {c : Nat × σ} {s : σ} (h : Moved cpu m m' free start stop tramp tail)
    (htwin : Twin m start stop tramp p q) (hlt : p < stop) (hstep : step cpu m (p, s) = some c) :
    ∃ q', step cpu m' (q, s) = some (q', c.2) ∧ Matches m start stop tramp c.1 q' := by
  obtain ⟨bytes, hfetch, hexec⟩ := fetch_of_step hstep
  obtain ⟨copied, n, hcopy, hheld, -⟩ := (htwin.stubbed h.stubbed).copied hlt htwin.start_le
  obtain ⟨hfetch', -, hdecode⟩ := copyOneOpCode_spec hfetch hcopy hheld
  have hlen : n = bytes.length :=
    Option.some.inj ((copyOneOpCode_length hcopy).symm.trans (fetch_eq_some.1 hfetch).1)
  have hmov := h.movable p q bytes htwin hlt hfetch
  have hfall : Matches m start stop tramp (p + bytes.length) (q + copied.length) :=
    .inr ⟨by have := fetch_length hfetch; have := htwin.start_le; omega, hlen ▸ htwin.next hlt hcopy⟩
  rw [step_of_fetch hfetch']
  cases hop : decodeOp (p + bytes.length) bytes with
  | branch kind target =>
    obtain ⟨-, -, target', hdecode', hmatch⟩ := h.branch htwin hlt hfetch hcopy hheld hop
    rw [hop] at hexec hmov
    rw [hdecode']
    cases kind with
    | jcc cc =>
      cases hexec
      by_cases hcond : cpu.cond cc s = true
      · exact ⟨target', by rw [execute, if_pos hcond], by rwa [if_pos hcond]⟩
      · exact ⟨q + copied.length, by rw [execute, if_neg hcond], by rwa [if_neg hcond]⟩
    | jmp =>
      cases hexec
      exact ⟨target', rfl, hmatch⟩
    | call => exact absurd rfl hmov.1
  | jmpInd pointer =>
    rw [hop] at hexec hmov hdecode
    obtain ⟨target, htarget, rfl⟩ := Option.map_eq_some_iff.1 hexec
    have hsame : decodeOp (q + copied.length) copied = .jmpInd pointer := hdecode.trans (if_neg Bool.false_ne_true)
    rw [hsame, execute, dword_congr fun k hk => h.same _ (hmov.1 k hk), htarget]
    exact ⟨target, rfl, .of_outside (hmov.2 target htarget)⟩
  | other l =>
    rw [hop] at hexec hmov hdecode
    obtain ⟨⟨next, s'⟩, hother, rfl⟩ := Option.map_eq_some_iff.1 hexec
    have hsame : decodeOp (q + copied.length) copied = .other l := hdecode.trans (if_neg Bool.false_ne_true)
    rw [hsame, execute, (hmov s).1, hother]
    cases next with
    | none => exact ⟨q + copied.length, rfl, hfall⟩
    | some target => exact ⟨target, rfl, .of_outside ((hmov s).2 target s' hother)⟩

/-! ## The hooked program -/

/-- A step of the program with the handler `H` inserted where control comes to `start`. -/
def HookedStep (cpu : Cpu σ) (m : Mem UInt8) (start : Nat) (H : σ → σ → Prop) (c c' : Nat × σ) : Prop :=
  if c.1 = start then ∃ s, H c.2 s ∧ step cpu m (start, s) = some c' else step cpu m c = some c'

/-- A program that enters the replaced instructions at the first one only, and whose other code and pointers the hook
leaves alone. -/
structure Program (cpu : Cpu σ) (m : Mem UInt8) (free : Nat → Prop) (start stop : Nat) (code : Nat → Prop) : Prop where
  closed : ∀ p s c, code p → step cpu m (p, s) = some c → code c.1
  entered : ∀ p s c, code p → ¬ (start ≤ p ∧ p < stop) → step cpu m (p, s) = some c → Outside start stop c.1
  kept : ∀ p bytes, code p → ¬ (start ≤ p ∧ p < stop) → fetch m p = some bytes →
    (∀ k < bytes.length, free (p + k)) ∧
      ∀ pointer, decodeOp (p + bytes.length) bytes = .jmpInd pointer → ∀ k < 4, free (pointer + k)

variable {code : Nat → Prop} {H : σ → σ → Prop}

/-- Elsewhere the hooked program makes the same step. -/
theorem Program.step {c : Nat × σ} {s : σ} (h : Program cpu m free start stop code)
    (hsame : ∀ a, free a → m' a = m a) (hp : code p) (hout : ¬ (start ≤ p ∧ p < stop))
    (hstep : step cpu m (p, s) = some c) : step cpu m' (p, s) = some c := by
  obtain ⟨bytes, hfetch, hexec⟩ := fetch_of_step hstep
  obtain ⟨hfree, hpointer⟩ := h.kept p bytes hp hout hfetch
  have hheld : m'.Holds p bytes := fun k hk => (hsame _ (hfree k hk)).trans ((fetch_eq_some.1 hfetch).2 k hk)
  rw [step_of_fetch (fetch_of_holds hfetch hheld)]
  cases hop : decodeOp (p + bytes.length) bytes with
  | branch kind target =>
    rw [hop] at hexec
    cases kind <;> exact hexec
  | jmpInd pointer =>
    rw [hop] at hexec
    rw [execute, dword_congr fun k hk => hsame _ (hpointer pointer hop k hk)]
    exact hexec
  | other l =>
    rw [hop] at hexec
    exact hexec

section Hooked

variable (hprog : Program cpu m free start stop code) (hmoved : Moved cpu m m' free start stop tramp tail)
  (hlt : start < stop) (hback : ∀ s, step cpu m' (tail, s) = some (stop, s))
  (hhook : ∀ s s', H s s' → Runs cpu m' (start, s) (tramp, s'))

include hmoved hback in
/-- A match outside is a match of the same address, behind the jump back at the latest. -/
theorem Matches.runs (h : Matches m start stop tramp p q) (hout : Outside start stop p) (s : σ) :
    Runs cpu m' (q, s) (p, s) := by
  obtain ⟨-, rfl⟩ | ⟨hp, htwin⟩ := h
  · exact .refl
  · obtain ⟨limit, hsweep⟩ := hmoved.sweep
    have hle : stop ≤ p := hout.resolve_left (Nat.not_le.2 hp)
    obtain rfl : p = stop := Nat.le_antisymm (htwin.sweep hsweep).le hle
    rw [(htwin.stubbed hmoved.stubbed).end_eq (Nat.le_refl p)]
    exact .single (hback s)

include hprog hmoved hlt hback hhook in
/-- A step of the program with the handler is some steps of the hooked one. -/
theorem hooked_step {c c' : Nat × σ} (hc : code c.1) (hmatch : Matches m start stop tramp c.1 q)
    (hstep : HookedStep cpu m start H c c') :
    ∃ q', Runs cpu m' (q, c.2) (q', c'.2) ∧ Matches m start stop tramp c'.1 q' := by
  obtain ⟨p, s⟩ := c
  unfold HookedStep at hstep
  split at hstep
  · next hstart =>
    dsimp only at hstart hmatch
    subst hstart
    obtain ⟨s', hs', hstep⟩ := hstep
    obtain ⟨-, rfl⟩ : Outside p stop p ∧ q = p := hmatch.resolve_right fun h => Nat.lt_irrefl p h.1
    obtain ⟨q', hq', hmatch'⟩ := hmoved.step .start hlt hstep
    exact ⟨q', (hhook s s' hs').tail hq', hmatch'⟩
  · next hstart =>
    by_cases hin : start ≤ p ∧ p < stop
    · have hp : start < p := Nat.lt_of_le_of_ne hin.1 (Ne.symm hstart)
      have htwin : Twin m start stop tramp p q := by
        rcases hmatch with ⟨hout, -⟩ | ⟨-, htwin⟩
        · exact absurd hin.2 (Nat.not_lt.2 (hout.resolve_left (Nat.not_le.2 hp)))
        · exact htwin
      obtain ⟨q', hq', hmatch'⟩ := hmoved.step htwin hin.2 hstep
      exact ⟨q', .single hq', hmatch'⟩
    · have hout : Outside start stop p := by
        unfold Outside
        omega
      refine ⟨c'.1, (hmatch.runs hmoved hback hout s).tail (hprog.step hmoved.same hc hin hstep), ?_⟩
      exact .of_outside (hprog.entered p s c' hc hin hstep)

include hprog in
theorem HookedStep.closed {c c' : Nat × σ} (hc : code c.1) (hstep : HookedStep cpu m start H c c') : code c'.1 := by
  unfold HookedStep at hstep
  split at hstep
  · next hstart =>
    obtain ⟨s, -, hstep⟩ := hstep
    exact hprog.closed start s c' (hstart ▸ hc) hstep
  · exact hprog.closed c.1 c.2 c' hc hstep

include hprog hmoved hlt hback hhook in
/-- A run of the program with the handler, from outside to outside, is a run of the hooked one. -/
theorem hooked_run {c c' : Nat × σ} (hc : code c.1) (hout : Outside start stop c.1) (hout' : Outside start stop c'.1)
    (hruns : Relation.ReflTransGen (HookedStep cpu m start H) c c') : Runs cpu m' c c' := by
  have hinv : code c'.1 ∧ ∃ q, Runs cpu m' c (q, c'.2) ∧ Matches m start stop tramp c'.1 q := by
    clear hout'
    induction hruns with
    | refl => exact ⟨hc, c.1, .refl, .of_outside hout⟩
    | tail _ hstep ih =>
      obtain ⟨hc', q, hq, hmatch⟩ := ih
      obtain ⟨q', hq', hmatch'⟩ := hooked_step hprog hmoved hlt hback hhook hc' hmatch hstep
      exact ⟨HookedStep.closed hprog hc' hstep, q', hq.trans hq', hmatch'⟩
  obtain ⟨-, q, hq, hmatch⟩ := hinv
  exact hq.trans (hmatch.runs hmoved hback hout' c'.2)

end Hooked

end SiglusExtract.Mp
