/-
`HardwareBreakpoint` (hardwarebp.cpp, hardwarebp.h): breakpoints that share the debug registers of a thread. In every
run each of them has a register of its own, which watches what it was set to, and breakpoints that others have set
stay; only the form of `Clear` for an exception takes all addresses away.
-/
import SiglusExtract.Lib.BitField
import Mathlib.Data.List.FinRange
import Mathlib.Logic.Function.Basic

namespace SiglusExtract.HardwareBreakpoint

open BitField

/-! ## The registers -/

/-- `Dr0` to `Dr3` and `Dr7`. -/
structure Context where
  dr : Fin 4 → BitVec 32
  dr7 : BitVec 32

/-- `Condition`. -/
inductive Condition
  | write
  | read
  deriving DecidableEq, Repr

def Condition.value : Condition → BitVec 32
  | .write => 1
  | .read => 3

/-- The code of a length in bytes. -/
def lenCode : Int → Option (BitVec 32)
  | 1 => some 0
  | 2 => some 1
  | 4 => some 3
  | _ => none

/-- The loop over the registers, which stops at the first one that is not enabled. -/
def findAvailable (dr7 : BitVec 32) : Option (Fin 4) :=
  (List.finRange 4).find? fun i => dr7 &&& (1#32 <<< (i.val * 2)) = 0

/-- The calls of `SetBits` in `Set`. -/
def arm (dr7 : BitVec 32) (i : Fin 4) (when len : BitVec 32) : BitVec 32 :=
  set (set (set dr7 (16 + i * 4) 2 when) (18 + i * 4) 2 len) (i * 2) 1 1

/-- The call of `SetBits` in `Clear`. -/
def disarm (dr7 : BitVec 32) (i : Fin 4) : BitVec 32 := set dr7 (i * 2) 1 0

/-! ## The objects -/

/-- The registers of the thread, and `m_index` of each object, `none` for -1. -/
structure State where
  context : Context
  index : Nat → Option (Fin 4)

/-- A call of a method of an object. -/
inductive Call
  | set (object : Nat) (address : BitVec 32) (len : Int) (when : Condition)
  | clear (object : Nat)
  | clearContext (object : Nat)
  deriving DecidableEq, Repr

/-- `Set`; `none` where an assertion fails. -/
def State.set (s : State) (object : Nat) (address : BitVec 32) (len : Int) (when : Condition) : Option State :=
  if s.index object = none then
    (lenCode len).bind fun len => (findAvailable s.context.dr7).map fun i =>
      ⟨⟨Function.update s.context.dr i address, arm s.context.dr7 i when.value len⟩,
        Function.update s.index object (some i)⟩
  else none

/-- `Clear`. -/
def State.clear (s : State) (object : Nat) : State :=
  match s.index object with
  | none => s
  | some i => ⟨{ s.context with dr7 := disarm s.context.dr7 i }, Function.update s.index object none⟩

/-- `Clear` on the registers of an exception; it does not look whether the breakpoint is set. -/
def State.clearContext (s : State) (object : Nat) : Option State :=
  (s.index object).map fun i => ⟨⟨fun _ => 0, disarm s.context.dr7 i⟩, Function.update s.index object none⟩

def State.step (s : State) : Call → Option State
  | .set object address len when => s.set object address len when
  | .clear object => some (s.clear object)
  | .clearContext object => s.clearContext object

def State.run (s : State) (calls : List Call) : Option State := calls.foldlM State.step s

/-! ## What they watch -/

/-- What a breakpoint has been set to. -/
structure Breakpoint where
  address : BitVec 32
  len : Int
  when : Condition
  deriving DecidableEq, Repr

/-- The breakpoints of the objects, and the addresses in the registers of others. -/
structure Watched where
  object : Nat → Option Breakpoint
  other : Fin 4 → BitVec 32

def Watched.step (w : Watched) : Call → Watched
  | .set object address len when => { w with object := Function.update w.object object (some ⟨address, len, when⟩) }
  | .clear object => { w with object := Function.update w.object object none }
  | .clearContext object =>
    ⟨Function.update (fun o => (w.object o).map fun b => { b with address := 0 }) object none, fun _ => 0⟩

/-- The register is enabled. -/
def Enabled (dr7 : BitVec 32) (i : Fin 4) : Prop := dr7.getLsbD (i * 2) = true

instance (dr7 : BitVec 32) (i : Fin 4) : Decidable (Enabled dr7 i) := inferInstanceAs (Decidable (_ = _))

/-- The register watches for the breakpoint. -/
structure Watches (c : Context) (i : Fin 4) (b : Breakpoint) : Prop where
  address : c.dr i = b.address
  when : get c.dr7 (16 + i * 4) 2 = b.when.value.setWidth 2
  len : ∃ code, lenCode b.len = some code ∧ get c.dr7 (18 + i * 4) 2 = code.setWidth 2
  enabled : Enabled c.dr7 i

/-- What holds behind every run from the registers `c₀`: each object has a register of its own, which was not in use. -/
structure Inv (c₀ : Context) (s : State) (w : Watched) : Prop where
  none : ∀ o, s.index o = none ↔ w.object o = none
  watches : ∀ o i b, s.index o = some i → w.object o = some b → Watches s.context i b
  own : ∀ o o' i, s.index o = some i → s.index o' = some i → o = o'
  free : ∀ o i, s.index o = some i → ¬ Enabled c₀.dr7 i
  enabled : ∀ i, (∀ o, s.index o ≠ some i) → (Enabled s.context.dr7 i ↔ Enabled c₀.dr7 i)
  other : ∀ i, Enabled c₀.dr7 i → s.context.dr i = w.other i ∧
    get s.context.dr7 (16 + i * 4) 4 = get c₀.dr7 (16 + i * 4) 4
  rest : ∀ k < 16, k % 2 = 1 ∨ 8 ≤ k → s.context.dr7.getLsbD k = c₀.dr7.getLsbD k

/-! ## What the calls change -/

variable {dr7 when len : BitVec 32} {i j : Fin 4} {k : Nat}

theorem condition_fits (when : Condition) : Fits when.value 2 := by
  cases when <;> decide

theorem lenCode_fits {n : Int} (h : lenCode n = some len) : Fits len 2 := by
  unfold lenCode at h
  split at h <;> cases h <;> decide

theorem and_shift_eq_zero_iff : dr7 &&& (1#32 <<< (i.val * 2)) = 0 ↔ ¬ Enabled dr7 i := by
  have hi := i.isLt
  rw [← BitVec.twoPow_eq, BitVec.and_twoPow, Enabled]
  cases dr7.getLsbD (i.val * 2) with
  | false => simp
  | true =>
    refine iff_of_false (fun h => ?_) (by simp)
    have hbit := congrArg (fun x => x.getLsbD (i.val * 2)) h
    simp [show i.val * 2 < 32 by omega] at hbit

/-- The loop finds a register that is not enabled, if there is one. -/
theorem findAvailable_some (h : findAvailable dr7 = some i) : ¬ Enabled dr7 i := by
  have := List.find?_some h
  rwa [decide_eq_true_eq, and_shift_eq_zero_iff] at this

theorem findAvailable_none : findAvailable dr7 = none ↔ ∀ i, Enabled dr7 i := by
  rw [findAvailable, List.find?_eq_none]
  constructor
  · intro h i
    have := h i (List.mem_finRange i)
    rwa [decide_eq_true_eq, and_shift_eq_zero_iff, not_not] at this
  · intro h i _
    rw [decide_eq_true_eq, and_shift_eq_zero_iff, not_not]
    exact h i

/-- The bits of the three fields that `arm` sets. -/
def Armed (i : Fin 4) (k : Nat) : Prop := k = i * 2 ∨ 16 + i * 4 ≤ k ∧ k < 20 + i * 4

theorem arm_outside (hwhen : Fits when 2) (hlen : Fits len 2) (hk : ¬ Armed i k) :
    (arm dr7 i when len).getLsbD k = dr7.getLsbD k := by
  unfold Armed at hk
  have hone : Fits (1 : BitVec 32) 1 := by decide
  rw [arm, getLsbD_set_outside hone (by omega), getLsbD_set_outside hlen (by omega),
    getLsbD_set_outside hwhen (by omega)]

theorem arm_enabled : Enabled (arm dr7 i when len) i := by
  have hi := i.isLt
  have := @getLsbD_set_inside 32 (set (set dr7 (16 + i * 4) 2 when) (18 + i * 4) 2 len) 1 (i * 2) 1 0 (by omega)
    (by decide)
  rw [Enabled, arm]
  simpa using this

theorem arm_len : get (arm dr7 i when len) (18 + i * 4) 2 = len.setWidth 2 := by
  have hi := i.isLt
  have hone : Fits (1 : BitVec 32) 1 := by decide
  rw [arm, get_set_apart hone (by omega), get_set (by omega)]

theorem arm_when (hlen : Fits len 2) : get (arm dr7 i when len) (16 + i * 4) 2 = when.setWidth 2 := by
  have hi := i.isLt
  have hone : Fits (1 : BitVec 32) 1 := by decide
  rw [arm, get_set_apart hone (by omega), get_set_apart hlen (by omega), get_set (by omega)]

theorem disarm_outside (hk : k ≠ i * 2) : (disarm dr7 i).getLsbD k = dr7.getLsbD k := by
  have hzero : Fits (0 : BitVec 32) 1 := by decide
  rw [disarm, getLsbD_set_outside hzero (by omega)]

theorem disarm_enabled : ¬ Enabled (disarm dr7 i) i := by
  have hi := i.isLt
  have := @getLsbD_set_inside 32 dr7 0 (i * 2) 1 0 (by omega) (by decide)
  rw [Enabled, disarm]
  simpa using this

/-- A register watches for the same where its bits and its address stay. -/
theorem Watches.congr {c c' : Context} {b b' : Breakpoint} (h : Watches c i b)
    (hbits : ∀ k, Armed i k → c'.dr7.getLsbD k = c.dr7.getLsbD k) (haddress : c'.dr i = b'.address)
    (hlen : b'.len = b.len) (hwhen : b'.when = b.when) : Watches c' i b' := by
  refine ⟨haddress, ?_, ?_, ?_⟩
  · rw [hwhen, ← h.when]
    exact get_congr fun k hle hlt => hbits k (.inr (by omega))
  · obtain ⟨code, hcode, hget⟩ := h.len
    refine ⟨code, by rw [hlen, hcode], ?_⟩
    rw [← hget]
    exact get_congr fun k hle hlt => hbits k (.inr (by omega))
  · rw [Enabled, hbits _ (.inl rfl)]
    exact h.enabled

/-! ## What every call keeps -/

section Keeps

variable {c₀ : Context} {s s' : State} {w : Watched} {object : Nat}

theorem Inv.watched (h : Inv c₀ s w) {o : Nat} (ho : s.index o = some i) : ∃ b, w.object o = some b := by
  rw [← Option.ne_none_iff_exists', Ne, ← h.none o, ho]
  exact Option.some_ne_none i

/-- A register that is not enabled belongs to nobody. -/
theorem Inv.not_held (h : Inv c₀ s w) (hi : ¬ Enabled s.context.dr7 i) (o : Nat) : s.index o ≠ some i := by
  intro ho
  obtain ⟨b, hb⟩ := h.watched ho
  exact hi (h.watches o i b ho hb).enabled

theorem armed_apart (hij : i ≠ j) (hk : Armed j k) : ¬ Armed i k := by
  have hne : i.val ≠ j.val := fun h => hij (Fin.ext h)
  have hi := i.isLt
  have hj := j.isLt
  unfold Armed at *
  omega

theorem set_inv (h : Inv c₀ s w) {address : BitVec 32} {n : Int} {when : Condition}
    (hset : s.set object address n when = some s') : Inv c₀ s' (w.step (.set object address n when)) := by
  rw [State.set] at hset
  split at hset
  · next hnone =>
    rw [Option.bind_eq_some_iff] at hset
    obtain ⟨code, hcode, hset⟩ := hset
    rw [Option.map_eq_some_iff] at hset
    obtain ⟨i, hi, rfl⟩ := hset
    have hfree := findAvailable_some hi
    have hheld := h.not_held hfree
    have hout : ∀ {k}, ¬ Armed i k → (arm s.context.dr7 i when.value code).getLsbD k = s.context.dr7.getLsbD k :=
      fun hk => arm_outside (condition_fits when) (lenCode_fits hcode) hk
    have hbefore {o : Nat} {j : Fin 4} (ho : Function.update s.index object (some i) o = some j) (hne : o ≠ object) :
        s.index o = some j := by rwa [Function.update_of_ne hne] at ho
    constructor
    · intro o
      by_cases ho : o = object
      · subst ho
        simp [Watched.step]
      · simpa [Watched.step, ho] using h.none o
    · intro o j b hj hb
      by_cases ho : o = object
      · subst ho
        simp only [Watched.step, Function.update_self, Option.some.injEq] at hj hb
        subst hj hb
        exact ⟨Function.update_self .., arm_when (lenCode_fits hcode), ⟨code, hcode, arm_len⟩, arm_enabled⟩
      · have hj := hbefore hj ho
        have hb : w.object o = some b := by simpa [Watched.step, ho] using hb
        have hij : i ≠ j := fun heq => hheld o (heq ▸ hj)
        have hw := h.watches o j b hj hb
        refine hw.congr (fun k hk => hout (armed_apart hij hk)) ?_ rfl rfl
        exact (Function.update_of_ne hij.symm ..).trans hw.address
    · intro o o' j hj hj'
      by_cases ho : o = object
      · subst ho
        simp only [Function.update_self, Option.some.injEq] at hj
        subst hj
        by_contra hne
        exact hheld o' (hbefore hj' fun heq => hne heq.symm)
      · by_cases ho' : o' = object
        · subst ho'
          simp only [Function.update_self, Option.some.injEq] at hj'
          subst hj'
          exact absurd (hbefore hj ho) (hheld o)
        · exact h.own o o' j (hbefore hj ho) (hbefore hj' ho')
    · intro o j hj
      by_cases ho : o = object
      · subst ho
        simp only [Function.update_self, Option.some.injEq] at hj
        subst hj
        rwa [← h.enabled i hheld]
      · exact h.free o j (hbefore hj ho)
    · intro j hj
      have hij : i ≠ j := fun heq => hj object (by rw [← heq]; exact Function.update_self ..)
      rw [← h.enabled j]
      · exact iff_of_eq (congrArg (· = true) (hout (armed_apart hij (.inl rfl))))
      · intro o ho
        have hne : o ≠ object := by
          rintro rfl
          rw [hnone] at ho
          cases ho
        exact hj o ((Function.update_of_ne hne ..).trans ho)
    · intro j hj
      have hij : i ≠ j := by
        rintro rfl
        exact hfree ((h.enabled i hheld).2 hj)
      obtain ⟨haddress, hbits⟩ := h.other j hj
      refine ⟨(Function.update_of_ne hij.symm ..).trans haddress, ?_⟩
      rw [← hbits]
      exact get_congr fun k hle hlt => hout (armed_apart hij (.inr (by omega)))
    · intro k hk hodd
      rw [← h.rest k hk hodd]
      exact hout (by unfold Armed; omega)
  · cases hset

/-- Clearing an object that is set, where the addresses of all registers change alike. -/
theorem disarm_inv (h : Inv c₀ s w) (hi : s.index object = some i) (f : BitVec 32 → BitVec 32) :
    Inv c₀ ⟨⟨fun j => f (s.context.dr j), disarm s.context.dr7 i⟩, Function.update s.index object none⟩
      ⟨Function.update (fun o => (w.object o).map fun b => { b with address := f b.address }) object none,
        fun j => f (w.other j)⟩ := by
  have hbefore {o : Nat} {j : Fin 4} (ho : Function.update s.index object none o = some j) :
      o ≠ object ∧ s.index o = some j := by
    by_cases hne : o = object
    · subst hne
      rw [Function.update_self] at ho
      cases ho
    · exact ⟨hne, by rwa [Function.update_of_ne hne] at ho⟩
  have hout {j : Fin 4} (hij : i ≠ j) {k : Nat} (hk : Armed j k) :
      (disarm s.context.dr7 i).getLsbD k = s.context.dr7.getLsbD k :=
    disarm_outside fun heq => armed_apart hij hk (.inl heq)
  constructor
  · intro o
    by_cases ho : o = object
    · subst ho
      simp
    · simpa [ho] using h.none o
  · intro o j b' hj hb'
    obtain ⟨ho, hj⟩ := hbefore hj
    dsimp only at hb'
    rw [Function.update_of_ne ho, Option.map_eq_some_iff] at hb'
    obtain ⟨b, hb, rfl⟩ := hb'
    have hij : i ≠ j := fun heq => ho (h.own o object j hj (heq ▸ hi))
    have hw := h.watches o j b hj hb
    exact hw.congr (fun k hk => hout hij hk) (congrArg f hw.address) rfl rfl
  · exact fun o o' j hj hj' => h.own o o' j (hbefore hj).2 (hbefore hj').2
  · exact fun o j hj => h.free o j (hbefore hj).2
  · intro j hj
    by_cases hij : i = j
    · subst hij
      exact iff_of_false disarm_enabled (h.free object i hi)
    · rw [← h.enabled j]
      · exact iff_of_eq (congrArg (· = true) (hout hij (.inl rfl)))
      · intro o ho
        have hne : o ≠ object := by
          rintro rfl
          exact hij (Option.some.inj (hi.symm.trans ho))
        exact hj o ((Function.update_of_ne hne ..).trans ho)
  · intro j hj
    have hij : i ≠ j := by
      rintro rfl
      exact h.free object i hi hj
    obtain ⟨haddress, hbits⟩ := h.other j hj
    refine ⟨congrArg f haddress, ?_⟩
    rw [← hbits]
    exact get_congr fun k hle hlt => hout hij (.inr (by omega))
  · intro k hk hodd
    rw [← h.rest k hk hodd]
    exact disarm_outside (by omega)

theorem clear_inv (h : Inv c₀ s w) : Inv c₀ (s.clear object) (w.step (.clear object)) := by
  rw [State.clear, Watched.step]
  cases hi : s.index object with
  | none =>
    rw [← (h.none object).1 hi, Function.update_eq_self]
    exact h
  | some i =>
    have := disarm_inv h hi id
    simpa using this

theorem step_inv (h : Inv c₀ s w) {call : Call} (hstep : s.step call = some s') : Inv c₀ s' (w.step call) := by
  cases call with
  | set object address len when => exact set_inv h hstep
  | clear object =>
    cases hstep
    exact clear_inv h
  | clearContext object =>
    rw [State.step, State.clearContext, Option.map_eq_some_iff] at hstep
    obtain ⟨i, hi, rfl⟩ := hstep
    exact disarm_inv h hi fun _ => 0

/-! ## Runs -/

/-- The objects before any call, on a thread with the registers `c`. -/
def State.start (c : Context) : State := ⟨c, fun _ => none⟩

def Watched.start (c : Context) : Watched := ⟨fun _ => none, c.dr⟩

theorem start_inv (c : Context) : Inv c (.start c) (.start c) where
  none _ := iff_of_true rfl rfl
  watches _ _ _ h := by cases h
  own _ _ _ h := by cases h
  free _ _ h := by cases h
  enabled _ _ := Iff.rfl
  other _ _ := ⟨rfl, rfl⟩
  rest _ _ _ := rfl

theorem run_inv : ∀ {calls : List Call} {s s' : State} {w : Watched}, Inv c₀ s w → s.run calls = some s' →
    Inv c₀ s' (calls.foldl Watched.step w)
  | [], s, s', w, h, hrun => by
    cases hrun
    exact h
  | call :: calls, s, s', w, h, hrun => by
    rw [State.run, List.foldlM_cons, Option.bind_eq_bind, Option.bind_eq_some_iff] at hrun
    obtain ⟨s₁, hstep, hrun⟩ := hrun
    rw [List.foldl_cons]
    exact run_inv (step_inv h hstep) hrun

theorem lenCode_eq_none {n : Int} : lenCode n = none ↔ ¬ (n = 1 ∨ n = 2 ∨ n = 4) := by
  unfold lenCode
  split <;> simp_all

/-- What makes a `Set` of an object fail that is not set. -/
theorem set_eq_none_iff {n : Int} {address : BitVec 32} {when : Condition} (hnone : s.index object = none) :
    s.set object address n when = none ↔ ¬ (n = 1 ∨ n = 2 ∨ n = 4) ∨ ∀ i, Enabled s.context.dr7 i := by
  rw [State.set, if_pos hnone, ← lenCode_eq_none, ← findAvailable_none]
  cases lenCode n with
  | none => exact iff_of_true rfl (.inl rfl)
  | some code => rw [Option.bind_some, Option.map_eq_none_iff, or_iff_right (Option.some_ne_none code)]

/-- In every run each object that is set has a register of its own that watches what it was set to, or address 0 after
an exception; the registers that were in use before stay so, and a `Set` fails only for another length than 1, 2 and 4
or where all four are in use. -/
theorem run_watches {calls : List Call} (hrun : (State.start c₀).run calls = some s) :
    Inv c₀ s (calls.foldl Watched.step (.start c₀)) ∧
      ∀ object address len when, s.index object = none →
        (s.set object address len when = none ↔
          ¬ (len = 1 ∨ len = 2 ∨ len = 4) ∨ ∀ i, Enabled s.context.dr7 i) :=
  ⟨run_inv (start_inv c₀) hrun, fun _ _ _ _ hnone => set_eq_none_iff hnone⟩

/-- Breakpoints on a thread with one of a debugger in the first register; the first one of them is hit. -/
def sampleCalls : List Call :=
  [.set 0 0x401000 4 .write, .set 1 0x402000 1 .read, .clearContext 0, .set 2 0x403000 2 .write]

theorem run_watches_sample : ∃ s, (State.start ⟨fun _ => 0x500000, 1⟩).run sampleCalls = some s ∧
    Inv ⟨fun _ => 0x500000, 1⟩ s (sampleCalls.foldl Watched.step (.start ⟨fun _ => 0x500000, 1⟩)) ∧
      ∀ object address len when, s.index object = none →
        (s.set object address len when = none ↔
          ¬ (len = 1 ∨ len = 2 ∨ len = 4) ∨ ∀ i, Enabled s.context.dr7 i) := by
  have hsome : ((State.start ⟨fun _ => 0x500000, 1⟩).run sampleCalls).isSome := by decide +kernel
  obtain ⟨s, hrun⟩ := Option.isSome_iff_exists.1 hsome
  exact ⟨s, hrun, run_watches hrun⟩

end Keeps

end SiglusExtract.HardwareBreakpoint
