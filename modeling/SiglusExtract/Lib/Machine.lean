/-
Programs that run step by step: a step emits events and either goes on or halts. The runs are bounded by
fuel; an invariant carries over a run, a measure bounds the fuel a run needs, and two programs whose
steps match show the same. Programs that react to inputs run as long as the inputs do.
-/
import Mathlib.Data.List.Basic

namespace Machine

/-- What a step does, with what it emits: it goes on in a next state, or halts with a result. -/
inductive Step (ε ρ σ : Type)
  | more (emit : List ε) (next : σ)
  | halt (emit : List ε) (result : ρ)

variable {ε ε' ρ ρ' σ σ' α : Type}

def Step.emit : Step ε ρ σ → List ε
  | .more emit _ => emit
  | .halt emit _ => emit

/-- At most `fuel` steps: all that is emitted, and the result, `none` where the run has not halted. -/
def run (step : σ → Step ε ρ σ) : Nat → σ → List ε × Option ρ
  | 0, _ => ([], none)
  | fuel + 1, s =>
    match step s with
    | .more emit s => (emit ++ (run step fuel s).1, (run step fuel s).2)
    | .halt emit r => (emit, some r)

theorem run_more {step : σ → Step ε ρ σ} {s s' : σ} {emit : List ε} (h : step s = .more emit s') (fuel : Nat) :
    run step (fuel + 1) s = (emit ++ (run step fuel s').1, (run step fuel s').2) := by
  rw [run, h]

theorem run_halt {step : σ → Step ε ρ σ} {s : σ} {emit : List ε} {r : ρ} (h : step s = .halt emit r) (fuel : Nat) :
    run step (fuel + 1) s = (emit, some r) := by
  rw [run, h]

theorem emit_mem_run {step : σ → Step ε ρ σ} {s : σ} {e : ε} (he : e ∈ (step s).emit) (fuel : Nat) :
    e ∈ (run step (fuel + 1) s).1 := by
  unfold run
  generalize step s = x at he
  cases x with
  | more emit s' => exact List.mem_append_left _ he
  | halt emit r => exact he

/-- The run halts with the result, having emitted the log. -/
def Ends (step : σ → Step ε ρ σ) (s : σ) (log : List ε) (r : ρ) : Prop := ∃ fuel, run step fuel s = (log, some r)

theorem Ends.halt {step : σ → Step ε ρ σ} {s : σ} {emit : List ε} {r : ρ} (h : step s = .halt emit r) :
    Ends step s emit r := ⟨1, run_halt h 0⟩

theorem Ends.more {step : σ → Step ε ρ σ} {s s' : σ} {emit log : List ε} {r : ρ} (h : step s = .more emit s')
    (hs : Ends step s' log r) : Ends step s (emit ++ log) r := by
  obtain ⟨fuel, hfuel⟩ := hs
  exact ⟨fuel + 1, by rw [run_more h, hfuel]⟩

/-- More fuel does not change a run that has halted. -/
theorem run_add {step : σ → Step ε ρ σ} (extra : Nat) :
    ∀ {fuel : Nat} {s : σ} {log : List ε} {r : ρ}, run step fuel s = (log, some r) →
      run step (fuel + extra) s = (log, some r)
  | 0, s, log, r, h => by cases h
  | fuel + 1, s, log, r, h => by
    rw [Nat.add_right_comm]
    cases hst : step s with
    | more emit s' =>
      rw [run_more hst, Prod.mk.injEq] at h
      rw [run_more hst, run_add extra (Prod.ext_iff.2 ⟨rfl, h.2⟩), h.1]
    | halt emit r' =>
      rw [run_halt hst] at h
      rw [run_halt hst, h]

/-- A run halts one way only. -/
theorem Ends.unique {step : σ → Step ε ρ σ} {s : σ} {log log' : List ε} {r r' : ρ} (h : Ends step s log r)
    (h' : Ends step s log' r') : log = log' ∧ r = r' := by
  obtain ⟨fuel, h⟩ := h
  obtain ⟨fuel', h'⟩ := h'
  have hboth := (run_add fuel' h).symm.trans (Nat.add_comm fuel fuel' ▸ run_add fuel h')
  rw [Prod.mk.injEq, Option.some.injEq] at hboth
  exact hboth

/-- A measure that every step lowers and the fuel exceeds: the run halts. The invariant says where. -/
theorem run_halts {step : σ → Step ε ρ σ} (Inv : σ → Prop) (measure : σ → Nat)
    (hstep : ∀ s emit s', Inv s → step s = .more emit s' → Inv s' ∧ measure s' < measure s) :
    ∀ {fuel : Nat} {s : σ}, Inv s → measure s < fuel → ∃ r, (run step fuel s).2 = some r
  | 0, s, _, h => absurd h (Nat.not_lt_zero _)
  | fuel + 1, s, hs, h => by
    cases hst : step s with
    | more emit s' =>
      obtain ⟨hs', hlt⟩ := hstep s emit s' hs hst
      rw [run_more hst]
      exact run_halts Inv measure hstep hs' (by omega)
    | halt emit r => exact ⟨r, by rw [run_halt hst]⟩

/-- A run whose steps all go on does not halt. -/
theorem run_never {step : σ → Step ε ρ σ} (Inv : σ → Prop)
    (hstep : ∀ s, Inv s → ∃ emit s', step s = .more emit s' ∧ Inv s') :
    ∀ (fuel : Nat) {s : σ}, Inv s → (run step fuel s).2 = none
  | 0, _, _ => rfl
  | fuel + 1, s, hs => by
    obtain ⟨emit, s', hst, hs'⟩ := hstep s hs
    rw [run_more hst]
    exact run_never Inv hstep fuel hs'

/-- What every step from a state of the invariant emits, a run emits. -/
theorem run_emit {step : σ → Step ε ρ σ} (Inv : σ → Prop) (P : ε → Prop)
    (hemit : ∀ s, Inv s → ∀ e ∈ (step s).emit, P e)
    (hstep : ∀ s emit s', Inv s → step s = .more emit s' → Inv s') :
    ∀ {fuel : Nat} {s : σ}, Inv s → ∀ e ∈ (run step fuel s).1, P e
  | 0, s, _, e, he => by cases he
  | fuel + 1, s, hs, e, he => by
    have hfirst := hemit s hs
    cases hst : step s with
    | more emit s' =>
      rw [hst] at hfirst
      rw [run_more hst, List.mem_append] at he
      rcases he with he | he
      · exact hfirst e he
      · exact run_emit Inv P hemit hstep (hstep s emit s' hs hst) e he
    | halt emit r =>
      rw [hst] at hfirst
      rw [run_halt hst] at he
      exact hfirst e he

/-- What every halt from a state of the invariant results in, a run results in. -/
theorem run_result {step : σ → Step ε ρ σ} (Inv : σ → Prop) (Q : ρ → Prop)
    (hhalt : ∀ s emit r, Inv s → step s = .halt emit r → Q r)
    (hstep : ∀ s emit s', Inv s → step s = .more emit s' → Inv s') :
    ∀ {fuel : Nat} {s : σ} {r : ρ}, Inv s → (run step fuel s).2 = some r → Q r
  | 0, s, r, _, hr => by cases hr
  | fuel + 1, s, r, hs, hr => by
    cases hst : step s with
    | more emit s' =>
      rw [run_more hst] at hr
      exact run_result Inv Q hhalt hstep (hstep s emit s' hs hst) hr
    | halt emit r' =>
      rw [run_halt hst, Option.some.injEq] at hr
      exact hr ▸ hhalt s emit r' hs hst

/-- A run from the first state comes through the second one. -/
inductive Visits (step : σ → Step ε ρ σ) : σ → σ → Prop
  | here (s : σ) : Visits step s s
  | more {s s' t : σ} {emit : List ε} (h : step s = .more emit s') (hs : Visits step s' t) : Visits step s t

/-- Two steps that show the same and lead to related states or related results. -/
inductive Match (show₁ : ε → Option α) (show₂ : ε' → Option α) (R : σ → σ' → Prop) (Q : ρ → ρ' → Prop) :
    Step ε ρ σ → Step ε' ρ' σ' → Prop
  | more {emit : List ε} {emit' : List ε'} {s : σ} {s' : σ'}
      (hemit : emit.filterMap show₁ = emit'.filterMap show₂) (hs : R s s') :
      Match show₁ show₂ R Q (.more emit s) (.more emit' s')
  | halt {emit : List ε} {emit' : List ε'} {r : ρ} {r' : ρ'}
      (hemit : emit.filterMap show₁ = emit'.filterMap show₂) (hr : Q r r') :
      Match show₁ show₂ R Q (.halt emit r) (.halt emit' r')

/-- A simulation step by step: the runs show the same and halt together, with related results. -/
theorem run_match {step : σ → Step ε ρ σ} {step' : σ' → Step ε' ρ' σ'} {show₁ : ε → Option α}
    {show₂ : ε' → Option α} {R : σ → σ' → Prop} {Q : ρ → ρ' → Prop}
    (h : ∀ s s', R s s' → Match show₁ show₂ R Q (step s) (step' s')) :
    ∀ (fuel : Nat) {s : σ} {s' : σ'}, R s s' →
      (run step fuel s).1.filterMap show₁ = (run step' fuel s').1.filterMap show₂ ∧
        Option.Rel Q (run step fuel s).2 (run step' fuel s').2
  | 0, s, s', _ => ⟨rfl, .none⟩
  | fuel + 1, s, s', hs => by
    have hm := h s s' hs
    unfold run
    generalize step s = x at hm
    generalize step' s' = y at hm
    cases hm with
    | more hemit hs =>
      obtain ⟨ih, ihr⟩ := run_match h fuel hs
      rw [List.filterMap_append, List.filterMap_append, hemit, ih]
      exact ⟨rfl, ihr⟩
    | halt hemit hr => exact ⟨hemit, .some hr⟩

/-! ## Runs on inputs -/

section

variable {ι ο : Type} (next : σ → ι → σ)

/-- Each input of the run meets `P` in the state in which it comes. -/
def Along (P : σ → ι → Prop) : σ → List ι → Prop
  | _, [] => True
  | s, i :: inputs => P s i ∧ Along P (next s i) inputs

/-- What the inputs of a run put out. -/
def outputs (out : σ → ι → Option ο) : σ → List ι → List ο
  | _, [] => []
  | s, i :: inputs => (out s i).toList ++ outputs out (next s i) inputs

instance decidableAlong (P : σ → ι → Prop) [∀ s i, Decidable (P s i)] :
    ∀ (s : σ) (inputs : List ι), Decidable (Along next P s inputs)
  | _, [] => isTrue trivial
  | s, i :: inputs =>
    have := decidableAlong P (next s i) inputs
    inferInstanceAs (Decidable (P s i ∧ Along next P (next s i) inputs))

variable {next} {P : σ → ι → Prop}

theorem Along.imp {Q : σ → ι → Prop} (hPQ : ∀ s i, P s i → Q s i) {s : σ} {inputs : List ι}
    (h : Along next P s inputs) : Along next Q s inputs := by
  induction inputs generalizing s with
  | nil => trivial
  | cons i inputs ih => exact ⟨hPQ s i h.1, ih h.2⟩

theorem along_of_forall {Q : ι → Prop} (s : σ) {inputs : List ι} (h : ∀ i ∈ inputs, Q i) :
    Along next (fun _ i => Q i) s inputs := by
  induction inputs generalizing s with
  | nil => trivial
  | cons i inputs ih =>
    obtain ⟨hi, hrest⟩ := List.forall_mem_cons.1 h
    exact ⟨hi, ih _ hrest⟩

theorem Along.of_append {s : σ} {first rest : List ι} (h : Along next P s (first ++ rest)) :
    Along next P s first ∧ Along next P (first.foldl next s) rest := by
  induction first generalizing s with
  | nil => exact ⟨trivial, h⟩
  | cons i first ih =>
    obtain ⟨hfirst, hrest⟩ := ih h.2
    exact ⟨⟨h.1, hfirst⟩, hrest⟩

/-- What every input that meets `P` keeps, a run keeps. -/
theorem Along.keeps (Inv : σ → Prop) (hnext : ∀ s i, Inv s → P s i → Inv (next s i)) {s : σ} {inputs : List ι}
    (h : Along next P s inputs) (hs : Inv s) : Inv (inputs.foldl next s) := by
  induction inputs generalizing s with
  | nil => exact hs
  | cons i inputs ih => exact ih h.2 (hnext s i hs h.1)

/-- Nothing comes out of a run that stays where nothing does. -/
theorem outputs_eq_nil (Inv : σ → Prop) {out : σ → ι → Option ο}
    (hnext : ∀ s i, Inv s → P s i → Inv (next s i) ∧ out s i = none) {s : σ} {inputs : List ι}
    (h : Along next P s inputs) (hs : Inv s) : outputs next out s inputs = [] := by
  induction inputs generalizing s with
  | nil => rfl
  | cons i inputs ih =>
    obtain ⟨hs', hnone⟩ := hnext s i hs h.1
    rw [outputs, hnone, ih h.2 hs']
    rfl

/-- Each state has a list of what may still come out, and each input takes what comes out off the front of it. -/
theorem outputs_front (Inv : σ → Prop) (left : σ → List ο) {out : σ → ι → Option ο}
    (hnext : ∀ s i, Inv s → P s i → Inv (next s i) ∧ (out s i).toList ++ left (next s i) <+: left s) {s : σ}
    {inputs : List ι} (h : Along next P s inputs) (hs : Inv s) :
    outputs next out s inputs ++ left (inputs.foldl next s) <+: left s := by
  induction inputs generalizing s with
  | nil => exact List.prefix_refl _
  | cons i inputs ih =>
    obtain ⟨hs', hfront⟩ := hnext s i hs h.1
    rw [outputs, List.foldl_cons, List.append_assoc]
    exact (List.prefix_append_right_inj _).2 (ih h.2 hs') |>.trans hfront

/-- One output at most, where the first one leads to where nothing comes out any more. -/
theorem outputs_length_le_one (Inv Done : σ → Prop) {out : σ → ι → Option ο}
    (hnext : ∀ s i, Inv s → P s i → if (out s i).isSome then Done (next s i) else Inv (next s i))
    (hdone : ∀ s i, Done s → P s i → Done (next s i) ∧ out s i = none) {s : σ} {inputs : List ι}
    (h : Along next P s inputs) (hs : Inv s) : (outputs next out s inputs).length ≤ 1 := by
  induction inputs generalizing s with
  | nil => exact Nat.zero_le 1
  | cons i inputs ih =>
    have hi := hnext s i hs h.1
    rw [outputs, List.length_append]
    cases hout : out s i with
    | none =>
      rw [hout, if_neg (show ¬ (none : Option ο).isSome = true from Bool.false_ne_true)] at hi
      rw [Option.toList_none, List.length_nil, Nat.zero_add]
      exact ih h.2 hi
    | some o =>
      rw [hout, Option.isSome_some, if_pos rfl] at hi
      rw [outputs_eq_nil Done hdone h.2 hi]
      exact Nat.le_refl 1

end

/-! ## Straight runs -/

/-- A run of `n` steps, with `P` in every state that is left. -/
def Leads (next : σ → Option σ) (P : σ → Prop) : Nat → σ → σ → Prop
  | 0, s, s' => s = s'
  | n + 1, s, s' => P s ∧ ∃ u, next s = some u ∧ Leads next P n u s'

theorem Leads.step {next : σ → Option σ} {P : σ → Prop} {n : Nat} {s s' u : σ} (hP : P s) (hs : next s = some u)
    (h : Leads next P n u s') : Leads next P (n + 1) s s' := ⟨hP, u, hs, h⟩

theorem Leads.append {next : σ → Option σ} {P : σ → Prop} {k : Nat} {u s' : σ} :
    ∀ {n : Nat} {s : σ}, Leads next P n s u → Leads next P k u s' → Leads next P (k + n) s s'
  | 0, _, rfl, h' => h'
  | _ + 1, _, ⟨hP, w, hs, h⟩, h' => ⟨hP, w, hs, h.append h'⟩

/-- A step on the way to a state without a next one. -/
theorem Leads.next_of {next : σ → Option σ} {P : σ → Prop} {n : Nat} {s s' u : σ} (h : Leads next P n s s')
    (hend : next s' = none) (hs : next s = some u) : ∃ k, n = k + 1 ∧ Leads next P k u s' := by
  cases n with
  | zero =>
    obtain rfl : s = s' := h
    rw [hend] at hs
    cases hs
  | succ k =>
    obtain ⟨-, w, hw, h⟩ := h
    obtain rfl : u = w := Option.some.inj (hs.symm.trans hw)
    exact ⟨k, rfl, h⟩

theorem Leads.stop {next : σ → Option σ} {P : σ → Prop} {n : Nat} {s s' : σ} (h : Leads next P n s s')
    (hs : next s = none) : n = 0 ∧ s = s' := by
  cases n with
  | zero => exact ⟨rfl, h⟩
  | succ k =>
    obtain ⟨-, w, hw, -⟩ := h
    rw [hs] at hw
    cases hw

end Machine
