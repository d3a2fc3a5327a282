/-
Parses of a stream of fields. A tree says how wide the next field is and, by its value, what comes behind it; it is run
with a reader of fields on states of any kind. A reader that simulates another parses what that parses.
-/
import Mathlib.Logic.Basic

/-- A parse: it is over, or there is a field of some width and, for each of its values, the rest. -/
inductive FieldTree (α : Type) where
  | done (a : α)
  | field (width : Nat) (next : Nat → FieldTree α)

namespace FieldTree

variable {α σ τ : Type}

/-- A reader takes a field of a given width; `none` where it may not. -/
abbrev Reader (σ : Type) := Nat → σ → Option (Nat × σ)

/-- The parse with the reader `get`. -/
def run (get : Reader σ) : FieldTree α → σ → Option (α × σ)
  | done a, s => some (a, s)
  | field width next, s => (get width s).bind fun r => (next r.1).run get r.2

/-- Every field that the parse can come to has a width in `W`. -/
def Widths (W : Nat → Prop) : FieldTree α → Prop
  | done _ => True
  | field width next => W width ∧ ∀ v, (next v).Widths W

@[simp] theorem run_done (get : Reader σ) (a : α) (s : σ) : (done a).run get s = some (a, s) := rfl

@[simp] theorem run_field (get : Reader σ) (width : Nat) (next : Nat → FieldTree α) (s : σ) :
    (field width next).run get s = (get width s).bind fun r => (next r.1).run get r.2 := rfl

@[simp] theorem run_ite (get : Reader σ) (p : Prop) [Decidable p] (f g : FieldTree α) (s : σ) :
    (if p then f else g).run get s = if p then f.run get s else g.run get s := by
  split <;> rfl

theorem Widths.ite {W : Nat → Prop} {p : Prop} [Decidable p] {f g : FieldTree α} (hf : f.Widths W) (hg : g.Widths W) :
    (if p then f else g).Widths W := by
  split
  · exact hf
  · exact hg

/-- Whatever field `get` reads of a width in `W`, `get'` reads it in a related state, and both stay related. -/
def Simulates (W : Nat → Prop) (R : σ → τ → Prop) (get : Reader σ) (get' : Reader τ) : Prop :=
  ∀ ⦃width : Nat⦄ ⦃s : σ⦄ ⦃t : τ⦄ ⦃v : Nat⦄ ⦃s' : σ⦄, W width → R s t → get width s = some (v, s') →
    ∃ t', get' width t = some (v, t') ∧ R s' t'

theorem Simulates.run {W : Nat → Prop} {R : σ → τ → Prop} {get : Reader σ} {get' : Reader τ}
    (h : Simulates W R get get') {f : FieldTree α} (hf : f.Widths W) {s s' : σ} {t : τ} (hR : R s t) {a : α}
    (hs : f.run get s = some (a, s')) : ∃ t', f.run get' t = some (a, t') ∧ R s' t' := by
  induction f generalizing s t with
  | done b =>
    cases hs
    exact ⟨t, rfl, hR⟩
  | field width next ih =>
    rw [run_field, Option.bind_eq_some_iff] at hs
    obtain ⟨⟨v, s₁⟩, hget, hs⟩ := hs
    obtain ⟨t₁, hget', hR₁⟩ := h hf.1 hR hget
    rw [run_field, hget', Option.bind_some]
    exact ih v (hf.2 v) hR₁ hs

end FieldTree
