/-
Searching a list for a signature with a counter that a mismatch sets back to zero. The symbol of the mismatch
is not looked at again, so that a signature is missed where it follows an attempt that it breaks off. For a
signature whose first symbol does not recur in it, the attempts that are broken off directly before the
signature decide: an even number of them leaves the counter at zero.
-/
import Mathlib.Algebra.Group.Nat.Even
import Mathlib.Data.List.Infix

namespace Restart

variable {α : Type} [DecidableEq α]

/-- The counter after a symbol. -/
def next (sig : List α) (k : Nat) (b : α) : Nat := if sig[k]? = some b then k + 1 else 0

/-- The counter after a list of symbols, past full matches. -/
def state (sig : List α) (k : Nat) (l : List α) : Nat := l.foldl (next sig) k

/-- The number of symbols that are read until the counter reaches the length of the signature, or the list
ends. -/
def scan (sig : List α) : Nat → List α → Nat
  | _, [] => 0
  | k, b :: l => if next sig k b = sig.length then 1 else scan sig (next sig k b) l + 1

/-- `p` is the first place at which the signature lies in the list. -/
def FirstAt (sig l : List α) (p : Nat) : Prop := sig <+: l.drop p ∧ ∀ q < p, ¬ sig <+: l.drop q

/-- An attempt that is broken off: a part of the signature from its first symbol on, but not all of it. -/
def Broken (sig c : List α) : Prop := ∃ k, 0 < k ∧ k < sig.length ∧ c = sig.take k

instance (sig l : List α) (p : Nat) : Decidable (FirstAt sig l p) := by unfold FirstAt; infer_instance

@[simp] theorem state_nil (sig : List α) (k : Nat) : state sig k [] = k := rfl

@[simp] theorem state_cons (sig : List α) (k : Nat) (b : α) (l : List α) :
    state sig k (b :: l) = state sig (next sig k b) l := rfl

theorem state_append (sig : List α) (k : Nat) (l l' : List α) :
    state sig k (l ++ l') = state sig (state sig k l) l' := by
  simp [state]

theorem next_le {sig : List α} {k : Nat} {b : α} (h : next sig k b ≠ 0) : sig[k]? = some b ∧ next sig k b = k + 1 := by
  unfold next at h ⊢
  split at h
  · next hk => exact ⟨hk, if_pos hk⟩
  · exact absurd rfl h

/-! ## What the counter says -/

/-- The list ends with as much of the signature as the counter says. -/
theorem take_state_suffix (sig l : List α) : state sig 0 l ≤ sig.length ∧ sig.take (state sig 0 l) <:+ l := by
  induction l using List.reverseRecOn with
  | nil => simp
  | append_singleton l b ih =>
    obtain ⟨-, u, hu⟩ := ih
    rw [state_append]
    generalize state sig 0 l = k at hu ⊢
    by_cases h : next sig k b = 0
    · simp [h]
    · obtain ⟨hk, hn⟩ := next_le h
      obtain ⟨hlt, rfl⟩ := List.getElem?_eq_some_iff.1 hk
      refine ⟨by simp [hn]; omega, u, ?_⟩
      rw [state_cons, state_nil, hn, List.take_succ_eq_append_getElem hlt, ← List.append_assoc, hu]

/-- The signature is found where the counter reaches its length, and the list is read on where it does not. -/
theorem scan_append {sig : List α} (l : List α) :
    ∀ (u : List α) (k : Nat), (∀ v, v <+: u → v ≠ [] → state sig k v ≠ sig.length) →
      scan sig k (u ++ l) = u.length + scan sig (state sig k u) l
  | [], k, _ => by simp
  | b :: u, k, h => by
    have hb : next sig k b ≠ sig.length := h [b] ⟨u, rfl⟩ (by simp)
    have ih := scan_append l u (next sig k b) fun v ⟨w, hv⟩ _ => h (b :: v) ⟨w, by simp [hv]⟩ (by simp)
    rw [List.cons_append, scan, if_neg hb, ih, state_cons, List.length_cons]
    omega

theorem scan_le (sig : List α) : ∀ (l : List α) (k : Nat), scan sig k l ≤ l.length
  | [], _ => le_rfl
  | b :: l, k => by
    have ih := scan_le sig l (next sig k b)
    unfold scan
    split <;> (rw [List.length_cons]; omega)

theorem scan_eq_zero {sig l : List α} {k : Nat} : scan sig k l = 0 ↔ l = [] := by
  constructor
  · intro h
    cases l with
    | nil => rfl
    | cons b l => unfold scan at h; split at h <;> omega
  · rintro rfl; rfl

/-- From zero the counter follows the signature. -/
theorem state_take {sig : List α} {j : Nat} (hj : j ≤ sig.length) : state sig 0 (sig.take j) = j := by
  induction j with
  | zero => simp
  | succ j ih =>
    rw [List.take_succ_eq_append_getElem hj, state_append, ih (by omega), state_cons, state_nil, next,
      if_pos (List.getElem?_eq_getElem hj)]

/-- Where the counter stands at `k` and the rest of the signature follows, it is read to its end. -/
theorem scan_drop (sig l : List α) {k : Nat} (hk : k < sig.length) : scan sig k (sig.drop k ++ l) = sig.length - k := by
  induction h : sig.length - k generalizing k with
  | zero => omega
  | succ n ih =>
    have hn : next sig k sig[k] = k + 1 := if_pos (List.getElem?_eq_getElem hk)
    rw [List.drop_eq_getElem_cons hk, List.cons_append, scan, hn]
    by_cases hlast : k + 1 = sig.length
    · rw [if_pos hlast]; omega
    · rw [if_neg hlast, ih (by omega) (by omega)]

/-- Before the first place of the signature the counter does not reach its length. -/
theorem FirstAt.state_ne {sig l : List α} {p : Nat} (h : FirstAt sig l p) (hsig : sig ≠ []) {v : List α}
    (hv : v <+: l.take p) : state sig 0 v ≠ sig.length := by
  intro hfull
  obtain ⟨-, u, hu⟩ := take_state_suffix sig v
  rw [hfull, List.take_length] at hu
  obtain ⟨w, hw⟩ := hv
  have hlen : u.length + sig.length ≤ p := by
    have := congrArg List.length hw
    rw [← hu] at this
    simp at this
    omega
  have hpos := List.length_pos_iff.2 hsig
  have hl : u ++ (sig ++ (w ++ l.drop p)) = l :=
    calc u ++ (sig ++ (w ++ l.drop p)) = u ++ sig ++ w ++ l.drop p := by simp
      _ = l.take p ++ l.drop p := by rw [hu, hw]
      _ = l := List.take_append_drop p l
  refine h.2 u.length (by omega) ⟨w ++ l.drop p, ?_⟩
  have := congrArg (List.drop u.length) hl
  rwa [List.drop_left] at this

omit [DecidableEq α] in
/-- A list from which the broken off attempts at its end are cut. -/
theorem exists_flatten (sig l : List α) : ∃ (u : List α) (us : List (List α)), l = u ++ us.flatten ∧
    (∀ c ∈ us, Broken sig c) ∧ ∀ c, Broken sig c → ¬ c <:+ u := by
  induction hn : l.length using Nat.strong_induction_on generalizing l with
  | _ n ih =>
    by_cases h : ∃ c, Broken sig c ∧ c <:+ l
    · obtain ⟨c, hc, v, rfl⟩ := h
      obtain ⟨k, hk0, hk, hck⟩ := hc
      have hlen : c.length = k := by rw [hck, List.length_take]; omega
      obtain ⟨u, us, rfl, hus, hu⟩ := ih v.length (by simp at hn; omega) v rfl
      refine ⟨u, us ++ [c], by simp, fun d hd => ?_, hu⟩
      rcases List.mem_append.1 hd with hd | hd
      · exact hus d hd
      · rw [List.mem_singleton.1 hd]; exact ⟨k, hk0, hk, hck⟩
    · push Not at h
      exact ⟨l, [], by simp, by simp, h⟩

/-! ## Signatures whose first symbol does not recur -/

section Head

variable {sig : List α} {a : α} {t : List α} (hsig : sig = a :: t) (ha : a ∉ t)

include hsig ha

theorem next_head {k : Nat} (hk : 0 < k) : next sig k a = 0 := by
  refine if_neg fun h => ha ?_
  obtain ⟨k, rfl⟩ : ∃ j, k = j + 1 := ⟨k - 1, by omega⟩
  rw [hsig, List.getElem?_cons_succ] at h
  exact List.mem_of_getElem? h

theorem next_tail {b : α} (hb : b ∈ t) : next sig 0 b = 0 := by
  refine if_neg fun h => ha ?_
  rw [hsig, List.getElem?_cons_zero, Option.some.injEq] at h
  rwa [h]

theorem state_tail : ∀ {l : List α}, (∀ b ∈ l, b ∈ t) → state sig 0 l = 0
  | [], _ => rfl
  | b :: l, h => by
    rw [state_cons, next_tail hsig ha (h b (by simp)), state_tail fun c hc => h c (List.mem_cons_of_mem _ hc)]

/-- A part of the signature that breaks an attempt off leaves the counter at zero. -/
theorem state_take_of_pos {j k : Nat} (hj : 0 < j) (hk : 0 < k) : state sig k (sig.take j) = 0 := by
  obtain ⟨j, rfl⟩ : ∃ i, j = i + 1 := ⟨j - 1, by omega⟩
  have hcons : sig.take (j + 1) = a :: t.take j := by rw [hsig]; rfl
  rw [hcons, state_cons, next_head hsig ha hk]
  exact state_tail hsig ha fun b hb => List.mem_of_mem_take hb

/-- The scan stops behind the first place of the signature where the counter comes to it at zero, and goes
on to the end of the list where not. -/
theorem scan_of_firstAt {l : List α} {p : Nat} (h : FirstAt sig l p) :
    scan sig 0 l = p + sig.length ↔ state sig 0 (l.take p) = 0 ∨ p + sig.length = l.length := by
  have hne : sig ≠ [] := by simp [hsig]
  have hpos := List.length_pos_iff.2 hne
  obtain ⟨w, hw⟩ := h.1
  have hlen : p + sig.length + w.length = l.length := by
    have := congrArg List.length hw
    simp at this
    omega
  have hscan : scan sig 0 l = p + scan sig (state sig 0 (l.take p)) (sig ++ w) := by
    conv_lhs => rw [← List.take_append_drop p l, ← hw]
    rw [scan_append _ _ _ fun v hv _ => h.state_ne hne hv, List.length_take, Nat.min_eq_left (by omega)]
  rcases Nat.eq_zero_or_pos (state sig 0 (l.take p)) with h0 | h0
  · have hfound := scan_drop sig w hpos
    rw [List.drop_zero] at hfound
    rw [hscan, h0, hfound]
    simp
  · -- the attempt at hand is broken off by the first symbol, and the others start none
    have hmiss : scan sig (state sig 0 (l.take p)) (sig ++ w) = sig.length + scan sig 0 w := by
      rw [scan_append]
      · have hfull := state_take_of_pos hsig ha (j := sig.length) hpos h0
        rw [List.take_length] at hfull
        rw [hfull]
      · rintro v ⟨r, hr⟩ hv
        have htake : v = sig.take v.length := by rw [← hr]; simp
        rw [htake, state_take_of_pos hsig ha (List.length_pos_iff.2 hv) h0]
        exact hpos.ne
    rw [hscan, hmiss]
    constructor
    · intro h
      right
      rw [scan_eq_zero.1 (show scan sig 0 w = 0 by omega)] at hlen
      simpa using hlen
    · rintro (h | h)
      · omega
      · rw [List.length_eq_zero_iff.1 (show w.length = 0 by omega)]; simp [scan]

/-! ## The attempts before the signature -/

/-- Attempts that follow one another: each second one is broken off, and the counter is at zero behind it. -/
theorem state_flatten : ∀ {us : List (List α)}, (∀ c ∈ us, Broken sig c) →
    (state sig 0 us.flatten = 0 ↔ Even us.length) ∧ ∀ k, 0 < k → (state sig k us.flatten = 0 ↔ ¬ Even us.length)
  | [], _ => by simp; omega
  | c :: us, h => by
    obtain ⟨j, hj0, hj, rfl⟩ := h c (by simp)
    obtain ⟨ih0, ih⟩ := @state_flatten us fun c hc => h c (List.mem_cons_of_mem _ hc)
    simp only [List.flatten_cons, state_append, List.length_cons, Nat.even_add_one]
    constructor
    · rw [state_take hj.le, ih j hj0]
    · intro k hk
      rw [state_take_of_pos hsig ha hj0 hk, ih0, not_not]

end Head

/-- An even number of broken off attempts stand at the end of the list. -/
def EvenBroken (sig l : List α) : Prop :=
  ∃ (u : List α) (us : List (List α)), l = u ++ us.flatten ∧ (∀ c ∈ us, Broken sig c) ∧
    (∀ c, Broken sig c → ¬ c <:+ u) ∧ Even us.length

/-- Behind a list without the signature in it the counter is at zero where the attempts at its end are even in
number. -/
theorem state_eq_zero {sig l : List α} {a : α} {t : List α} (hsig : sig = a :: t) (ha : a ∉ t)
    (h : ∀ v, v <+: l → state sig 0 v ≠ sig.length) : state sig 0 l = 0 ↔ EvenBroken sig l := by
  have hchain (u : List α) (us : List (List α)) (hl : l = u ++ us.flatten) (hus : ∀ c ∈ us, Broken sig c)
      (hu : ∀ c, Broken sig c → ¬ c <:+ u) : state sig 0 l = 0 ↔ Even us.length := by
    have hu0 : state sig 0 u = 0 := by
      by_contra hne
      obtain ⟨hle, hsuf⟩ := take_state_suffix sig u
      have hfull := h u ⟨_, hl.symm⟩
      exact hu _ ⟨state sig 0 u, Nat.pos_of_ne_zero hne, by omega, rfl⟩ hsuf
    rw [hl, state_append, hu0]
    exact (state_flatten hsig ha hus).1
  constructor
  · intro h0
    obtain ⟨u, us, hl, hus, hu⟩ := exists_flatten sig l
    exact ⟨u, us, hl, hus, hu, (hchain u us hl hus hu).1 h0⟩
  · rintro ⟨u, us, hl, hus, hu, heven⟩
    exact (hchain u us hl hus hu).2 heven

end Restart
