/-
`HookGetUserNameA` (SiglusHook.cpp, SiglusUniversalPatch.cpp): the code of the caller is read instruction by
instruction, and the first short `jnz` in it is overwritten, so that the check of the user name passes.
-/
import SiglusExtract.Lib.Journal
import SiglusExtract.Mp.Machine
import Mathlib.Logic.Function.Iterate

namespace SiglusExtract.CodeScan

open Bytes Lde

variable {m m' : Mem UInt8} {p q r n : Nat}

/-! ## Instructions in a row -/

/-- Instruction by instruction one comes to `q`. -/
inductive Walk (m : Mem UInt8) (q : Nat) : Nat → Prop
  | done : Walk m q q
  | step {p n : Nat} (hlde : ldeGetOpCodeSize32 m p = some n) (rest : Walk m q (p + n)) : Walk m q p

theorem Walk.le (h : Walk m q p) : p ≤ q := by
  induction h with
  | done => exact Nat.le_refl q
  | step _ _ ih => exact Nat.le_trans (Nat.le_add_right _ _) ih

theorem Walk.next (h : Walk m q p) (hlt : p < q) (hlde : ldeGetOpCodeSize32 m p = some n) : Walk m q (p + n) := by
  cases h with
  | done => exact absurd hlt (Nat.lt_irrefl _)
  | step hlde' rest =>
    rw [hlde, Option.some.injEq] at hlde'
    exact hlde' ▸ rest

theorem Walk.between (h : Walk m q p) (h' : Walk m r p) (hle : q ≤ r) : Walk m r q := by
  induction h with
  | done => exact h'
  | step hlde rest ih =>
    have hpos := lde_pos hlde
    have hqle := rest.le
    exact ih (h'.next (by omega) hlde)

theorem Walk.trans (h : Walk m q p) (h' : Walk m r q) : Walk m r p := by
  induction h with
  | done => exact h'
  | step hlde _ ih => exact .step hlde ih

/-- Every instruction on the way to `stop` can be read. -/
def Readable (m : Mem UInt8) (stop p : Nat) : Prop := ∀ q, Walk m q p → q < stop → (ldeGetOpCodeSize32 m q).isSome

theorem Readable.next {stop : Nat} (h : Readable m stop p) (hlde : ldeGetOpCodeSize32 m p = some n) :
    Readable m stop (p + n) := fun q hq => h q (.step hlde hq)

/-! ## HookGetUserNameA -/

/-- A short `jnz`. -/
def IsJnz (m : Mem UInt8) (p : Nat) : Prop := ldeGetOpCodeSize32 m p = some 2 ∧ m p = some 0x75

/-- The loop of `HookGetUserNameA`: the address of the first short `jnz`. -/
def findJnz (m : Mem UInt8) (returnAddress : Nat) : Nat → Nat → Option (Option Nat)
  | 0, _ => none
  | fuel + 1, i =>
    if i < 0x30 then
      (ldeGetOpCodeSize32 m (returnAddress + i)).bind fun opSize =>
        (m (returnAddress + i)).bind fun b =>
          if opSize = 2 ∧ b = 0x75 then some (some (returnAddress + i)) else findJnz m returnAddress fuel (i + opSize)
    else some none

/-- `mov al, 1`. -/
def movAl : List UInt8 := [0xB0, 0x01]

/-- What `HookGetUserNameA` does to the code of its caller. -/
def hookGetUserNameA (returnAddress : Nat) (m : Mem UInt8) : Option (Mem UInt8) :=
  (findJnz m returnAddress 0x31 0).map fun found =>
    match found with
    | some address => m.write address movAl
    | none => m

/-- The short jumps among the instructions from `p` on that begin before `stop`. -/
def jnzs (m : Mem UInt8) (stop : Nat) : Nat → Nat → List Nat
  | 0, _ => []
  | fuel + 1, p =>
    if p < stop then
      match ldeGetOpCodeSize32 m p with
      | none => []
      | some n => if n = 2 ∧ m p = some 0x75 then p :: jnzs m stop fuel (p + n) else jnzs m stop fuel (p + n)
    else []

variable {stop fuel a : Nat} {l : List Nat}

/-- The list has the short jumps of the window, each one once and in order. -/
theorem mem_jnzs (fuel : Nat) (hread : Readable m stop p) (hfuel : stop - p < fuel) :
    (jnzs m stop fuel p).Pairwise (· < ·) ∧
      ∀ a, a ∈ jnzs m stop fuel p ↔ Walk m a p ∧ a < stop ∧ IsJnz m a := by
  induction fuel generalizing p with
  | zero => omega
  | succ fuel ih =>
    rw [jnzs]
    split
    · next hlt =>
      obtain ⟨n, hn⟩ := Option.isSome_iff_exists.1 (hread p .done hlt)
      have hpos := lde_pos hn
      obtain ⟨hsorted, hmem⟩ := ih (hread.next hn) (by omega)
      have hstep (a : Nat) : Walk m a p ∧ a < stop ∧ IsJnz m a ↔
          (a = p ∧ IsJnz m p) ∨ (Walk m a (p + n) ∧ a < stop ∧ IsJnz m a) := by
        constructor
        · rintro ⟨hwalk, hrest⟩
          rcases Nat.eq_or_lt_of_le hwalk.le with rfl | hpa
          · exact .inl ⟨rfl, hrest.2⟩
          · exact .inr ⟨hwalk.next hpa hn, hrest⟩
        · rintro (⟨rfl, hjnz⟩ | ⟨hwalk, hrest⟩)
          · exact ⟨.done, hlt, hjnz⟩
          · exact ⟨.step hn hwalk, hrest⟩
      simp only [hn]
      split
      · next hjnz =>
        have hp : IsJnz m p := ⟨hjnz.1 ▸ hn, hjnz.2⟩
        refine ⟨List.pairwise_cons.2 ⟨fun a ha => ?_, hsorted⟩, fun a => ?_⟩
        · have := ((hmem a).1 ha).1.le
          omega
        · rw [List.mem_cons, hmem, hstep]
          simp only [hp, and_true]
      · next hjnz =>
        have hp : ¬ IsJnz m p := by
          rintro ⟨h2, h75⟩
          exact hjnz ⟨Option.some.inj (hn.symm.trans h2), h75⟩
        refine ⟨hsorted, fun a => ?_⟩
        rw [hmem, hstep]
        simp only [hp, and_false, false_or]
    · next hlt =>
      refine ⟨.nil, fun a => ⟨nofun, ?_⟩⟩
      rintro ⟨hwalk, ha, -⟩
      exact absurd (Nat.lt_of_le_of_lt hwalk.le ha) hlt

theorem findJnz_eq {returnAddress i : Nat} (hread : Readable m (returnAddress + 0x30) (returnAddress + i))
    (hfuel : 0x30 - i < fuel) :
    findJnz m returnAddress fuel i = some (jnzs m (returnAddress + 0x30) fuel (returnAddress + i)).head? := by
  induction fuel generalizing i with
  | zero => omega
  | succ fuel ih =>
    rw [findJnz, jnzs]
    by_cases hi : i < 0x30
    · rw [if_pos hi, if_pos (Nat.add_lt_add_left hi _)]
      obtain ⟨n, hn⟩ := Option.isSome_iff_exists.1 (hread _ .done (Nat.add_lt_add_left hi _))
      obtain ⟨b, hb⟩ := lde_first hn
      have hpos := lde_pos hn
      simp only [hn, hb, Option.bind_some, Option.some.injEq]
      split
      · rfl
      · have := @ih (i + n) (by rw [← Nat.add_assoc]; exact hread.next hn) (by omega)
        rwa [← Nat.add_assoc] at this
    · rw [if_neg hi, if_neg (by omega)]
      rfl

/-! ### The patch -/

theorem lde_movAl (h : m.Holds p movAl) : ldeGetOpCodeSize32 m p = some 2 :=
  Mp.lde_plain (o := .one 0xB0) (Mp.one_ok (by decide) (by decide)) (by decide)
    (Mem.holds_cons.2 ⟨(Mem.holds_cons.1 h).1, Mem.holds_nil m _⟩)

/-- The patch leaves the instructions as long as they were. -/
theorem lde_patch (ha : Walk m a r) (hjnz : IsJnz m a) (hp : Walk m p r) (hlde : ldeGetOpCodeSize32 m p = some n) :
    ldeGetOpCodeSize32 (m.write a movAl) p = some n := by
  rcases Nat.lt_trichotomy p a with hlt | rfl | hlt
  · have := ((hp.between ha (Nat.le_of_lt hlt)).next hlt hlde).le
    refine lde_congr hlde fun k hk => Mem.write_outside ?_
    rintro ⟨hle, -⟩
    omega
  · rw [lde_movAl (Mem.holds_write m p movAl), ← hjnz.1, hlde]
  · have := ((ha.between hp (Nat.le_of_lt hlt)).next hlt hjnz.1).le
    refine lde_congr hlde fun k hk => Mem.write_outside ?_
    rintro ⟨-, hle⟩
    have : movAl.length = 2 := rfl
    omega

theorem walk_patch (hread : Readable m stop r) (ha : Walk m a r) (hjnz : IsJnz m a) (hp : Walk m p r) (hq : q < stop)
    (h : Walk (m.write a movAl) q p) : Walk m q p := by
  induction h with
  | done => exact .done
  | @step p n hlde rest ih =>
    have hlt : p < stop := by
      have := rest.le
      omega
    obtain ⟨k, hk⟩ := Option.isSome_iff_exists.1 (hread p hp hlt)
    obtain rfl : k = n := Option.some.inj ((lde_patch ha hjnz hp hk).symm.trans hlde)
    exact .step hk (ih (hp.trans (.step hk .done)))

theorem readable_patch (hread : Readable m stop r) (ha : Walk m a r) (hjnz : IsJnz m a) :
    Readable (m.write a movAl) stop r := by
  intro q hq hlt
  have hq := walk_patch hread ha hjnz .done hlt hq
  obtain ⟨k, hk⟩ := Option.isSome_iff_exists.1 (hread q hq hlt)
  rw [lde_patch ha hjnz hq hk]
  rfl

/-- Behind the patch the list is the old one. -/
theorem jnzs_patch_above (hread : Readable m stop p) (hap : a + 2 ≤ p) :
    jnzs (m.write a movAl) stop fuel p = jnzs m stop fuel p := by
  induction fuel generalizing p with
  | zero => rfl
  | succ fuel ih =>
    rw [jnzs, jnzs]
    split
    · next hlt =>
      obtain ⟨n, hn⟩ := Option.isSome_iff_exists.1 (hread p .done hlt)
      have hout (k : Nat) : (m.write a movAl) (p + k) = m (p + k) := Mem.write_outside fun hin => by
        have := hin.2
        have : movAl.length = 2 := rfl
        omega
      rw [lde_congr hn fun k _ => hout k, hn]
      dsimp only
      rw [ih (hread.next hn) (by omega), show m.write a movAl p = m p from hout 0]
    · rfl

theorem le_of_mem_jnzs (h : a ∈ jnzs m stop fuel p) : p ≤ a := by
  induction fuel generalizing p with
  | zero => cases h
  | succ fuel ih =>
    rw [jnzs] at h
    split at h
    · split at h
      · cases h
      · split at h
        · rcases List.mem_cons.1 h with rfl | h
          · exact Nat.le_refl a
          · exact Nat.le_trans (Nat.le_add_right _ _) (ih h)
        · exact Nat.le_trans (Nat.le_add_right _ _) (ih h)
    · cases h

/-- The patch takes the first jump from the list. -/
theorem jnzs_patch (hread : Readable m stop p) (hl : jnzs m stop fuel p = a :: l) :
    jnzs (m.write a movAl) stop fuel p = l := by
  induction fuel generalizing p with
  | zero => cases hl
  | succ fuel ih =>
    rw [jnzs] at hl ⊢
    split at hl
    · next hlt =>
      obtain ⟨n, hn⟩ := Option.isSome_iff_exists.1 (hread p .done hlt)
      rw [hn] at hl
      dsimp only at hl
      rw [if_pos hlt]
      split at hl
      · next hjnz =>
        obtain ⟨rfl, rfl⟩ := List.cons.inj hl
        have hheld := Mem.holds_write m p movAl
        have hb : m.write p movAl p = some 0xB0 := (Mem.holds_cons.1 hheld).1
        rw [lde_movAl hheld, hb, hjnz.1]
        exact jnzs_patch_above (hjnz.1 ▸ hread.next hn) (Nat.le_refl _)
      · next hjnz =>
        have hap : p + n ≤ a := le_of_mem_jnzs (hl ▸ List.mem_cons_self)
        have hpos := lde_pos hn
        have hout (k : Nat) (hk : k < n) : (m.write a movAl) (p + k) = m (p + k) := Mem.write_outside fun hin => by
          have := hin.1
          omega
        rw [lde_congr hn hout]
        dsimp only
        rw [show m.write a movAl p = m p from hout 0 hpos, if_neg hjnz]
        exact ih (hread.next hn) hl
    · cases hl

/-- The memory with some of the jumps patched. -/
def patched (m : Mem UInt8) (l : List Nat) : Mem UInt8 := l.foldl (fun m a => m.write a movAl) m

theorem hookGetUserNameA_eq {returnAddress : Nat} (hread : Readable m (returnAddress + 0x30) returnAddress) :
    hookGetUserNameA returnAddress m =
      some (patched m ((jnzs m (returnAddress + 0x30) 0x31 returnAddress).take 1)) := by
  rw [hookGetUserNameA, findJnz_eq hread (by decide)]
  cases jnzs m (returnAddress + 0x30) 0x31 (returnAddress + 0) <;> rfl

/-- Calls from one place: each one patches the next short `jnz` of the window of 0x30 bytes behind the call, until none
is left, and nothing else. -/
theorem hookGetUserNameA_calls {returnAddress : Nat} (hread : Readable m (returnAddress + 0x30) returnAddress) :
    ∃ l : List Nat, l.Pairwise (· < ·) ∧
      (∀ a, a ∈ l ↔ Walk m a returnAddress ∧ a < returnAddress + 0x30 ∧ IsJnz m a) ∧
      ∀ k, (fun c : Option (Mem UInt8) => c.bind (hookGetUserNameA returnAddress))^[k] (some m) =
        some (patched m (l.take k)) := by
  obtain ⟨hsorted, hmem⟩ := mem_jnzs 0x31 hread (by omega)
  refine ⟨_, hsorted, hmem, fun k => ?_⟩
  clear hsorted hmem
  induction k generalizing m with
  | zero => rfl
  | succ k ih =>
    rw [Function.iterate_succ_apply, Option.bind_some, hookGetUserNameA_eq hread]
    cases hl : jnzs m (returnAddress + 0x30) 0x31 returnAddress with
    | nil =>
      have := ih hread
      rw [hl, List.take_nil] at this
      rw [List.take_nil, List.take_nil]
      exact this
    | cons a l =>
      obtain ⟨hwalk, -, hjnz⟩ := ((mem_jnzs 0x31 hread (by omega)).2 a).1 (hl ▸ List.mem_cons_self)
      have := ih (readable_patch hread hwalk hjnz)
      rw [jnzs_patch hread hl] at this
      exact this

/-- `test eax, eax` and a short jump, with other instructions behind. -/
def sampleCaller : List UInt8 := [0x85, 0xC0, 0x75, 0x05] ++ List.replicate 64 0x90

set_option maxRecDepth 4000 in
theorem hookGetUserNameA_calls_sample : ∃ l : List Nat, l.Pairwise (· < ·) ∧
    (∀ a, a ∈ l ↔ Walk (Mem.ofList sampleCaller) a 0 ∧ a < 0 + 0x30 ∧ IsJnz (Mem.ofList sampleCaller) a) ∧
    ∀ k, (fun c : Option (Mem UInt8) => c.bind (hookGetUserNameA 0))^[k] (some (Mem.ofList sampleCaller)) =
      some (patched (Mem.ofList sampleCaller) (l.take k)) := by
  have hread : ∀ q < 0x30, (ldeGetOpCodeSize32 (Mem.ofList sampleCaller) q).isSome = true := by decide
  exact hookGetUserNameA_calls fun q _ hq => hread q hq

end SiglusExtract.CodeScan
