/-
`UnpackG00::extract_g00_type2_pic`: the loop over the parts of a picture of type 2. `img_buf` is a local of the loop's
body that only `extract_g02_part` sets, and that only for parts of type 1 and 2; what is passed on for others is what
the slot held.
-/
import SiglusExtract.G00.Parts
import SiglusExtract.Picture
import Mathlib.Data.List.Nodup

namespace SiglusExtract.G00

open Bytes

/-! ## The loop -/

/-- A pointer: to the buffer that `extract_g02_part` allocates in an iteration, or to anything else. -/
inductive Ptr
  | part (iteration : Nat)
  | wild
  deriving DecidableEq, Repr

/-- The calls that get `img_buf`. -/
inductive Call
  | fixBmp
  | save
  | free
  deriving DecidableEq, Repr

/-- A call with the buffer it gets. -/
structure Use where
  iteration : Nat
  call : Call
  buffer : Ptr
  deriving DecidableEq, Repr

/-- What the body does not determine, by iteration: the earlier one whose pointer the slot of `img_buf` still holds, if
it is one; the content of `tmp_data`; whether `fix_bmp` survives a pointer that is not its own; whether the saver
returns. -/
structure Env where
  stale : Nat → Option Nat
  tmpData : Nat → Nat → UInt8
  survives : Nat → Bool
  saved : Nat → Bool

/-- `img_buf` before it is set. -/
def Env.uninit (env : Env) (i : Nat) : Ptr :=
  match env.stale i with
  | some j => if j < i then .part j else .wild
  | none => .wild

/-- `entries[i]`: `offset` and `length`. -/
def entry (debuf : List UInt8) (i : Nat) : Option (Nat × Nat) := do
  let offset ← dword (.ofList debuf) ((4 + 8 * i) % 2 ^ 32)
  let length ← dword (.ofList debuf) ((4 + 8 * i) % 2 ^ 32 + 4)
  return (offset, length)

/-- The memory at `&debuf[offset]`. -/
def partAt (debuf : List UInt8) (offset : Nat) : Mem UInt8 := fun p => debuf[(offset + p) % 2 ^ 32]?

/-- `fix_bmp`, the saver and `free`, one after the other. -/
def passOn (i : Nat) (imgBuf : Ptr) (fixed saved : Bool) : List Use × Option Failure :=
  if fixed then
    if saved then ([⟨i, .fixBmp, imgBuf⟩, ⟨i, .save, imgBuf⟩, ⟨i, .free, imgBuf⟩], none)
    else ([⟨i, .fixBmp, imgBuf⟩, ⟨i, .save, imgBuf⟩], some .fault)
  else ([⟨i, .fixBmp, imgBuf⟩], some .fault)

/-- Whether `fix_bmp` returns. -/
def fixes (env : Env) (i : Nat) (part : G02PartInfo) (dib : List UInt8) : Bool :=
  match UnpackG00.fixBmp (env.tmpData i) part.width part.height dib with
  | .ok _ => true
  | .error _ => false

/-- The body of the loop. -/
def turn (env : Env) (debuf : List UInt8) (i : Nat) : List Use × Option Failure :=
  match entry debuf i with
  | none => ([], some .fault)
  | some (offset, length) =>
    if offset ≠ 0 ∧ length ≠ 0 then
      match readPart (partAt debuf offset) 0, extractG02Part (partAt debuf offset) with
      | some part, .ok (some (dib, _)) => passOn i (.part i) (fixes env i part dib) (env.saved i)
      | some _, .ok none => passOn i (env.uninit i) (env.survives i) (env.saved i)
      | _, .error e => ([], some e)
      | none, .ok _ => ([], some .fault)
    else ([], none)

/-- The loop, with `n` entries left from entry `i` on. -/
def partLoop (env : Env) (debuf : List UInt8) : Nat → Nat → List Use × Option Failure
  | 0, _ => ([], none)
  | n + 1, i =>
    match turn env debuf i with
    | (uses, none) => (uses ++ (partLoop env debuf n (i + 1)).1, (partLoop env debuf n (i + 1)).2)
    | (uses, some e) => (uses, some e)

/-- The loop of `extract_g00_type2_pic` over a decompressed body. -/
def extractType2 (env : Env) (debuf : List UInt8) : List Use × Option Failure :=
  match dword (.ofList debuf) 0 with
  | none => ([], some .fault)
  | some debufEntries => partLoop env debuf debufEntries 0

/-! ## Ownership -/

/-- The buffers that are freed. -/
def frees (log : List Use) : List Ptr := (log.filter fun u => u.call = .free).map (·.buffer)

/-- Each buffer is that of the same iteration, and none is freed twice. -/
structure Owned (log : List Use) : Prop where
  same : ∀ u ∈ log, u.buffer = .part u.iteration
  once : (frees log).Nodup

/-- The entry is passed over. -/
def Skipped (debuf : List UInt8) (i : Nat) : Prop :=
  ∃ offset length, entry debuf i = some (offset, length) ∧ ¬ (offset ≠ 0 ∧ length ≠ 0)

/-- The part of the entry has a type that is neither 1 nor 2. -/
def OtherType (debuf : List UInt8) (i : Nat) : Prop :=
  ∃ offset length part, entry debuf i = some (offset, length) ∧ (offset ≠ 0 ∧ length ≠ 0) ∧
    readPart (partAt debuf offset) 0 = some part ∧ ¬ (part.type = 1 ∨ part.type = 2)

/-- The part of the entry is extracted, turned over and saved. -/
def Extracted (env : Env) (debuf : List UInt8) (i : Nat) : Prop :=
  ∃ offset length part dib len, entry debuf i = some (offset, length) ∧ (offset ≠ 0 ∧ length ≠ 0) ∧
    readPart (partAt debuf offset) 0 = some part ∧ extractG02Part (partAt debuf offset) = .ok (some (dib, len)) ∧
    fixes env i part dib ∧ env.saved i

/-- No picture comes out if and only if the type is another one. -/
theorem extractG02Part_eq_none {m : Mem UInt8} :
    extractG02Part m = .ok none ↔ ∃ part, readPart m 0 = some part ∧ ¬ (part.type = 1 ∨ part.type = 2) := by
  unfold extractG02Part
  cases hread : readPart m 0 with
  | none => exact iff_of_false nofun (by rintro ⟨part, h, -⟩; cases h)
  | some part =>
    rw [orFault_some, ok_bind]
    by_cases htype : part.type = 1 ∨ part.type = 2
    · rw [if_pos htype]
      refine iff_of_false ?_ ?_
      · dsimp only
        split
        · cases extractBlocks m part part.blockCount sizeofPartInfo
            (List.replicate (part.width * part.height * 4 % 2 ^ 32) 0) with
          | none => exact nofun
          | some result => exact nofun
        · exact nofun
      · rintro ⟨part', h, hother⟩
        cases h
        exact hother htype
    · rw [if_neg htype]
      exact iff_of_true rfl ⟨part, rfl, htype⟩

/-- The calls of an iteration that get the buffer of it. -/
def Proper (i : Nat) (u : Use) : Prop := u.iteration = i ∧ u.buffer = .part i

theorem passOn_proper (i : Nat) (fixed saved : Bool) : ∀ u ∈ (passOn i (.part i) fixed saved).1, Proper i u := by
  unfold passOn
  split
  · split <;> simp [Proper]
  · simp [Proper]

theorem passOn_iteration (i : Nat) (imgBuf : Ptr) (fixed saved : Bool) :
    ∀ u ∈ (passOn i imgBuf fixed saved).1, u.iteration = i := by
  unfold passOn
  split
  · split <;> simp
  · simp

theorem passOn_none {i : Nat} {imgBuf : Ptr} {fixed saved : Bool} :
    (passOn i imgBuf fixed saved).2 = none ↔ fixed = true ∧ saved = true := by
  unfold passOn
  cases fixed <;> cases saved <;> simp

theorem passOn_frees (i : Nat) (imgBuf : Ptr) (fixed saved : Bool) :
    frees (passOn i imgBuf fixed saved).1 = if fixed ∧ saved then [imgBuf] else [] := by
  unfold passOn
  cases fixed <;> cases saved <;> rfl

theorem uninit_ne (env : Env) (i : Nat) : env.uninit i ≠ .part i := by
  unfold Env.uninit
  cases env.stale i with
  | none => exact nofun
  | some j =>
    dsimp only
    split
    · next hlt =>
      rw [Ne, Ptr.part.injEq]
      omega
    · exact nofun

/-- An iteration whose part is of another type passes on what is not its own. -/
theorem turn_otherType {env : Env} {debuf : List UInt8} {i : Nat} (h : OtherType debuf i) :
    turn env debuf i = passOn i (env.uninit i) (env.survives i) (env.saved i) := by
  obtain ⟨offset, length, part, hentry, hpos, hread, hother⟩ := h
  rw [turn, hentry]
  dsimp only
  rw [if_pos hpos, hread, extractG02Part_eq_none.2 ⟨part, hread, hother⟩]

theorem skipped_iff {debuf : List UInt8} {i offset length : Nat} (h : entry debuf i = some (offset, length)) :
    Skipped debuf i ↔ ¬ (offset ≠ 0 ∧ length ≠ 0) := by
  constructor
  · rintro ⟨o, l, heq, hn⟩
    rw [h] at heq
    cases heq
    exact hn
  · intro hn
    exact ⟨offset, length, h, hn⟩

theorem extracted_iff {env : Env} {debuf : List UInt8} {i offset length : Nat}
    (h : entry debuf i = some (offset, length)) (hpos : offset ≠ 0 ∧ length ≠ 0) : Extracted env debuf i ↔
      ∃ part dib len, readPart (partAt debuf offset) 0 = some part ∧
        extractG02Part (partAt debuf offset) = .ok (some (dib, len)) ∧ fixes env i part dib ∧ env.saved i := by
  constructor
  · rintro ⟨o, l, part, dib, len, heq, -, hpart⟩
    rw [h] at heq
    cases heq
    exact ⟨part, dib, len, hpart⟩
  · rintro ⟨part, dib, len, hpart⟩
    exact ⟨offset, length, part, dib, len, h, hpos, hpart⟩

/-- Any other iteration passes on its own buffer, and goes on if the entry is passed over or its part is extracted. -/
theorem turn_proper {env : Env} {debuf : List UInt8} {i : Nat} (h : ¬ OtherType debuf i) :
    (∀ u ∈ (turn env debuf i).1, Proper i u) ∧
      ((turn env debuf i).2 = none ↔ Skipped debuf i ∨ Extracted env debuf i) := by
  rw [turn]
  cases hentry : entry debuf i with
  | none => simp [Skipped, Extracted, hentry]
  | some p =>
    obtain ⟨offset, length⟩ := p
    rw [skipped_iff hentry]
    by_cases hpos : offset ≠ 0 ∧ length ≠ 0
    · rw [extracted_iff hentry hpos, or_iff_right (not_not.2 hpos)]
      dsimp only
      rw [if_pos hpos]
      cases hread : readPart (partAt debuf offset) 0 with
      | none => cases extractG02Part (partAt debuf offset) <;> simp
      | some part =>
        cases hextract : extractG02Part (partAt debuf offset) with
        | error e => simp
        | ok r =>
          cases r with
          | none =>
            obtain ⟨part', hread', hother⟩ := extractG02Part_eq_none.1 hextract
            exact absurd ⟨offset, length, part', hentry, hpos, hread', hother⟩ h
          | some r =>
            obtain ⟨dib, len⟩ := r
            refine ⟨passOn_proper i _ _, passOn_none.trans ?_⟩
            constructor
            · rintro ⟨hfixed, hsaved⟩
              exact ⟨part, dib, len, rfl, rfl, hfixed, hsaved⟩
            · rintro ⟨part', dib', len', hread', hextract', hfixed, hsaved⟩
              cases hread'
              cases hextract'
              exact ⟨hfixed, hsaved⟩
    · dsimp only
      rw [if_neg hpos]
      exact ⟨by simp, iff_of_true rfl (.inl hpos)⟩

/-- An iteration passes on one buffer at most. -/
theorem turn_shape (env : Env) (debuf : List UInt8) (i : Nat) : (∃ stop, turn env debuf i = ([], stop)) ∨
    ∃ imgBuf fixed saved, turn env debuf i = passOn i imgBuf fixed saved := by
  rw [turn]
  cases entry debuf i with
  | none => exact .inl ⟨_, rfl⟩
  | some p =>
    dsimp only
    split
    · split
      · exact .inr ⟨_, _, _, rfl⟩
      · exact .inr ⟨_, _, _, rfl⟩
      · exact .inl ⟨_, rfl⟩
      · exact .inl ⟨_, rfl⟩
    · exact .inl ⟨_, rfl⟩

theorem turn_iteration (env : Env) (debuf : List UInt8) (i : Nat) : ∀ u ∈ (turn env debuf i).1, u.iteration = i := by
  rcases turn_shape env debuf i with ⟨stop, h⟩ | ⟨imgBuf, fixed, saved, h⟩
  · rw [h]; exact nofun
  · rw [h]; exact passOn_iteration i imgBuf fixed saved

theorem turn_frees (env : Env) (debuf : List UInt8) (i : Nat) : (frees (turn env debuf i).1).Nodup := by
  rcases turn_shape env debuf i with ⟨stop, h⟩ | ⟨imgBuf, fixed, saved, h⟩
  · rw [h]; exact List.nodup_nil
  · rw [h, passOn_frees]
    split
    · exact List.nodup_singleton imgBuf
    · exact List.nodup_nil

theorem frees_append (log log' : List Use) : frees (log ++ log') = frees log ++ frees log' := by
  simp [frees]

theorem mem_frees {log : List Use} {p : Ptr} (h : p ∈ frees log) : ∃ u ∈ log, u.buffer = p := by
  obtain ⟨u, hu, rfl⟩ := List.mem_map.1 h
  exact ⟨u, (List.mem_filter.1 hu).1, rfl⟩

theorem partLoop_iteration (env : Env) (debuf : List UInt8) : ∀ (n i : Nat),
    ∀ u ∈ (partLoop env debuf n i).1, i ≤ u.iteration
  | 0, _, u, hu => by cases hu
  | n + 1, i, u, hu => by
    have hturn := turn_iteration env debuf i
    rw [partLoop] at hu
    split at hu
    · next uses heq =>
      rw [heq] at hturn
      rcases List.mem_append.1 hu with hu | hu
      · exact (hturn u hu).ge
      · exact (Nat.le_succ i).trans (partLoop_iteration env debuf n (i + 1) u hu)
    · next uses e heq =>
      rw [heq] at hturn
      exact (hturn u hu).ge

/-- Where each iteration passes on its own buffer, none is freed twice. -/
theorem partLoop_once (env : Env) (debuf : List UInt8) : ∀ (n i : Nat),
    (∀ u ∈ (partLoop env debuf n i).1, u.buffer = .part u.iteration) → (frees (partLoop env debuf n i).1).Nodup
  | 0, _, _ => List.nodup_nil
  | n + 1, i, h => by
    have hturn := turn_iteration env debuf i
    have hfrees := turn_frees env debuf i
    rw [partLoop] at h ⊢
    cases heq : turn env debuf i with
    | mk uses stop =>
      rw [heq] at h hturn hfrees
      cases stop with
      | some e => exact hfrees
      | none =>
        dsimp only at h hturn hfrees ⊢
        rw [frees_append, List.nodup_append]
        refine ⟨hfrees, partLoop_once env debuf n (i + 1) fun u hu => h u (List.mem_append_right _ hu), ?_⟩
        rintro p hp q hq rfl
        -- the two were passed on in different iterations
        obtain ⟨u, hu, hup⟩ := mem_frees hp
        obtain ⟨v, hv, hvp⟩ := mem_frees hq
        have hlater := partLoop_iteration env debuf n (i + 1) v hv
        rw [h u (List.mem_append_left _ hu), hturn u hu] at hup
        rw [h v (List.mem_append_right _ hv), ← hup, Ptr.part.injEq] at hvp
        omega

theorem mem_passOn (i : Nat) (imgBuf : Ptr) (fixed saved : Bool) :
    ⟨i, .fixBmp, imgBuf⟩ ∈ (passOn i imgBuf fixed saved).1 := by
  unfold passOn
  split
  · split <;> exact List.mem_cons_self
  · exact List.mem_cons_self

/-- What an iteration passes on is passed on by the loop. -/
theorem mem_partLoop {env : Env} {debuf : List UInt8} {i : Nat} {u : Use} (hu : u ∈ (turn env debuf i).1) (n : Nat) :
    u ∈ (partLoop env debuf (n + 1) i).1 := by
  rw [partLoop]
  cases heq : turn env debuf i with
  | mk uses stop =>
    rw [heq] at hu
    cases stop with
    | some e => exact hu
    | none => exact List.mem_append_left _ hu

/-- The loop from entry `i` on passes on buffers of their own iteration if and only if it comes to no part of another
type. -/
theorem partLoop_same (env : Env) (debuf : List UInt8) : ∀ (n i : Nat),
    (∀ u ∈ (partLoop env debuf n i).1, u.buffer = .part u.iteration) ↔
      ∀ k < n, (∀ j < k, Skipped debuf (i + j) ∨ Extracted env debuf (i + j)) → ¬ OtherType debuf (i + k)
  | 0, i => by simp [partLoop]
  | n + 1, i => by
    have ih := partLoop_same env debuf n (i + 1)
    by_cases hother : OtherType debuf i
    · -- what this iteration passes on is not its own
      refine iff_of_false (fun h => ?_) fun h => h 0 (Nat.zero_lt_succ n) (by simp) hother
      have hfirst := mem_passOn i (env.uninit i) (env.survives i) (env.saved i)
      rw [← turn_otherType hother] at hfirst
      exact uninit_ne env i (h _ (mem_partLoop hfirst n))
    · obtain ⟨hproper, hgoes⟩ := @turn_proper env debuf i hother
      rw [partLoop]
      cases heq : turn env debuf i with
      | mk uses stop =>
        rw [heq] at hproper hgoes
        have hown : ∀ u ∈ uses, u.buffer = .part u.iteration := by
          intro u hu
          rw [(hproper u hu).1, (hproper u hu).2]
        cases stop with
        | some e =>
          -- the loop ends here
          refine iff_of_true hown fun k _ hbefore => ?_
          cases k with
          | zero => exact hother
          | succ k => exact absurd (hgoes.2 (hbefore 0 (Nat.zero_lt_succ k))) nofun
        | none =>
          dsimp only
          constructor
          · intro h k hk hbefore
            cases k with
            | zero => exact hother
            | succ k =>
              rw [← Nat.succ_add_eq_add_succ]
              refine ih.1 (fun u hu => h u (List.mem_append_right _ hu)) k (Nat.lt_of_succ_lt_succ hk) fun j hj => ?_
              have := hbefore (j + 1) (Nat.succ_lt_succ hj)
              rwa [← Nat.succ_add_eq_add_succ] at this
          · intro h u hu
            rcases List.mem_append.1 hu with hu | hu
            · exact hown u hu
            · refine ih.2 (fun k hk hbefore => ?_) u hu
              rw [Nat.succ_add_eq_add_succ]
              refine h (k + 1) (Nat.succ_lt_succ hk) fun j hj => ?_
              cases j with
              | zero => exact hgoes.1 rfl
              | succ j =>
                rw [← Nat.succ_add_eq_add_succ]
                exact hbefore j (Nat.lt_of_succ_lt_succ hj)

/-- Over the loop, every buffer passed on was allocated in the same iteration and none is freed twice, if and only if
the loop comes to no part of a type that is neither 1 nor 2. -/
theorem extractType2_owned_iff (env : Env) (debuf : List UInt8) : Owned (extractType2 env debuf).1 ↔
    ∀ n, dword (.ofList debuf) 0 = some n →
      ∀ k < n, (∀ j < k, Skipped debuf j ∨ Extracted env debuf j) → ¬ OtherType debuf k := by
  rw [extractType2]
  cases hn : dword (.ofList debuf) 0 with
  | none => exact iff_of_true ⟨nofun, List.nodup_nil⟩ nofun
  | some n =>
    have hsame := partLoop_same env debuf n 0
    simp only [Nat.zero_add] at hsame
    simp only [Option.some.injEq, forall_eq']
    rw [← hsame]
    exact ⟨Owned.same, fun h => ⟨h, partLoop_once env debuf n 0 h⟩⟩

/-- A part with one pixel and no blocks. -/
def onePixelPart (type : Nat) : List UInt8 :=
  le16 type ++ le16 0 ++ le32 0 ++ le32 0 ++ le32 1 ++ le32 1 ++ List.replicate 96 0

/-- A body with two parts, the first of type 1. -/
def twoParts (type : Nat) : List UInt8 :=
  le32 2 ++ le32 20 ++ le32 116 ++ le32 136 ++ le32 116 ++ onePixelPart 1 ++ onePixelPart type

/-- The slot of `img_buf` keeps its value from one iteration to the next. -/
def sameSlot : Env where
  stale i := some (i - 1)
  tmpData _ _ := 0
  survives _ := true
  saved _ := true

/-- For a second part of type 0, the buffer of the first is turned over, saved and freed again. -/
theorem not_extractType2_owned : ¬ ∀ (env : Env) (debuf : List UInt8), Owned (extractType2 env debuf).1 := by
  intro h
  have hfrees : frees (extractType2 sameSlot (twoParts 0)).1 = [.part 0, .part 0] := by decide
  have honce := (h sameSlot (twoParts 0)).once
  rw [hfrees] at honce
  exact absurd honce (by decide)

end SiglusExtract.G00
