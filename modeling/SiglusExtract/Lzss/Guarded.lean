/-
`RealLive_g00_type1_uncompress` on any block. Its loop compares both counters with their ends before
each token, but a token takes up to three bytes of input, and the distance of a back-reference is
subtracted unchecked. It stays inside the block and the buffer exactly where the tokens it starts are
complete and reach back no further than what has been produced.
-/
import SiglusExtract.Lzss.Bounds

namespace SiglusExtract.UnpackG00

open Lz Bytes Lzss

/-! ## Tokens within the output -/

/-- The tokens as the loop takes them from `m` bytes on: each starts before `u`, and a copy reaches
back to the first byte at most. -/
def Within (u : Nat) : List (Token UInt8) → Nat → Prop
  | [], _ => True
  | .lit _ :: ts, m => m < u ∧ Within u ts (m + 1)
  | .copy dist len :: ts, m => m < u ∧ dist ≤ m ∧ Within u ts (m + len)

/-- What the loop takes off the input `s` behind `m` bytes, with `k` bits left in the control byte
`c`: whole tokens, down to the end of the input or until `u` bytes are produced, at most `size` of
them. -/
def Takes (u size k c m : Nat) (s : List UInt8) : Prop :=
  ∃ ts s' rest, s = s' ++ rest ∧ Frame k c ts s' ∧ Within u ts m ∧ m + total ts ≤ size ∧
    (rest = [] ∨ u ≤ m + total ts)

theorem Within.lt {u m : Nat} {t : Token UInt8} {ts : List (Token UInt8)} (h : Within u (t :: ts) m) : m < u := by
  cases t with
  | lit b => exact h.1
  | copy dist len => exact h.1

theorem Within.length_le {u : Nat} {ts : List (Token UInt8)} {m : Nat} (h : Within u ts m)
    (hpos : ∀ t ∈ ts, 0 < t.size) (hne : ts ≠ []) : m + ts.length ≤ u := by
  induction ts generalizing m with
  | nil => exact absurd rfl hne
  | cons t ts ih =>
    have ht := hpos t List.mem_cons_self
    have hlt : m < u ∧ Within u ts (m + t.size) := by
      cases t with
      | lit b => exact h
      | copy dist len => exact ⟨h.1, h.2.2⟩
    cases ts with
    | nil =>
      rw [List.length_singleton]
      omega
    | cons t' ts =>
      have := ih hlt.2 (fun u hu => hpos u (List.mem_cons_of_mem t hu)) (List.cons_ne_nil _ _)
      simp only [List.length_cons] at this ⊢
      omega

section

variable {u size k c m : Nat} {s : List UInt8}

theorem takes_stop (hm : m ≤ size) (h : s = [] ∨ u ≤ m) : Takes u size k c m s :=
  ⟨[], [], s, rfl, .nil k c, trivial, hm, h⟩

/-- A control byte needs a token behind it. -/
theorem Takes.ctrl {b : UInt8} (hm : m < u) (hs : s ≠ []) (h : Takes u size 8 b.toNat m s) :
    Takes u size 0 c m (b :: s) := by
  obtain ⟨ts, s', rest, rfl, hf, hw, hle, hend⟩ := h
  refine ⟨ts, b :: s', rest, rfl, .ctrl ?_ hf, hw, hle, hend⟩
  rintro rfl
  rw [hf.eq_nil] at hs
  rcases hend with rfl | hu
  · exact hs rfl
  · exact Nat.lt_irrefl m (Nat.lt_of_lt_of_le hm hu)

theorem Takes.lit {b : UInt8} (hm : m < u) (hc : c % 2 = 1) (h : Takes u size k (c / 2) (m + 1) s) :
    Takes u size (k + 1) c m (b :: s) := by
  obtain ⟨ts, s', rest, rfl, hf, hw, hle, hend⟩ := h
  refine ⟨_, _, rest, rfl, .lit hc hf, ⟨hm, hw⟩, ?_⟩
  rw [total_cons, lit_size, ← Nat.add_assoc]
  exact ⟨hle, hend⟩

theorem Takes.copy {lo hi : UInt8} (hm : m < u) (hc : c % 2 = 0) (hd : leWord lo hi / 16 ≤ m)
    (h : Takes u size k (c / 2) (m + (leWord lo hi % 16 + 2)) s) : Takes u size (k + 1) c m (lo :: hi :: s) := by
  obtain ⟨ts, s', rest, rfl, hf, hw, hle, hend⟩ := h
  refine ⟨_, _, rest, rfl, .copy hc hf, ⟨hm, hd, hw⟩, ?_⟩
  rw [total_cons, backRef_size, ← Nat.add_assoc]
  exact ⟨hle, hend⟩

end

/-! ## The loop -/

section

variable {block : List UInt8} {u size : Nat}

/-- The loop on a block that is all there is to read, into a buffer of `size` bytes. -/
abbrev loopIn (block : List UInt8) (u size : Nat) : Nat → Nat → Nat → Nat → List UInt8 → Option (List UInt8) :=
  type1Loop (Mem.ofList block) (.cells size fun _ => 0) u block.length

theorem ofList_drop {cur : Nat} {b : UInt8} {s : List UInt8} (hs : block.drop cur = b :: s) :
    Mem.ofList block cur = some b ∧ block.drop (cur + 1) = s ∧ block.length = cur + (s.length + 1) := by
  obtain ⟨hb, hrest⟩ := Mem.read_of_drop hs
  have hlen := congrArg List.length hs
  rw [List.length_drop, List.length_cons] at hlen
  exact ⟨hb, hrest, by omega⟩

theorem ofList_end {cur : Nat} (hs : block.length = cur) : Mem.ofList block cur = none :=
  List.getElem?_eq_none (Nat.le_of_eq hs)

theorem loopIn_stop {cur : Nat} {out : List UInt8} (h : u ≤ out.length ∨ block.length ≤ cur) (fuel k c : Nat) :
    loopIn block u size (fuel + 1) cur k c out = some out := by
  rw [loopIn, type1Loop, if_neg (by omega)]

theorem loopIn_ctrl {out : List UInt8} (hlt : out.length < u) {cur : Nat} {f : UInt8} {s : List UInt8}
    (hs : block.drop cur = f :: s) (fuel c : Nat) :
    loopIn block u size (fuel + 1) cur 0 c out =
      if s ≠ [] then loopIn block u size (fuel + 1) (cur + 1) 8 f.toNat out else none := by
  obtain ⟨hf, -, hlen⟩ := ofList_drop hs
  split
  · rename_i hne
    have := List.length_pos_iff.2 hne
    exact type1Loop_ctrl hlt (by omega) hf fuel c
  · rename_i hnil
    obtain rfl : s = [] := not_not.1 hnil
    have hend : Mem.ofList block (cur + 1) = none := ofList_end hlen
    rw [loopIn, type1Loop, if_pos ⟨hlt, by omega⟩]
    simp [type1Control, hf, hend]

theorem loopIn_lit {out : List UInt8} (hlt : out.length < u) {cur c : Nat} (hc : c % 2 = 1) {b : UInt8}
    {s : List UInt8} (hs : block.drop cur = b :: s) (fuel k : Nat) :
    loopIn block u size (fuel + 1) cur (k + 1) c out =
      if out.length < size then loopIn block u size fuel (cur + 1) k (c / 2) (out ++ [b]) else none := by
  obtain ⟨hb, -, hlen⟩ := ofList_drop hs
  rw [loopIn, type1Loop, if_pos ⟨hlt, by omega⟩, type1Control, if_neg (Nat.succ_ne_zero k)]
  simp only [Option.bind_eq_bind, Option.bind_some, if_pos (show c &&& 1 ≠ 0 by rw [and_one]; omega), hb,
    shiftRight_one, Nat.add_sub_cancel]
  split
  · rename_i h
    rw [Tape.cells_poke.2 ⟨h, rfl⟩]
    rfl
  · rename_i h
    have hnone : (Tape.cells size fun _ => (0 : UInt8)).poke out b = none := by
      rw [Option.eq_none_iff_forall_ne_some]
      exact fun out' h' => h (Tape.cells_poke.1 h').1
    rw [hnone]
    rfl

theorem loopIn_copy {out : List UInt8} (hlt : out.length < u) {cur c : Nat} (hc : c % 2 = 0) {lo hi : UInt8}
    {s : List UInt8} (hs : block.drop cur = lo :: hi :: s) (fuel k : Nat) :
    loopIn block u size (fuel + 1) cur (k + 1) c out =
      ((Tape.cells size fun _ => 0).copy (leWord lo hi / 16) (leWord lo hi % 16 + 2) out).bind fun out =>
        loopIn block u size fuel (cur + 2) k (c / 2) out := by
  obtain ⟨hlo, hs', hlen⟩ := ofList_drop hs
  obtain ⟨hhi, -, -⟩ := ofList_drop hs'
  rw [loopIn, type1Loop, if_pos ⟨hlt, by omega⟩, type1Control, if_neg (Nat.succ_ne_zero k)]
  simp only [Option.bind_eq_bind, Option.bind_some, if_neg (show ¬ c &&& 1 ≠ 0 by rw [and_one]; omega), hlo,
    hhi, offset_eq, count_eq lo hi, shiftRight_one, Nat.add_sub_cancel]

theorem loopIn_copy_none {out : List UInt8} (hlt : out.length < u) {cur c : Nat} (hc : c % 2 = 0) {lo : UInt8}
    (hs : block.drop cur = [lo]) (fuel k : Nat) : loopIn block u size (fuel + 1) cur (k + 1) c out = none := by
  obtain ⟨hlo, -, hlen⟩ := ofList_drop hs
  have hend : Mem.ofList block (cur + 1) = none := ofList_end hlen
  rw [loopIn, type1Loop, if_pos ⟨hlt, by omega⟩, type1Control, if_neg (Nat.succ_ne_zero k)]
  simp only [Option.bind_eq_bind, Option.bind_some, if_neg (show ¬ c &&& 1 ≠ 0 by rw [and_one]; omega), hlo,
    hend, Option.bind_none]

/-- Where the loop ends inside the block and the buffer, it has taken whole tokens. By induction on the
fuel, the tokens of a group before the control byte in front of them. -/
theorem takes_of_loopIn : ∀ (fuel cur k c : Nat) (out fin : List UInt8), cur ≤ block.length → out.length ≤ size →
    loopIn block u size fuel cur k c out = some fin → Takes u size k c out.length (block.drop cur) ∧ fin.length ≤ size
  | 0, _, _, _, _, _, _, _, h => by cases h
  | fuel + 1, cur, k, c, out, fin, hcur, hout, h => by
    by_cases hstop : u ≤ out.length ∨ block.length ≤ cur
    · rw [loopIn_stop hstop] at h
      cases h
      refine ⟨takes_stop hout ?_, hout⟩
      rcases hstop with hu | hend
      · exact .inr hu
      · exact .inl (List.drop_eq_nil_of_le hend)
    · have hlt : out.length < u := by omega
      -- the token at `cur'`, where at least one byte is left
      have htoken : ∀ (cur' k c : Nat) (b : UInt8) (s : List UInt8), block.drop cur' = b :: s →
          loopIn block u size (fuel + 1) cur' (k + 1) c out = some fin →
          Takes u size (k + 1) c out.length (b :: s) ∧ fin.length ≤ size := by
        intro cur' k c b s hs h
        obtain ⟨-, hs', hlen⟩ := ofList_drop hs
        rcases Nat.mod_two_eq_zero_or_one c with hc | hc
        · cases s with
          | nil =>
            rw [loopIn_copy_none hlt hc hs] at h
            cases h
          | cons hi s =>
            rw [loopIn_copy hlt hc hs, Option.bind_eq_some_iff] at h
            obtain ⟨out', hcopy, h⟩ := h
            obtain ⟨hd, hsize⟩ := (Tape.cells_copy (Nat.succ_pos _)).1 ⟨out', hcopy⟩
            have hlen' := Tape.copy_length hcopy
            obtain ⟨htakes, hfin⟩ := takes_of_loopIn fuel (cur' + 2) k _ out' fin
              (by rw [List.length_cons] at hlen; omega) (by omega) h
            rw [hlen', (ofList_drop hs').2.1] at htakes
            exact ⟨htakes.copy hlt hc hd, hfin⟩
        · rw [loopIn_lit hlt hc hs] at h
          split at h
          · rename_i hsize
            obtain ⟨htakes, hfin⟩ := takes_of_loopIn fuel (cur' + 1) k _ _ fin (by omega)
              (by rw [List.length_append, List.length_singleton]; omega) h
            rw [List.length_append, List.length_singleton, hs'] at htakes
            exact ⟨htakes.lit hlt hc, hfin⟩
          · cases h
      obtain ⟨b, s, hs⟩ := List.exists_cons_of_length_pos (show 0 < (block.drop cur).length by
        rw [List.length_drop]; omega)
      rw [hs]
      cases k with
      | succ k => exact htoken cur k c b s hs h
      | zero =>
        rw [loopIn_ctrl hlt hs] at h
        split at h
        · rename_i hne
          obtain ⟨b', s', hs'⟩ := List.exists_cons_of_ne_nil hne
          obtain ⟨htakes, hfin⟩ := htoken (cur + 1) 7 _ b' s' (by rw [(ofList_drop hs).2.1, hs']) h
          rw [← hs'] at htakes
          exact ⟨htakes.ctrl hlt hne, hfin⟩
        · cases h

/-- Conversely the loop takes whole tokens that stay inside to the end. -/
theorem loopIn_frame {k c : Nat} {ts : List (Token UInt8)} {s : List UInt8} (h : Frame k c ts s) {cur fuel : Nat}
    {out rest : List UInt8} (hs : block.drop cur = s ++ rest) (hw : Within u ts out.length)
    (hle : out.length + total ts ≤ size) (hend : rest = [] ∨ u ≤ out.length + total ts) (hfuel : ts.length < fuel) :
    ∃ fin, loopIn block u size fuel cur k c out = some fin := by
  obtain ⟨fuel, rfl⟩ := Nat.exists_eq_succ_of_ne_zero (Nat.ne_zero_of_lt hfuel)
  induction h generalizing cur fuel out with
  | nil k c =>
    refine ⟨out, loopIn_stop ?_ fuel k c⟩
    rcases hend with rfl | hu
    · exact .inr (List.drop_eq_nil_iff.1 hs)
    · exact .inl hu
  | @ctrl c₀ c ts s hne hf ih =>
    obtain ⟨t, ts', rfl⟩ := List.exists_cons_of_ne_nil hne
    rw [List.cons_append] at hs
    rw [loopIn_ctrl hw.lt hs, if_pos (List.append_ne_nil_of_left_ne_nil (hf.ne_nil hne) rest)]
    exact ih (ofList_drop hs).2.1 hw hle hend fuel hfuel
  | @lit k c b ts s hc hf ih =>
    rw [total_cons, lit_size, ← Nat.add_assoc] at hle hend
    rw [List.cons_append] at hs
    obtain ⟨fuel, rfl⟩ := Nat.exists_eq_succ_of_ne_zero (show fuel ≠ 0 by rw [List.length_cons] at hfuel; omega)
    rw [loopIn_lit hw.lt hc hs, if_pos (by omega)]
    have hlen : (out ++ [b]).length = out.length + 1 := by rw [List.length_append, List.length_singleton]
    exact ih (ofList_drop hs).2.1 (by rw [hlen]; exact hw.2) (by rwa [hlen]) (by rwa [hlen]) fuel
      (by rw [List.length_cons] at hfuel; omega)
  | @copy k c lo hi ts s hc hf ih =>
    rw [total_cons, backRef_size, ← Nat.add_assoc] at hle hend
    rw [List.cons_append, List.cons_append] at hs
    obtain ⟨fuel, rfl⟩ := Nat.exists_eq_succ_of_ne_zero (show fuel ≠ 0 by rw [List.length_cons] at hfuel; omega)
    obtain ⟨hm, hd, hw⟩ := hw
    obtain ⟨out', hcopy⟩ : ∃ out', (Tape.cells size fun _ => (0 : UInt8)).copy (leWord lo hi / 16)
        (leWord lo hi % 16 + 2) out = some out' := (Tape.cells_copy (Nat.succ_pos _)).2 ⟨hd, by omega⟩
    have hlen := Tape.copy_length hcopy
    rw [loopIn_copy hm hc hs, hcopy, Option.bind_some]
    exact ih (ofList_drop (ofList_drop hs).2.1).2.1 (by rw [hlen]; exact hw) (by rwa [hlen]) (by rwa [hlen]) fuel
      (by rw [List.length_cons] at hfuel; omega)

end

/-! ## The decoder -/

/-- On a block of `body.length + 8` bytes the decoder terminates, reads nothing behind the block and
stays inside its buffer, and that buffer has at most 64 bytes more than the announced length `u`,
exactly where: the block is stored and has at most 64 bytes; or the tokens the loop starts are complete
inside the block, reach back to the first byte at most, and the buffer size does not wrap below them. -/
theorem realLiveG00Type1Uncompress_safe_iff (body : List UInt8) (u : Nat) (hL : body.length + 8 < 2 ^ 32)
    (hu : u < 2 ^ 32) :
    (∃ out len, realLiveG00Type1Uncompress (Mem.ofList (le32 (body.length + 8) ++ le32 u ++ body)) = some (out, len) ∧
        out.length ≤ u + 64) ↔
      u = 0 ∧ body.length ≤ 64 ∨ u ≠ 0 ∧ Takes u ((u + 64) % 2 ^ 32) 0 0 0 body := by
  have hhold : (Mem.ofList (le32 (body.length + 8) ++ le32 u ++ body)).Holds 0
      (le32 (body.length + 8) ++ le32 u ++ body) := by
    simpa using Mem.holds_ofList_self (le32 (body.length + 8) ++ le32 u ++ body) []
  rw [Mem.holds_append, Mem.holds_append] at hhold
  obtain ⟨⟨hc, hn⟩, hbody⟩ := hhold
  have hn : (Mem.ofList (le32 (body.length + 8) ++ le32 u ++ body)).Holds 4 (le32 u) := hn
  have hlen : (le32 (body.length + 8) ++ le32 u ++ body).length = body.length + 8 := by
    simp only [List.length_append, le32_length]
    omega
  have hdrop : (le32 (body.length + 8) ++ le32 u ++ body).drop 8 = body := rfl
  -- a stored block is copied whole
  have hstored : (List.range body.length).mapM
      (fun i => Mem.ofList (le32 (body.length + 8) ++ le32 u ++ body) (8 + i)) = some body := hbody.mapM_range
  have hcompr : (body.length + 8 + 2 ^ 32 - 8) % 2 ^ 32 = body.length := by omega
  generalize le32 (body.length + 8) ++ le32 u ++ body = block at hc hn hlen hdrop hstored ⊢
  unfold realLiveG00Type1Uncompress
  simp only [dword_of_holds hc hL, dword_of_holds hn hu, Option.bind_eq_bind, Option.bind_some, hcompr]
  by_cases h0 : u = 0
  · rw [if_neg (not_not.2 h0), hstored, h0]
    constructor
    · rintro ⟨out, len, h, hout⟩
      cases h
      exact .inl ⟨rfl, by omega⟩
    · rintro (⟨-, hle⟩ | ⟨hne, -⟩)
      · exact ⟨body, body.length, rfl, by omega⟩
      · exact absurd rfl hne
  · rw [if_pos h0, Nat.mod_eq_of_lt hL, ← hlen]
    constructor
    · rintro ⟨out, len, h, -⟩
      obtain ⟨fin, hloop, -⟩ := Option.bind_eq_some_iff.1 h
      have := (takes_of_loopIn _ _ _ _ _ _ (by omega) (Nat.zero_le _) hloop).1
      rw [hdrop] at this
      exact .inr ⟨h0, this⟩
    · rintro (⟨hne, -⟩ | ⟨-, ts, s, rest, hs, hf, hw, hle, hend⟩)
      · exact absurd hne h0
      · rw [Nat.zero_add] at hle hend
        have hts : ts.length < u + 1 := by
          by_cases hts : ts = []
          · rw [hts]
            exact Nat.succ_pos u
          · have := hw.length_le hf.size_pos hts
            omega
        obtain ⟨fin, hloop⟩ : ∃ fin, loopIn block u ((u + 64) % 2 ^ 32) (u + 1) 8 0 0 [] = some fin :=
          loopIn_frame hf (by rw [hdrop, hs]) hw (by rwa [List.length_nil, Nat.zero_add])
            (by rwa [List.length_nil, Nat.zero_add]) hts
        have hfin := (takes_of_loopIn _ _ _ _ _ _ (by omega) (Nat.zero_le _) hloop).2
        refine ⟨_, u, Option.bind_eq_some_iff.2 ⟨fin, hloop, rfl⟩, ?_⟩
        have := Nat.mod_le (u + 64) (2 ^ 32)
        rw [List.length_append, List.length_replicate]
        omega

/-- A literal and a copy over three bytes: the copy runs sixteen bytes past the announced end. -/
theorem realLiveG00Type1Uncompress_safe_slack : 4 + 8 < 2 ^ 32 ∧
    ∃ out len, realLiveG00Type1Uncompress (Mem.ofList (le32 12 ++ le32 2 ++ [1, 7, 0x1f, 0])) = some (out, len) ∧
      out.length ≤ 2 + 64 := by
  refine ⟨by decide, (realLiveG00Type1Uncompress_safe_iff [1, 7, 0x1f, 0] 2 (by decide) (by decide)).2
    (.inr ⟨by decide, ?_⟩)⟩
  exact ⟨[.lit 7, backRef (leWord 0x1f 0)], [1, 7, 0x1f, 0], [], rfl,
    .ctrl (List.cons_ne_nil _ _) (.lit rfl (.copy rfl (.nil 6 0))), ⟨by decide, by decide, by decide, trivial⟩,
    by decide, .inl rfl⟩

/-- A control byte at the end of the block: the literal is read behind it. A distance of one before
anything is produced: the byte in front of the buffer is read. -/
theorem realLiveG00Type1Uncompress_unsafe :
    realLiveG00Type1Uncompress (Mem.ofList (le32 9 ++ le32 1 ++ [1])) = none ∧
      (realLiveG00Type1Uncompress (Mem.ofList (le32 9 ++ le32 1 ++ [1] ++ [7]))).isSome ∧
      realLiveG00Type1Uncompress (Mem.ofList (le32 11 ++ le32 2 ++ [0, 0x10, 0])) = none := by
  decide +kernel

end SiglusExtract.UnpackG00
