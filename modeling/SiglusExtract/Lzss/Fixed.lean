/-
No input is its own compressed stream. Such an input would start with the control byte of eight literals
and nine bytes of that value, and the bytes after them would repeat at a distance of two, where the
encoder takes a match; but a match does not fit the bytes that it would have to be.
-/
import SiglusExtract.Lzss.Compress

namespace SiglusExtract.Compression

open Lz Bytes Lzss

/-- The encoder in front of position `curlen` of its input `data`, where the stream that it writes is `data`
again, from offset `p` on, with `k` bits left in the control byte. -/
def Fixed (data : List UInt8) (compression : Int) (k c curlen p : Nat) : Prop :=
  ∃ ts, Frame k c ts (data.drop p) ∧ expand ts (data.take curlen) = some data ∧ Chosen data compression curlen ts

section

variable {data : List UInt8} {compression : Int} {k c curlen p : Nat}

theorem drop_eq_cons {b : UInt8} {s : List UInt8} (h : data.drop p = b :: s) :
    data[p]? = some b ∧ data.drop (p + 1) = s := by
  constructor
  · rw [← List.head?_drop, h, List.head?_cons]
  · rw [← List.tail_drop, h, List.tail_cons]

theorem lt_of_getElem? {i : Nat} {b : UInt8} (h : data[i]? = some b) : i < data.length :=
  (List.getElem?_eq_some_iff.1 h).1

/-- Where input is left there is a token. -/
theorem tokens_ne_nil {ts : List (Token UInt8)} (hcur : curlen < data.length)
    (he : expand ts (data.take curlen) = some data) : ts ≠ [] := by
  rintro rfl
  have := congrArg List.length (Option.some.inj he)
  rw [List.length_take] at this
  omega

theorem Fixed.ctrl (h : Fixed data compression 0 c curlen p) (hcur : curlen < data.length) :
    ∃ b, data[p]? = some b ∧ Fixed data compression 8 b.toNat curlen (p + 1) := by
  obtain ⟨ts, hf, he, hc⟩ := h
  generalize hs : data.drop p = s at hf
  cases hf with
  | nil => exact absurd rfl (tokens_ne_nil hcur he)
  | ctrl _ hf =>
    obtain ⟨hb, hs⟩ := drop_eq_cons hs
    exact ⟨_, hb, ts, hs ▸ hf, he, hc⟩

/-- A token: the byte in front of which the encoder stands, or the word of a copy. -/
theorem Fixed.token (h : Fixed data compression (k + 1) c curlen p) (hcur : curlen < data.length) :
    (c % 2 = 1 ∧ p < data.length ∧ data[p]? = data[curlen]? ∧ Choice data compression curlen (.lit 0) ∧
        Fixed data compression k (c / 2) (curlen + 1) (p + 1)) ∨
      (c % 2 = 0 ∧ compression ≠ 0 ∧ ∃ lo hi, data[p]? = some lo ∧ data[p + 1]? = some hi ∧ 1 ≤ leWord lo hi % 16 ∧
        0 < leWord lo hi / 16 ∧ leWord lo hi / 16 ≤ curlen ∧
        ∀ j < 3, data[curlen + j]? = data[curlen + j - leWord lo hi / 16]?) := by
  obtain ⟨ts, hf, he, hc⟩ := h
  have hlen : (data.take curlen).length = curlen := by rw [List.length_take]; omega
  generalize hs : data.drop p = s at hf
  cases hf with
  | nil => exact absurd rfl (tokens_ne_nil hcur he)
  | @lit _ _ b ts s hbit hf =>
    left
    obtain ⟨hb, hs⟩ := drop_eq_cons hs
    simp only [expand, Token.step, Option.bind_some] at he
    -- the literal is the next byte of the input
    have hnext : data[curlen]? = some b := by
      have := List.prefix_iff_getElem?.1 ( expand_prefix he) curlen (by simp [hlen])
      rw [this, List.getElem_append_right (by omega)]
      simp
    have htake : data.take curlen ++ [b] = data.take (curlen + 1) := by
      rw [List.take_add_one, hnext]
      rfl
    exact ⟨hbit, lt_of_getElem? hb, hb.trans hnext.symm, hc.1, ts, hs ▸ hf, htake ▸ he, hc.2⟩
  | @copy _ _ lo hi ts s hbit hf =>
    right
    obtain ⟨hlo, hs⟩ := drop_eq_cons hs
    obtain ⟨hhi, -⟩ := drop_eq_cons hs
    obtain ⟨hcomp, hsize⟩ : compression ≠ 0 ∧ 3 ≤ leWord lo hi % 16 + 2 := hc.1
    obtain ⟨out, hstep, he⟩ := expand_cons.1 he
    obtain ⟨hpos, hdist, hrep⟩ := copyBack_repeats hstep (Nat.succ_pos _)
    have hpre := List.prefix_iff_getElem?.1 ( expand_prefix he)
    have hout := copyBack_length hstep
    rw [hlen] at hdist hrep hout
    have hget : ∀ i < out.length, data[i]? = out[i]? := by
      intro i hi
      rw [hpre i hi, List.getElem?_eq_getElem hi]
    refine ⟨hbit, hcomp, lo, hi, hlo, hhi, by omega, hpos, hdist, fun j hj => ?_⟩
    rw [hget _ (by omega), hget _ (by omega)]
    exact hrep j (by omega)

end

/-! ## The first tokens -/

section

variable {data : List UInt8} {compression : Int} {c : UInt8}

/-- The first group: its tokens are literals, and all of its bytes are the control byte. -/
theorem fixed_group (h : Fixed data compression 8 c.toNat 0 1) (hc : data[0]? = some c) :
    ∀ j ≤ 8, j < data.length ∧ (∀ i ≤ j, data[i]? = some c) ∧ c.toNat % 2 ^ j = 2 ^ j - 1 ∧
      Fixed data compression (8 - j) (c.toNat / 2 ^ j) j (j + 1)
  | 0, _ => by
    refine ⟨lt_of_getElem? hc, fun i hi => ?_, Nat.mod_one _, by simpa using h⟩
    rwa [Nat.le_zero.1 hi]
  | j + 1, hj => by
    obtain ⟨hlt, hall, hbits, hfix⟩ := fixed_group h hc j (by omega)
    rw [show 8 - j = 8 - (j + 1) + 1 by omega] at hfix
    rcases hfix.token hlt with ⟨hbit, hp, hlit, -, hnext⟩ | ⟨-, -, lo, hi, hlo, hhi, hlen, hpos, hdist, hrep⟩
    · refine ⟨hp, fun i hi => ?_, ?_, ?_⟩
      · rcases Nat.lt_or_eq_of_le hi with hi | rfl
        · exact hall i (by omega)
        · rw [hlit, hall j (Nat.le_refl j)]
      · rw [Nat.mod_pow_succ, hbits, hbit, Nat.mul_one, Nat.pow_succ]
        have := Nat.two_pow_pos j
        omega
      · rwa [Nat.div_div_eq_div_mul, ← Nat.pow_succ] at hnext
    · -- a copy repeats the control byte, so the two bytes of its word are that byte
      have h1 : data[j + 1]? = some c := by rw [hrep 1 (by omega), hall _ (by omega)]
      have h2 : data[j + 2]? = some c := by
        rw [hrep 2 (by omega)]
        rcases Nat.lt_or_eq_of_le (show j + 2 - leWord lo hi / 16 ≤ j + 1 by omega) with hlt | heq
        · exact hall _ (by omega)
        · rw [heq, h1]
      obtain rfl : lo = c := Option.some.inj (hlo.symm.trans h1)
      obtain rfl : hi = lo := Option.some.inj (hhi.symm.trans h2)
      unfold leWord at hdist hpos
      have h0 : hi.toNat = 0 := by omega
      omega

/-- A stream without copies is longer than what it says. -/
theorem lits_length {k c : Nat} {ts : List (Token UInt8)} {s : List UInt8} (h : Frame k c ts s)
    (hlit : ∀ t ∈ ts, t.size = 1) : ts.length ≤ s.length ∧ (k = 0 → ts ≠ [] → ts.length < s.length) := by
  induction h with
  | nil => exact ⟨Nat.le_refl _, fun _ hne => absurd rfl hne⟩
  | ctrl hne _ ih =>
    have := (ih hlit).1
    rw [List.length_cons]
    exact ⟨by omega, fun _ _ => by omega⟩
  | lit _ _ ih =>
    have := (ih fun t ht => hlit t (List.mem_cons_of_mem _ ht)).1
    rw [List.length_cons, List.length_cons]
    exact ⟨by omega, fun h0 => absurd h0 (Nat.succ_ne_zero _)⟩
  | copy _ _ _ =>
    have := hlit _ List.mem_cons_self
    simp only [backRef, Token.size] at this
    omega

theorem Chosen.lits {ts : List (Token UInt8)} {curlen : Nat} (h : Chosen data 0 curlen ts) : ∀ t ∈ ts, t.size = 1 := by
  induction ts generalizing curlen with
  | nil => simp
  | cons tk ts ih =>
    obtain ⟨htk, hts⟩ := h
    intro t ht
    rcases List.mem_cons.1 ht with rfl | ht
    · cases t with
      | lit b => rfl
      | copy dist len => exact absurd rfl htk.1
    · exact ih hts t ht

/-- No input is the stream that is written for it. -/
theorem frame_ne_self {ts : List (Token UInt8)} (hne : data ≠ []) (hf : Frame 0 0 ts data)
    (he : expand ts [] = some data) (hchosen : Chosen data compression 0 ts) : False := by
  have hpos := List.length_pos_iff.2 hne
  have hcomp : compression ≠ 0 := by
    rintro rfl
    have hlen := expand_length he
    rw [List.map_eq_replicate_iff.2 hchosen.lits, List.sum_replicate_nat, Nat.mul_one, List.length_nil,
      Nat.zero_add] at hlen
    have := (lits_length hf hchosen.lits).2 rfl (List.length_pos_iff.1 (hlen ▸ hpos))
    omega
  have hstart : Fixed data compression 0 0 0 0 := ⟨ts, hf, he, hchosen⟩
  obtain ⟨c, hc, hfix⟩ := hstart.ctrl hpos
  obtain ⟨h8, hall, hbits, hfix⟩ := fixed_group hfix hc 8 (Nat.le_refl 8)
  obtain rfl : c = 255 := by
    apply UInt8.toNat_inj.1
    have := c.toNat_lt
    rw [Nat.mod_eq_of_lt (by omega)] at hbits
    exact hbits
  -- the control byte of the second group
  obtain ⟨b, hb, hfix⟩ := hfix.ctrl h8
  have hodd : b = 255 → b.toNat % 2 = 1 ∧ b.toNat / 2 % 2 = 1 := by
    rintro rfl
    decide
  -- copies before offset 10 repeat the byte 255 in the place of that control byte
  rcases hfix.token h8 with ⟨-, h10, hlit10, -, hfix⟩ | ⟨hbit, -, lo, hi, -, -, -, hpos', hdist, hrep⟩
  swap
  · have := hrep 1 (by omega)
    rw [hb, hall _ (by omega), Option.some.injEq] at this
    have := (hodd this).1
    omega
  rw [hall 8 (Nat.le_refl 8)] at hlit10
  rcases hfix.token (by omega) with ⟨-, h11, hlit11, -, hfix⟩ | ⟨hbit, -, lo, hi, -, -, -, hpos', hdist, hrep⟩
  swap
  · have := hrep 0 (by omega)
    rw [Nat.add_zero, hb, hall _ (by omega), Option.some.injEq] at this
    have := (hodd this).2
    omega
  rw [hb] at hlit11
  rcases hfix.token (by omega) with ⟨-, h12, hlit12, hchoice, -⟩ | ⟨-, -, lo, hi, hlo, -, -, hpos', hdist, hrep⟩
  · -- the three bytes from offset 10 on stand at offset 8 already
    rw [hlit10] at hlit12
    obtain ⟨j, hj, hne⟩ := hchoice hcomp (by decide) (by decide) (by unfold acceptLevel; omega) 8 (by decide)
    unfold acceptLevel at hj
    obtain rfl | rfl | rfl : j = 0 ∨ j = 1 ∨ j = 2 := by omega
    · exact hne (hlit10.trans (hall 8 (Nat.le_refl 8)).symm)
    · exact hne (hlit11.trans hb.symm)
    · exact hne (hlit12.trans hlit10.symm)
  · -- the byte that the copy repeats is 255, and no such word starts with it
    have hall' : data[12]? = some 255 := by
      have h11' := hrep 1 (by omega)
      rw [hlit11] at h11'
      rw [hrep 2 (by omega)]
      obtain hd | hd | hd | hd : leWord lo hi / 16 = 1 ∨ leWord lo hi / 16 = 2 ∨ leWord lo hi / 16 = 3 ∨
          4 ≤ leWord lo hi / 16 := by omega
      · rw [hd] at h11' ⊢
        rw [hlit11, h11', hlit10]
      · rw [hd, hlit10]
      · rw [hd] at h11' ⊢
        rw [hb, h11', hall 8 (Nat.le_refl 8)]
      · exact hall _ (by omega)
    obtain rfl : lo = 255 := Option.some.inj (hlo.symm.trans hall')
    have h255 : (255 : UInt8).toNat = 255 := rfl
    unfold leWord at hdist
    omega

end

end SiglusExtract.Compression
