/-
The LZSS stream shared by `Scene.pck`, `Gameexe.dat`, `.dbs` and `.g00` files: control bytes whose
bits are taken from the least significant one, each announcing a literal byte (1) or a 16-bit
little-endian token (0) with the distance in its upper twelve bits and the length less two in its
lower four. `Frame` relates such bytes to the tokens they hold, `decode` is the reference decoder.
-/
import SiglusExtract.Lib.Lz
import SiglusExtract.Lib.Bytes

namespace SiglusExtract.Lzss

open Lz Bytes

/-! ## Streams and tokens -/

/-- The token a 16-bit word stands for. -/
def backRef (t : Nat) : Token UInt8 := .copy (t / 16) (t % 16 + 2)

/-- With `k` bits left in the control byte `c`, the bytes hold the tokens. A control byte is only
read for a token; the bits left over behind the last token are free. -/
inductive Frame : Nat → Nat → List (Token UInt8) → List UInt8 → Prop
  | nil (k c : Nat) : Frame k c [] []
  | ctrl {c₀ : Nat} {c : UInt8} {ts : List (Token UInt8)} {s : List UInt8} :
      ts ≠ [] → Frame 8 c.toNat ts s → Frame 0 c₀ ts (c :: s)
  | lit {k c : Nat} {b : UInt8} {ts : List (Token UInt8)} {s : List UInt8} :
      c % 2 = 1 → Frame k (c / 2) ts s → Frame (k + 1) c (.lit b :: ts) (b :: s)
  | copy {k c : Nat} {lo hi : UInt8} {ts : List (Token UInt8)} {s : List UInt8} :
      c % 2 = 0 → Frame k (c / 2) ts s → Frame (k + 1) c (backRef (leWord lo hi) :: ts) (lo :: hi :: s)

theorem Frame.eq_nil {k c : Nat} {s : List UInt8} (h : Frame k c [] s) : s = [] := by
  cases h with
  | nil => rfl
  | ctrl hne => exact absurd rfl hne

theorem Frame.ne_nil {k c : Nat} {ts : List (Token UInt8)} {s : List UInt8} (h : Frame k c ts s) (hne : ts ≠ []) :
    s ≠ [] := by
  cases h with
  | nil => exact absurd rfl hne
  | _ => exact List.cons_ne_nil _ _

theorem Frame.size_pos {k c : Nat} {ts : List (Token UInt8)} {s : List UInt8} (h : Frame k c ts s) :
    ∀ t ∈ ts, 0 < t.size := by
  induction h with
  | nil => simp
  | ctrl _ _ ih => exact ih
  | lit _ _ ih =>
    intro t ht
    rcases List.mem_cons.1 ht with rfl | ht
    · exact Nat.one_pos
    · exact ih t ht
  | copy _ _ ih =>
    intro t ht
    rcases List.mem_cons.1 ht with rfl | ht
    · exact Nat.succ_pos _
    · exact ih t ht

/-- A framed stream is longer than what its tokens expand to by its control bytes at most, one for
eight tokens. -/
theorem Frame.length_le {k c : Nat} {ts : List (Token UInt8)} {s : List UInt8} (h : Frame k c ts s)
    {out fin : List UInt8} (he : expand ts out = some fin) :
    8 * s.length + 8 * out.length ≤ 8 * fin.length + (ts.length + 7 - k) := by
  induction h generalizing out with
  | nil => cases he; simp
  | @ctrl c₀ c ts s hne hf ih =>
    have := ih he
    have := List.length_pos_iff.2 hne
    simp only [List.length_cons]
    omega
  | @lit k c b ts s hc hf ih =>
    have := ih he
    simp only [List.length_cons, List.length_append, List.length_nil] at this ⊢
    omega
  | @copy k c lo hi ts s hc hf ih =>
    obtain ⟨out', ho, he⟩ := expand_cons.1 he
    have := ih he
    have hlen := Token.step_length ho
    simp only [backRef, Token.size] at hlen
    simp only [List.length_cons]
    omega

/-- A stream that expands to `n` bytes is at most an eighth longer, rounded up. -/
theorem Frame.stream_length_le {ts : List (Token UInt8)} {s : List UInt8} (h : Frame 0 0 ts s)
    {fin : List UInt8} (he : expand ts [] = some fin) : 8 * s.length ≤ 9 * fin.length + 7 := by
  have := h.length_le he
  have := expand_count_le h.size_pos he
  simp only [List.length_nil] at *
  omega

/-! ## The reference decoder -/

/-- The reference decoder, with `k` bits left in the control byte `c` and `out` produced so far:
the `n` bytes of a stream that is well formed for `n`, `none` for any other. -/
def decodeFrom (n : Nat) : Nat → Nat → List UInt8 → List UInt8 → Option (List UInt8)
  | _, _, out, [] => if out.length = n then some out else none
  | 0, _, out, c :: s => if out.length = n then none else decodeFrom n 8 c.toNat out s
  | k + 1, c, out, b :: s =>
    if out.length = n then none
    else if c % 2 = 1 then decodeFrom n k (c / 2) (out ++ [b]) s
    else match s with
      | [] => none
      | hi :: s =>
        let t := leWord b hi
        (copyBack (t / 16) (t % 16 + 2) out).bind fun out => decodeFrom n k (c / 2) out s

/-- The bytes a stream decodes to: each distance between 1 and the bytes already produced, the
last token ending exactly at `n` and at the end of the stream. -/
def decode (n : Nat) (s : List UInt8) : Option (List UInt8) := decodeFrom n 0 0 [] s

/-- A stream is well formed for `n` when the reference decoder accepts it. -/
def WellFormed (n : Nat) (s : List UInt8) : Prop := (decode n s).isSome

theorem decodeFrom_frame {n k c : Nat} {out s fin : List UInt8} (h : decodeFrom n k c out s = some fin) :
    ∃ ts, Frame k c ts s ∧ expand ts out = some fin ∧ fin.length = n := by
  fun_induction decodeFrom n k c out s with
  | case1 k c out hn =>
    cases h
    exact ⟨[], .nil _ _, rfl, hn⟩
  | case2 => cases h
  | case3 => cases h
  | case4 c₀ out c s hn ih =>
    obtain ⟨ts, hf, he, hl⟩ := ih h
    refine ⟨ts, .ctrl ?_ hf, he, hl⟩
    -- a control byte without a token would leave `out` short of `n`
    rintro rfl
    cases he
    exact hn hl
  | case5 => cases h
  | case6 k c out b s hn hc ih =>
    obtain ⟨ts, hf, he, hl⟩ := ih h
    exact ⟨.lit b :: ts, .lit hc hf, he, hl⟩
  | case7 => cases h
  | case8 k c out b hn hc hi s t ih =>
    rw [Option.bind_eq_some_iff] at h
    obtain ⟨out', ho, h⟩ := h
    obtain ⟨ts, hf, he, hl⟩ := ih out' h
    refine ⟨backRef (leWord b hi) :: ts, .copy (by omega) hf, ?_, hl⟩
    have hs : (backRef (leWord b hi)).step out = some out' := ho
    simp only [expand, hs, Option.bind_some, he]

/-- A well-formed stream frames tokens that expand to its `n` bytes. -/
theorem decode_frame {n : Nat} {s fin : List UInt8} (h : decode n s = some fin) :
    ∃ ts, Frame 0 0 ts s ∧ expand ts [] = some fin ∧ fin.length = n :=
  decodeFrom_frame h

/-- Conversely the reference decoder accepts every framed token stream of total size `n`. -/
theorem Frame.decodeFrom_eq {k c : Nat} {ts : List (Token UInt8)} {s : List UInt8} (h : Frame k c ts s)
    {n : Nat} {out fin : List UInt8} (he : expand ts out = some fin) (hn : fin.length = n) :
    decodeFrom n k c out s = some fin := by
  induction h generalizing out with
  | nil k c =>
    cases he
    cases k <;> simp [decodeFrom, hn]
  | @ctrl c₀ c ts s hne hf ih =>
    have := expand_count_le hf.size_pos he
    have := List.length_pos_iff.2 hne
    rw [decodeFrom, if_neg (by omega)]
    exact ih he
  | @lit k c b ts s hc hf ih =>
    have hlt := expand_count_le (Frame.lit (b := b) hc hf).size_pos he
    rw [List.length_cons] at hlt
    unfold decodeFrom
    rw [if_neg (by omega), if_pos hc]
    exact ih he
  | @copy k c lo hi ts s hc hf ih =>
    have hlt := expand_count_le (Frame.copy hc hf).size_pos he
    rw [List.length_cons] at hlt
    rw [decodeFrom, if_neg (by omega), if_neg (by omega)]
    obtain ⟨out', ho, he⟩ := expand_cons.1 he
    have ho : copyBack (leWord lo hi / 16) (leWord lo hi % 16 + 2) out = some out' := ho
    simp only [ho, Option.bind_some]
    exact ih he

/-- The streams well formed for `n` are the framed token streams that expand to `n` bytes. -/
theorem decode_eq_some_iff {n : Nat} {s fin : List UInt8} :
    decode n s = some fin ↔ ∃ ts, Frame 0 0 ts s ∧ expand ts [] = some fin ∧ fin.length = n :=
  ⟨decode_frame, fun ⟨_, hf, he, hn⟩ => hf.decodeFrom_eq he hn⟩

end SiglusExtract.Lzss
