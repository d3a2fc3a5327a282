/-
What the OMV converters (UnpackOmv.h, Omv2Avi.cpp) share: the Theora packets queued in the stream state,
the loop that hands them to the decoder until it accepts one, and the pages that each read of the input
completes. libogg and libtheora are parameters: which packets the pages carry, and what the decoder makes
of a packet.
-/
import Mathlib.Data.List.Basic

namespace SiglusExtract.Omv

/-- What the decode loops use: whether a Theora stream was found, and `th_decode_packetin`, which takes a
packet or rejects it and may change the decoder in both cases. -/
structure Codec (δ π : Type) where
  theoraP : Bool
  packetin : δ → π → δ × Bool

variable {δ π : Type} (c : Codec δ π)

/-- `while (theora_p && !videobuf_ready)`: packets come out of the queue `to` until one is accepted or
none is left. Returns `videobuf_ready`. -/
def Codec.packetLoop : δ → List π → Bool × δ × List π
  | td, [] => (false, td, [])
  | td, op :: ops =>
    if c.theoraP then
      match c.packetin td op with
      | (td, true) => (true, td, ops)
      | (td, false) => packetLoop td ops
    else (false, td, op :: ops)

/-- `queue_page`, of the packets that the page completes. -/
def Codec.queuePage (ops page : List π) : List π := if c.theoraP then ops ++ page else ops

/-- `while (ogg_sync_pageout(&oy, &og) > 0) queue_page(&og);` -/
def Codec.queuePages (ops : List π) (pages : List (List π)) : List π := pages.foldl c.queuePage ops

/-! ## The frames of a stream -/

/-- The decoder after each packet it accepts. -/
def Codec.decoded : δ → List π → List δ
  | _, [] => []
  | td, op :: ops =>
    if c.theoraP then
      match c.packetin td op with
      | (td, true) => td :: decoded td ops
      | (td, false) => decoded td ops
    else []

/-- The decoder after all the packets. -/
def Codec.after : δ → List π → δ
  | td, [] => td
  | td, op :: ops => after (c.packetin td op).1 ops

/-- The packets of the pages that the reads `k`, ..., `k + n - 1` complete. -/
def arrived (arrive : Nat → List (List π)) : Nat → Nat → List π
  | _, 0 => []
  | k, n + 1 => (arrive k).flatten ++ arrived arrive (k + 1) n

/-- How a main loop ends: at the end of the input, or with the counter `frames` past the range of an `int`. -/
inductive Outcome
  | finished
  | overflow
  deriving DecidableEq, Repr

/-- What is written for the frames shown, which are numbered from `frames + 1` on. -/
def numbered {ε : Type} (write : Nat → δ → ε) : Nat → List δ → List ε
  | _, [] => []
  | frames, td :: shown => write (frames + 1) td :: numbered write (frames + 1) shown

theorem numbered_length {ε : Type} (write : Nat → δ → ε) (frames : Nat) (shown : List δ) :
    (numbered write frames shown).length = shown.length := by
  induction shown generalizing frames with
  | nil => rfl
  | cons td shown ih => rw [numbered, List.length_cons, ih, List.length_cons]

variable {c} {td td' : δ} {ops ops' : List π}

theorem decoded_of_not_theora (h : c.theoraP = false) (td : δ) (ops : List π) : c.decoded td ops = [] := by
  cases ops with
  | nil => rfl
  | cons op ops => rw [Codec.decoded, h, if_neg Bool.false_ne_true]

theorem decoded_append (td : δ) (ops q : List π) :
    c.decoded td (ops ++ q) = c.decoded td ops ++ c.decoded (c.after td ops) q := by
  induction ops generalizing td with
  | nil => rfl
  | cons op ops ih =>
    rw [List.cons_append, Codec.decoded, Codec.decoded, Codec.after]
    by_cases ht : c.theoraP = true
    · rw [if_pos ht, if_pos ht]
      rcases c.packetin td op with ⟨td', _ | _⟩
      · exact ih td'
      · exact congrArg _ (ih td')
    · rw [if_neg ht, if_neg ht, decoded_of_not_theora (Bool.eq_false_iff.2 ht)]
      rfl

/-- A packet was accepted: it is the first one, whatever is queued behind. -/
theorem packetLoop_ready (h : c.packetLoop td ops = (true, td', ops')) (q : List π) :
    c.decoded td (ops ++ q) = td' :: c.decoded td' (ops' ++ q) := by
  induction ops generalizing td with
  | nil => cases h
  | cons op ops ih =>
    rw [Codec.packetLoop] at h
    rw [List.cons_append, Codec.decoded]
    split at h
    · rename_i ht
      rw [if_pos ht]
      rcases hp : c.packetin td op with ⟨td₁, _ | _⟩ <;> rw [hp] at h
      · exact ih h
      · cases h
        rfl
    · cases h

/-- None was: nothing queued is a frame, and what comes later is decoded from here. -/
theorem packetLoop_stall (h : c.packetLoop td ops = (false, td', ops')) (q : List π) :
    c.decoded td ops = [] ∧ c.decoded td (ops ++ q) = c.decoded td' (ops' ++ q) := by
  induction ops generalizing td with
  | nil =>
    cases h
    exact ⟨rfl, rfl⟩
  | cons op ops ih =>
    rw [Codec.packetLoop] at h
    rw [List.cons_append, Codec.decoded, Codec.decoded]
    split at h
    · rename_i ht
      rw [if_pos ht, if_pos ht]
      rcases hp : c.packetin td op with ⟨td₁, _ | _⟩ <;> rw [hp] at h
      · exact ih h
      · cases h
    · rename_i ht
      rw [if_neg ht, if_neg ht, decoded_of_not_theora (Bool.eq_false_iff.2 ht)]
      exact ⟨rfl, rfl⟩

theorem queuePages_eq (ops : List π) (pages : List (List π)) :
    c.queuePages ops pages = if c.theoraP then ops ++ pages.flatten else ops := by
  induction pages generalizing ops with
  | nil => rw [Codec.queuePages, List.foldl_nil, List.flatten_nil, List.append_nil, ite_self]
  | cons page pages ih =>
    rw [Codec.queuePages, List.foldl_cons, ← Codec.queuePages, ih, Codec.queuePage]
    by_cases ht : c.theoraP = true
    · rw [if_pos ht, if_pos ht, if_pos ht, List.flatten_cons, List.append_assoc]
    · rw [if_neg ht, if_neg ht, if_neg ht]

/-- The pages' packets are decoded after those queued before. -/
theorem decoded_queuePages (td : δ) (ops : List π) (pages : List (List π)) (q : List π) :
    c.decoded td (c.queuePages ops pages ++ q) = c.decoded td (ops ++ (pages.flatten ++ q)) := by
  rw [queuePages_eq]
  by_cases ht : c.theoraP = true
  · rw [if_pos ht, List.append_assoc]
  · rw [decoded_of_not_theora (Bool.eq_false_iff.2 ht), decoded_of_not_theora (Bool.eq_false_iff.2 ht)]

theorem arrived_add (arrive : Nat → List (List π)) (k m n : Nat) :
    arrived arrive k (m + n) = arrived arrive k m ++ arrived arrive (k + m) n := by
  induction m generalizing k with
  | zero => rw [Nat.zero_add, Nat.add_zero, arrived, List.nil_append]
  | succ m ih =>
    rw [Nat.add_right_comm, arrived, arrived, ih, List.append_assoc, Nat.add_right_comm k 1 m]
    rfl

/-- A decoder that counts the packets, and accepts them all. -/
def counting : Codec Nat Unit := ⟨true, fun td _ => (td + 1, true)⟩

end SiglusExtract.Omv
