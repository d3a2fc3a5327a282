/-
`ParseOmv` of the OMV unpacker in C# (Siglus_OMV, Program.cs): the Ogg stream of an OMV file, copied from the
first "OggS" on. The search goes on behind the byte that breaks an attempt off, so that an "OggS" which
follows an odd number of attempts directly is passed over.
-/
import SiglusExtract.Lib.Restart

namespace SiglusExtract.SiglusOmv

open Restart

/-- `signature`: "OggS". -/
def signature : List UInt8 := [0x4f, 0x67, 0x67, 0x53]

/-- The search for the Ogg header, from `Position` on; the position at which it stops. -/
def searchLoop : Nat → Nat → List UInt8 → Nat
  | _, position, [] => position
  | k, position, b :: fi =>
    if signature[k]? = some b then
      if k + 1 = signature.length then position + 1 else searchLoop (k + 1) (position + 1) fi
    else searchLoop 0 (position + 1) fi

/-- What `ParseOmv` copies to the output; `none` where `Seek` throws, in front of the beginning of the file. -/
def parseOmv (fi : List UInt8) : Option (List UInt8) :=
  let position := searchLoop 0 0 fi
  if position < signature.length then none else some (fi.drop (position - signature.length))

/-- The search is the scan with a counter that a mismatch sets back to zero. -/
theorem searchLoop_eq : ∀ (fi : List UInt8) (k position : Nat),
    searchLoop k position fi = position + scan signature k fi
  | [], _, _ => rfl
  | b :: fi, k, position => by
    rw [searchLoop, scan, next]
    by_cases hb : signature[k]? = some b
    · rw [if_pos hb, if_pos hb, searchLoop_eq fi]
      split <;> omega
    · rw [if_neg hb, if_neg hb, searchLoop_eq fi, if_neg (by decide)]
      omega

/-- The signature starts with an 'O', and holds no other. -/
theorem signature_head : signature = 0x4f :: signature.tail ∧ (0x4f : UInt8) ∉ signature.tail := by decide

theorem parseOmv_eq_drop {fi : List UInt8} {p : Nat} (h : FirstAt signature fi p) :
    parseOmv fi = some (fi.drop p) ↔ scan signature 0 fi = p + signature.length := by
  have hlen : p + signature.length ≤ fi.length := by
    obtain ⟨w, hw⟩ := h.1
    have := congrArg List.length hw
    rw [List.length_append, List.length_drop] at this
    have hpos : 0 < signature.length := by decide
    omega
  have hread := scan_le signature fi 0
  rw [parseOmv, searchLoop_eq, Nat.zero_add]
  generalize hn : scan signature 0 fi = n at hread ⊢
  constructor
  · intro hout
    split at hout
    · cases hout
    · have := congrArg List.length (Option.some.inj hout)
      rw [List.length_drop, List.length_drop] at this
      have hpos : 0 < signature.length := by decide
      omega
  · rintro rfl
    rw [if_neg (by omega), Nat.add_sub_cancel]

/-- What is copied starts at the first "OggS" where an even number of broken off attempts ("O", "Og" or "Ogg")
stand directly before it, or where the file ends with it. -/
theorem parseOmv_eq_drop_iff {fi : List UInt8} {p : Nat} (h : FirstAt signature fi p) :
    parseOmv fi = some (fi.drop p) ↔ EvenBroken signature (fi.take p) ∨ p + signature.length = fi.length := by
  obtain ⟨hsig, ha⟩ := signature_head
  rw [parseOmv_eq_drop h, scan_of_firstAt hsig ha h,
    state_eq_zero hsig ha fun v hv => h.state_ne (by decide) hv]

theorem parseOmv_eq_drop_iff_signature :
    parseOmv [0x00, 0x4f, 0x67, 0x67, 0x53, 0x00] = some [0x4f, 0x67, 0x67, 0x53, 0x00] := by
  -- no attempt is broken off in front of the signature
  have hnone : ∀ k < signature.length, 0 < k → ¬ signature.take k <:+ [0x00] := by decide
  have heven : EvenBroken signature [0x00] :=
    ⟨[0x00], [], rfl, nofun, fun c ⟨k, hk0, hk, hc⟩ => hc ▸ hnone k hk hk0, Even.zero⟩
  exact (@parseOmv_eq_drop_iff [0x00, 0x4f, 0x67, 0x67, 0x53, 0x00] 1 (by decide)).2 (.inl heven)

/-- An 'O' directly before "OggS": the search runs to the end of the file, and its last four bytes are copied. -/
theorem parseOmv_passes_over :
    ¬ ∀ (fi : List UInt8) (p : Nat), FirstAt signature fi p → parseOmv fi = some (fi.drop p) := by
  intro h
  have hread : parseOmv [0x4f, 0x4f, 0x67, 0x67, 0x53, 0x00] = some [0x67, 0x67, 0x53, 0x00] := by decide
  have hfirst := h [0x4f, 0x4f, 0x67, 0x67, 0x53, 0x00] 1 (by decide)
  rw [hread] at hfirst
  exact absurd hfirst (by decide)

end SiglusExtract.SiglusOmv
