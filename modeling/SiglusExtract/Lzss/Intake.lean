/-
What `DecompressData` reads. It is told where its output ends and not where its input does: it stays inside the input
exactly where that holds the tokens it asks for, each of them complete.
-/
import SiglusExtract.Lzss.Bounds

namespace SiglusExtract.Compression

open Lz Bytes Lzss

/-! ## The tokens that are asked for -/

/-- With `k` bits left in the control byte `c` and `m` bytes written, the input holds complete tokens that end at `n`,
or at the end of a group at or behind `n`. -/
def SuppliedFrom (n k c m : Nat) (s : List UInt8) : Prop :=
  ∃ ts s' rest, s = s' ++ rest ∧ Frame k c ts s' ∧
    (m + total ts = n ∨ (∃ g, ts.length = k + 8 * g) ∧ n ≤ m + total ts)

/-- The input starts with complete tokens for exactly `n` bytes, or with groups of eight tokens for `n` or more. -/
def Supplied (n : Nat) (s : List UInt8) : Prop :=
  ∃ ts s' rest, s = s' ++ rest ∧ Frame 0 0 ts s' ∧ (total ts = n ∨ 8 ∣ ts.length ∧ n ≤ total ts)

section

variable {n k c m : Nat} {s : List UInt8}

theorem suppliedFrom_stop (h : m = n ∨ k = 0 ∧ n ≤ m) : SuppliedFrom n k c m s := by
  refine ⟨[], [], s, rfl, .nil k c, ?_⟩
  rcases h with h | ⟨rfl, h⟩
  · exact .inl h
  · exact .inr ⟨⟨0, rfl⟩, h⟩

theorem SuppliedFrom.ctrl {b : UInt8} (hm : m < n) (h : SuppliedFrom n 8 b.toNat m s) :
    SuppliedFrom n 0 c m (b :: s) := by
  obtain ⟨ts, s', rest, rfl, hf, hend⟩ := h
  refine ⟨ts, b :: s', rest, rfl, .ctrl ?_ hf, ?_⟩
  · rintro rfl
    rcases hend with hend | ⟨⟨g, hg⟩, -⟩
    · exact Nat.ne_of_lt hm hend
    · rw [List.length_nil] at hg
      omega
  · rcases hend with hend | ⟨⟨g, hg⟩, hle⟩
    · exact .inl hend
    · exact .inr ⟨⟨g + 1, by omega⟩, hle⟩

theorem SuppliedFrom.lit {b : UInt8} (hc : c % 2 = 1) (h : SuppliedFrom n k (c / 2) (m + 1) s) :
    SuppliedFrom n (k + 1) c m (b :: s) := by
  obtain ⟨ts, s', rest, rfl, hf, hend⟩ := h
  refine ⟨_, _, rest, rfl, .lit hc hf, ?_⟩
  rw [total_cons, lit_size, ← Nat.add_assoc]
  exact hend.imp_right fun ⟨⟨g, hg⟩, hle⟩ => ⟨⟨g, by rw [List.length_cons]; omega⟩, hle⟩

theorem SuppliedFrom.copy {lo hi : UInt8} (hc : c % 2 = 0)
    (h : SuppliedFrom n k (c / 2) (m + (leWord lo hi % 16 + 2)) s) : SuppliedFrom n (k + 1) c m (lo :: hi :: s) := by
  obtain ⟨ts, s', rest, rfl, hf, hend⟩ := h
  refine ⟨_, _, rest, rfl, .copy hc hf, ?_⟩
  rw [total_cons, backRef_size, ← Nat.add_assoc]
  exact hend.imp_right fun ⟨⟨g, hg⟩, hle⟩ => ⟨⟨g, by rw [List.length_cons]; omega⟩, hle⟩

theorem suppliedFrom_zero : SuppliedFrom n 0 0 0 s ↔ Supplied n s := by
  unfold SuppliedFrom Supplied
  simp only [Nat.zero_add]
  exact Iff.rfl

end

/-! ## The loops -/

section

variable {l : List UInt8} {old : Int → UInt8} {n : Nat}

theorem drop_of_word {p t : Nat} (h : word (Mem.ofList l) p = some t) :
    ∃ lo hi, l.drop p = lo :: hi :: l.drop (p + 2) ∧ leWord lo hi = t := by
  simp only [word, Option.bind_eq_bind, Option.bind_eq_some_iff, Option.pure_def, Option.some.injEq] at h
  obtain ⟨lo, hlo, hi, hhi, ht⟩ := h
  exact ⟨lo, hi, by rw [Mem.drop_of_read hlo, Mem.drop_of_read hhi], ht⟩

/-- Loops that come to their end have read the tokens they asked for. By induction on the turns, the tokens of a group
before those of the next. -/
theorem suppliedFrom_of_loopsOn : ∀ (fuel k c p : Nat) (out : List UInt8) (r : Nat × List UInt8),
    loopsOn (Mem.ofList l) old n fuel k c p out = some r → SuppliedFrom n k c out.length (l.drop p)
  | fuel, k + 1, c, p, out, r, h => by
    by_cases hn : out.length = n
    · exact suppliedFrom_stop (.inl hn)
    · rcases Nat.mod_two_eq_zero_or_one c with hc | hc
      · cases hw : word (Mem.ofList l) p with
        | none =>
          rw [loopsOn_copy_none hn hc hw] at h
          cases h
        | some t =>
          obtain ⟨out', hlen, hstep⟩ := loopsOn_copy old hn hc hw
          obtain ⟨lo, hi, hdrop, rfl⟩ := drop_of_word hw
          rw [hstep] at h
          have htail := suppliedFrom_of_loopsOn fuel k _ _ out' r h
          rw [hlen] at htail
          rw [hdrop]
          exact htail.copy hc
      · rw [loopsOn_lit hn hc, Option.bind_eq_some_iff] at h
        obtain ⟨b, hb, h⟩ := h
        have htail := suppliedFrom_of_loopsOn fuel k _ _ _ r h
        rw [List.length_append, List.length_singleton] at htail
        rw [Mem.drop_of_read hb]
        exact htail.lit hc
  | 0, 0, c, p, out, r, h => by cases h
  | fuel + 1, 0, c, p, out, r, h => by
    by_cases hlt : out.length < n
    · rw [loopsOn_ctrl hlt, Option.bind_eq_some_iff] at h
      obtain ⟨b, hb, h⟩ := h
      rw [Mem.drop_of_read hb]
      exact (suppliedFrom_of_loopsOn fuel 8 _ _ out r h).ctrl hlt
    · exact suppliedFrom_stop (by omega)

/-- Conversely loops that find the tokens come to their end. -/
theorem loopsOn_of_frame {k c : Nat} {ts : List (Token UInt8)} {s : List UInt8} (h : Frame k c ts s) {fuel p : Nat}
    {out rest : List UInt8} (hs : l.drop p = s ++ rest)
    (hend : out.length + total ts = n ∨ (∃ g, ts.length = k + 8 * g) ∧ n ≤ out.length + total ts)
    (hfuel : n ≤ fuel + 1 + out.length) (hfuel' : k = 0 → out.length < n → n < fuel + 1 + out.length) :
    ∃ r, loopsOn (Mem.ofList l) old n (fuel + 1) k c p out = some r := by
  induction h generalizing fuel p out with
  | nil k c =>
    refine ⟨_, loopsOn_done ?_ fuel c p⟩
    rcases hend with hend | ⟨⟨g, hg⟩, hle⟩
    · exact .inl hend
    · have hk : k = 0 := (Nat.add_eq_zero_iff.1 hg.symm).1
      rcases Nat.eq_or_lt_of_le hle with heq | hlt
      · exact .inl heq.symm
      · exact .inr ⟨hk, hlt⟩
  | @ctrl c₀ c ts s hne hf ih =>
    by_cases hlt : out.length < n
    · have := hfuel' rfl hlt
      obtain ⟨fuel, rfl⟩ := Nat.exists_eq_succ_of_ne_zero (show fuel ≠ 0 by omega)
      obtain ⟨hb, hdrop⟩ := Mem.read_of_drop hs
      rw [loopsOn_ctrl hlt, hb, Option.bind_some]
      refine ih hdrop (hend.imp_right fun ⟨⟨g, hg⟩, hle⟩ => ⟨?_, hle⟩) (by omega) (by omega)
      have := List.length_pos_iff.2 hne
      exact ⟨g - 1, by omega⟩
    · exact ⟨_, loopsOn_done (by omega) fuel _ p⟩
  | @lit k c b ts s hc hf ih =>
    by_cases hn : out.length = n
    · exact ⟨_, loopsOn_done (.inl hn) fuel _ p⟩
    · obtain ⟨hb, hdrop⟩ := Mem.read_of_drop hs
      have hlen : (out ++ [b]).length = out.length + 1 := by rw [List.length_append, List.length_singleton]
      rw [total_cons, lit_size, ← Nat.add_assoc, List.length_cons, ← hlen] at hend
      rw [loopsOn_lit hn hc, hb, Option.bind_some]
      exact ih hdrop (hend.imp_right fun ⟨⟨g, hg⟩, hle⟩ => ⟨⟨g, by omega⟩, hle⟩) (by omega) (by omega)
  | @copy k c lo hi ts s hc hf ih =>
    by_cases hn : out.length = n
    · exact ⟨_, loopsOn_done (.inl hn) fuel _ p⟩
    · obtain ⟨hlo, hdrop⟩ := Mem.read_of_drop hs
      obtain ⟨hhi, hdrop⟩ := Mem.read_of_drop hdrop
      obtain ⟨out', hlen, hstep⟩ := loopsOn_copy old hn hc (word_eq hlo hhi)
      rw [total_cons, backRef_size, ← Nat.add_assoc, List.length_cons, ← hlen] at hend
      rw [hstep]
      exact ih hdrop (hend.imp_right fun ⟨⟨g, hg⟩, hle⟩ => ⟨⟨g, by omega⟩, hle⟩) (by omega) (by omega)

/-- With all memory around the output readable and writable, `DecompressData` reads inside its input exactly where the
input supplies the tokens. -/
theorem decompressData_supplied_iff :
    (∃ r, decompressData (Mem.ofList l) (fun j => some (old j)) n = some r) ↔ Supplied n l := by
  have hloops : decompressData (Mem.ofList l) (fun j => some (old j)) n =
      loopsOn (Mem.ofList l) old n (n + 1) 0 0 0 [] := rfl
  rw [hloops]
  constructor
  · rintro ⟨r, h⟩
    exact suppliedFrom_zero.1 (suppliedFrom_of_loopsOn (n + 1) 0 0 0 [] r h)
  · intro h
    obtain ⟨ts, s, rest, hs, hf, hend⟩ := suppliedFrom_zero.2 h
    exact loopsOn_of_frame hf hs hend (by omega) (by omega)

end

end SiglusExtract.Compression
