/-
`RestoreMemory` (my.cpp, my.h): hooks that are set and taken back in any order, as the tool does when one hook sets the
next. A hook that no newer one overlaps is taken back as if it had never been set.
-/
import SiglusExtract.Mp.Install

namespace SiglusExtract.Mp

open Mem

/-- The memory, and the trampolines that are not taken back, the newest one first. -/
structure Session where
  mem : Mem UInt8
  live : List TrampolineData

/-- What `RestoreMemory` writes. -/
def TrampolineData.saved (t : TrampolineData) : Saved UInt8 := ⟨t.source, t.originalCode⟩

/-- The memory with all hooks taken back, the newest one first. -/
def Session.unhooked (s : Session) : Mem UInt8 := unwind s.mem (s.live.map TrampolineData.saved)

/-- The trampoline is on the heap, and the hooked function is not. -/
def OnHeap (heap : Nat → Prop) (t : TrampolineData) : Prop :=
  (∀ a, Within t.trampoline trampolineDataSize a → heap a) ∧ ∀ a, Within t.source t.originalCode.length a → ¬ heap a

/-- A hook is set whose trampoline is not a naked one, or one is taken back that no newer one overlaps. -/
inductive Session.Step (heap : Nat → Prop) : Session → Session → Prop
  | patch {m m' : Mem UInt8} {live : List TrampolineData} {t : TrampolineData} {fuel : Nat} {hookBuffer : List UInt8}
      {block : Option Nat} {protect : Bool} {patch : FunctionPatch}
      (h : handleFunctionPatch m fuel hookBuffer block protect patch = some (.ok (m', some t)))
      (hnaked : patch.nakedTrampoline = false) (hplaced : Placed m hookBuffer t) (hheap : OnHeap heap t) :
      Step heap ⟨m, live⟩ ⟨m', t :: live⟩
  | restore {m : Mem UInt8} {newer older : List TrampolineData} {t : TrampolineData}
      (hapart : ∀ n ∈ newer, n.saved.Apart t.saved) :
      Step heap ⟨m, newer ++ t :: older⟩ ⟨restoreMemory m t, newer ++ older⟩

variable {heap : Nat → Prop} {s s' : Session}

/-- What a hook overwrites is what it takes back. -/
theorem unwind_patch {m m' : Mem UInt8} {live : List TrampolineData} {t : TrampolineData} {fuel a : Nat}
    {hookBuffer : List UInt8} {block : Option Nat} {protect : Bool} {patch : FunctionPatch}
    (h : handleFunctionPatch m fuel hookBuffer block protect patch = some (.ok (m', some t)))
    (hnaked : patch.nakedTrampoline = false) (hplaced : Placed m hookBuffer t) (hheap : OnHeap heap t) (ha : ¬ heap a) :
    Session.unhooked ⟨m', t :: live⟩ a = Session.unhooked ⟨m, live⟩ a := by
  obtain ⟨hookOpSize, hookCode, trampoline, h⟩ := handleFunctionPatch_installed h hnaked
  have hfits := (h.fits hplaced.short).1
  have hapart := hplaced.apart
  simp only [Mem.Apart, trampolineDataSize, trampolineSize] at hapart hfits
  have hblock : ∀ b, ¬ Within t.trampoline trampolineDataSize b →
      writeTrampoline m t.trampoline (t.source + t.originalCode.length) trampoline b = m b := by
    intro b hb
    simp only [Within, trampolineDataSize] at hb
    rw [writeTrampoline, write_outside, write_outside]
    · simp only [Within, Bytes.le32_length, jumpBackOffset, trampolineSize]
      omega
    · simp only [Within]
      omega
  have hheld : (writeTrampoline m t.trampoline (t.source + t.originalCode.length) trampoline).Holds t.saved.place
      t.saved.bytes := by
    intro i hi
    have hi : i < t.originalCode.length := hi
    rw [hblock _ (by simp only [Within, TrampolineData.saved, trampolineDataSize]; omega)]
    exact h.original i hi
  show unwind m' (t.saved :: live.map _) a = unwind m (live.map _) a
  rw [h.written]
  refine (congrFun (unwind_write hheld (h.hook_length hplaced)) a).trans (unwind_congr (hblock a fun hin => ?_))
  exact ha (hheap.1 a hin)

/-- A step changes nothing of what is left when the hooks are taken back. -/
theorem Session.Step.unhooked {a : Nat} (h : Session.Step heap s s') (ha : ¬ heap a) :
    s'.unhooked a = s.unhooked a := by
  cases h with
  | patch h hnaked hplaced hheap => exact unwind_patch h hnaked hplaced hheap ha
  | @restore m newer older t hapart =>
    have hmap : (∀ n ∈ newer.map TrampolineData.saved, n.Apart t.saved) := by
      intro n hn
      obtain ⟨u, hu, rfl⟩ := List.mem_map.1 hn
      exact hapart u hu
    have := @unwind_restore UInt8 m (newer.map TrampolineData.saved) (older.map TrampolineData.saved) t.saved hmap
    rw [Session.unhooked, Session.unhooked, List.map_append, List.map_append, List.map_cons]
    exact congrFun this a

theorem session_unhooked (hruns : Relation.ReflTransGen (Session.Step heap) s s') {a : Nat} (ha : ¬ heap a) :
    s'.unhooked a = s.unhooked a := by
  induction hruns with
  | refl => rfl
  | tail _ hstep ih => exact (hstep.unhooked ha).trans ih

/-- In every run that sets hooks and takes them back, the code is the old one but for the hooks that are left; without
any it is the old one. -/
theorem session_restored {m : Mem UInt8} (hruns : Relation.ReflTransGen (Session.Step heap) ⟨m, []⟩ s) {a : Nat}
    (ha : ¬ heap a) : s.unhooked a = m a ∧ (s.live = [] → s.mem a = m a) := by
  have hunhooked : s.unhooked a = m a := session_unhooked hruns ha
  refine ⟨hunhooked, fun hlive => ?_⟩
  rwa [Session.unhooked, hlive] at hunhooked

/-- One hook that is set and taken back. -/
theorem session_restored_sample : restoreMemory sampleHooked sampleTrampoline 0 = some 0x8B := by
  have hheap : OnHeap (0x100 ≤ ·) sampleTrampoline := by
    constructor <;> intro a ha <;> simp only [Within, sampleTrampoline, List.length_cons, List.length_nil] at ha <;>
      omega
  have hset : Session.Step (0x100 ≤ ·) ⟨Mem.ofList sampleCode, []⟩ ⟨sampleHooked, [sampleTrampoline]⟩ :=
    .patch sample_patch rfl sample_hookable.toPlaced hheap
  have hunset : Session.Step (0x100 ≤ ·) ⟨sampleHooked, [] ++ [sampleTrampoline]⟩
      ⟨restoreMemory sampleHooked sampleTrampoline, [] ++ []⟩ := .restore (List.forall_mem_nil _)
  exact (session_restored (a := 0) (.tail (.single hset) hunset) (by decide)).2 rfl

end SiglusExtract.Mp
