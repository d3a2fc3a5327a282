/-
The blocks of `MemoryPatchManager` (my.cpp): those of its heap, those in `TrampolineList` and those that the variables
of its callers point to, over all runs of `PatchMemory` and `RestoreMemory`. A patch that fails to make the code
writable frees its block and leaves it in the list and in the variable.
-/
import SiglusExtract.GrowableArray
import SiglusExtract.Lib.Machine
import Mathlib.Data.List.Nodup
import Mathlib.Data.List.Perm.Subperm

namespace SiglusExtract.Mp

open GrowableArray Machine

/-- `TrampolineList`, the blocks of `ExecutableHeap`, and what the variables `*Function.Trampoline` hold that are not
`NULL`, each by the address of its `TRAMPOLINE_DATA`. -/
structure Manager where
  trampolineList : GrowableArray Nat
  heap : List Nat
  vars : List Nat

/-- A hook with a trampoline is set, in the block that the heap gives; `room` is whether the list can grow for it and
`writable` whether `ProtectMemory` succeeds. A hook is taken back through its variable. -/
inductive Event
  | patch (block : Nat) (room writable : Bool)
  | restore (block : Nat) (writable : Bool)
  deriving DecidableEq, Repr

/-- `sizeof(PTRAMPOLINE_DATA)`. -/
def sizeofPointer : Nat := 4

/-- `HandleFunctionPatch` from `AllocateTrampolineData` on. What `Add` returns is not looked at. -/
def Manager.patch (m : Manager) (block : Nat) (room writable : Bool) : Option Manager :=
  (m.trampolineList.add sizeofPointer 0 room block).map fun (_, trampolineList) =>
    ⟨trampolineList, if writable then block :: m.heap else m.heap, block :: m.vars⟩

/-- `FreeTrampolineData`, of a block of the heap. -/
def Manager.free (m : Manager) (block : Nat) : Option Manager :=
  if block ∈ m.heap then some { m with heap := m.heap.erase block } else none

/-- `RemoveTrampolineData`. -/
def Manager.removeTrampolineData (m : Manager) (block : Nat) : Option Manager :=
  (m.trampolineList.indexOf block).bind fun
    | none => some m
    | some index => (m.trampolineList.remove index).bind fun (_, trampolineList) =>
      Manager.free { m with trampolineList } block

/-- `RestoreMemory`, which reads the block and clears the variable where it succeeds. -/
def Manager.restore (m : Manager) (block : Nat) (writable : Bool) : Option Manager :=
  if block ∈ m.heap then
    if writable then (m.removeTrampolineData block).map fun m => { m with vars := m.vars.erase block } else some m
  else none

/-- An event; `none` where it touches a block that is not on the heap. -/
def Manager.step (m : Manager) : Event → Option Manager
  | .patch block room writable => m.patch block room writable
  | .restore block writable => m.restore block writable

def Manager.next (m : Option Manager) (e : Event) : Option Manager := m.bind (·.step e)

/-- Before the first patch. -/
def Manager.start : Manager := ⟨empty, [], []⟩

/-- The heap gives a block that is not in use, of which it has less than 2^29, and the code can be written to. A
variable is used to take a hook back. -/
def Manager.Allowed : Option Manager → Event → Prop
  | some m, .patch block _ writable => block ∉ m.heap ∧ m.heap.length + 2 < 2 ^ 29 ∧ writable = true
  | some m, .restore block _ => block ∈ m.vars
  | none, _ => True

instance (m : Option Manager) (e : Event) : Decidable (Manager.Allowed m e) := by
  unfold Manager.Allowed
  split <;> infer_instance

def Event.HasRoom : Event → Prop
  | .patch _ room _ => room = true
  | .restore _ _ => True

/-- The list is made of blocks that variables hold, and these of blocks of the heap. Where the list has got all blocks,
there are no others on the heap. -/
structure Manager.Inv (complete : Prop) (m : Manager) : Prop where
  list : ∃ l : List Nat, m.trampolineList.Represents l ∧ l.Nodup ∧ (∀ p ∈ l, p ∈ m.vars) ∧
    (complete → ∀ p ∈ m.heap, p ∈ l)
  vars : m.vars.Nodup
  heap : m.heap.Nodup
  live : ∀ p ∈ m.vars, p ∈ m.heap

namespace Manager

variable {m : Manager} {complete : Prop} {block : Nat} {room : Bool}

theorem start_inv (complete : Prop) : Inv complete start :=
  ⟨⟨[], empty_represents, List.nodup_nil, nofun, fun _ => nofun⟩, List.nodup_nil, List.nodup_nil, nofun⟩

theorem Inv.imp {complete' : Prop} (h : Inv complete m) (himp : complete' → complete) : Inv complete' m := by
  obtain ⟨⟨l, hrep, hnodup, hvars, hall⟩, hv, hh, hlive⟩ := h
  exact ⟨⟨l, hrep, hnodup, hvars, fun hc => hall (himp hc)⟩, hv, hh, hlive⟩

theorem patch_inv (h : Inv complete m) (hblock : block ∉ m.heap) (hfits : m.heap.length + 2 < 2 ^ 29) :
    ∃ m', m.patch block room true = some m' ∧ Inv (complete ∧ room = true) m' := by
  obtain ⟨⟨l, hrep, hnodup, hvars, hall⟩, hv, hh, hlive⟩ := h
  have hlen : l.length ≤ m.heap.length := (List.subperm_of_subset hnodup fun p hp => hlive p (hvars p hp)).length_le
  have hfits : Fits sizeofPointer l.length := ⟨by decide, by decide, by unfold sizeofPointer; omega⟩
  obtain ⟨status, list', l', hadd, hadded, hrep'⟩ := @add_refines _ _ 0 room _ _ hrep hfits block
  have hfresh : block ∉ m.vars := fun hin => hblock (hlive block hin)
  refine ⟨⟨list', block :: m.heap, block :: m.vars⟩, by rw [patch, hadd]; rfl, ⟨l', hrep', ?_⟩,
    List.nodup_cons.2 ⟨hfresh, hv⟩, List.nodup_cons.2 ⟨hblock, hh⟩, ?_⟩
  · cases hadded with
    | done =>
      refine ⟨?_, ?_, ?_⟩
      · rw [List.nodup_append]
        refine ⟨hnodup, List.nodup_singleton block, ?_⟩
        rintro p hp q hq rfl
        rw [List.mem_singleton] at hq
        exact hfresh (hvars _ (hq ▸ hp))
      · intro p hp
        rcases List.mem_append.1 hp with hp | hp
        · exact List.mem_cons_of_mem _ (hvars p hp)
        · exact List.mem_cons.2 (.inl (List.mem_singleton.1 hp))
      · rintro ⟨hc, -⟩ p hp
        rw [List.mem_append, List.mem_singleton]
        rcases List.mem_cons.1 hp with rfl | hp
        · exact .inr rfl
        · exact .inl (hall hc p hp)
    | full hroom =>
      refine ⟨hnodup, fun p hp => List.mem_cons_of_mem _ (hvars p hp), ?_⟩
      rintro ⟨-, hroom'⟩
      rw [hroom] at hroom'
      cases hroom'
  · intro p hp
    rcases List.mem_cons.1 hp with rfl | hp
    · exact List.mem_cons_self
    · exact List.mem_cons_of_mem _ (hlive p hp)

/-- Taking a hook back frees its block, if the list has it; else the block stays on the heap. -/
theorem restore_inv (h : Inv complete m) (hvar : block ∈ m.vars) (writable : Bool) :
    ∃ m', m.restore block writable = some m' ∧ Inv complete m' := by
  obtain ⟨⟨l, hrep, hnodup, hvars, hall⟩, hv, hh, hlive⟩ := id h
  have hblock := hlive block hvar
  rw [restore, if_pos hblock]
  cases writable with
  | false => exact ⟨m, rfl, h⟩
  | true =>
    rw [if_pos rfl, removeTrampolineData, indexOf_eq hrep, Option.bind_some]
    cases hindex : l.idxOf? block with
    | none =>
      have hno : block ∉ l := List.idxOf?_eq_none_iff.1 hindex
      refine ⟨_, rfl, ⟨l, hrep, hnodup, fun p hp => ?_, hall⟩, hv.erase _, hh,
        fun p hp => hlive p (List.mem_of_mem_erase hp)⟩
      exact (List.mem_erase_of_ne fun heq : p = block => hno (heq ▸ hp)).2 (hvars p hp)
    | some index =>
      have hlt : index < l.length := (List.idxOf?_eq_some_iff.1 hindex).1
      have herase : l.eraseIdx index = l.erase block := by rw [List.erase_eq_eraseIdx, hindex]
      obtain ⟨list', hremove, hrep'⟩ := remove_refines hrep hlt
      rw [herase] at hrep'
      refine ⟨⟨list', m.heap.erase block, m.vars.erase block⟩, ?_,
        ⟨l.erase block, hrep', hnodup.erase _, fun p hp => ?_, fun hc p hp => ?_⟩, hv.erase _, hh.erase _,
        fun p hp => ?_⟩
      · show (((m.trampolineList.remove index).bind _).map _) = _
        rw [hremove, Option.bind_some]
        show ((free { m with trampolineList := list' } block).map _) = _
        rw [free, if_pos hblock]
        rfl
      · rw [hnodup.mem_erase_iff] at hp
        exact hv.mem_erase_iff.2 ⟨hp.1, hvars p hp.2⟩
      · rw [hh.mem_erase_iff] at hp
        exact hnodup.mem_erase_iff.2 ⟨hp.1, hall hc p hp.2⟩
      · rw [hv.mem_erase_iff] at hp
        exact hh.mem_erase_iff.2 ⟨hp.1, hlive p hp.2⟩

/-- An event that is allowed touches no block that is not on the heap, and keeps the invariant. -/
theorem step_inv (h : Inv complete m) {e : Event} (hallowed : Allowed (some m) e) :
    ∃ m', m.step e = some m' ∧ Inv (complete ∧ e.HasRoom) m' := by
  cases e with
  | patch block room writable =>
    obtain ⟨hblock, hfits, rfl⟩ := hallowed
    exact patch_inv h hblock hfits
  | restore block writable =>
    obtain ⟨m', hrestore, h'⟩ := restore_inv h hallowed writable
    exact ⟨m', hrestore, h'.imp And.left⟩

theorem run_inv : ∀ {events : List Event} {m : Manager} {complete : Prop}, Inv complete m →
    Along next Allowed (some m) events →
      ∃ m', events.foldl next (some m) = some m' ∧ Inv (complete ∧ ∀ e ∈ events, e.HasRoom) m'
  | [], m, complete, h, _ => ⟨m, rfl, h.imp And.left⟩
  | e :: events, m, complete, h, hallowed => by
    obtain ⟨m', hstep, h'⟩ := step_inv h hallowed.1
    have hnext : next (some m) e = some m' := hstep
    have hrest := hallowed.2
    rw [hnext] at hrest
    obtain ⟨m'', hrun, h''⟩ := run_inv h' hrest
    refine ⟨m'', by rw [List.foldl_cons, hnext, hrun], h''.imp ?_⟩
    rintro ⟨hc, hroom⟩
    rw [List.forall_mem_cons] at hroom
    exact ⟨⟨hc, hroom.1⟩, hroom.2⟩

/-- In every run in which the code can be written to, no block is used or freed that is not on the heap, and every
variable points to one that is. Where the list has room for all blocks, those that no variable points to are freed. -/
theorem manager_run {events : List Event} (h : Along next Allowed (some start) events) :
    ∃ m, events.foldl next (some start) = some m ∧ (∀ p ∈ m.vars, p ∈ m.heap) ∧
      ((∀ e ∈ events, e.HasRoom) → ∀ p ∈ m.heap, p ∈ m.vars) := by
  obtain ⟨m, hrun, h'⟩ := run_inv (start_inv True) h
  obtain ⟨l, -, -, hvars, hall⟩ := h'.list
  exact ⟨m, hrun, h'.live, fun hroom p hp => hvars p (hall ⟨trivial, hroom⟩ p hp)⟩

/-- Two hooks, taken back in the order in which they were set. -/
def sampleEvents : List Event :=
  [.patch 0x100 true true, .patch 0x200 true true, .restore 0x100 true, .patch 0x300 true true, .restore 0x200 true]

theorem manager_run_sample : ∃ m, sampleEvents.foldl next (some start) = some m ∧ (∀ p ∈ m.vars, p ∈ m.heap) ∧
    ((∀ e ∈ sampleEvents, e.HasRoom) → ∀ p ∈ m.heap, p ∈ m.vars) :=
  manager_run (by decide +kernel)

/-- After a patch that fails for want of writable code, its variable cannot be used. -/
theorem restore_failed (hblock : block ∉ m.heap) {m' : Manager} (h : m.patch block room false = some m')
    (writable : Bool) : block ∈ m'.vars ∧ m'.restore block writable = none := by
  rw [patch, Option.map_eq_some_iff] at h
  obtain ⟨⟨status, trampolineList⟩, -, rfl⟩ := h
  exact ⟨List.mem_cons_self, if_neg hblock⟩

end Manager

end SiglusExtract.Mp
