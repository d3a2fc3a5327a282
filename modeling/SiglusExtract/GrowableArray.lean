/-
`GrowableArray` (my.h): the block that doubles, with the elements at its front. Every operation does to them what it
does to a list, or says why it does not and leaves them alone.
-/
import SiglusExtract.Lib.Machine
import Mathlib.Algebra.Group.Nat.Defs

namespace SiglusExtract

open Machine

/-- `m_Data`, the block with its cells, `m_Size` and `m_MaxSize`. -/
structure GrowableArray (α : Type) where
  data : Option (List α)
  size : Nat
  maxSize : Nat

namespace GrowableArray

variable {α : Type}

/-! ## The operations -/

/-- The status codes of the operations. -/
inductive Status
  | success
  | invalidParameter
  | noMemory
  deriving DecidableEq, Repr

/-- `ULONG_PTR_MAX`, for pointers of 32 bits. -/
def ulongPtrMax : Nat := 2 ^ 32 - 1

/-- The constructor. -/
def empty : GrowableArray α := ⟨none, 0, 0⟩

def cells (a : GrowableArray α) : List α := a.data.getD []

/-- `HeapReAlloc` with `HEAP_ZERO_MEMORY`. -/
def heapReAlloc (zero : α) (cells : List α) (n : Nat) : List α :=
  cells.take n ++ List.replicate (n - cells.length) zero

/-- The size to which a block grows that has no room for `newMaxSize` elements. -/
def grown (maxSize newMaxSize : Nat) : Nat :=
  let growBy := if maxSize = 0 then 16 else maxSize
  max newMaxSize (maxSize + if maxSize + growBy > ulongPtrMax then ulongPtrMax - maxSize else growBy)

/-- `SetSizeInternal`. The size in bytes wraps; `room` is whether `HeapReAlloc` succeeds. -/
def setSizeInternal (sizeofType : Nat) (zero : α) (room : Bool) (a : GrowableArray α) (newMaxSize : Nat) :
    Status × GrowableArray α :=
  if newMaxSize > ulongPtrMax / sizeofType then (.invalidParameter, a)
  else if newMaxSize = 0 then (.success, empty)
  else if a.data.isNone ∨ newMaxSize > a.maxSize then
    let n := grown a.maxSize newMaxSize
    if room then
      (.success, { a with
        data := some (heapReAlloc zero a.cells (n * sizeofType % 2 ^ 32 / sizeofType)), maxSize := n })
    else (.noMemory, a)
  else (.success, a)

/-- A store into the block. -/
def store (a : GrowableArray α) (index : Nat) (value : α) : Option (GrowableArray α) :=
  if index < a.cells.length then some { a with data := some (a.cells.set index value) } else none

/-- `RtlMoveMemory` within the block. -/
def moveMemory (a : GrowableArray α) (dst src n : Nat) : Option (GrowableArray α) :=
  if dst + n ≤ a.cells.length ∧ src + n ≤ a.cells.length then
    some { a with data := some (a.cells.take dst ++ (a.cells.drop src).take n ++ a.cells.drop (dst + n)) }
  else none

/-- `Add`. -/
def add (sizeofType : Nat) (zero : α) (room : Bool) (a : GrowableArray α) (value : α) :
    Option (Status × GrowableArray α) :=
  let newSize := (a.size + 1) % 2 ^ 32
  match setSizeInternal sizeofType zero room { a with size := newSize } newSize with
  | (.success, a) => (a.store ((newSize + 2 ^ 32 - 1) % 2 ^ 32) value).map fun a => (.success, a)
  | (status, a) => some (status, { a with size := (a.size + 2 ^ 32 - 1) % 2 ^ 32 })

/-- `Insert`. -/
def insert (sizeofType : Nat) (zero : α) (room : Bool) (a : GrowableArray α) (index : Nat) (value : α) :
    Option (Status × GrowableArray α) :=
  if index > a.size then some (.invalidParameter, a)
  else
    match setSizeInternal sizeofType zero room a ((a.size + 1) % 2 ^ 32) with
    | (.success, a) => (a.moveMemory (index + 1) index (a.size - index)).bind fun a =>
      (a.store index value).map fun a => (.success, { a with size := a.size + 1 })
    | (status, a) => some (status, a)

/-- `SetAt`. -/
def setAt (a : GrowableArray α) (index : Nat) (value : α) : Option (Status × GrowableArray α) :=
  if index ≥ a.size then some (.invalidParameter, a) else (a.store index value).map fun a => (.success, a)

/-- `Remove`. -/
def remove (a : GrowableArray α) (index : Nat) : Option (Status × GrowableArray α) :=
  if index ≥ a.size then some (.invalidParameter, a)
  else (a.moveMemory index (index + 1) (a.size - (index + 1))).map fun a =>
    (.success, { a with size := a.size - 1 })

/-- `RemoveAll`. -/
def removeAll (sizeofType : Nat) (zero : α) (a : GrowableArray α) : GrowableArray α :=
  (setSizeInternal sizeofType zero false a 0).2

/-- The loop of `IndexOf`. -/
def searchLoop [DecidableEq α] (cells : List α) (value : α) : Nat → Nat → Option (Option Nat)
  | 0, _ => some none
  | count + 1, i => cells[i]?.bind fun x => if x = value then some (some i) else searchLoop cells value count (i + 1)

/-- `IndexOf` over the whole array; `none` stands for `kInvalidIndex`. -/
def indexOf [DecidableEq α] (a : GrowableArray α) (value : α) : Option (Option Nat) :=
  if 0 ≥ a.size then some none else searchLoop a.cells value a.size 0

/-! ## The elements -/

/-- The list of the elements: it is at the front of the block. -/
structure Represents (a : GrowableArray α) (l : List α) : Prop where
  size : a.size = l.length
  cells : ∃ spare, a.cells = l ++ spare ∧ a.maxSize = l.length + spare.length

theorem empty_represents : Represents (empty : GrowableArray α) [] := ⟨rfl, [], rfl, rfl⟩

variable {sizeofType n : Nat} {zero : α} {room : Bool} {a : GrowableArray α} {l : List α}

/-- One element more has less than 2 GiB. -/
structure Fits (sizeofType n : Nat) : Prop where
  pos : 0 < sizeofType
  first : 16 * sizeofType < 2 ^ 32
  next : (n + 1) * sizeofType < 2 ^ 31

theorem Fits.lt (h : Fits sizeofType n) : n + 1 < 2 ^ 31 :=
  Nat.lt_of_le_of_lt (Nat.le_mul_of_pos_right _ h.pos) h.next

theorem Fits.le_div (h : Fits sizeofType n) : n + 1 ≤ ulongPtrMax / sizeofType := by
  rw [Nat.le_div_iff_mul_le h.pos]
  have := h.next
  unfold ulongPtrMax
  omega

theorem Fits.grown_lt (h : Fits sizeofType n) :
    n + 1 ≤ grown n (n + 1) ∧ grown n (n + 1) * sizeofType < 2 ^ 32 := by
  have hn := h.lt
  have hnext := h.next
  have hfirst := h.first
  refine ⟨Nat.le_max_left _ _, ?_⟩
  unfold grown ulongPtrMax
  by_cases h0 : n = 0
  · subst h0
    simpa using hfirst
  · dsimp only
    rw [if_neg h0, if_neg (by omega), Nat.max_eq_right (by omega)]
    rw [Nat.add_mul, Nat.one_mul] at hnext
    rw [Nat.add_mul]
    omega

theorem heapReAlloc_eq (zero : α) (hn : l.length < n) :
    ∃ x spare, heapReAlloc zero l n = l ++ x :: spare ∧ n = l.length + (spare.length + 1) := by
  refine ⟨zero, List.replicate (n - l.length - 1) zero, ?_, ?_⟩
  · rw [heapReAlloc, List.take_of_length_le (Nat.le_of_lt hn), ← List.replicate_succ]
    congr 2
    omega
  · rw [List.length_replicate]
    omega

/-- The block has room for one element more, or cannot get it. -/
theorem setSizeInternal_next (hfits : Fits sizeofType l.length)
    (h : ∃ spare, a.cells = l ++ spare ∧ a.maxSize = l.length + spare.length) :
    (∃ a', setSizeInternal sizeofType zero room a (l.length + 1) = (.success, a') ∧ a'.size = a.size ∧
      ∃ x spare, a'.cells = l ++ x :: spare ∧ a'.maxSize = l.length + (spare.length + 1)) ∨
    room = false ∧ setSizeInternal sizeofType zero room a (l.length + 1) = (.noMemory, a) := by
  obtain ⟨spare, hcells, hmax⟩ := h
  rw [setSizeInternal, if_neg (by have := hfits.le_div; omega), if_neg (Nat.succ_ne_zero _)]
  by_cases hgrow : a.data.isNone ∨ l.length + 1 > a.maxSize
  · rw [if_pos hgrow]
    cases room with
    | false => exact .inr ⟨rfl, rfl⟩
    | true =>
      have hspare : spare = [] := by
        rcases hgrow with hnone | hgt
        · rw [Option.isNone_iff_eq_none] at hnone
          rw [cells, hnone, Option.getD_none] at hcells
          exact (List.append_eq_nil_iff.1 hcells.symm).2
        · exact List.length_eq_zero_iff.1 (by omega)
      rw [hspare, List.append_nil] at hcells
      rw [hspare, List.length_nil, Nat.add_zero] at hmax
      obtain ⟨hle, hlt⟩ := hfits.grown_lt
      obtain ⟨x, spare, hnew, hlen⟩ := heapReAlloc_eq (l := l) zero hle
      refine .inl ⟨_, rfl, rfl, x, spare, ?_, ?_⟩
      · show heapReAlloc zero a.cells (grown a.maxSize _ * sizeofType % 2 ^ 32 / sizeofType) = _
        rw [hcells, hmax, Nat.mod_eq_of_lt hlt, Nat.mul_div_cancel _ hfits.pos, hnew]
      · show grown a.maxSize _ = _
        rw [hmax, ← hlen]
  · rw [if_neg hgrow]
    rw [not_or] at hgrow
    cases spare with
    | nil => rw [List.length_nil] at hmax; omega
    | cons x spare => exact .inl ⟨a, rfl, rfl, x, spare, hcells, hmax⟩

/-! ## What the operations do -/

/-- What an operation may do to the elements, with the status that says so. -/
inductive Added (room : Bool) (l l' : List α) : Status → List α → Prop
  | done : Added room l l' .success l'
  | full (h : room = false) : Added room l l' .noMemory l

theorem add_refines (h : a.Represents l) (hfits : Fits sizeofType l.length) (value : α) :
    ∃ status a' l', a.add sizeofType zero room value = some (status, a') ∧ Added room l (l ++ [value]) status l' ∧
      a'.Represents l' := by
  have hlt := hfits.lt
  obtain ⟨spare, hspare⟩ := h.cells
  have hsize : (a.size + 1) % 2 ^ 32 = l.length + 1 := by rw [h.size, Nat.mod_eq_of_lt (by omega)]
  have hindex : (l.length + 1 + 2 ^ 32 - 1) % 2 ^ 32 = l.length := by omega
  rw [add, hsize]
  rcases @setSizeInternal_next _ sizeofType zero room { a with size := l.length + 1 } l hfits ⟨spare, hspare⟩ with
    ⟨a', hset, hsize', x, spare', hcells, hmax⟩ | ⟨hroom, hset⟩
  · have hstore : a'.store l.length value = some { a' with data := some (l ++ value :: spare') } := by
      rw [store, hcells, if_pos (by simp), List.set_append_right _ _ (Nat.le_refl _), Nat.sub_self]
      rfl
    refine ⟨.success, { a' with data := some (l ++ value :: spare') }, l ++ [value], ?_, .done, ?_, spare', ?_, ?_⟩
    · simp only [hset, hindex, hstore, Option.map_some]
    · rw [List.length_append]
      exact hsize'
    · rw [List.append_assoc]
      rfl
    · rw [List.length_append]
      show a'.maxSize = _
      rw [hmax, List.length_singleton]
      omega
  · refine ⟨.noMemory, a, l, ?_, .full hroom, h⟩
    simp only [hset, hindex]
    rw [← h.size]

theorem moveMemory_eq {front mid : List α} {dst src n : Nat} (hdst : dst + n ≤ a.cells.length)
    (hsrc : src + n ≤ a.cells.length) (hfront : a.cells.take dst = front) (hmid : (a.cells.drop src).take n = mid) :
    a.moveMemory dst src n = some { a with data := some (front ++ mid ++ a.cells.drop (dst + n)) } := by
  rw [moveMemory, if_pos ⟨hdst, hsrc⟩, hfront, hmid]

theorem insert_refines (h : a.Represents l) (hfits : Fits sizeofType l.length) {index : Nat}
    (hindex : index ≤ l.length) (value : α) :
    ∃ status a' l', a.insert sizeofType zero room index value = some (status, a') ∧
      Added room l (l.take index ++ value :: l.drop index) status l' ∧ a'.Represents l' := by
  have hlt := hfits.lt
  have hsize : (a.size + 1) % 2 ^ 32 = l.length + 1 := by rw [h.size, Nat.mod_eq_of_lt (by omega)]
  rw [insert, if_neg (by rw [h.size]; omega), hsize]
  rcases @setSizeInternal_next _ sizeofType zero room a l hfits h.cells with
    ⟨a', hset, hsize', x, spare, hcells, hmax⟩ | ⟨hroom, hset⟩
  · rw [h.size] at hsize'
    have hlen : a'.cells.length = l.length + (spare.length + 1) := by rw [hcells]; simp
    obtain ⟨y, hy⟩ : ∃ y, a'.cells.take (index + 1) = l.take index ++ [y] := by
      have hin : index < a'.cells.length := by omega
      refine ⟨a'.cells[index], ?_⟩
      rw [List.take_add_one, List.getElem?_eq_getElem hin, Option.toList_some]
      congr 1
      rw [hcells, List.take_append_of_le_length hindex]
    have hmid : (a'.cells.drop index).take (a'.size - index) = l.drop index := by
      rw [hcells, List.drop_append_of_le_length hindex, hsize']
      exact List.take_left' (by rw [List.length_drop])
    have hrest : a'.cells.drop (index + 1 + (a'.size - index)) = spare := by
      have hsum : index + 1 + (a'.size - index) = l.length + 1 := by omega
      rw [hsum, hcells, ← List.drop_drop, List.drop_left, List.drop_one, List.tail_cons]
    have hmove := @moveMemory_eq _ a' _ _ (index + 1) index (a'.size - index) (by omega) (by omega) hy hmid
    rw [hrest] at hmove
    have hstore : store { a' with data := some (l.take index ++ [y] ++ l.drop index ++ spare) } index value =
        some { a' with data := some (l.take index ++ value :: l.drop index ++ spare) } := by
      have hin : index < (l.take index ++ [y] ++ l.drop index ++ spare).length := by simp; omega
      have htake : (l.take index).length = index := List.length_take_of_le hindex
      have hset : (l.take index ++ [y] ++ l.drop index ++ spare).set index value =
          l.take index ++ value :: l.drop index ++ spare := by
        simp only [List.append_assoc]
        rw [List.set_append_right _ _ (Nat.le_of_eq htake), htake, Nat.sub_self]
        rfl
      exact (if_pos hin).trans (congrArg (fun c => some { a' with data := some c }) hset)
    have hnew : (l.take index ++ value :: l.drop index).length = l.length + 1 := by simp; omega
    refine ⟨.success, { a' with data := some (l.take index ++ value :: l.drop index ++ spare), size := a'.size + 1 },
      l.take index ++ value :: l.drop index, ?_, .done, ?_, spare, rfl, ?_⟩
    · simp only [hset, hmove, hstore, Option.bind_some, Option.map_some]
    · rw [hnew]
      show a'.size + 1 = _
      rw [hsize']
    · rw [hnew]
      show a'.maxSize = _
      omega
  · exact ⟨.noMemory, a, l, by simp only [hset], .full hroom, h⟩

theorem setAt_refines (h : a.Represents l) {index : Nat} (hindex : index < l.length) (value : α) :
    ∃ a', a.setAt index value = some (.success, a') ∧ a'.Represents (l.set index value) := by
  obtain ⟨spare, hcells, hmax⟩ := h.cells
  have hstore : a.store index value = some { a with data := some (l.set index value ++ spare) } := by
    rw [store, hcells, if_pos (by rw [List.length_append]; omega), List.set_append_left _ _ hindex]
  refine ⟨{ a with data := some (l.set index value ++ spare) }, ?_, ?_, spare, rfl, ?_⟩
  · rw [setAt, if_neg (by rw [h.size]; omega), hstore, Option.map_some]
  · rw [List.length_set]
    exact h.size
  · rw [List.length_set]
    exact hmax

theorem remove_refines (h : a.Represents l) {index : Nat} (hindex : index < l.length) :
    ∃ a', a.remove index = some (.success, a') ∧ a'.Represents (l.eraseIdx index) := by
  obtain ⟨spare, hcells, hmax⟩ := h.cells
  have hsize := h.size
  have hlen : a.cells.length = l.length + spare.length := by rw [hcells, List.length_append]
  have hfront : a.cells.take index = l.take index := by
    rw [hcells, List.take_append_of_le_length (Nat.le_of_lt hindex)]
  have hmid : (a.cells.drop (index + 1)).take (a.size - (index + 1)) = l.drop (index + 1) := by
    rw [hcells, List.drop_append_of_le_length hindex, hsize]
    exact List.take_left' (by rw [List.length_drop])
  have hmove := @moveMemory_eq _ a _ _ index (index + 1) (a.size - (index + 1)) (by omega) (by omega) hfront hmid
  rw [← List.eraseIdx_eq_take_drop_succ] at hmove
  have hnew : (l.eraseIdx index).length = l.length - 1 := List.length_eraseIdx_of_lt hindex
  refine ⟨_, by rw [remove, if_neg (by omega), hmove, Option.map_some], ?_, _, rfl, ?_⟩
  · rw [hnew]
    show a.size - 1 = _
    rw [hsize]
  · rw [hnew, List.length_drop]
    show a.maxSize = _
    omega

theorem removeAll_represents (sizeofType : Nat) (zero : α) (a : GrowableArray α) :
    (a.removeAll sizeofType zero).Represents [] := by
  rw [removeAll, setSizeInternal, if_neg (Nat.not_lt_zero _), if_pos rfl]
  exact empty_represents

theorem searchLoop_eq [DecidableEq α] (value : α) : ∀ {l front spare : List α},
    searchLoop (front ++ l ++ spare) value l.length front.length = some ((l.idxOf? value).map (front.length + ·))
  | [], front, spare => rfl
  | x :: l, front, spare => by
    have hget : (front ++ x :: l ++ spare)[front.length]? = some x := by simp
    have ih := @searchLoop_eq _ value l (front ++ [x]) spare
    rw [List.length_append, List.length_singleton, List.append_assoc front [x], List.singleton_append] at ih
    rw [List.length_cons, searchLoop, hget, Option.bind_some, List.idxOf?_cons]
    by_cases hx : x = value
    · rw [if_pos hx, if_pos (beq_iff_eq.2 hx)]
      rfl
    · rw [if_neg hx, if_neg (by rwa [beq_iff_eq]), ih, Option.map_map]
      congr 2
      funext i
      show front.length + 1 + i = front.length + (i + 1)
      omega

theorem indexOf_eq [DecidableEq α] (h : a.Represents l) (value : α) : a.indexOf value = some (l.idxOf? value) := by
  obtain ⟨spare, hcells, -⟩ := h.cells
  have hloop := @searchLoop_eq _ _ value l [] spare
  rw [indexOf, h.size, hcells]
  split
  · next h0 =>
    obtain rfl : l = [] := List.length_eq_zero_iff.1 (Nat.le_zero.1 h0)
    rfl
  · simpa using hloop

/-! ## Runs -/

/-- A call, with whether the heap has room for it. -/
inductive Op (α : Type)
  | add (room : Bool) (value : α)
  | insert (room : Bool) (index : Nat) (value : α)
  | setAt (index : Nat) (value : α)
  | remove (index : Nat)
  | removeAll
  | indexOf (value : α)
  deriving DecidableEq, Repr

/-- What a call returns. -/
inductive Out
  | status (status : Status)
  | index (index : Option Nat)
  deriving DecidableEq, Repr

section Run

variable [DecidableEq α]

/-- One call; `none` where it touches memory outside the block. -/
def step (sizeofType : Nat) (zero : α) (a : GrowableArray α) : Op α → Option (Out × GrowableArray α)
  | .add room value => (a.add sizeofType zero room value).map fun (status, a) => (.status status, a)
  | .insert room index value =>
    (a.insert sizeofType zero room index value).map fun (status, a) => (.status status, a)
  | .setAt index value => (a.setAt index value).map fun (status, a) => (.status status, a)
  | .remove index => (a.remove index).map fun (status, a) => (.status status, a)
  | .removeAll => some (.status .success, a.removeAll sizeofType zero)
  | .indexOf value => (a.indexOf value).map fun index => (.index index, a)

def run (sizeofType : Nat) (zero : α) : GrowableArray α → List (Op α) → Option (List Out × GrowableArray α)
  | a, [] => some ([], a)
  | a, op :: ops =>
    (a.step sizeofType zero op).bind fun (out, a) => (run sizeofType zero a ops).map fun (outs, a) => (out :: outs, a)

/-- The array behind a call; none where it touches memory outside the block. -/
def next (sizeofType : Nat) (zero : α) (a : Option (GrowableArray α)) (op : Op α) : Option (GrowableArray α) :=
  a.bind fun a => (a.step sizeofType zero op).map fun x => x.2

/-- The elements have less than 2 GiB with one that the call puts in. -/
def Op.Small (sizeofType : Nat) : Option (GrowableArray α) → Op α → Prop
  | some a, .add _ _ | some a, .insert _ _ _ => (a.size + 1) * sizeofType < 2 ^ 31
  | _, _ => True

instance (sizeofType : Nat) (a : Option (GrowableArray α)) (op : Op α) : Decidable (op.Small sizeofType a) := by
  unfold Op.Small
  split <;> infer_instance

/-- The same call of a list: the elements behind it, and what it returns. -/
inductive ListStep (l : List α) : Op α → Out → List α → Prop
  | add {room status l'} (value : α) (h : Added room l (l ++ [value]) status l') :
      ListStep l (.add room value) (.status status) l'
  | insert {room status l'} (index : Nat) (value : α) (hindex : index ≤ l.length)
      (h : Added room l (l.take index ++ value :: l.drop index) status l') :
      ListStep l (.insert room index value) (.status status) l'
  | insertBad (room : Bool) (index : Nat) (value : α) (hindex : l.length < index) :
      ListStep l (.insert room index value) (.status .invalidParameter) l
  | setAt (index : Nat) (value : α) (hindex : index < l.length) :
      ListStep l (.setAt index value) (.status .success) (l.set index value)
  | setAtBad (index : Nat) (value : α) (hindex : l.length ≤ index) :
      ListStep l (.setAt index value) (.status .invalidParameter) l
  | remove (index : Nat) (hindex : index < l.length) :
      ListStep l (.remove index) (.status .success) (l.eraseIdx index)
  | removeBad (index : Nat) (hindex : l.length ≤ index) : ListStep l (.remove index) (.status .invalidParameter) l
  | removeAll : ListStep l .removeAll (.status .success) []
  | indexOf (value : α) : ListStep l (.indexOf value) (.index (l.idxOf? value)) l

inductive ListRun : List α → List (Op α) → List Out → List α → Prop
  | nil (l : List α) : ListRun l [] [] l
  | cons {l l' l'' : List α} {op : Op α} {ops : List (Op α)} {out : Out} {outs : List Out}
      (hstep : ListStep l op out l') (hrun : ListRun l' ops outs l'') : ListRun l (op :: ops) (out :: outs) l''

theorem step_refines (hpos : 0 < sizeofType) (hfirst : 16 * sizeofType < 2 ^ 32) (h : a.Represents l) {op : Op α}
    (hsmall : op.Small sizeofType (some a)) :
    ∃ out a' l', a.step sizeofType zero op = some (out, a') ∧ ListStep l op out l' ∧ a'.Represents l' := by
  have hsize := h.size
  cases op with
  | add room value =>
    have hfits : Fits sizeofType l.length := ⟨hpos, hfirst, hsize ▸ hsmall⟩
    obtain ⟨status, a', l', hadd, hadded, h'⟩ := @add_refines _ _ zero room _ _ h hfits value
    exact ⟨.status status, a', l', by rw [step, hadd, Option.map_some], .add value hadded, h'⟩
  | insert room index value =>
    have hfits : Fits sizeofType l.length := ⟨hpos, hfirst, hsize ▸ hsmall⟩
    by_cases hindex : index ≤ l.length
    · obtain ⟨status, a', l', hins, hadded, h'⟩ := @insert_refines _ _ zero room _ _ h hfits _ hindex value
      exact ⟨.status status, a', l', by rw [step, hins, Option.map_some], .insert index value hindex hadded, h'⟩
    · refine ⟨.status .invalidParameter, a, l, ?_, .insertBad room index value (by omega), h⟩
      rw [step, GrowableArray.insert, if_pos (by omega), Option.map_some]
  | setAt index value =>
    by_cases hindex : index < l.length
    · obtain ⟨a', hset, h'⟩ := setAt_refines h hindex value
      exact ⟨_, a', _, by rw [step, hset, Option.map_some], .setAt index value hindex, h'⟩
    · refine ⟨.status .invalidParameter, a, l, ?_, .setAtBad index value (by omega), h⟩
      rw [step, GrowableArray.setAt, if_pos (by omega), Option.map_some]
  | remove index =>
    by_cases hindex : index < l.length
    · obtain ⟨a', hremove, h'⟩ := remove_refines h hindex
      exact ⟨_, a', _, by rw [step, hremove, Option.map_some], .remove index hindex, h'⟩
    · refine ⟨.status .invalidParameter, a, l, ?_, .removeBad index (by omega), h⟩
      rw [step, GrowableArray.remove, if_pos (by omega), Option.map_some]
  | removeAll => exact ⟨_, _, [], rfl, .removeAll, removeAll_represents sizeofType zero a⟩
  | indexOf value => exact ⟨_, a, l, by rw [step, indexOf_eq h, Option.map_some], .indexOf value, h⟩

/-- A run of calls stays in the block and does to the elements what it does to a list, as long as they take less than
2 GiB. -/
theorem run_refines (hpos : 0 < sizeofType) (hfirst : 16 * sizeofType < 2 ^ 32) :
    ∀ {ops : List (Op α)} {a : GrowableArray α} {l : List α}, a.Represents l →
      Along (next sizeofType zero) (fun a op => op.Small sizeofType a) (some a) ops →
      ∃ outs a' l', a.run sizeofType zero ops = some (outs, a') ∧ ListRun l ops outs l' ∧ a'.Represents l'
  | [], a, l, h, _ => ⟨[], a, l, rfl, .nil l, h⟩
  | op :: ops, a, l, h, ⟨hsmall, hrest⟩ => by
    obtain ⟨out, a', l', hstep, hlist, h'⟩ := @step_refines _ _ zero _ _ _ hpos hfirst h op hsmall
    rw [next, Option.bind_some, hstep, Option.map_some] at hrest
    obtain ⟨outs, a'', l'', hrun, hlists, h''⟩ := run_refines hpos hfirst h' hrest
    refine ⟨out :: outs, a'', l'', ?_, .cons hlist hlists, h''⟩
    rw [run, hstep, Option.bind_some]
    show ((a'.run sizeofType zero ops).map _) = _
    rw [hrun]
    rfl

/-- Pointers that are added, put between, looked up and removed; one for which there is no room. -/
def sampleOps : List (Op Nat) :=
  [.add true 8, .insert true 0 9, .indexOf 8, .remove 0, .removeAll, .add false 7, .setAt 0 5]

theorem run_refines_sample : ∃ outs a' l', (empty : GrowableArray Nat).run 4 0 sampleOps = some (outs, a') ∧
    ListRun [] sampleOps outs l' ∧ a'.Represents l' :=
  run_refines (by decide) (by decide) empty_represents (by decide +kernel)

example : ((empty : GrowableArray Nat).run 4 0 sampleOps).map (·.1) =
    some [.status .success, .status .success, .index (some 1), .status .success, .status .success, .status .noMemory,
      .status .invalidParameter] := by
  decide +kernel

end Run

end GrowableArray

end SiglusExtract
