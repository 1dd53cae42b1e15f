import Seqc.VecInsert
import Seqc.Lib.Runs
import Seqc.Lib.Slots
import Mathlib.Data.List.InsertIdx

/-! vec.c down to the slots of the buffer: what its functions copy and move, and what
they leave behind the length. A slot is as large as an element. `none` as the outcome of
a call means that it touches a slot outside the buffer or reads one that nothing was
copied to. The vector is not NULL. -/

namespace Seqc
open Runs Slots

/-- `vec_t` with the slots of `data`. -/
structure VecBuf (α : Type) where
  addr : Nat
  data : Option Nat
  slots : Nat → Option α
  len : Nat
  cap : Nat
  elemSize : Nat
  elem_pos : 0 < elemSize

variable {α : Type}

namespace VecBuf

def create (α : Type) (elemSize : Nat) (m : Mem) : Option (VecBuf α) × Mem :=
  if h : elemSize = 0 then (none, m)
  else
    match memAlloc m sizeofVec with
    | (none, m) => (none, m)
    | (some addr, m) =>
      (some ⟨addr, none, fun _ => none, 0, 0, elemSize, Nat.pos_of_ne_zero h⟩, m)

def createWithCap (α : Type) (elemSize capacity : Nat) (m : Mem) : Option (VecBuf α) × Mem :=
  if h : elemSize = 0 then (none, m)
  else if capacity = 0 then (none, m)
  else
    match memAlloc m sizeofVec with
    | (none, m) => (none, m)
    | (some addr, m) =>
      match memAlloc m (mulSize capacity elemSize) with
      | (none, m) => (none, memFree m (some addr) sizeofVec)
      | (some data, m) =>
        (some ⟨addr, some data, fun _ => none, 0, capacity, elemSize, Nat.pos_of_ne_zero h⟩, m)

/-- The vector a run starts with, empty or with room for `capacity` elements. -/
def start (α : Type) (elemSize : Nat) : Option Nat → Mem → Option (VecBuf α) × Mem
  | none => create α elemSize
  | some capacity => createWithCap α elemSize capacity

/-- `memcpy` of an element from outside the buffer to slot `i`. -/
def write (b : VecBuf α) (i : Nat) (x : α) : Option (VecBuf α) :=
  if b.data.isSome ∧ i < b.cap then some { b with slots := store b.slots i (some x) } else none

/-- `memcpy` of slot `i` to a place outside the buffer. -/
def read (b : VecBuf α) (i : Nat) : Option α :=
  if b.data.isSome ∧ i < b.cap then b.slots i else none

/-- `memmove` of `count` slots. -/
def move (b : VecBuf α) (dst src count : Nat) : Option (VecBuf α) :=
  if count = 0 ∨ b.data.isSome ∧ dst + count ≤ b.cap ∧ src + count ≤ b.cap then
    some { b with slots := memmove b.slots dst src count }
  else none

/-- `mem_realloc` keeps as much as it is told the old block had: the first `len` slots. -/
def resize (b : VecBuf α) (newCap : Nat) (m : Mem) : Status × VecBuf α × Mem :=
  match memRealloc m b.data (mulSize b.len b.elemSize) (mulSize newCap b.elemSize) with
  | (none, m) => (.oom, b, m)
  | (some data, m) =>
    (.ok, { b with data := some data, slots := fun k => if k < b.len then b.slots k else none,
                   cap := newCap }, m)

/-- The capacity after the next growth. -/
def newCap (b : VecBuf α) : Nat := if b.cap = 0 then vecInitialCap else mulSize b.cap 2

def push (b : VecBuf α) (elem : Option α) (m : Mem) : Option (Status × VecBuf α × Mem) :=
  match elem with
  | none => some (.invalid, b, m)
  | some x =>
    let grown := if b.len = b.cap then
        if sizeMax / 2 < b.cap then (.oom, b, m) else b.resize b.newCap m
      else (.ok, b, m)
    match grown with
    | (.ok, b, m) => do
      let b ← b.write b.len x
      pure (.ok, { b with len := b.len + 1 }, m)
    | (st, b, m) => some (st, b, m)

/-- The slot `vec_get_ptr` points at. -/
def getPtr (b : VecBuf α) (i : Nat) : Option Nat := if b.len ≤ i then none else some i

def get (b : VecBuf α) (i : Nat) (out : Bool) : Option (Status × Option α) :=
  match b.getPtr i with
  | none => some (.notFound, none)
  | some i =>
    if out then do
      let x ← b.read i
      pure (.ok, some x)
    else some (.ok, none)

def pop (b : VecBuf α) (out : Bool) : Option ((Status × Option α) × VecBuf α) :=
  if b.len = 0 then some ((.notFound, none), b)
  else
    let b := { b with len := b.len - 1 }
    if out then do
      let x ← b.read b.len
      pure ((.ok, some x), b)
    else some ((.ok, none), b)

def set (b : VecBuf α) (i : Nat) (elem : Option α) : Option (VecBuf α) :=
  match elem with
  | none => some b
  | some x => if b.len ≤ i then some b else b.write i x

def reserve (b : VecBuf α) (capacity : Nat) (m : Mem) : Status × VecBuf α × Mem :=
  if capacity ≤ b.cap then (.ok, b, m) else b.resize capacity m

def insert (b : VecBuf α) (i : Nat) (elem : Option α) (m : Mem) :
    Option (Status × VecBuf α × Mem) :=
  match elem with
  | none => some (.invalid, b, m)
  | some x =>
    if b.len < i then some (.invalid, b, m)
    else
      match if b.len = b.cap then b.reserve b.newCap m else (.ok, b, m) with
      | (.ok, b, m) => do
        let b ← b.move (i + 1) i (b.len - i)
        let b ← b.write i x
        pure (.ok, { b with len := b.len + 1 }, m)
      | (st, b, m) => some (st, b, m)

def remove (b : VecBuf α) (i : Nat) : Option (VecBuf α) :=
  if b.len ≤ i then some b
  else do
    let b ← b.move i (i + 1) (b.len - i - 1)
    pure { b with len := b.len - 1 }

def clear (b : VecBuf α) : VecBuf α := { b with len := 0 }

def truncate (b : VecBuf α) (len : Nat) : VecBuf α :=
  if len < b.len then { b with len := len } else b

end VecBuf

inductive VecCall (α : Type) where
  | push (elem : Option α)
  | pop (out : Bool)
  | get (i : Nat) (out : Bool)
  | set (i : Nat) (elem : Option α)
  | insert (i : Nat) (elem : Option α)
  | remove (i : Nat)
  | truncate (len : Nat)
  | clear
  | reserve (capacity : Nat)

def vecBufStep (op : VecCall α) (s : VecBuf α × Mem) : Option (Answer α × VecBuf α × Mem) :=
  match op with
  | .push elem => do
    let (st, b, m) ← s.1.push elem s.2
    pure (.status st, b, m)
  | .pop out => do
    let ((st, x), b) ← s.1.pop out
    pure (.read st x, b, s.2)
  | .get i out => do
    let (st, x) ← s.1.get i out
    pure (.read st x, s)
  | .set i elem => do
    let b ← s.1.set i elem
    pure (.nothing, b, s.2)
  | .insert i elem => do
    let (st, b, m) ← s.1.insert i elem s.2
    pure (.status st, b, m)
  | .remove i => do
    let b ← s.1.remove i
    pure (.nothing, b, s.2)
  | .truncate len => some (.nothing, s.1.truncate len, s.2)
  | .clear => some (.nothing, s.1.clear, s.2)
  | .reserve capacity =>
    let (st, b, m) := s.1.reserve capacity s.2
    some (.status st, b, m)

/-! ### The elements in the slots -/

/-- The slots below the length hold the elements, in a buffer that an object can be. -/
structure VecBuf.Holds (b : VecBuf α) (xs : List α) : Prop where
  holds : contents b.len b.slots = xs.map some
  room : b.len ≤ b.cap
  null : b.data = none → b.cap = 0
  small : b.cap * b.elemSize < 2 ^ 63

namespace VecBuf
variable {b : VecBuf α} {xs : List α} {x : α} {i : Nat} {m m' : Mem}

theorem Holds.length (h : b.Holds xs) : b.len = xs.length := by
  simpa using congrArg List.length h.holds

theorem Holds.cap_lt (h : b.Holds xs) : b.cap < 2 ^ 63 :=
  Nat.lt_of_le_of_lt (Nat.le_mul_of_pos_right b.cap b.elem_pos) h.small

/-- A buffer with room is there. -/
theorem Holds.there (h : b.Holds xs) (some_room : 0 < b.cap) : b.data.isSome = true := by
  cases hd : b.data with
  | none => exact absurd (h.null hd) (Nat.ne_of_gt some_room)
  | some d => rfl

/-- Other slots and another length of the same buffer. -/
theorem Holds.store (h : b.Holds xs) {slots : Nat → Option α} {len : Nat} {ys : List α}
    (holds : contents len slots = ys.map some) (room : len ≤ b.cap) :
    ({ b with slots := slots, len := len } : VecBuf α).Holds ys :=
  ⟨holds, room, h.null, h.small⟩

/-- What is cut off stays in its slots. -/
theorem Holds.shorten (h : b.Holds xs) {n : Nat} (le : n ≤ b.len) :
    ({ b with len := n } : VecBuf α).Holds (xs.take n) := by
  have room := h.room
  refine h.store ?_ (by omega)
  rw [List.map_take, ← h.holds, contents_take le]

theorem Holds.slot (h : b.Holds xs) (inside : i < b.len) : b.slots i = xs[i]? := by
  have here := contents_get b.slots inside
  rw [h.holds, List.getElem?_map] at here
  cases hx : xs[i]? with
  | none => simp [hx] at here
  | some x => simpa [hx] using here.symm

theorem Holds.read_eq (h : b.Holds xs) (inside : i < b.len) : b.read i = xs[i]? := by
  have room := h.room
  rw [VecBuf.read, if_pos ⟨h.there (by omega), by omega⟩, h.slot inside]

theorem Holds.write_eq (h : b.Holds xs) (inside : i < b.cap) (x : α) :
    b.write i x = some { b with slots := Slots.store b.slots i (some x) } :=
  if_pos ⟨h.there (by omega), inside⟩

theorem Holds.move_eq (h : b.Holds xs) {dst src count : Nat} (into : dst + count ≤ b.cap)
    (out : src + count ≤ b.cap) :
    b.move dst src count = some { b with slots := memmove b.slots dst src count } := by
  by_cases nothing : count = 0
  · exact if_pos (.inl nothing)
  · exact if_pos (.inr ⟨h.there (by omega), into, out⟩)

/-- The elements stay when the buffer moves. -/
theorem Holds.moved (h : b.Holds xs) {data newCap : Nat} (larger : b.cap ≤ newCap)
    (small : newCap * b.elemSize < 2 ^ 63) :
    ({ b with data := some data, slots := fun k => if k < b.len then b.slots k else none,
              cap := newCap } : VecBuf α).Holds xs where
  holds := by
    rw [← h.holds]
    exact contents_congr fun k hk => if_pos hk
  room := Nat.le_trans h.room larger
  null := by simp
  small := small

end VecBuf

/-! ### The functions on the elements -/

def vecGet (v : Option (Vec α)) (i : Nat) (out : Bool) : Status × Option α :=
  match v with
  | none => (.invalid, none)
  | some v => seqcCopyOut (vecGetPtr (some v) i) out

def vecSet (v : Option (Vec α)) (i : Nat) (elem : Option α) : Option (Vec α) :=
  match elem with
  | none => v
  | some x => v.map fun v => { v with contents := v.contents.set i x }

/-- A call as the functions on the elements answer it. -/
def vecCallStep (op : VecCall α) (v : Option (Vec α)) (m : Mem) :
    Answer α × Option (Vec α) × Mem :=
  match op with
  | .push elem =>
    let (st, v, m) := vecPush v elem m
    (.status st, v, m)
  | .pop out =>
    let ((st, x), v) := vecPop v out
    (.read st x, v, m)
  | .get i out =>
    let (st, x) := vecGet v i out
    (.read st x, v, m)
  | .set i elem => (.nothing, vecSet v i elem, m)
  | .insert i elem =>
    let (st, v, m) := vecInsert v i elem m
    (.status st, v, m)
  | .remove i => (.nothing, vecRemove v i, m)
  | .truncate len => (.nothing, vecTruncate v len, m)
  | .clear => (.nothing, vecClear v, m)
  | .reserve capacity =>
    let (st, v, m) := vecReserve v capacity m
    (.status st, v, m)

/-- The capacity after a growth. -/
def grownCap (cap : Nat) : Nat := if cap = 0 then vecInitialCap else cap * 2

theorem grownCap_gt (cap : Nat) : cap < grownCap cap := by
  unfold grownCap vecInitialCap
  split <;> omega

/-- Where doubling does not wrap it is what the functions compute. -/
theorem grownCap_eq {cap : Nat} (small : cap < 2 ^ 63) :
    (if cap = 0 then vecInitialCap else mulSize cap 2) = grownCap cap := by
  rw [mulSize_of_lt (by omega : cap * 2 < 2 ^ 64), grownCap]

/-- The capacity that a call asks the allocator for, if it asks at all: a push or an insertion
into a full buffer, or a reservation above the capacity. -/
def VecCall.wants (op : VecCall α) (len cap : Nat) : Option Nat :=
  match op with
  | .push (some _) => if len = cap then some (grownCap cap) else none
  | .insert i (some _) => if i ≤ len ∧ len = cap then some (grownCap cap) else none
  | .reserve capacity => if cap < capacity then some capacity else none
  | _ => none

/-- The bytes it asks for are fewer than 2^63. -/
def VecCall.Small (op : VecCall α) (b : VecBuf α) : Prop :=
  ∀ c ∈ op.wants b.len b.cap, c * b.elemSize < 2 ^ 63

/-- The vector of the elements. -/
def VecBuf.vec (b : VecBuf α) (xs : List α) : Vec α :=
  ⟨b.addr, b.data, xs, b.cap, b.elemSize, b.elem_pos⟩

section Simulation
variable {b b' : VecBuf α} {xs ys : List α} {x : α} {i : Nat} {m m' : Mem} {st : Status}

/-- What a call makes of the slots is what it makes of the elements. -/
def Simulated (op : VecCall α) (b : VecBuf α) (xs : List α) (m : Mem) : Prop :=
  ∃ out b' ys m', vecBufStep op (b, m) = some (out, b', m') ∧
    vecCallStep op (some (b.vec xs)) m = (out, some (b'.vec ys), m') ∧ b'.Holds ys

theorem Simulated.pop (h : b.Holds xs) (out : Bool) (m : Mem) : Simulated (.pop out) b xs m := by
  have length := h.length
  rcases List.eq_nil_or_concat xs with rfl | ⟨ys, x, rfl⟩
  · have empty : b.len = 0 := length
    exact ⟨.read .notFound none, b, [], m, by simp [vecBufStep, VecBuf.pop, empty], rfl, h⟩
  · rw [List.concat_eq_append] at h length ⊢
    rw [List.length_append, List.length_singleton] at length
    have some_left : b.len ≠ 0 := by omega
    have shorter := h.shorten (Nat.sub_le b.len 1)
    rw [length, Nat.add_sub_cancel, List.take_left] at shorter
    have last : ({ b with len := ys.length } : VecBuf α).read ys.length = some x := by
      have slot := h.read_eq (i := ys.length) (by omega)
      rwa [List.getElem?_append_right (Nat.le_refl _), Nat.sub_self] at slot
    refine ⟨.read .ok (if out then some x else none), { b with len := ys.length }, ys, m, ?_, ?_,
      shorter⟩
    · cases out <;> simp [vecBufStep, VecBuf.pop, length, last]
    · simp [vecCallStep, vecPop, vecContents, VecBuf.vec]

theorem Simulated.get (h : b.Holds xs) (i : Nat) (out : Bool) (m : Mem) :
    Simulated (.get i out) b xs m := by
  have length := h.length
  by_cases outside : b.len ≤ i
  · have past : xs[i]? = none := List.getElem?_eq_none (by omega)
    exact ⟨.read .notFound none, b, xs, m,
      by simp [vecBufStep, VecBuf.get, VecBuf.getPtr, outside],
      by simp [vecCallStep, vecGet, vecGetPtr, vecContents, VecBuf.vec, past, seqcCopyOut], h⟩
  · obtain ⟨x, hx⟩ : ∃ x, xs[i]? = some x := ⟨_, List.getElem?_eq_getElem (by omega)⟩
    have slot := h.read_eq (i := i) (by omega)
    rw [hx] at slot
    refine ⟨.read .ok (if out then some x else none), b, xs, m, ?_, ?_, h⟩
    · cases out <;> simp [vecBufStep, VecBuf.get, VecBuf.getPtr, outside, slot]
    · simp [vecCallStep, vecGet, vecGetPtr, vecContents, VecBuf.vec, hx, seqcCopyOut]

theorem Simulated.set (h : b.Holds xs) (i : Nat) (elem : Option α) (m : Mem) :
    Simulated (.set i elem) b xs m := by
  have length := h.length
  have room := h.room
  cases elem with
  | none => exact ⟨.nothing, b, xs, m, rfl, rfl, h⟩
  | some x =>
    by_cases outside : b.len ≤ i
    · have same : xs.set i x = xs := List.set_eq_of_length_le (by omega)
      exact ⟨.nothing, b, xs, m, by simp [vecBufStep, VecBuf.set, outside],
        by simp [vecCallStep, vecSet, VecBuf.vec, same], h⟩
    · have write := h.write_eq (by omega : i < b.cap) x
      refine ⟨.nothing, { b with slots := store b.slots i (some x) }, xs.set i x, m,
        by simp [vecBufStep, VecBuf.set, outside, write], rfl, h.store ?_ room⟩
      rw [contents_set (by omega), h.holds, List.map_set]

theorem Simulated.remove (h : b.Holds xs) (i : Nat) (m : Mem) : Simulated (.remove i) b xs m := by
  have length := h.length
  have room := h.room
  by_cases outside : b.len ≤ i
  · have same : xs.eraseIdx i = xs := List.eraseIdx_of_length_le (by omega)
    exact ⟨.nothing, b, xs, m, by simp [vecBufStep, VecBuf.remove, outside],
      by simp [vecCallStep, vecRemove, VecBuf.vec, same], h⟩
  · have move : b.move i (i + 1) (b.len - i - 1) = some _ := h.move_eq (by omega) (by omega)
    refine ⟨.nothing, { b with slots := memmove b.slots i (i + 1) (b.len - i - 1)
                               len := b.len - 1 }, xs.eraseIdx i, m,
      by simp [vecBufStep, VecBuf.remove, outside, move], rfl, h.store ?_ (by omega)⟩
    rw [contents_remove (by omega), h.holds, List.eraseIdx_map]

theorem Simulated.truncate (h : b.Holds xs) (n : Nat) (m : Mem) :
    Simulated (.truncate n) b xs m := by
  have length := h.length
  by_cases shorter : n < b.len
  · exact ⟨.nothing, { b with len := n }, xs.take n, m,
      by simp [vecBufStep, VecBuf.truncate, shorter], rfl, h.shorten (Nat.le_of_lt shorter)⟩
  · have same : xs.take n = xs := List.take_of_length_le (by omega)
    exact ⟨.nothing, b, xs, m, by simp [vecBufStep, VecBuf.truncate, shorter],
      by simp [vecCallStep, vecTruncate, VecBuf.vec, same], h⟩

theorem Simulated.clear (h : b.Holds xs) (m : Mem) : Simulated .clear b xs m :=
  ⟨.nothing, { b with len := 0 }, [], m, rfl, rfl, h.shorten (Nat.zero_le _)⟩

/-- A request for a buffer with another capacity. -/
theorem VecBuf.resize_cases (h : b.Holds xs) {c : Nat} (larger : b.cap ≤ c)
    (small : c * b.elemSize < 2 ^ 63) (m : Mem) :
    (∃ m', b.resize c m = (.oom, b, m') ∧
      memRealloc m b.data (mulSize xs.length b.elemSize) (mulSize c b.elemSize) = (none, m')) ∨
    ∃ b' data m', b.resize c m = (.ok, b', m') ∧
      memRealloc m b.data (mulSize xs.length b.elemSize) (mulSize c b.elemSize) = (some data, m') ∧
      b'.Holds xs ∧ b'.vec xs = { b.vec xs with dataAddr := some data, cap := c } := by
  rw [resize, h.length]
  rcases memRealloc m b.data (mulSize xs.length b.elemSize) (mulSize c b.elemSize) with
    ⟨_ | data, m'⟩
  · exact .inl ⟨m', rfl, rfl⟩
  · have moved := @VecBuf.Holds.moved α b xs h data c larger small
    rw [h.length] at moved
    exact .inr ⟨_, data, m', rfl, rfl, moved, rfl⟩

/-- A full buffer that grows has room. -/
theorem VecBuf.grow_cases (h : b.Holds xs) (full : b.len = b.cap)
    (small : grownCap b.cap * b.elemSize < 2 ^ 63) (m : Mem) :
    (∃ m', b.resize b.newCap m = (.oom, b, m') ∧
      memRealloc m b.data (mulSize xs.length b.elemSize)
        (mulSize (grownCap b.cap) b.elemSize) = (none, m')) ∨
    ∃ b' data m', b.resize b.newCap m = (.ok, b', m') ∧
      memRealloc m b.data (mulSize xs.length b.elemSize)
        (mulSize (grownCap b.cap) b.elemSize) = (some data, m') ∧
      b'.Holds xs ∧ b'.len < b'.cap ∧
      b'.vec xs = { b.vec xs with dataAddr := some data, cap := grownCap b.cap } := by
  have larger := grownCap_gt b.cap
  have newCap : b.newCap = grownCap b.cap := grownCap_eq h.cap_lt
  rw [newCap]
  rcases VecBuf.resize_cases h (Nat.le_of_lt larger) small m with
    refused | ⟨b', data, m', resize, realloc, h', vec⟩
  · exact .inl refused
  · have cap : b'.cap = grownCap b.cap := congrArg Vec.cap vec
    have room : b'.len < b'.cap := by
      rw [cap, h'.length, ← h.length, full]
      exact larger
    exact .inr ⟨b', data, m', resize, realloc, h', room, vec⟩

theorem Simulated.reserve (h : b.Holds xs) (c : Nat) (small : (VecCall.reserve c).Small b)
    (m : Mem) : Simulated (.reserve c) b xs m := by
  by_cases enough : c ≤ b.cap
  · exact ⟨.status .ok, b, xs, m, by simp [vecBufStep, VecBuf.reserve, enough],
      by simp [vecCallStep, vecReserve, VecBuf.vec, enough], h⟩
  · have fits := small c (by simp only [VecCall.wants, if_pos (Nat.not_le.mp enough)]; rfl)
    rcases VecBuf.resize_cases h (by omega) fits m with
      ⟨m', resize, realloc⟩ | ⟨b', data, m', resize, realloc, h', vec⟩
    · exact ⟨.status .oom, b, xs, m', by simp [vecBufStep, VecBuf.reserve, enough, resize],
        by simp [vecCallStep, vecReserve, VecBuf.vec, enough, realloc], h⟩
    · refine ⟨.status .ok, b', xs, m', by simp [vecBufStep, VecBuf.reserve, enough, resize], ?_, h'⟩
      rw [vec]
      simp [vecCallStep, vecReserve, VecBuf.vec, enough, realloc]

theorem VecBuf.Holds.push_write (h : b.Holds xs) (some_room : b.len < b.cap) (x : α) :
    ∃ b₁, b.write b.len x = some b₁ ∧
      ({ b₁ with len := b₁.len + 1 } : VecBuf α).Holds (xs ++ [x]) ∧
      ({ b₁ with len := b₁.len + 1 } : VecBuf α).vec (xs ++ [x]) =
        { b.vec xs with contents := xs ++ [x] } := by
  refine ⟨_, h.write_eq some_room x, h.store ?_ some_room, rfl⟩
  rw [contents_store_end, h.holds, List.map_append]
  rfl

theorem VecBuf.Holds.insert_write (h : b.Holds xs) (some_room : b.len < b.cap) (inside : i ≤ b.len)
    (x : α) :
    ∃ b₁ b₂, b.move (i + 1) i (b.len - i) = some b₁ ∧ b₁.write i x = some b₂ ∧
      ({ b₂ with len := b₂.len + 1 } : VecBuf α).Holds (xs.insertIdx i x) ∧
      ({ b₂ with len := b₂.len + 1 } : VecBuf α).vec (xs.insertIdx i x) =
        { b.vec xs with contents := xs.insertIdx i x } := by
  have there := h.there (by omega)
  refine ⟨_, _, h.move_eq (by omega) (by omega), if_pos ⟨there, by simp only; omega⟩,
    h.store ?_ some_room, rfl⟩
  have length := h.length
  rw [contents_insert inside, h.holds, insertIdx_eq (by omega), List.map_append, List.map_cons,
    List.map_take, List.map_drop]

/-- The growth of a full vector that is small enough to grow. -/
theorem vecGrow_full {v : Vec α} (full : v.contents.length = v.cap) (cap : v.cap < 2 ^ 63)
    (m : Mem) :
    vecGrow v m = match memRealloc m v.dataAddr (mulSize v.contents.length v.elemSize)
        (mulSize (grownCap v.cap) v.elemSize) with
      | (none, m) => (.oom, v, m)
      | (some addr, m) => (.ok, { v with dataAddr := some addr, cap := grownCap v.cap }, m) := by
  have notHuge : ¬sizeMax / 2 < v.cap := by
    simp only [sizeMax]
    omega
  have grown := grownCap_eq cap
  rcases hm : memRealloc m v.dataAddr (mulSize v.contents.length v.elemSize)
    (mulSize (grownCap v.cap) v.elemSize) with ⟨_ | addr, m₁⟩
  · simp only [vecGrow, if_pos full, if_neg notHuge, grown, hm]
  · simp only [vecGrow, if_pos full, if_neg notHuge, grown, hm]

theorem Simulated.push (h : b.Holds xs) (elem : Option α)
    (small : (VecCall.push elem).Small b) (m : Mem) : Simulated (.push elem) b xs m := by
  cases elem with
  | none => exact ⟨.status .invalid, b, xs, m, rfl, rfl, h⟩
  | some x =>
    have length := h.length
    have room := h.room
    have cap := h.cap_lt
    by_cases full : b.len = b.cap
    · have notHuge : ¬sizeMax / 2 < b.cap := by
        simp only [sizeMax]
        omega
      have grow := vecGrow_full (v := b.vec xs) (length.symm.trans full) cap m
      have fits := small _ (by simp only [VecCall.wants, if_pos full]; rfl)
      rcases VecBuf.grow_cases h full fits m with
        ⟨m', resize, realloc⟩ | ⟨b', data, m', resize, realloc, h', room', vec⟩
      · refine ⟨.status .oom, b, xs, m', ?_, ?_, h⟩
        · simp [vecBufStep, VecBuf.push, if_pos full, if_neg notHuge, resize]
        · simp only [VecBuf.vec, realloc] at grow
          simp only [vecCallStep, vecPush, VecBuf.vec, grow]
      · obtain ⟨b₁, write, holds, vec'⟩ := h'.push_write room' x
        refine ⟨.status .ok, _, xs ++ [x], m', ?_, ?_, holds⟩
        · simp [vecBufStep, VecBuf.push, if_pos full, if_neg notHuge, resize, write]
        · rw [vec', vec]
          simp only [VecBuf.vec, realloc] at grow
          simp only [vecCallStep, vecPush, VecBuf.vec, grow]
    · obtain ⟨b₁, write, holds, vec⟩ := h.push_write (by omega) x
      have notFull : ¬xs.length = b.cap := by omega
      refine ⟨.status .ok, _, xs ++ [x], m, ?_, ?_, holds⟩
      · simp [vecBufStep, VecBuf.push, full, write]
      · rw [vec]
        simp [vecCallStep, vecPush, vecGrow, VecBuf.vec, notFull]

/-- The insertion reserves what the push would ask for. -/
theorem vecInsert_full {v : Vec α} (full : v.contents.length = v.cap) (cap : v.cap < 2 ^ 63)
    {i : Nat} (inside : i ≤ v.contents.length) (x : α) (m : Mem) :
    vecInsert (some v) i (some x) m =
      match memRealloc m v.dataAddr (mulSize v.contents.length v.elemSize)
        (mulSize (grownCap v.cap) v.elemSize) with
      | (none, m) => (.oom, some v, m)
      | (some addr, m) => (.ok, some { v with
          dataAddr := some addr
          cap := grownCap v.cap
          contents := v.contents.insertIdx i x }, m) := by
  have larger := grownCap_gt v.cap
  simp only [vecInsert, if_neg (Nat.not_lt.mpr inside), if_pos full, grownCap_eq cap, vecReserve,
    if_neg (Nat.not_le.mpr larger)]
  rcases memRealloc m v.dataAddr (mulSize v.contents.length v.elemSize)
    (mulSize (grownCap v.cap) v.elemSize) with ⟨_ | addr, m'⟩ <;> rfl

theorem Simulated.insert (h : b.Holds xs) (i : Nat) (elem : Option α)
    (small : (VecCall.insert i elem).Small b) (m : Mem) : Simulated (.insert i elem) b xs m := by
  cases elem with
  | none => exact ⟨.status .invalid, b, xs, m, rfl, rfl, h⟩
  | some x =>
    have length := h.length
    have room := h.room
    have cap := h.cap_lt
    by_cases outside : b.len < i
    · have outside' : xs.length < i := by omega
      exact ⟨.status .invalid, b, xs, m, by simp [vecBufStep, VecBuf.insert, outside],
        by simp [vecCallStep, vecInsert, VecBuf.vec, outside'], h⟩
    have inside : i ≤ b.len := by omega
    by_cases full : b.len = b.cap
    · have insert := vecInsert_full (v := b.vec xs) (length.symm.trans full) cap
        (length ▸ inside) x m
      have reserve : b.reserve b.newCap m = b.resize b.newCap m := by
        refine if_neg (Nat.not_le.mpr ?_)
        rw [VecBuf.newCap, grownCap_eq cap]
        exact grownCap_gt b.cap
      have fits := small _ (by simp only [VecCall.wants, if_pos (And.intro inside full)]; rfl)
      rcases VecBuf.grow_cases h full fits m with
        ⟨m', resize, realloc⟩ | ⟨b', data, m', resize, realloc, h', room', vec⟩
      · refine ⟨.status .oom, b, xs, m', ?_, ?_, h⟩
        · simp only [vecBufStep, VecBuf.insert, if_neg outside, if_pos full, reserve, resize]
          rfl
        · simp only [VecBuf.vec, realloc] at insert
          simp only [vecCallStep, VecBuf.vec, insert]
      · have same := h'.length
        obtain ⟨b₁, b₂, move, write, holds, vec'⟩ := h'.insert_write room' (by omega : i ≤ b'.len) x
        refine ⟨.status .ok, _, xs.insertIdx i x, m', ?_, ?_, holds⟩
        · simp only [vecBufStep, VecBuf.insert, if_neg outside, if_pos full, reserve, resize]
          simp [move, write]
        · rw [vec', vec]
          simp only [VecBuf.vec, realloc] at insert
          simp only [vecCallStep, VecBuf.vec, insert]
    · obtain ⟨b₁, b₂, move, write, holds, vec⟩ := h.insert_write (by omega) inside x
      have notFull : ¬xs.length = b.cap := by omega
      have inside' : ¬xs.length < i := by omega
      refine ⟨.status .ok, _, xs.insertIdx i x, m, ?_, ?_, holds⟩
      · simp [vecBufStep, VecBuf.insert, outside, full, move, write]
      · rw [vec]
        simp [vecCallStep, vecInsert, VecBuf.vec, notFull, inside']

theorem simulated (h : b.Holds xs) (op : VecCall α) (small : op.Small b) (m : Mem) :
    Simulated op b xs m := by
  cases op with
  | push elem => exact .push h elem small m
  | pop out => exact .pop h out m
  | get i out => exact .get h i out m
  | set i elem => exact .set h i elem m
  | insert i elem => exact .insert h i elem small m
  | remove i => exact .remove h i m
  | truncate n => exact .truncate h n m
  | clear => exact .clear h m
  | reserve c => exact .reserve h c small m

end Simulation

end Seqc
