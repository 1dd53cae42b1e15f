import Seqc.Deque

/-! ringbuf.c: a double-ended queue in a ring of slots, the head moved in both
directions under a mask. -/

namespace Seqc
open Circular

/-- `ringbuf_t`. -/
structure Ringbuf (α : Type) where
  addr : Nat
  data : Option Nat
  slots : Nat → Option α
  cap : Nat
  len : Nat
  head : Nat
  elemSize : Nat

variable {α : Type}

/-- `RINGBUF_INITIAL_CAP`. -/
def ringbufInitialCap : Nat := 8
def sizeofRingbuf : Nat := 56
def sizeofRingbufIterState : Nat := 16

def rbSlot (r : Ringbuf α) (logical : Nat) : Nat := addSize r.head logical &&& subSize r.cap 1

/-- A copy of `n` slots. -/
def memcpySlots (dst : Nat → Option α) (dstAt : Nat) (src : Nat → Option α) (srcAt n : Nat) :
    Nat → Option α :=
  fun i => if dstAt ≤ i ∧ i < dstAt + n then src (srcAt + (i - dstAt)) else dst i

/-- The new buffer of `rb_grow`. -/
def rbLinearise (r : Ringbuf α) : Nat → Option α :=
  let nd := fun _ => none
  if 0 < r.len then
    let tail := addSize r.head r.len
    if tail ≤ r.cap then memcpySlots nd 0 r.slots r.head r.len
    else
      let first := subSize r.cap r.head
      memcpySlots (memcpySlots nd 0 r.slots r.head first) first r.slots 0 (subSize r.len first)
  else nd

def rbGrow (r : Ringbuf α) (m : Mem) : Status × Ringbuf α × Mem :=
  if sizeMax / 2 < r.cap then (.oom, r, m)
  else
    let newCap := if r.cap = 0 then ringbufInitialCap else mulSize r.cap 2
    match memAlloc m (mulSize newCap r.elemSize) with
    | (none, m) => (.oom, r, m)
    | (some nd, m) =>
      let m := match r.data with
        | none => m
        | some data => memFree m (some data) (mulSize r.cap r.elemSize)
      (.ok, { r with data := some nd, slots := rbLinearise r, cap := newCap, head := 0 }, m)

/-- The part of both pushes that makes room for one more element. -/
def rbRoom (r : Ringbuf α) (m : Mem) : Status × Ringbuf α × Mem :=
  if r.len = r.cap then rbGrow r m else (.ok, r, m)

/-- A write outside the buffer gets stuck. -/
def rbWrite (r : Ringbuf α) (slot : Nat) (x : α) : Option (Ringbuf α) :=
  if slot < r.cap then some { r with slots := Function.update r.slots slot (some x) } else none

def ringbufCreate (α : Type) (elemSize : Nat) (m : Mem) : Option (Ringbuf α) × Mem :=
  match memAlloc m sizeofRingbuf with
  | (none, m) => (none, m)
  | (some addr, m) => (some ⟨addr, none, fun _ => none, 0, 0, 0, elemSize⟩, m)

def ringbufPushBack (r : Option (Ringbuf α)) (elem : Option α) (m : Mem) :
    Option (Status × Option (Ringbuf α) × Mem) :=
  match r, elem with
  | some r, some x =>
    match rbRoom r m with
    | (.ok, r, m) => do
      let r ← rbWrite r (rbSlot r r.len) x
      pure (.ok, some { r with len := addSize r.len 1 }, m)
    | (st, r, m) => some (st, some r, m)
  | r, _ => some (.invalid, r, m)

def ringbufPushFront (r : Option (Ringbuf α)) (elem : Option α) (m : Mem) :
    Option (Status × Option (Ringbuf α) × Mem) :=
  match r, elem with
  | some r, some x =>
    match rbRoom r m with
    | (.ok, r, m) => do
      let r := { r with head := subSize (addSize r.head r.cap) 1 &&& subSize r.cap 1 }
      let r ← rbWrite r r.head x
      pure (.ok, some { r with len := addSize r.len 1 }, m)
    | (st, r, m) => some (st, some r, m)
  | r, _ => some (.invalid, r, m)

def ringbufPopFront (r : Option (Ringbuf α)) (out : Bool) :
    Option ((Status × Option α) × Option (Ringbuf α)) :=
  match r with
  | none => some ((.notFound, none), none)
  | some r =>
    if r.len = 0 then some ((.notFound, none), some r)
    else do
      let read ← copyOutSlot r.slots (some r.head) out
      pure (read, some { r with
        head := addSize r.head 1 &&& subSize r.cap 1
        len := r.len - 1 })

def ringbufPopBack (r : Option (Ringbuf α)) (out : Bool) :
    Option ((Status × Option α) × Option (Ringbuf α)) :=
  match r with
  | none => some ((.notFound, none), none)
  | some r =>
    if r.len = 0 then some ((.notFound, none), some r)
    else do
      let read ← copyOutSlot r.slots (some (rbSlot r (r.len - 1))) out
      pure (read, some { r with len := r.len - 1 })

/-- The slot the pointer points at. -/
def ringbufGetPtr (r : Option (Ringbuf α)) (i : Nat) : Option Nat :=
  match r with
  | none => none
  | some r => if r.len ≤ i then none else some (rbSlot r i)

def ringbufSlots : Option (Ringbuf α) → Nat → Option α
  | none => fun _ => none
  | some r => r.slots

def ringbufLen : Option (Ringbuf α) → Nat
  | none => 0
  | some r => r.len

def ringbufIsEmpty : Option (Ringbuf α) → Bool
  | none => true
  | some r => decide (r.len = 0)

def ringbufFrontPtr (r : Option (Ringbuf α)) : Option Nat := ringbufGetPtr r 0

def ringbufBackPtr (r : Option (Ringbuf α)) : Option Nat :=
  if 0 < ringbufLen r then ringbufGetPtr r (ringbufLen r - 1) else none

/-- `ringbuf_get`, `ringbuf_front` and `ringbuf_back`, with their pointer versions. -/
def ringbufCopy (ptr : Option (Ringbuf α) → Option Nat) (r : Option (Ringbuf α)) (out : Bool) :
    Option (Status × Option α) :=
  match r with
  | none => some (.invalid, none)
  | some r => copyOutSlot r.slots (ptr (some r)) out

def ringbufGet (r : Option (Ringbuf α)) (i : Nat) (out : Bool) : Option (Status × Option α) :=
  ringbufCopy (fun r => ringbufGetPtr r i) r out

def ringbufFront (r : Option (Ringbuf α)) (out : Bool) : Option (Status × Option α) :=
  ringbufCopy ringbufFrontPtr r out

def ringbufBack (r : Option (Ringbuf α)) (out : Bool) : Option (Status × Option α) :=
  ringbufCopy ringbufBackPtr r out

def ringbufClear (r : Option (Ringbuf α)) : Option (Ringbuf α) :=
  r.map fun r => { r with len := 0, head := 0 }

def ringbufDestroy (r : Option (Ringbuf α)) (m : Mem) : Mem :=
  match r with
  | none => m
  | some r =>
    let m := match r.data with
      | none => m
      | some data => memFree m (some data) (mulSize r.cap r.elemSize)
    memFree m (some r.addr) sizeofRingbuf

/-! ### Iteration -/

/-- `ringbuf_iter_state_t`. -/
structure RingbufIterState (α : Type) where
  r : Ringbuf α
  pos : Nat

def ringbufIterNext (st : RingbufIterState α) : Option (Option α × RingbufIterState α) :=
  if st.r.len ≤ st.pos then some (none, st)
  else do
    let x ← st.r.slots (rbSlot st.r st.pos)
    pure (some x, { st with pos := addSize st.pos 1 })

def ringbufIterRevNext (st : RingbufIterState α) : Option (Option α × RingbufIterState α) :=
  if st.pos = 0 then some (none, st)
  else do
    let x ← st.r.slots (rbSlot st.r (st.pos - 1))
    pure (some x, { st with pos := st.pos - 1 })

/-- `ringbuf_iter` and `ringbuf_iter_rev` differ in their `next` and where they start. -/
def ringbufIterOf (next : RingbufIterState α → Option (Option α × RingbufIterState α))
    (start : Ringbuf α → Nat) (r : Option (Ringbuf α)) (m : Mem) :
    Option (IterT (RingbufIterState α) α) × Mem :=
  match r with
  | none => (none, m)
  | some r =>
    match memAlloc m sizeofRingbufIterState with
    | (none, m) => (none, m)
    | (some addr, m) =>
      (some {
        next := fun _ st m => (next st).map fun (x, st) => (x, st, m)
        destroy := fun _ m => memFree m (some addr) sizeofRingbufIterState
        state := ⟨r, start r⟩
        elemSize := r.elemSize }, m)

def ringbufIter (r : Option (Ringbuf α)) (m : Mem) :
    Option (IterT (RingbufIterState α) α) × Mem :=
  ringbufIterOf ringbufIterNext (fun _ => 0) r m

def ringbufIterRev (r : Option (Ringbuf α)) (m : Mem) :
    Option (IterT (RingbufIterState α) α) × Mem :=
  ringbufIterOf ringbufIterRevNext Ringbuf.len r m

/-! ### One operation -/

def ringbufStep (op : DequeOp α) (s : Option (Ringbuf α) × Mem) :
    Option (DequeAnswer α × Option (Ringbuf α) × Mem) :=
  let (r, m) := s
  match op with
  | .pushBack elem => do
    let (st, r, m) ← ringbufPushBack r elem m
    pure (.of (.status st), r, m)
  | .pushFront elem => do
    let (st, r, m) ← ringbufPushFront r elem m
    pure (.of (.status st), r, m)
  | .popFront out => do
    let ((st, x), r) ← ringbufPopFront r out
    pure (.of (.read st x), r, m)
  | .popBack out => do
    let ((st, x), r) ← ringbufPopBack r out
    pure (.of (.read st x), r, m)
  | .get i out => do
    let (st, x) ← ringbufGet r i out
    pure (.of (.read st x), r, m)
  | .getPtr i => do
    let x ← readSlot (ringbufSlots r) (ringbufGetPtr r i)
    pure (.of (.pointee x), r, m)
  | .front out => do
    let (st, x) ← ringbufFront r out
    pure (.of (.read st x), r, m)
  | .frontPtr => do
    let x ← readSlot (ringbufSlots r) (ringbufFrontPtr r)
    pure (.of (.pointee x), r, m)
  | .back out => do
    let (st, x) ← ringbufBack r out
    pure (.of (.read st x), r, m)
  | .backPtr => do
    let x ← readSlot (ringbufSlots r) (ringbufBackPtr r)
    pure (.of (.pointee x), r, m)
  | .len => some (.size (ringbufLen r), r, m)
  | .isEmpty => some (.of (.answer (ringbufIsEmpty r)), r, m)
  | .clear => some (.of .nothing, ringbufClear r, m)
  | .iter => do
    let (it, m) := ringbufIter r m
    let (xs, m) ← iterItems (ringbufLen r + 1) it m
    pure (.items xs, r, m)
  | .iterRev => do
    let (it, m) := ringbufIterRev r m
    let (xs, m) ← iterItems (ringbufLen r + 1) it m
    pure (.items xs, r, m)

end Seqc
