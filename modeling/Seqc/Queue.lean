import Seqc.Deque

/-! queue.c: a queue in a ring of slots, its indices taken modulo the capacity. -/

namespace Seqc

/-- `queue_t`. -/
structure Queue (α : Type) where
  addr : Nat
  buf : Option Nat
  slots : Nat → Option α
  cap : Nat
  len : Nat
  head : Nat
  elemSize : Nat

variable {α : Type}

/-- `INITIAL_CAP` of queue.c. -/
def queueInitialCap : Nat := 16
def sizeofQueue : Nat := 56
def sizeofQueueIterState : Nat := 40

def queueCreate (α : Type) (elemSize : Nat) (m : Mem) : Option (Queue α) × Mem :=
  match memAlloc m sizeofQueue with
  | (none, m) => (none, m)
  | (some addr, m) => (some ⟨addr, none, fun _ => none, 0, 0, 0, elemSize⟩, m)

/-- One turn of the copying loop of `queue_grow`. -/
def queueCopySlot (q : Queue α) (newBuf : Nat → Option α) (i : Nat) : Nat → Option α :=
  Function.update newBuf i (q.slots (addSize q.head i % if q.cap = 0 then 1 else q.cap))

def queueGrow (q : Queue α) (m : Mem) : Status × Queue α × Mem :=
  if sizeMax / 2 < q.cap then (.oom, q, m)
  else
    let newCap := if q.cap = 0 then queueInitialCap else mulSize q.cap 2
    match memAlloc m (mulSize newCap q.elemSize) with
    | (none, m) => (.oom, q, m)
    | (some newBuf, m) =>
      let slots := (List.range q.len).foldl (queueCopySlot q) fun _ => none
      let m := match q.buf with
        | none => m
        | some buf => memFree m (some buf) (mulSize q.cap q.elemSize)
      (.ok, { q with buf := some newBuf, slots := slots, cap := newCap, head := 0 }, m)

/-- The part of `queue_push` that makes room for one more element. -/
def queueRoom (q : Queue α) (m : Mem) : Status × Queue α × Mem :=
  if q.len = q.cap then queueGrow q m else (.ok, q, m)

/-- A write outside the buffer gets stuck. -/
def queueWrite (q : Queue α) (slot : Nat) (x : α) : Option (Queue α) :=
  if slot < q.cap then some { q with slots := Function.update q.slots slot (some x) } else none

def queuePush (q : Option (Queue α)) (elem : Option α) (m : Mem) :
    Option (Status × Option (Queue α) × Mem) :=
  match q, elem with
  | some q, some x =>
    match queueRoom q m with
    | (.ok, q, m) => do
      let tail ← modSize (addSize q.head q.len) q.cap
      let q ← queueWrite q tail x
      pure (.ok, some { q with len := addSize q.len 1 }, m)
    | (st, q, m) => some (st, some q, m)
  | q, _ => some (.invalid, q, m)

def queuePop (q : Option (Queue α)) (out : Bool) :
    Option ((Status × Option α) × Option (Queue α)) :=
  match q with
  | none => some ((.notFound, none), none)
  | some q =>
    if q.len = 0 then some ((.notFound, none), some q)
    else do
      let read ← copyOutSlot q.slots (some q.head) out
      let head ← modSize (addSize q.head 1) q.cap
      pure (read, some { q with head := head, len := q.len - 1 })

def queueSlots : Option (Queue α) → Nat → Option α
  | none => fun _ => none
  | some q => q.slots

/-- The slot the pointer points at. -/
def queueFrontPtr (q : Option (Queue α)) : Option (Option Nat) :=
  match q with
  | none => some none
  | some q => if q.len = 0 then some none else some (some q.head)

def queueBackPtr (q : Option (Queue α)) : Option (Option Nat) :=
  match q with
  | none => some none
  | some q =>
    if q.len = 0 then some none
    else do
      let tail ← modSize (subSize (addSize q.head q.len) 1) q.cap
      pure (some tail)

/-- `queue_front` and `queue_back`, with their pointer versions. -/
def queueCopy (ptr : Option (Queue α) → Option (Option Nat)) (q : Option (Queue α))
    (out : Bool) : Option (Status × Option α) :=
  match q with
  | none => some (.invalid, none)
  | some q => do
    let elem ← ptr (some q)
    copyOutSlot q.slots elem out

def queueFront (q : Option (Queue α)) (out : Bool) : Option (Status × Option α) :=
  queueCopy queueFrontPtr q out

def queueBack (q : Option (Queue α)) (out : Bool) : Option (Status × Option α) :=
  queueCopy queueBackPtr q out

def queueIsEmpty : Option (Queue α) → Bool
  | none => true
  | some q => decide (q.len = 0)

def queueLen : Option (Queue α) → Nat
  | none => 0
  | some q => q.len

def queueClear (q : Option (Queue α)) : Option (Queue α) :=
  q.map fun q => { q with len := 0, head := 0 }

def queueDestroy (q : Option (Queue α)) (m : Mem) : Mem :=
  match q with
  | none => m
  | some q =>
    let m := match q.buf with
      | none => m
      | some buf => memFree m (some buf) (mulSize q.cap q.elemSize)
    memFree m (some q.addr) sizeofQueue

/-! ### Iteration -/

/-- `queue_iter_state_t` and `queue_iter_rev_state_t`; `pos` is their `head` or `tail`. -/
structure QueueIterState (α : Type) where
  slots : Nat → Option α
  pos : Nat
  cap : Nat
  remaining : Nat

def queueIterNext (s : QueueIterState α) : Option (Option α × QueueIterState α) :=
  if s.remaining = 0 ∨ s.cap = 0 then some (none, s)
  else do
    let x ← s.slots s.pos
    let head ← modSize (addSize s.pos 1) s.cap
    pure (some x, { s with pos := head, remaining := s.remaining - 1 })

def queueIterRevNext (s : QueueIterState α) : Option (Option α × QueueIterState α) :=
  if s.remaining = 0 ∨ s.cap = 0 then some (none, s)
  else do
    let x ← s.slots s.pos
    let tail ← modSize (subSize (addSize s.pos s.cap) 1) s.cap
    pure (some x, { s with pos := tail, remaining := s.remaining - 1 })

/-- `queue_iter` and `queue_iter_rev` differ in their `next` and where they start. -/
def queueIterOf (next : QueueIterState α → Option (Option α × QueueIterState α))
    (start : Queue α → Option Nat) (q : Option (Queue α)) (m : Mem) :
    Option (Option (IterT (QueueIterState α) α) × Mem) :=
  match q with
  | none => some (none, m)
  | some q =>
    match memAlloc m sizeofQueueIterState with
    | (none, m) => some (none, m)
    | (some addr, m) => do
      let pos ← start q
      pure (some {
        next := fun _ s m => (next s).map fun (x, s) => (x, s, m)
        destroy := fun _ m => memFree m (some addr) sizeofQueueIterState
        state := ⟨q.slots, pos, q.cap, q.len⟩
        elemSize := q.elemSize }, m)

def queueIter (q : Option (Queue α)) (m : Mem) :
    Option (Option (IterT (QueueIterState α) α) × Mem) :=
  queueIterOf queueIterNext (fun q => some q.head) q m

def queueIterRev (q : Option (Queue α)) (m : Mem) :
    Option (Option (IterT (QueueIterState α) α) × Mem) :=
  queueIterOf queueIterRevNext
    (fun q => if 0 < q.len then modSize (subSize (addSize q.head q.len) 1) q.cap else some 0) q m

/-! ### One operation -/

inductive QueueOp (α : Type) where
  | push (elem : Option α)
  | pop (out : Bool)
  | front (out : Bool)
  | frontPtr
  | back (out : Bool)
  | backPtr
  | len
  | isEmpty
  | clear
  | iter
  | iterRev

/-- The same operation on a double-ended list. -/
def QueueOp.onDeque : QueueOp α → DequeOp α
  | .push elem => .pushBack elem
  | .pop out => .popFront out
  | .front out => .front out
  | .frontPtr => .frontPtr
  | .back out => .back out
  | .backPtr => .backPtr
  | .len => .len
  | .isEmpty => .isEmpty
  | .clear => .clear
  | .iter => .iter
  | .iterRev => .iterRev

def queueStep (op : QueueOp α) (s : Option (Queue α) × Mem) :
    Option (DequeAnswer α × Option (Queue α) × Mem) :=
  let (q, m) := s
  match op with
  | .push elem => do
    let (st, q, m) ← queuePush q elem m
    pure (.of (.status st), q, m)
  | .pop out => do
    let ((st, x), q) ← queuePop q out
    pure (.of (.read st x), q, m)
  | .front out => do
    let (st, x) ← queueFront q out
    pure (.of (.read st x), q, m)
  | .frontPtr => do
    let ptr ← queueFrontPtr q
    let x ← readSlot (queueSlots q) ptr
    pure (.of (.pointee x), q, m)
  | .back out => do
    let (st, x) ← queueBack q out
    pure (.of (.read st x), q, m)
  | .backPtr => do
    let ptr ← queueBackPtr q
    let x ← readSlot (queueSlots q) ptr
    pure (.of (.pointee x), q, m)
  | .len => some (.size (queueLen q), q, m)
  | .isEmpty => some (.of (.answer (queueIsEmpty q)), q, m)
  | .clear => some (.of .nothing, queueClear q, m)
  | .iter => do
    let (it, m) ← queueIter q m
    let (xs, m) ← iterItems (queueLen q + 1) it m
    pure (.items xs, q, m)
  | .iterRev => do
    let (it, m) ← queueIterRev q m
    let (xs, m) ← iterItems (queueLen q + 1) it m
    pure (.items xs, q, m)

end Seqc
