import Seqc.Vec
import Seqc.Lib.Heap

/-! pqueue.c: a priority queue over a vector that is a binary heap. `pqueue_create`
does not look at what `vec_create` returns, so `data` may be NULL; `vec_t` functions
accept that. Positions do not wrap: a vector of 2^63 elements does not exist. `none`
as the outcome of a call means that it does not return, or that it hands `cmp` or
`memcpy` a NULL pointer. -/

namespace Seqc
open Heap

/-- `pqueue_t`. -/
structure Pqueue (α : Type) where
  addr : Nat
  data : Option (Vec α)

variable {α : Type}

def sizeofPqueue : Nat := 32

def Pqueue.contents (q : Pqueue α) : List α := vecContents q.data

/-- The queue after its elements were changed in place. -/
def Pqueue.store (q : Pqueue α) (xs : List α) : Pqueue α :=
  { q with data := q.data.map fun v => { v with contents := xs } }

def pqueueCreate (α : Type) (elemSize : Nat) (m : Mem) : Option (Pqueue α) × Mem :=
  match memAlloc m sizeofPqueue with
  | (none, m) => (none, m)
  | (some addr, m) =>
    let (data, m) := vecCreate α elemSize m
    (some ⟨addr, data⟩, m)

/-- `swap_elems` on the elements at `i` and `j`. -/
def swapElems (xs : List α) (i j : Nat) : Option (List α) := do
  pure (exchange xs i j (← xs[i]?) (← xs[j]?))

def siftUp (cmp : α → α → Int) : (fuel : Nat) → List α → (i : Nat) → Option (List α)
  | 0, _, _ => none
  | fuel + 1, xs, i =>
    if i = 0 then some xs
    else do
      if cmp (← xs[i]?) (← xs[(i - 1) / 2]?) < 0 then
        siftUp cmp fuel (← swapElems xs i ((i - 1) / 2)) ((i - 1) / 2)
      else pure xs

/-- One of the two tests of `sift_down`. -/
def smallerOf (cmp : α → α → Int) (xs : List α) (child smallest : Nat) : Option Nat :=
  if child < xs.length then do
    pure (if cmp (← xs[child]?) (← xs[smallest]?) < 0 then child else smallest)
  else some smallest

def siftDown (cmp : α → α → Int) : (fuel : Nat) → List α → (i : Nat) → Option (List α)
  | 0, _, _ => none
  | fuel + 1, xs, i => do
    let smallest ← smallerOf cmp xs (2 * i + 1) i
    let smallest ← smallerOf cmp xs (2 * i + 2) smallest
    if smallest = i then pure xs
    else siftDown cmp fuel (← swapElems xs i smallest) smallest

/-- The loop of `pqueue_create_from_vec` that sifts down `i - 1, .., 0`. -/
def heapify (cmp : α → α → Int) : (i : Nat) → List α → Option (List α)
  | 0, xs => some xs
  | i + 1, xs => do heapify cmp i (← siftDown cmp (xs.length + 1) xs i)

/-- The loop that copies a vector; a push that fails is not noticed. -/
def pushAll (data : Option (Vec α)) (m : Mem) : List α → Option (Vec α) × Mem
  | [] => (data, m)
  | x :: xs =>
    let (_, data, m) := vecPush data (some x) m
    pushAll data m xs

def pqueueCreateFromVec (cmp : α → α → Int) (v : Option (Vec α)) (m : Mem) :
    Option (Option (Pqueue α) × Mem) :=
  let s := vecAsSlice v
  match pqueueCreate α s.elemSize m with
  | (none, m) => some (none, m)
  | (some q, m) => do
    let (data, m) := pushAll q.data m s.contents
    let q : Pqueue α := { q with data := data }
    let xs ← if 1 < s.contents.length then heapify cmp (s.contents.length / 2) q.contents
      else pure q.contents
    pure (some (q.store xs), m)

def pqueuePush (cmp : α → α → Int) (q : Pqueue α) (elem : Option α) (m : Mem) :
    Option (Status × Pqueue α × Mem) :=
  match elem with
  | none => some (.invalid, q, m)
  | some x =>
    match vecPush q.data (some x) m with
    | (.ok, data, m) => do
      let q : Pqueue α := { q with data := data }
      let xs ← siftUp cmp q.contents.length q.contents (q.contents.length - 1)
      pure (.ok, q.store xs, m)
    | (st, data, m) => some (st, { q with data := data }, m)

/-- The status and the element the pop writes through a non-NULL `out`. -/
def pqueuePop (cmp : α → α → Int) (q : Pqueue α) (out : Bool) :
    Option (Status × Option α × Pqueue α) :=
  if q.contents.length = 0 then some (.notFound, none, q)
  else do
    let first ← q.contents[0]?
    let last := q.contents.length - 1
    let xs ← if 0 < last then do pure (q.contents.set 0 (← q.contents[last]?))
      else pure q.contents
    let xs := xs.dropLast
    let xs ← if 0 < xs.length then siftDown cmp (xs.length + 1) xs 0 else pure xs
    pure (.ok, if out then some first else none, q.store xs)

def pqueuePeekPtr (q : Pqueue α) : Option α := vecGetPtr q.data 0
def pqueuePeek (q : Pqueue α) (out : Bool) : Status × Option α :=
  seqcCopyOut (pqueuePeekPtr q) out
def pqueueLen (q : Pqueue α) : Nat := vecLen q.data
def pqueueClear (q : Pqueue α) : Pqueue α := { q with data := vecClear q.data }

/-- The loop of `pqueue_drain`: `n` pops into consecutive places. -/
def drainPops (cmp : α → α → Int) : (n : Nat) → Pqueue α → Option (List α × Pqueue α)
  | 0, q => some ([], q)
  | n + 1, q => do
    let (_, x, q) ← pqueuePop cmp q true
    let (xs, q) ← drainPops cmp n q
    pure (x.toList ++ xs, q)

def pqueueDrain (cmp : α → α → Int) (q : Pqueue α) (m : Mem) :
    Option (Slice α × Pqueue α × Mem) :=
  let n := pqueueLen q
  let elemSize := vecElemSize q.data
  if n = 0 then some (⟨none, [], elemSize⟩, q, m)
  else
    match memAlloc m (mulSize n elemSize) with
    | (none, m) => some (⟨none, [], elemSize⟩, pqueueClear q, m)
    | (some addr, m) => do
      let (xs, q) ← drainPops cmp n q
      pure (⟨some addr, xs, elemSize⟩, q, m)

end Seqc
