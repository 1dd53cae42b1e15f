import Seqc.Custody
import Seqc.SetRun
import Seqc.Queue
import Seqc.Ringbuf

/-! The iterators that go over a container with a state block only: list.c, dlist.c,
hashmap.c, set.c, queue.c and ringbuf.c. None of their calls requests anything. -/

namespace Seqc

variable {σ β α κ ν : Type} {next : σ → Option (Option β × σ)} {size elemSize : Nat}

/-- A call of an iterator that requests nothing. -/
def cursorNext (next : σ → Option (Option β × σ)) (s : σ) (m : Mem) :
    Option (Option β × σ × Mem) :=
  (next s).map fun (x, s) => (x, s, m)

theorem cursorNext_mem {s s' : σ} {x : Option β} {m m' : Mem}
    (call : cursorNext next s m = some (x, s', m')) : m = m' := by
  obtain ⟨_, -, same⟩ := Option.map_eq_some_iff.mp call
  exact congrArg (fun r => r.2.2) same

/-- The iterator with its state block at `addr`. -/
def cursorIterT (next : σ → Option (Option β × σ)) (size elemSize addr : Nat) (start : σ) :
    OwnedIterT σ β where
  next _ := cursorNext next
  destroy _ m := memFree m (some addr) size
  state := start
  elemSize := elemSize
  owned _ := {(addr, size)}
  custody := {
    next := fun call => cursorNext_mem call ▸ .refl _ _
    destroy := fun _ m => memFree_trades m addr size }
  mono _ _ _ _ call := call
  quiet _ m := memFree_refusals m _ size

/-- Requests the state block; `start` is `none` for a NULL container. -/
def cursorIter (next : σ → Option (Option β × σ)) (size elemSize : Nat) (start : Option σ)
    (m : Mem) : Option (OwnedIterT σ β) × Mem :=
  match start with
  | none => (none, m)
  | some start =>
    match memAlloc m size with
    | (none, m) => (none, m)
    | (some addr, m) => (some (cursorIterT next size elemSize addr start), m)

theorem cursorIter_trades (start : Option σ) (m : Mem) :
    m.Trades 0 (cursorIter next size elemSize start m).2
      ((cursorIter next size elemSize start m).1.elim 0 OwnedIterT.blocks) := by
  cases start with
  | none => exact .refl m 0
  | some start =>
    rcases hm : memAlloc m size with ⟨_ | addr, m₁⟩
    · simp only [cursorIter, hm]
      exact memAlloc_refused hm
    · simp only [cursorIter, hm]
      exact memAlloc_trades hm

theorem cursorIter_refusals (start : Option σ) (m : Mem)
    (made : (cursorIter next size elemSize start m).1.isSome = true) :
    (cursorIter next size elemSize start m).2.refusals = m.refusals := by
  cases start with
  | none => rfl
  | some start =>
    rcases hm : memAlloc m size with ⟨_ | addr, m₁⟩
    · simp [cursorIter, hm] at made
    · simpa [cursorIter, hm] using (memAlloc_some hm).2.2

/-! ### Lists -/

/-- `list_t` and `dlist_t`, as far as their iterators see them. -/
structure Linked (α : Type) where
  contents : List α
  elemSize : Nat

def sizeofListIterState : Nat := 16

/-- `s->current` is the list from its node on, in the direction of the iterator. -/
def listIterNext (current : List α) : Option (Option α × List α) :=
  some (current.head?, current.tail)

def listIter (l : Option (Linked α)) (m : Mem) : Option (OwnedIterT (List α) α) × Mem :=
  cursorIter listIterNext sizeofListIterState (l.elim 0 Linked.elemSize) (l.map Linked.contents) m

def dlistIter (l : Option (Linked α)) (m : Mem) : Option (OwnedIterT (List α) α) × Mem :=
  cursorIter listIterNext sizeofListIterState (l.elim 0 Linked.elemSize) (l.map Linked.contents) m

def dlistIterRev (l : Option (Linked α)) (m : Mem) : Option (OwnedIterT (List α) α) × Mem :=
  cursorIter listIterNext sizeofListIterState (l.elim 0 Linked.elemSize)
    (l.map fun l => l.contents.reverse) m

/-! ### Tables -/

/-- `hashmap_iter_state_t`. -/
structure HashmapIterState (κ ν : Type) where
  map : Hashmap κ ν
  slot : Nat

def sizeofHashmapIterState : Nat := 16
def sizeofHashmapEntry : Nat := 16

/-- The entries point into the buckets. -/
def hashmapIterCall (next : Hashmap κ ν → Nat → Option (Entry κ ν) × Nat)
    (st : HashmapIterState κ ν) : Option (Option (κ × ν) × HashmapIterState κ ν) :=
  some ((next st.map st.slot).1.map fun e => (e.key.val, e.value.val),
    { st with slot := (next st.map st.slot).2 })

def hashmapIter (map : Option (Hashmap κ ν)) (m : Mem) :
    Option (OwnedIterT (HashmapIterState κ ν) (κ × ν)) × Mem :=
  cursorIter (hashmapIterCall hashmapIterNext) sizeofHashmapIterState sizeofHashmapEntry
    (map.map fun map => ⟨map, 0⟩) m

def hashmapIterRev (map : Option (Hashmap κ ν)) (m : Mem) :
    Option (OwnedIterT (HashmapIterState κ ν) (κ × ν)) × Mem :=
  cursorIter (hashmapIterCall hashmapIterRevNext) sizeofHashmapIterState sizeofHashmapEntry
    (map.map fun map => ⟨map, map.cap⟩) m

/-- The iterators of set.c are cursors. -/
theorem setIterOf_cursor (next : SetIterState κ → Option κ × SetIterState κ)
    (start : SetT κ → Nat) (s : SetT κ) (m : Mem) :
    setIterOf next start s m =
      ((cursorIter (fun st => some (next st)) sizeofSetIterState s.elemSize
        (some ⟨s.buckets, s.cap, start s⟩) m).1.map OwnedIterT.toIterT,
      (cursorIter (fun st => some (next st)) sizeofSetIterState s.elemSize
        (some ⟨s.buckets, s.cap, start s⟩) m).2) := by
  rcases hm : memAlloc m sizeofSetIterState with ⟨_ | addr, m₁⟩
  · simp [setIterOf, cursorIter, hm]
  · simp [setIterOf, cursorIter, hm, cursorIterT, funext_iff, cursorNext]

/-! ### Rings -/

/-- The iterators of ringbuf.c are cursors. -/
theorem ringbufIterOf_cursor (next : RingbufIterState α → Option (Option α × RingbufIterState α))
    (start : Ringbuf α → Nat) (r : Option (Ringbuf α)) (m : Mem) :
    ringbufIterOf next start r m =
      ((cursorIter next sizeofRingbufIterState (r.elim 0 Ringbuf.elemSize)
        (r.map fun r => ⟨r, start r⟩) m).1.map OwnedIterT.toIterT,
      (cursorIter next sizeofRingbufIterState (r.elim 0 Ringbuf.elemSize)
        (r.map fun r => ⟨r, start r⟩) m).2) := by
  cases r with
  | none => rfl
  | some r =>
    rcases hm : memAlloc m sizeofRingbufIterState with ⟨_ | addr, m₁⟩
    · simp [ringbufIterOf, cursorIter, hm]
    · simp [ringbufIterOf, cursorIter, hm, cursorIterT, funext_iff, cursorNext]

/-- The iterators of queue.c are cursors, where they start at a defined position. -/
theorem queueIterOf_cursor (next : QueueIterState α → Option (Option α × QueueIterState α))
    (start : Queue α → Option Nat) (q : Queue α) {pos : Nat} (there : start q = some pos)
    (m : Mem) :
    queueIterOf next start (some q) m =
      some ((cursorIter next sizeofQueueIterState q.elemSize
        (some ⟨q.slots, pos, q.cap, q.len⟩) m).1.map OwnedIterT.toIterT,
      (cursorIter next sizeofQueueIterState q.elemSize
        (some ⟨q.slots, pos, q.cap, q.len⟩) m).2) := by
  rcases hm : memAlloc m sizeofQueueIterState with ⟨_ | addr, m₁⟩
  · simp [queueIterOf, cursorIter, hm]
  · simp [queueIterOf, cursorIter, hm, cursorIterT, there, funext_iff, cursorNext]

end Seqc
