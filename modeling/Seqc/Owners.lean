import Seqc.TableBlocks
import Seqc.TreeBlocks
import Seqc.QueueRun
import Seqc.RingbufRun
import Seqc.List
import Seqc.Dlist

/-! Block ownership in the runs of the node and bucket collections: the rings of queue.c and
ringbuf.c and the lists of list.c and dlist.c, and with them all nine. -/

namespace Seqc
open Chain Iteration Runs

variable {σ α κ ν : Type}

/-! ### Rings -/

section Rings
variable {m m' : Mem} {st : Status}

/-- Reading all of an iterator that has only its state block. -/
theorem iterItems_trades {next : σ → Option (Option α × σ)} {addr size elemSize fuel : Nat}
    {state : σ} {xs : Option (List α)}
    (h : iterItems fuel (some {
      next := fun _ s m => (next s).map fun (x, s) => (x, s, m)
      destroy := fun _ m => memFree m (some addr) size
      state := state
      elemSize := elemSize }) m = some (xs, m')) : m.Trades {(addr, size)} m' 0 := by
  simp only [iterItems] at h
  split at h
  · simp at h
  rename_i ran
  obtain ⟨-, rfl⟩ := Prod.mk.inj (Option.some.inj h)
  have same := whileNext_keeps (J := fun _ _ m₁ => m₁ = m)
    (fun fuel s xs m₁ x s' m₂ same call => by
      obtain ⟨r, -, here⟩ := Option.map_eq_some_iff.mp call
      have kept : m₁ = m₂ := congrArg (fun r => r.2.2) here
      cases x <;> exact kept.symm.trans same) _ rfl ran
  rw [same]
  exact memFree_trades m addr size

/-- The struct, and the buffer if there is one. -/
def queueBlocks : Option (Queue α) → Blocks
  | none => 0
  | some q => {(q.addr, sizeofQueue)} + bufferBlocks q.buf (mulSize q.cap q.elemSize)

def ringbufBlocks : Option (Ringbuf α) → Blocks
  | none => 0
  | some r => {(r.addr, sizeofRingbuf)} + bufferBlocks r.data (mulSize r.cap r.elemSize)

/-- `if (buffer) mem_free(..)`. -/
theorem freeBuffer_trades (m : Mem) (buffer : Option Nat) (size : Nat) :
    m.Trades (bufferBlocks buffer size)
      (match buffer with
        | none => m
        | some addr => memFree m (some addr) size) 0 := by
  cases buffer with
  | none => exact .refl m 0
  | some addr => exact memFree_trades m addr size

/-- A new buffer takes the place of the old one, behind a struct. -/
theorem regrown_trades {m₁ : Mem} {newBuf newSize : Nat} (addr sizeof : Nat)
    (granted : memAlloc m newSize = (some newBuf, m₁)) (old : Option Nat) (oldSize : Nat) :
    m.Trades ({(addr, sizeof)} + bufferBlocks old oldSize)
      (match old with
        | none => m₁
        | some addr => memFree m₁ (some addr) oldSize)
      ({(addr, sizeof)} + bufferBlocks (some newBuf) newSize) := by
  refine ((memAlloc_trades granted).within ({(addr, sizeof)} + bufferBlocks old oldSize)
    (zero_add _).symm rfl).trans ?_
  refine (freeBuffer_trades m₁ old oldSize).within ({(newBuf, newSize)} + {(addr, sizeof)}) ?_ ?_
  · abel
  · simp only [bufferBlocks, Option.elim_some]
    abel

theorem queueRoom_trades {q q' : Queue α} (h : queueRoom q m = (st, q', m')) :
    m.Trades (queueBlocks (some q)) m' (queueBlocks (some q')) := by
  unfold queueRoom queueGrow at h
  split at h
  · split at h
    · obtain ⟨-, rfl, rfl⟩ : .oom = st ∧ q = q' ∧ m = m' := by simpa using h
      exact .refl m _
    simp only at h
    split at h
    · rename_i hm
      obtain ⟨-, rfl, rfl⟩ : .oom = st ∧ q = q' ∧ _ = m' := by simpa using h
      exact (memAlloc_refused hm).within _ (zero_add _).symm (zero_add _).symm
    · rename_i newBuf m₁ hm
      obtain ⟨-, rfl, rfl⟩ : .ok = st ∧ _ = q' ∧ _ = m' := by simpa [Prod.ext_iff] using h
      exact regrown_trades q.addr sizeofQueue hm q.buf _
  · obtain ⟨-, rfl, rfl⟩ : .ok = st ∧ q = q' ∧ m = m' := by simpa using h
    exact .refl m _

theorem rbRoom_trades {r r' : Ringbuf α} (h : rbRoom r m = (st, r', m')) :
    m.Trades (ringbufBlocks (some r)) m' (ringbufBlocks (some r')) := by
  unfold rbRoom rbGrow at h
  split at h
  · split at h
    · obtain ⟨-, rfl, rfl⟩ : .oom = st ∧ r = r' ∧ m = m' := by simpa using h
      exact .refl m _
    simp only at h
    split at h
    · rename_i hm
      obtain ⟨-, rfl, rfl⟩ : .oom = st ∧ r = r' ∧ _ = m' := by simpa using h
      exact (memAlloc_refused hm).within _ (zero_add _).symm (zero_add _).symm
    · rename_i newBuf m₁ hm
      obtain ⟨-, rfl, rfl⟩ : .ok = st ∧ _ = r' ∧ _ = m' := by simpa [Prod.ext_iff] using h
      exact regrown_trades r.addr sizeofRingbuf hm r.data _
  · obtain ⟨-, rfl, rfl⟩ : .ok = st ∧ r = r' ∧ m = m' := by simpa using h
    exact .refl m _

theorem queueDestroy_trades (q : Option (Queue α)) (m : Mem) :
    m.Trades (queueBlocks q) (queueDestroy q m) 0 := by
  cases q with
  | none => exact .refl m 0
  | some q =>
    refine ((freeBuffer_trades m q.buf _).within {(q.addr, sizeofQueue)} (add_comm _ _)
      (zero_add _).symm).trans ?_
    exact memFree_trades _ q.addr sizeofQueue

theorem ringbufDestroy_trades (r : Option (Ringbuf α)) (m : Mem) :
    m.Trades (ringbufBlocks r) (ringbufDestroy r m) 0 := by
  cases r with
  | none => exact .refl m 0
  | some r =>
    refine ((freeBuffer_trades m r.data _).within {(r.addr, sizeofRingbuf)} (add_comm _ _)
      (zero_add _).symm).trans ?_
    exact memFree_trades _ r.addr sizeofRingbuf

theorem queuePush_trades {q q' : Option (Queue α)} {elem : Option α}
    (h : queuePush q elem m = some (st, q', m')) : m.Trades (queueBlocks q) m' (queueBlocks q') := by
  unfold queuePush at h
  split at h
  · split at h
    · rename_i q₁ m₁ room
      obtain ⟨tail, -, h⟩ := Option.bind_eq_some_iff.mp h
      obtain ⟨q₂, written, h⟩ := Option.bind_eq_some_iff.mp h
      obtain ⟨-, rfl, rfl⟩ : .ok = st ∧ _ = q' ∧ m₁ = m' := by simpa using h
      unfold queueWrite at written
      split at written
      · obtain rfl := Option.some.inj written
        have grown := queueRoom_trades room
        exact grown
      · simp at written
    · rename_i st₁ q₁ m₁ _ room
      obtain ⟨-, rfl, rfl⟩ : st₁ = st ∧ some q₁ = q' ∧ m₁ = m' := by simpa using h
      exact queueRoom_trades room
  · obtain ⟨-, rfl, rfl⟩ : .invalid = st ∧ q = q' ∧ m = m' := by simpa using h
    exact .refl m _

theorem queuePop_blocks {q q' : Option (Queue α)} {out : Bool} {r : Status × Option α}
    (h : queuePop q out = some (r, q')) : queueBlocks q' = queueBlocks q := by
  unfold queuePop at h
  split at h
  · obtain ⟨-, rfl⟩ := Prod.mk.inj (Option.some.inj h)
    rfl
  split at h
  · obtain ⟨-, rfl⟩ := Prod.mk.inj (Option.some.inj h)
    rfl
  · obtain ⟨read, -, h⟩ := Option.bind_eq_some_iff.mp h
    obtain ⟨head, -, h⟩ := Option.bind_eq_some_iff.mp h
    obtain ⟨-, rfl⟩ := Prod.mk.inj (Option.some.inj h)
    rfl

/-- An iterator over the queue is made, read and destroyed. -/
theorem queueIterOf_trades {next : QueueIterState α → Option (Option α × QueueIterState α)}
    {start : Queue α → Option Nat} {q : Option (Queue α)} {m₁ : Mem} {fuel : Nat}
    {it : Option (IterT (QueueIterState α) α)} {xs : Option (List α)}
    (made : queueIterOf next start q m = some (it, m₁))
    (read : iterItems fuel it m₁ = some (xs, m')) : m.Trades 0 m' 0 := by
  unfold queueIterOf at made
  split at made
  · obtain ⟨rfl, rfl⟩ := Prod.mk.inj (Option.some.inj made)
    obtain ⟨-, rfl⟩ := Prod.mk.inj (Option.some.inj read)
    exact .refl m 0
  split at made
  · rename_i hm
    obtain ⟨rfl, rfl⟩ := Prod.mk.inj (Option.some.inj made)
    obtain ⟨-, rfl⟩ := Prod.mk.inj (Option.some.inj read)
    exact memAlloc_refused hm
  · rename_i addr m₂ hm
    obtain ⟨pos, -, made⟩ := Option.bind_eq_some_iff.mp made
    obtain ⟨rfl, rfl⟩ := Prod.mk.inj (Option.some.inj made)
    exact (memAlloc_trades hm).trans (iterItems_trades read)

theorem ringbufIterOf_trades {next : RingbufIterState α → Option (Option α × RingbufIterState α)}
    {start : Ringbuf α → Nat} {r : Option (Ringbuf α)} {fuel : Nat} {xs : Option (List α)}
    (read : iterItems fuel (ringbufIterOf next start r m).1 (ringbufIterOf next start r m).2 =
      some (xs, m')) : m.Trades 0 m' 0 := by
  unfold ringbufIterOf at read
  split at read
  · obtain ⟨-, rfl⟩ := Prod.mk.inj (Option.some.inj read)
    exact .refl m 0
  split at read
  · rename_i hm
    obtain ⟨-, rfl⟩ := Prod.mk.inj (Option.some.inj read)
    exact memAlloc_refused hm
  · rename_i addr m₁ hm
    exact (memAlloc_trades hm).trans (iterItems_trades read)

theorem queueStep_trades {q q' : Option (Queue α)} {op : QueueOp α} {out : DequeAnswer α}
    (h : queueStep op (q, m) = some (out, (q', m'))) :
    m.Trades (queueBlocks q) m' (queueBlocks q') := by
  cases op with
  | push elem =>
    obtain ⟨⟨st, q₁, m₁⟩, call, h⟩ := Option.bind_eq_some_iff.mp h
    obtain ⟨-, rfl, rfl⟩ : _ = out ∧ q₁ = q' ∧ m₁ = m' := by simpa using h
    exact queuePush_trades call
  | pop _ =>
    obtain ⟨⟨r, q₁⟩, call, h⟩ := Option.bind_eq_some_iff.mp h
    obtain ⟨-, rfl, rfl⟩ : _ = out ∧ q₁ = q' ∧ m = m' := by simpa using h
    rw [queuePop_blocks call]
    exact .refl m _
  | front _ | back _ =>
    obtain ⟨r, -, h⟩ := Option.bind_eq_some_iff.mp h
    obtain ⟨-, rfl, rfl⟩ : _ = out ∧ q = q' ∧ m = m' := by simpa using h
    exact .refl m _
  | frontPtr | backPtr =>
    obtain ⟨ptr, -, h⟩ := Option.bind_eq_some_iff.mp h
    obtain ⟨x, -, h⟩ := Option.bind_eq_some_iff.mp h
    obtain ⟨-, rfl, rfl⟩ : _ = out ∧ q = q' ∧ m = m' := by simpa using h
    exact .refl m _
  | len | isEmpty =>
    obtain ⟨-, rfl, rfl⟩ : _ = out ∧ q = q' ∧ m = m' := by simpa [queueStep] using h
    exact .refl m _
  | clear =>
    obtain ⟨-, rfl, rfl⟩ : _ = out ∧ queueClear q = q' ∧ m = m' := by simpa [queueStep] using h
    cases q <;> exact .refl m _
  | iter | iterRev =>
    obtain ⟨⟨it, m₁⟩, made, h⟩ := Option.bind_eq_some_iff.mp h
    obtain ⟨⟨xs, m₂⟩, read, h⟩ := Option.bind_eq_some_iff.mp h
    obtain ⟨-, rfl, rfl⟩ : _ = out ∧ q = q' ∧ m₂ = m' := by simpa using h
    exact (queueIterOf_trades made read).within _ (zero_add _).symm (zero_add _).symm

theorem rbWrite_blocks {r r' : Ringbuf α} {slot : Nat} {x : α} (h : rbWrite r slot x = some r') :
    ringbufBlocks (some r') = ringbufBlocks (some r) := by
  unfold rbWrite at h
  split at h
  · obtain rfl := Option.some.inj h
    rfl
  · simp at h

theorem ringbufPushBack_trades {r r' : Option (Ringbuf α)} {elem : Option α}
    (h : ringbufPushBack r elem m = some (st, r', m')) :
    m.Trades (ringbufBlocks r) m' (ringbufBlocks r') := by
  unfold ringbufPushBack at h
  split at h
  · split at h
    · rename_i r₁ m₁ room
      obtain ⟨r₂, written, h⟩ := Option.bind_eq_some_iff.mp h
      obtain ⟨-, rfl, rfl⟩ : .ok = st ∧ _ = r' ∧ m₁ = m' := by simpa using h
      have grown := rbRoom_trades room
      rw [← rbWrite_blocks written] at grown
      exact grown
    · rename_i st₁ r₁ m₁ _ room
      obtain ⟨-, rfl, rfl⟩ : st₁ = st ∧ some r₁ = r' ∧ m₁ = m' := by simpa using h
      exact rbRoom_trades room
  · obtain ⟨-, rfl, rfl⟩ : .invalid = st ∧ r = r' ∧ m = m' := by simpa using h
    exact .refl m _

theorem ringbufPushFront_trades {r r' : Option (Ringbuf α)} {elem : Option α}
    (h : ringbufPushFront r elem m = some (st, r', m')) :
    m.Trades (ringbufBlocks r) m' (ringbufBlocks r') := by
  unfold ringbufPushFront at h
  split at h
  · split at h
    · rename_i r₁ m₁ room
      obtain ⟨r₂, written, h⟩ := Option.bind_eq_some_iff.mp h
      obtain ⟨-, rfl, rfl⟩ : .ok = st ∧ _ = r' ∧ m₁ = m' := by simpa using h
      have grown := rbRoom_trades room
      have same := rbWrite_blocks written
      simp only [ringbufBlocks] at grown same ⊢
      rw [same]
      exact grown
    · rename_i st₁ r₁ m₁ _ room
      obtain ⟨-, rfl, rfl⟩ : st₁ = st ∧ some r₁ = r' ∧ m₁ = m' := by simpa using h
      exact rbRoom_trades room
  · obtain ⟨-, rfl, rfl⟩ : .invalid = st ∧ r = r' ∧ m = m' := by simpa using h
    exact .refl m _

theorem ringbufPopFront_blocks {r r' : Option (Ringbuf α)} {out : Bool} {x : Status × Option α}
    (h : ringbufPopFront r out = some (x, r')) : ringbufBlocks r' = ringbufBlocks r := by
  unfold ringbufPopFront at h
  split at h
  · obtain ⟨-, rfl⟩ := Prod.mk.inj (Option.some.inj h)
    rfl
  split at h
  · obtain ⟨-, rfl⟩ := Prod.mk.inj (Option.some.inj h)
    rfl
  · obtain ⟨read, -, h⟩ := Option.bind_eq_some_iff.mp h
    obtain ⟨-, rfl⟩ := Prod.mk.inj (Option.some.inj h)
    simp only [ringbufBlocks]

theorem ringbufPopBack_blocks {r r' : Option (Ringbuf α)} {out : Bool} {x : Status × Option α}
    (h : ringbufPopBack r out = some (x, r')) : ringbufBlocks r' = ringbufBlocks r := by
  unfold ringbufPopBack at h
  split at h
  · obtain ⟨-, rfl⟩ := Prod.mk.inj (Option.some.inj h)
    rfl
  split at h
  · obtain ⟨-, rfl⟩ := Prod.mk.inj (Option.some.inj h)
    rfl
  · obtain ⟨read, -, h⟩ := Option.bind_eq_some_iff.mp h
    obtain ⟨-, rfl⟩ := Prod.mk.inj (Option.some.inj h)
    simp only [ringbufBlocks]

theorem ringbufStep_trades {r r' : Option (Ringbuf α)} {op : DequeOp α} {out : DequeAnswer α}
    (h : ringbufStep op (r, m) = some (out, (r', m'))) :
    m.Trades (ringbufBlocks r) m' (ringbufBlocks r') := by
  cases op with
  | pushBack elem =>
    obtain ⟨⟨st, r₁, m₁⟩, call, h⟩ := Option.bind_eq_some_iff.mp h
    obtain ⟨-, rfl, rfl⟩ : _ = out ∧ r₁ = r' ∧ m₁ = m' := by simpa using h
    exact ringbufPushBack_trades call
  | pushFront elem =>
    obtain ⟨⟨st, r₁, m₁⟩, call, h⟩ := Option.bind_eq_some_iff.mp h
    obtain ⟨-, rfl, rfl⟩ : _ = out ∧ r₁ = r' ∧ m₁ = m' := by simpa using h
    exact ringbufPushFront_trades call
  | popFront _ =>
    obtain ⟨⟨x, r₁⟩, call, h⟩ := Option.bind_eq_some_iff.mp h
    obtain ⟨-, rfl, rfl⟩ : _ = out ∧ r₁ = r' ∧ m = m' := by simpa using h
    rw [ringbufPopFront_blocks call]
    exact .refl m _
  | popBack _ =>
    obtain ⟨⟨x, r₁⟩, call, h⟩ := Option.bind_eq_some_iff.mp h
    obtain ⟨-, rfl, rfl⟩ : _ = out ∧ r₁ = r' ∧ m = m' := by simpa using h
    rw [ringbufPopBack_blocks call]
    exact .refl m _
  | clear =>
    obtain ⟨-, rfl, rfl⟩ : _ = out ∧ ringbufClear r = r' ∧ m = m' := by
      simpa [ringbufStep] using h
    cases r <;> exact .refl m _
  | iter | iterRev =>
    obtain ⟨⟨xs, m₂⟩, read, h⟩ := Option.bind_eq_some_iff.mp h
    obtain ⟨-, rfl, rfl⟩ : _ = out ∧ r = r' ∧ m₂ = m' := by simpa using h
    exact (ringbufIterOf_trades read).within _ (zero_add _).symm (zero_add _).symm
  | len | isEmpty =>
    obtain ⟨-, rfl, rfl⟩ : _ = out ∧ r = r' ∧ m = m' := by simpa [ringbufStep] using h
    exact .refl m _
  | get i _ | getPtr i | front _ | frontPtr | back _ | backPtr =>
    obtain ⟨x, -, h⟩ := Option.bind_eq_some_iff.mp h
    obtain ⟨-, rfl, rfl⟩ : _ = out ∧ r = r' ∧ m = m' := by simpa using h
    exact .refl m _

theorem queue_owns (elemSize : Nat) :
    OwnsInRuns (queueCreate α elemSize) (fun q m => (some q, m)) queueStep Prod.snd
      (fun s => queueBlocks s.1) (fun s => some (queueDestroy s.1 s.2)) := by
  refine .of (fun s => ∃ g, QueueOf s g) (fun m₀ r m₁ created => ?_) (fun op s state => ?_)
    (fun s _ => ⟨_, rfl, queueDestroy_trades s.1 s.2⟩)
  · refine ⟨?_, fun q here => ⟨⟨([], m₁.refusals), q, rfl, queueCreate_spec (here ▸ created), rfl⟩,
      rfl⟩⟩
    unfold queueCreate at created
    split at created <;> rename_i hm <;> obtain ⟨rfl, rfl⟩ := Prod.mk.inj created
    · exact memAlloc_refused hm
    · simp only [Option.elim_some, queueBlocks, bufferBlocks, Option.elim_none, add_zero]
      exact memAlloc_trades hm
  · obtain ⟨g, state⟩ := state
    obtain ⟨out, s', g', call, -, state'⟩ := queueStep_refines op s g state
    exact ⟨out, s', call, ⟨g', state'⟩, queueStep_trades call⟩

theorem ringbuf_owns (elemSize : Nat) :
    OwnsInRuns (ringbufCreate α elemSize) (fun r m => (some r, m)) ringbufStep Prod.snd
      (fun s => ringbufBlocks s.1) (fun s => some (ringbufDestroy s.1 s.2)) := by
  refine .of (fun s => ∃ g, RingbufState s g) (fun m₀ r m₁ created => ?_) (fun op s state => ?_)
    (fun s _ => ⟨_, rfl, ringbufDestroy_trades s.1 s.2⟩)
  · refine ⟨?_, fun r here => ⟨⟨([], m₁.refusals), r, rfl, ringbufCreate_spec (here ▸ created),
      rfl⟩, rfl⟩⟩
    unfold ringbufCreate at created
    split at created <;> rename_i hm <;> obtain ⟨rfl, rfl⟩ := Prod.mk.inj created
    · exact memAlloc_refused hm
    · simp only [Option.elim_some, ringbufBlocks, bufferBlocks, Option.elim_none, add_zero]
      exact memAlloc_trades hm
  · obtain ⟨g, state⟩ := state
    obtain ⟨out, s', g', call, -, state'⟩ := ringbufStep_refines op s g state
    exact ⟨out, s', call, ⟨g', state'⟩, ringbufStep_trades call⟩

end Rings

/-! ### Lists -/

/-- The struct, and the nodes from `head` on. -/
def linkedBlocks {ν : Type} (next : ν → Option Nat) (s : ListState ν) : Blocks :=
  {(s.addr, sizeofList)} + ((visited next s.nodes s.len s.head).map fun a =>
    (a, nodeAllocSize s.elemSize) : List (Nat × Nat))

section Lists
variable {mk : Option Nat → Option Nat → α → ν} {next : ν → Option Nat} {s : ListState ν}
  {items : List (Nat × α)}

theorem linkedBlocks_eq (fits : ∀ p q x, next (mk p q x) = q) (inv : LinkedInv mk s items) :
    linkedBlocks next s = {(s.addr, sizeofList)} + nodeBlocks s.elemSize items := by
  have walk : Walk next s.nodes s.head (addrs items) := inv.head ▸ inv.laid.walk_next fits
  have chain := walk.visited_eq
  rw [length_addrs, ← inv.len] at chain
  rw [linkedBlocks, chain, nodeBlocks]

theorem linkedDestroy_trades (fits : ∀ p q x, next (mk p q x) = q) (inv : LinkedInv mk s items) :
    ∃ m, linkedDestroy next s = some m ∧ s.mem.Trades (linkedBlocks next s) m 0 := by
  obtain ⟨s', cleared, step⟩ := linkedClear_spec next fits inv
  refine ⟨memFree s'.mem (some s'.addr) sizeofList, by rw [linkedDestroy, cleared]; rfl, ?_⟩
  rw [linkedBlocks_eq fits inv, step.addr]
  exact (step.trades.within {(s.addr, sizeofList)} (add_comm _ _) (zero_add _).symm).trans
    (memFree_trades s'.mem s.addr sizeofList)

/-- Operations that trade the blocks of the items. -/
theorem linked_owns (fits : ∀ p q x, next (mk p q x) = q)
    {step : LinkedOp α → ListState ν → Option (Answer α × ListState ν)}
    (spec : ∀ op s items, LinkedInv mk s items → ∃ out s' items',
      step op s = some (out, s') ∧ LinkedTo mk op s items out s' items') (elemSize : Nat) :
    OwnsInRuns (linkedCreate ν elemSize) (fun s _ => s) step ListState.mem (linkedBlocks next)
      (linkedDestroy next) := by
  refine .of (fun s => ∃ items, LinkedInv mk s items) (fun m₀ r m₁ created => ?_)
    (fun op s inv => ?_) (fun s inv => linkedDestroy_trades fits inv.choose_spec)
  · cases r with
    | none =>
      unfold linkedCreate at created
      split at created
      · rename_i hm
        obtain ⟨-, rfl⟩ := Prod.mk.inj created
        exact ⟨memAlloc_refused hm, by simp⟩
      · simp at created
    | some s =>
      obtain ⟨inv, same, trades, -⟩ := linkedCreate_inv mk created
      refine ⟨?_, fun s' here => ?_⟩
      · rw [Option.elim_some, linkedBlocks_eq fits inv]
        exact trades
      · obtain rfl := Option.some.inj here
        exact ⟨⟨[], inv⟩, same⟩
  · obtain ⟨items, inv⟩ := inv
    obtain ⟨out, s', items', call, traded⟩ := spec op s items inv
    refine ⟨out, s', call, ⟨items', traded.inv⟩, ?_⟩
    rw [linkedBlocks_eq fits inv, linkedBlocks_eq fits traded.inv, traded.addr]
    exact traded.trades.within {(s.addr, sizeofList)} (add_comm _ _) (add_comm _ _)

end Lists

theorem list_owns (elemSize : Nat) :
    OwnsInRuns (listCreate α elemSize) (fun s _ => s) listStep ListState.mem
      (linkedBlocks ListNode.next) listDestroy :=
  linked_owns (fun _ _ _ => rfl) (fun op _ _ inv => listStep_spec op inv) elemSize

theorem dlist_owns (elemSize : Nat) :
    OwnsInRuns (dlistCreate α elemSize) (fun s _ => s) dlistStep ListState.mem
      (linkedBlocks DlistNode.next) dlistDestroy :=
  linked_owns (fun _ _ _ => rfl) (fun op _ _ inv => dlistStep_spec op inv) elemSize

/-! ### All collections -/

/-- In every run of each collection the live blocks are its struct, its buckets or its buffer,
and one for each stored key, value and node; none is freed twice or with another size, and none
is left when the collection is destroyed. The runs are of the operations on one collection: the
extend functions and the iterators of trees, tables and lists are part of the programs of
Handover.lean, and the set algebra is left out. -/
theorem collections_own (α κ ν : Type) (elemSize keySize valSize : Nat) :
    (∀ ndebug (f : KeyFns κ), OwnsInRuns (hashmapCreate κ ν keySize valSize) Prod.mk
      (hashmapStep ndebug f) Prod.snd (fun s => hashmapBlocks s.1)
      (fun s => some (hashmapDestroy s.1 s.2))) ∧
    (∀ ndebug (f : KeyFns κ), OwnsInRuns (setCreate κ elemSize) Prod.mk (setStep ndebug f)
      Prod.snd (fun s => setBlocks s.1) (fun s => some (setDestroy s.1 s.2))) ∧
    (∀ cmp : α → α → Int, OwnsInRuns (avlCreate α elemSize) Prod.mk (avlStep cmp) Prod.snd
      (fun s => avlBlocks s.1) (fun s => some (avlDestroy s.1 s.2))) ∧
    (∀ cmp : κ → κ → Int, OwnsInRuns (omapCreate κ ν keySize valSize) Prod.mk (omapStep cmp)
      Prod.snd (fun s => omapBlocks s.1) (fun s => some (omapDestroy s.1 s.2))) ∧
    (∀ cmp : α → α → Int, OwnsInRuns (bstreeCreate α elemSize) Prod.mk (bstreeStep cmp) Prod.snd
      (fun s => bstreeBlocks s.1) (fun s => some (bstreeDestroy s.1 s.2))) ∧
    OwnsInRuns (listCreate α elemSize) (fun s _ => s) listStep ListState.mem
      (linkedBlocks ListNode.next) listDestroy ∧
    OwnsInRuns (dlistCreate α elemSize) (fun s _ => s) dlistStep ListState.mem
      (linkedBlocks DlistNode.next) dlistDestroy ∧
    OwnsInRuns (queueCreate α elemSize) (fun q m => (some q, m)) queueStep Prod.snd
      (fun s => queueBlocks s.1) (fun s => some (queueDestroy s.1 s.2)) ∧
    OwnsInRuns (ringbufCreate α elemSize) (fun r m => (some r, m)) ringbufStep Prod.snd
      (fun s => ringbufBlocks s.1) (fun s => some (ringbufDestroy s.1 s.2)) :=
  ⟨fun ndebug f => hashmap_owns ndebug f keySize valSize, fun ndebug f => set_owns ndebug f elemSize,
    fun cmp => avl_owns cmp elemSize, fun cmp => omap_owns cmp keySize valSize,
    fun cmp => bstree_owns cmp elemSize, list_owns elemSize, dlist_owns elemSize,
    queue_owns elemSize, ringbuf_owns elemSize⟩

end Seqc
