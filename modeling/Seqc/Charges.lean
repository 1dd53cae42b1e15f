import Seqc.Spending
import Seqc.Owners
import Seqc.Drains
import Seqc.Builder

/-! What runs of the collections ask of the allocator. Every buffer doubles when it is full, so
all that is granted is at most a constant number of bytes for each element that was added,
whatever else the run does and whichever requests are refused. -/

namespace Seqc
open Amortized Iteration Runs

variable {α σ : Type} {m m' : Mem}

/-! ### Queues and ring buffers -/

/-! They request the larger buffer anew and free the old one. -/

def Queue.extent (q : Queue α) : Extent := ⟨q.elemSize, q.len, q.cap⟩

def Ringbuf.extent (r : Ringbuf α) : Extent := ⟨r.elemSize, r.len, r.cap⟩

section Priorities
variable {cmp : α → α → Int} {q q' : Pqueue α}

def Pqueue.extent (q : Pqueue α) : Extent := vecExtent q.data

/-- The credit of a queue: each element has also left what a slice needs for it. -/
def pqueueCredit (b : Extent) : Nat := b.credit vecInitialCap + b.len * b.elemSize

/-- What a call of pqueue.c does to a queue. -/
structure PqueuePays (q : Pqueue α) (m : Mem) (q' : Pqueue α) (m' : Mem) (charge : Nat) : Prop where
  elemSize : q'.extent.elemSize = q.extent.elemSize
  paid : m'.spent + pqueueCredit q'.extent ≤ m.spent + pqueueCredit q.extent + charge

/-- The vector pays for itself. -/
theorem PqueuePays.of {c k : Nat} (h : Pays vecInitialCap q.extent m q'.extent m' c)
    (more : q'.extent.len ≤ q.extent.len + k) :
    PqueuePays q m q' m' (c + k * q.extent.elemSize) := by
  refine ⟨h.elemSize, ?_⟩
  have paid := h.paid
  have slice := Nat.mul_le_mul_right q.extent.elemSize more
  rw [Nat.add_mul] at slice
  simp only [pqueueCredit, h.elemSize]
  omega

/-- Fewer elements: those that are gone have left what a slice of them takes. -/
theorem PqueuePays.fewer {len c : Nat} (less : len ≤ q.extent.len)
    (extent : q'.extent = { q.extent with len := len })
    (spent : m'.spent ≤ m.spent + (q.extent.len - len) * q.extent.elemSize) :
    PqueuePays q m q' m' c := by
  refine ⟨by rw [extent], ?_⟩
  have buffer := (Pays.fewer less : Pays vecInitialCap _ m _ m 0).paid
  have slice : (q.extent.len - len) * q.extent.elemSize + len * q.extent.elemSize =
      q.extent.len * q.extent.elemSize := by
    rw [← Nat.add_mul, Nat.sub_add_cancel less]
  simp only [pqueueCredit, extent]
  omega

/-- What a call of pqueue.c is charged. -/
def PqueueCall.charge (elemSize : Nat) : PqueueCall α → Nat
  | .op (.push _) => 5 * elemSize
  | .iter _ => Iter.sizeofSliceState
  | _ => 0

end Priorities

/-! ### Builders -/

section Builders
variable {sb sb' : Strbuf} {st : Status}

def Strbuf.extent (sb : Strbuf) : Extent := sb.chars.extent

/-- What a call of a builder is charged: copying it out costs the bytes that are returned. -/
def BuilderCall.charge : BuilderCall → BuilderReply → Nat
  | .op append, _ => 4 * append.piece.length
  | .appendFmt text, _ => 5 * (text.elim 0 fun t => t.1.length) + 1
  | .toString, .bytes bs => bs.length
  | _, _ => 0

end Builders

/-! ### Creation -/

end Seqc
