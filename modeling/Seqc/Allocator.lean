import Mathlib.Algebra.Group.Nat.Defs
import Mathlib.Data.List.Basic

/-! Status codes, what calls give back, `size_t` arithmetic and the sized allocator
every collection is given. The allocator library is outside this repository: all
that is used of it is which requests it grants, and that it grants no block larger
than `PTRDIFF_MAX`, as no C object is. Addresses are request numbers, so they are
never reused; the log of events keeps the byte sizes the callers pass. -/

namespace Seqc

/-- `seqc_status_t`. -/
inductive Status where
  | ok | notFound | duplicate | oom | invalid
  deriving DecidableEq, Repr

/-- What a call gives back: a status, a status with what was written through `out`, the
contents behind a returned pointer, a boolean, or nothing. -/
inductive Answer (β : Type) where
  | status (st : Status)
  | read (st : Status) (written : Option β)
  | pointee (value : Option β)
  | answer (b : Bool)
  | nothing

/-- `seqc_copy_out`: the status and what is written through a non-NULL `out`. -/
def seqcCopyOut {α : Type} (elem : Option α) (out : Bool) : Status × Option α :=
  match elem with
  | none => (.notFound, none)
  | some x => (.ok, if out then some x else none)

def sizeMax : Nat := 2 ^ 64 - 1
def ptrdiffMax : Nat := 2 ^ 63 - 1

/-- Products and sums of `size_t` values wrap modulo 2^64. -/
def mulSize (a b : Nat) : Nat := a * b % 2 ^ 64
def addSize (a b : Nat) : Nat := (a + b) % 2 ^ 64

theorem mulSize_of_lt {a b : Nat} (h : a * b < 2 ^ 64) : mulSize a b = a * b :=
  Nat.mod_eq_of_lt h

theorem addSize_of_lt {a b : Nat} (h : a + b < 2 ^ 64) : addSize a b = a + b :=
  Nat.mod_eq_of_lt h

/-- The capacity of a buffer after `k` growths: first `init`, then doubled. -/
def roomAfter (init : Nat) : (k : Nat) → Nat
  | 0 => 0
  | k + 1 => init * 2 ^ k

theorem roomAfter_mono (init : Nat) {i j : Nat} (le : i ≤ j) :
    roomAfter init i ≤ roomAfter init j := by
  cases i with
  | zero => exact Nat.zero_le _
  | succ i =>
    obtain ⟨j, rfl⟩ : ∃ n, j = n + 1 := ⟨j - 1, by omega⟩
    exact Nat.mul_le_mul_left _ (Nat.pow_le_pow_right (by decide) (by omega))

theorem roomAfter_double (init k : Nat) : roomAfter init (k + 2) = roomAfter init (k + 1) * 2 := by
  simp only [roomAfter, Nat.pow_succ, Nat.mul_assoc]

/-- The growths of the vectors and of the stacks go from one capacity to the next. -/
theorem roomAfter_next {init k : Nat} (some : 0 < init) (small : roomAfter init k * 2 < 2 ^ 64) :
    (if roomAfter init k = 0 then init else mulSize (roomAfter init k) 2) =
      roomAfter init (k + 1) := by
  cases k with
  | zero => simp [roomAfter]
  | succ k =>
    have grown : roomAfter init (k + 1) ≠ 0 :=
      Nat.ne_of_gt (Nat.mul_pos some (Nat.two_pow_pos k))
    rw [if_neg grown, mulSize_of_lt small, roomAfter_double]

/-- `allocator_t` as its callers see it: `grants i size` says whether request
number `i` of the run succeeds. Any pattern of failures is such a function. -/
structure Allocator where
  grants : Nat → Nat → Bool
  bounded : ∀ i size, ptrdiffMax < size → grants i size = false

/-- An allocator that grants what an object can have, except request `n`. -/
def refusingOnce (n : Nat) : Allocator where
  grants i size := decide (size ≤ ptrdiffMax ∧ i ≠ n)
  bounded i size h := by simp [Nat.not_le.mpr h]

/-- An allocator that grants all that an object can have. -/
def Allocator.generous : Allocator where
  grants _ size := decide (size ≤ ptrdiffMax)
  bounded i size h := by simp [Nat.not_le.mpr h]

/-- What the allocator sees of a run. -/
inductive Event where
  | alloc (addr size : Nat)
  | realloc (old : Option Nat) (oldSize addr size : Nat)
  | free (addr : Option Nat) (size : Nat)
  | refused (size : Nat)
  | reallocRefused (old : Option Nat) (oldSize size : Nat)
  deriving DecidableEq, Repr

def Event.isRefused : Event → Bool
  | .refused _ => true
  | .reallocRefused .. => true
  | _ => false

structure Mem where
  allocator : Allocator
  requests : Nat
  events : List Event

def Mem.start (a : Allocator) : Mem := ⟨a, 0, []⟩

/-- `mem_alloc`; `none` is NULL. -/
def memAlloc (m : Mem) (size : Nat) : Option Nat × Mem :=
  if m.allocator.grants m.requests size then
    (some m.requests,
      { m with requests := m.requests + 1, events := m.events ++ [.alloc m.requests size] })
  else
    (none, { m with requests := m.requests + 1, events := m.events ++ [.refused size] })

/-- `mem_realloc`; on failure the old block stays with the caller. -/
def memRealloc (m : Mem) (old : Option Nat) (oldSize size : Nat) : Option Nat × Mem :=
  if m.allocator.grants m.requests size then
    (some m.requests,
      { m with
        requests := m.requests + 1
        events := m.events ++ [.realloc old oldSize m.requests size] })
  else
    (none,
      { m with
        requests := m.requests + 1
        events := m.events ++ [.reallocRefused old oldSize size] })

/-- `mem_free`; a NULL pointer is allowed. -/
def memFree (m : Mem) (addr : Option Nat) (size : Nat) : Mem :=
  { m with events := m.events ++ [.free addr size] }

/-- The number of requests refused so far. -/
def Mem.refusals (m : Mem) : Nat := m.events.countP Event.isRefused

theorem memAlloc_isSome (m : Mem) (size : Nat) :
    (memAlloc m size).1.isSome = m.allocator.grants m.requests size := by
  unfold memAlloc
  split
  · rename_i granted
    exact granted.symm
  · rename_i refused
    exact (Bool.not_eq_true _ ▸ refused : _ = false).symm

theorem memAlloc_some {m m' : Mem} {size addr : Nat} (h : memAlloc m size = (some addr, m')) :
    m.allocator.grants m.requests size = true ∧ size ≤ ptrdiffMax ∧ m'.refusals = m.refusals := by
  unfold memAlloc at h
  split at h
  · rename_i granted
    obtain ⟨-, rfl⟩ := Prod.mk.inj h
    refine ⟨granted, ?_, by simp [Mem.refusals, Event.isRefused]⟩
    by_contra large
    have refused := m.allocator.bounded m.requests size (by omega)
    simp [refused] at granted
  · simp at h

theorem memAlloc_none {m m' : Mem} {size : Nat} (h : memAlloc m size = (none, m')) :
    m'.refusals = m.refusals + 1 := by
  unfold memAlloc at h
  split at h
  · simp at h
  · obtain ⟨-, rfl⟩ := Prod.mk.inj h
    simp [Mem.refusals, Event.isRefused]

theorem memAlloc_allocator {m m' : Mem} {size : Nat} {r : Option Nat}
    (h : memAlloc m size = (r, m')) : m'.allocator = m.allocator := by
  unfold memAlloc at h
  split at h <;> rw [← (Prod.mk.inj h).2]

theorem memAlloc_generous {m m' : Mem} {size : Nat} (h : memAlloc m size = (none, m'))
    (generous : m.allocator = .generous) : ptrdiffMax < size := by
  unfold memAlloc at h
  split at h
  · simp at h
  · rename_i refused
    simpa [generous, Allocator.generous] using refused

theorem memRealloc_some {m m' : Mem} {old : Option Nat} {oldSize size addr : Nat}
    (h : memRealloc m old oldSize size = (some addr, m')) :
    m.allocator.grants m.requests size = true ∧ size ≤ ptrdiffMax ∧ m'.refusals = m.refusals := by
  unfold memRealloc at h
  split at h
  · rename_i granted
    obtain ⟨-, rfl⟩ := Prod.mk.inj h
    refine ⟨granted, ?_, by simp [Mem.refusals, Event.isRefused]⟩
    by_contra large
    have refused := m.allocator.bounded m.requests size (by omega)
    simp [refused] at granted
  · simp at h

theorem memRealloc_none {m m' : Mem} {old : Option Nat} {oldSize size : Nat}
    (h : memRealloc m old oldSize size = (none, m')) : m'.refusals = m.refusals + 1 := by
  unfold memRealloc at h
  split at h
  · simp at h
  · obtain ⟨-, rfl⟩ := Prod.mk.inj h
    simp [Mem.refusals, Event.isRefused]

theorem memRealloc_isSome (m : Mem) (old : Option Nat) (oldSize size : Nat) :
    (memRealloc m old oldSize size).1.isSome = m.allocator.grants m.requests size := by
  unfold memRealloc
  split
  · rename_i granted
    exact granted.symm
  · rename_i refused
    exact (Bool.not_eq_true _ ▸ refused : _ = false).symm

theorem memRealloc_allocator {m m' : Mem} {old : Option Nat} {oldSize size : Nat}
    {r : Option Nat} (h : memRealloc m old oldSize size = (r, m')) :
    m'.allocator = m.allocator := by
  unfold memRealloc at h
  split at h <;> rw [← (Prod.mk.inj h).2]

@[simp] theorem memFree_refusals (m : Mem) (addr : Option Nat) (size : Nat) :
    (memFree m addr size).refusals = m.refusals := by
  simp [memFree, Mem.refusals, Event.isRefused]

end Seqc
