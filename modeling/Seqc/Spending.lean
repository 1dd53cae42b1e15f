import Seqc.Lib.Amortized
import Seqc.Stack
import Seqc.VecRefines

/-! What calls of vectors and stacks ask of the allocator: the bytes of all requests that were
granted, whether they were given back or not. A buffer that grows has left what the next one
costs. -/

namespace Seqc
open Amortized Iteration Runs

variable {α β σ : Type} {m m' : Mem}

/-- The bytes of a request that was granted. -/
def Event.spent : Event → Nat
  | .alloc _ size => size
  | .realloc _ _ _ size => size
  | .free .. => 0
  | .refused _ => 0
  | .reallocRefused .. => 0

def Mem.spent (m : Mem) : Nat := (m.events.map Event.spent).sum

@[simp] theorem memFree_spent (m : Mem) (addr : Option Nat) (size : Nat) :
    (memFree m addr size).spent = m.spent := by
  simp [Mem.spent, memFree, Event.spent]

/-- The size of the elements of a buffer, how many there are, and how many it has room for. -/
structure Extent where
  elemSize : Nat
  len : Nat
  cap : Nat

/-- The credit of a buffer, in bytes. -/
def Extent.credit (first : Nat) (b : Extent) : Nat :=
  b.elemSize * Amortized.credit first b.len b.cap

/-- A call spends what it is charged and what the buffer has left. -/
structure Pays (first : Nat) (b : Extent) (m : Mem) (b' : Extent) (m' : Mem) (charge : Nat) :
    Prop where
  elemSize : b'.elemSize = b.elemSize
  paid : m'.spent + b'.credit first ≤ m.spent + b.credit first + charge

section Buffers
variable {first c d : Nat} {b b' : Extent}

theorem Pays.refl (b : Extent) (m : Mem) : Pays first b m b m c := ⟨rfl, Nat.le_add_right _ _⟩

theorem Pays.mono (h : Pays first b m b' m' c) (le : c ≤ d) : Pays first b m b' m' d :=
  ⟨h.elemSize, h.paid.trans (Nat.add_le_add_left le _)⟩

theorem Pays.trans {b₁ : Extent} {m₁ : Mem} (h : Pays first b m b₁ m₁ c)
    (h' : Pays first b₁ m₁ b' m' d) : Pays first b m b' m' (c + d) := by
  have paid := h.paid
  have paid' := h'.paid
  exact ⟨h'.elemSize.trans h.elemSize, by omega⟩

/-- Nothing is earned back. -/
theorem Pays.free (h : Pays first b m b' m' c) (addr : Option Nat) (size : Nat) :
    Pays first b m b' (memFree m' addr size) c :=
  ⟨h.elemSize, by rw [memFree_spent]; exact h.paid⟩

/-- At most `k` elements more in the same buffer. -/
theorem Pays.store (h : Pays first b m b' m' c) {len k : Nat} (more : len ≤ b'.len + k) :
    Pays first b m { b' with len := len } m' (c + 4 * k * b.elemSize) := by
  refine ⟨h.elemSize, ?_⟩
  have paid := h.paid
  have room := (credit_mono more : credit first _ b'.cap ≤ _).trans (credit_add b'.len k)
  have bytes := Nat.mul_le_mul_left b'.elemSize room
  have size : b'.elemSize * (4 * k) = 4 * k * b.elemSize := by rw [h.elemSize, Nat.mul_comm]
  rw [Nat.mul_add, size] at bytes
  simp only [Extent.credit] at paid ⊢
  omega

/-- Fewer elements. -/
theorem Pays.fewer {len : Nat} (less : len ≤ b.len) : Pays first b m { b with len := len } m c :=
  ((Pays.refl (c := 0) b m).store (k := 0) less).mono (by omega)

/-- One element more. -/
theorem Pays.push (h : Pays first b m b' m' 0) {len : Nat} (more : len ≤ b'.len + 1) :
    Pays first b m { b' with len := len } m' (4 * b.elemSize) :=
  (h.store (k := 1) more).mono (by omega)

end Buffers

/-! ### Vectors -/

def Vec.extent (v : Vec α) : Extent := ⟨v.elemSize, v.contents.length, v.cap⟩

def vecExtent : Option (Vec α) → Extent
  | none => ⟨0, 0, 0⟩
  | some v => v.extent

/-- What a call does to a vector. -/
abbrev VecPays (v : Option (Vec α)) (m : Mem) (v' : Option (Vec α)) (m' : Mem) (charge : Nat) :
    Prop := Pays vecInitialCap (vecExtent v) m (vecExtent v') m' charge

section Vectors
variable {u v w : Option (Vec α)} {rs : Status}

/-- Fewer elements, or none at all. -/
theorem VecPays.edit (v : Option (Vec α)) (m : Mem) {f : List α → List α}
    (fewer : ∀ xs, (f xs).length ≤ xs.length) :
    VecPays v m (v.map fun v => { v with contents := f v.contents }) m 0 := by
  cases v with
  | none => exact .refl _ m
  | some v =>
    exact Pays.fewer (b := v.extent) (fewer v.contents)

/-- What a call of vec.c is charged. -/
def VecCall.charge (elemSize : Nat) : VecCall α → Nat
  | .push _ => 4 * elemSize
  | .insert .. => 4 * elemSize
  | .reserve capacity => capacity * elemSize
  | _ => 0

end Vectors

/-! ### Iterators that are read -/

/-- What an operation at the ends is charged; `iterSize` is the size of an iterator's state. -/
def DequeOp.charge (elemSize iterSize : Nat) : DequeOp α → Nat
  | .pushBack _ => 4 * elemSize
  | .pushFront _ => 4 * elemSize
  | .iter => iterSize
  | .iterRev => iterSize
  | _ => 0

def Stack.extent (s : Stack α) : Extent := vecExtent s.vec

end Seqc
