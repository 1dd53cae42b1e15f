import Seqc.Terminals
import Seqc.Lib.Circular

/-! What ringbuf.c and queue.c share: a buffer of slots, and the double-ended list
that both stand for. A slot that was never written is `none`; reading it gets stuck. -/

namespace Seqc

variable {α : Type}

def subSize (a b : Nat) : Nat := (a + 2 ^ 64 - b) % 2 ^ 64

theorem subSize_of_le {a b : Nat} (h : b ≤ a) (lt : a < 2 ^ 64) : subSize a b = a - b := by
  rw [subSize, Nat.sub_add_comm h, Nat.add_mod_right]
  exact Nat.mod_eq_of_lt (by omega)

/-- Division by zero is undefined. -/
def modSize (a b : Nat) : Option Nat := if b = 0 then none else some (a % b)

/-! ### Doubling -/

theorem pow_le_half {k : Nat} (hk : k ≤ 63) : 2 ^ k ≤ 2 ^ 63 := Nat.pow_le_pow_right (by omega) hk

/-- Twice the capacity, or the first one, is a power of two. -/
theorem newCap_eq {initial cap e : Nat} (first : initial = 2 ^ e) (he : e ≤ 63)
    (shape : cap = 0 ∨ ∃ k ≤ 63, cap = 2 ^ k) (small : ¬sizeMax / 2 < cap) :
    ∃ k ≤ 63, (if cap = 0 then initial else mulSize cap 2) = 2 ^ k ∧ cap < 2 ^ k := by
  by_cases zero : cap = 0
  · exact ⟨e, he, by rw [if_pos zero, first], zero ▸ Nat.two_pow_pos e⟩
  · obtain ⟨k, hk, rfl⟩ := shape.resolve_left zero
    have double : 2 ^ (k + 1) = 2 ^ k * 2 := Nat.pow_succ 2 k
    have pos := Nat.two_pow_pos k
    have half : sizeMax / 2 = 2 ^ 63 - 1 := rfl
    have below : k + 1 ≤ 63 := by
      by_contra large
      obtain rfl : k = 63 := by omega
      omega
    refine ⟨k + 1, below, ?_, by omega⟩
    rw [if_neg zero, mulSize_of_lt (by omega), double]

/-- The new buffer has the bytes of `newCap` elements, if the old one had those of `cap`
and the first request does not wrap. -/
theorem newCap_bytes {initial cap elemSize : Nat} (small : ¬sizeMax / 2 < cap)
    (bytes : cap * elemSize ≤ ptrdiffMax) (room : initial * elemSize < 2 ^ 64)
    (granted : mulSize (if cap = 0 then initial else mulSize cap 2) elemSize ≤ ptrdiffMax) :
    (if cap = 0 then initial else mulSize cap 2) * elemSize ≤ ptrdiffMax := by
  by_cases zero : cap = 0
  · rw [if_pos zero] at granted ⊢
    rwa [mulSize_of_lt room] at granted
  · have half : sizeMax / 2 = 2 ^ 63 - 1 := rfl
    have bound : ptrdiffMax = 2 ^ 63 - 1 := rfl
    have twice : mulSize cap 2 = cap * 2 := mulSize_of_lt (by omega)
    have both : cap * 2 * elemSize = cap * elemSize * 2 := Nat.mul_right_comm _ _ _
    rw [if_neg zero, twice] at granted ⊢
    rwa [mulSize_of_lt (by omega)] at granted

/-! ### Reading through a pointer into the buffer -/

/-- `seqc_copy_out` of the slot `ptr` points at. -/
def copyOutSlot (slots : Nat → Option α) (ptr : Option Nat) (out : Bool) :
    Option (Status × Option α) :=
  match ptr with
  | none => some (.notFound, none)
  | some slot => if out then (slots slot).map fun x => (.ok, some x) else some (.ok, none)

/-- What a caller finds behind the pointer. -/
def readSlot (slots : Nat → Option α) (ptr : Option Nat) : Option (Option α) :=
  match ptr with
  | none => some none
  | some slot => (slots slot).map some

theorem copyOutSlot_eq {slots : Nat → Option α} (ptr : Option Nat) {elem : Option α} (out : Bool)
    (h : readSlot slots ptr = some elem) :
    copyOutSlot slots ptr out = some (seqcCopyOut elem out) := by
  cases ptr with
  | none =>
    obtain rfl := Option.some.inj h
    rfl
  | some slot =>
    obtain ⟨x, hx, rfl⟩ := Option.map_eq_some_iff.mp h
    cases out <;> simp [copyOutSlot, seqcCopyOut, hx]

/-! ### Operations and what a list answers -/

inductive DequeOp (α : Type) where
  | pushBack (elem : Option α)
  | pushFront (elem : Option α)
  | popFront (out : Bool)
  | popBack (out : Bool)
  | get (i : Nat) (out : Bool)
  | getPtr (i : Nat)
  | front (out : Bool)
  | frontPtr
  | back (out : Bool)
  | backPtr
  | len
  | isEmpty
  | clear
  | iter
  | iterRev

/-- What a call gives back; `items none` is a failed iterator. -/
inductive DequeAnswer (α : Type) where
  | of (a : Answer α)
  | size (n : Nat)
  | items (xs : Option (List α))

/-- `seqcCopyOut` as the answer of a call. -/
def DequeAnswer.copied (elem : Option α) (out : Bool) : DequeAnswer α :=
  .of (.read (seqcCopyOut elem out).1 (seqcCopyOut elem out).2)

/-- What a double-ended list answers; the number counts the requests refused so far.
Only a push or an iterator fails, after a refused request, or a push onto more than
`SIZE_MAX / 2` elements. -/
inductive DequeStep : List α × Nat → DequeOp α → DequeAnswer α → List α × Nat → Prop
  | pushBackOk (xs n x) :
      DequeStep (xs, n) (.pushBack (some x)) (.of (.status .ok)) (xs ++ [x], n)
  | pushBackOom (xs n n' x) (h : n < n' ∨ n = n' ∧ sizeMax / 2 < xs.length) :
      DequeStep (xs, n) (.pushBack (some x)) (.of (.status .oom)) (xs, n')
  | pushBackInvalid (g) : DequeStep g (.pushBack none) (.of (.status .invalid)) g
  | pushFrontOk (xs n x) :
      DequeStep (xs, n) (.pushFront (some x)) (.of (.status .ok)) (x :: xs, n)
  | pushFrontOom (xs n n' x) (h : n < n' ∨ n = n' ∧ sizeMax / 2 < xs.length) :
      DequeStep (xs, n) (.pushFront (some x)) (.of (.status .oom)) (xs, n')
  | pushFrontInvalid (g) : DequeStep g (.pushFront none) (.of (.status .invalid)) g
  | popFrontHit (x xs n out) :
      DequeStep (x :: xs, n) (.popFront out) (.copied (some x) out) (xs, n)
  | popFrontMiss (n out) : DequeStep ([], n) (.popFront out) (.copied none out) ([], n)
  | popBackHit (xs x n out) :
      DequeStep (xs ++ [x], n) (.popBack out) (.copied (some x) out) (xs, n)
  | popBackMiss (n out) : DequeStep ([], n) (.popBack out) (.copied none out) ([], n)
  | get (xs n i out) : DequeStep (xs, n) (.get i out) (.copied xs[i]? out) (xs, n)
  | getPtr (xs n i) : DequeStep (xs, n) (.getPtr i) (.of (.pointee xs[i]?)) (xs, n)
  | front (xs n out) : DequeStep (xs, n) (.front out) (.copied xs.head? out) (xs, n)
  | frontPtr (xs n) : DequeStep (xs, n) .frontPtr (.of (.pointee xs.head?)) (xs, n)
  | back (xs n out) : DequeStep (xs, n) (.back out) (.copied xs.getLast? out) (xs, n)
  | backPtr (xs n) : DequeStep (xs, n) .backPtr (.of (.pointee xs.getLast?)) (xs, n)
  | len (xs n) : DequeStep (xs, n) .len (.size xs.length) (xs, n)
  | isEmpty (xs n) : DequeStep (xs, n) .isEmpty (.of (.answer xs.isEmpty)) (xs, n)
  | clear (xs n) : DequeStep (xs, n) .clear (.of .nothing) ([], n)
  | iter (xs n) : DequeStep (xs, n) .iter (.items (some xs)) (xs, n)
  | iterRev (xs n) : DequeStep (xs, n) .iterRev (.items (some xs.reverse)) (xs, n)
  | iterOom (xs n n') (h : n < n') : DequeStep (xs, n) .iter (.items none) (xs, n')
  | iterRevOom (xs n n') (h : n < n') : DequeStep (xs, n) .iterRev (.items none) (xs, n')

end Seqc
