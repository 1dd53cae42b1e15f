import Seqc.Consumers
import Seqc.Cursors
import Seqc.Iter
import Seqc.VecBuffer

/-! slice.c, and what vec.c does through a view of its elements: the iterators, the searches
and the sort. A pointer to an element is its index. -/

namespace Seqc
open Iteration

variable {α : Type}

/-! ### slice.c -/

/-- NULL for a slice without elements; the index is that of the element pointed at. -/
def sliceGetPtr (s : Slice α) (i : Nat) : Option Nat :=
  if s.ptr = none ∨ s.elemSize = 0 ∨ s.contents.length ≤ i then none else some i

/-- The loops of `slice_find` and `vec_find` from index `i` on. -/
def findFrom (pred : α → Bool) : List α → (i : Nat) → Option Nat
  | [], _ => none
  | x :: xs, i => if pred x then some i else findFrom pred xs (i + 1)

def sliceFind (s : Slice α) (pred : Option (α → Bool)) : Option Nat :=
  if s.ptr = none ∨ s.elemSize = 0 then none
  else
    match pred with
    | none => none
    | some pred => findFrom pred s.contents 0

def sliceAny (s : Slice α) (pred : Option (α → Bool)) : Bool := (sliceFind s pred).isSome

def sliceGet (s : Slice α) (i : Nat) (out : Bool) : Status × Option α :=
  seqcCopyOut ((sliceGetPtr s i).bind fun i => s.contents[i]?) out

/-! ### vec.c -/

def vecCap : Option (Vec α) → Nat
  | none => 0
  | some v => v.cap

def vecIsEmpty : Option (Vec α) → Bool
  | none => true
  | some v => v.contents.length = 0

def vecFind (v : Option (Vec α)) (pred : Option (α → Bool)) : Option Nat :=
  match v, pred with
  | some v, some pred => findFrom pred v.contents 0
  | _, _ => none

def vecAny (v : Option (Vec α)) (pred : Option (α → Bool)) : Bool := (vecFind v pred).isSome

/-- `qsort` may order equal elements as it likes. -/
def vecSort (qsort : (α → α → Int) → List α → List α) (v : Option (Vec α))
    (cmp : Option (α → α → Int)) : Option (Vec α) :=
  match v, cmp with
  | some v, some cmp =>
    some (if v.contents.length < 2 then v else { v with contents := qsort cmp v.contents })
  | v, _ => v

/-! ### Iterators -/

/-- `slice_iter_state_t`. -/
structure SliceIterState (α : Type) where
  contents : List α
  pos : Nat

/-- `slice_next`. -/
def sliceNext (s : SliceIterState α) : Option (Option α × SliceIterState α) :=
  match s.contents[s.pos]? with
  | none => some (none, s)
  | some x => some (some x, { s with pos := s.pos + 1 })

/-- `slice_rev_next`. -/
def sliceRevNext (s : SliceIterState α) : Option (Option α × SliceIterState α) :=
  if s.pos = 0 then some (none, s)
  else (s.contents[s.pos - 1]?).map fun x => (some x, { s with pos := s.pos - 1 })

/-- `iter_from_slice` of elements of any type. -/
def sliceIter (s : Slice α) (m : Mem) : Option (OwnedIterT (SliceIterState α) α) × Mem :=
  cursorIter sliceNext Iter.sizeofSliceState s.elemSize (some ⟨s.contents, 0⟩) m

/-- `iter_from_slice_rev`. -/
def sliceIterRev (s : Slice α) (m : Mem) : Option (OwnedIterT (SliceIterState α) α) × Mem :=
  cursorIter sliceRevNext Iter.sizeofSliceState s.elemSize
    (some ⟨s.contents, s.contents.length⟩) m

def vecIter (v : Option (Vec α)) (m : Mem) : Option (OwnedIterT (SliceIterState α) α) × Mem :=
  match v with
  | none => (none, m)
  | some v => sliceIter (vecAsSlice (some v)) m

def vecIterRev (v : Option (Vec α)) (m : Mem) :
    Option (OwnedIterT (SliceIterState α) α) × Mem :=
  match v with
  | none => (none, m)
  | some v => sliceIterRev (vecAsSlice (some v)) m

/-- The sources of iter.c make the calls of these. -/
theorem fromSlice_next {t : ElemType} (addr : Nat) (contents : List t.Val) (pos fuel : Nat)
    (m : Mem) :
    (Iter.fromSlice addr contents pos).next (fuel + 1) m =
      (sliceNext ⟨contents, pos⟩).map fun r => (r.1, .fromSlice addr contents r.2.pos, m) := by
  rw [Iter.next, sliceNext, List.head?_drop]
  cases contents[pos]? <;> rfl

theorem fromSliceRev_next {t : ElemType} (addr : Nat) (contents : List t.Val) (pos fuel : Nat)
    (m : Mem) :
    (Iter.fromSliceRev addr contents pos).next (fuel + 1) m =
      (sliceRevNext ⟨contents, pos⟩).map
        fun r => (r.1, .fromSliceRev addr contents r.2.pos, m) := by
  rw [Iter.next, sliceRevNext]
  by_cases first : pos = 0
  · simp [first]
  · rw [if_neg first, if_neg first]
    cases h : contents[pos - 1]? <;> simp [h, List.head?_drop]

/-! ### Reading them -/

section Reading
variable {σ : Type} {m m' : Mem}

/-- A cursor whose state is `state i` after `i` calls. -/
theorem cursorIter_items (next : σ → Option (Option α × σ)) (size elemSize : Nat) {start : σ}
    (ys : List α) (state : Nat → σ)
    (item : ∀ i x, ys[i]? = some x → next (state i) = some (some x, state (i + 1)))
    (last : next (state ys.length) = some (none, state ys.length)) (first : start = state 0)
    (m : Mem) :
    (∃ it m₁ m', cursorIter next size elemSize (some start) m = (some it, m₁) ∧
        iterItems (ys.length + 1) (some it.toIterT) m₁ = some (some ys, m') ∧
        m'.refusals = m.refusals) ∨
      ∃ m', cursorIter next size elemSize (some start) m = (none, m') ∧
        m.refusals < m'.refusals := by
  have yields (addr : Nat) (m : Mem) : iterItems (ys.length + 1)
      (some (cursorIterT next size elemSize addr start).toIterT) m =
        some (some ys, memFree m (some addr) size) := by
    refine iterItems_cursor state (fun i x _ m hx => ?_) (fun _ m => ?_) first m
    · simp [cursorIterT, cursorNext, item i x hx]
    · simp [cursorIterT, cursorNext, last]
  rcases iterItems_made _ yields m with ⟨addr, m₁, m', hm, run, quiet⟩ | ⟨m', hm, more⟩
  · exact .inl ⟨_, m₁, m', by simp only [cursorIter, hm], run, quiet⟩
  · exact .inr ⟨m', by simp only [cursorIter, hm], more⟩

theorem sliceIter_items (s : Slice α) (m : Mem) :
    (∃ it m₁ m', sliceIter s m = (some it, m₁) ∧
        iterItems (s.contents.length + 1) (some it.toIterT) m₁ = some (some s.contents, m') ∧
        m'.refusals = m.refusals) ∨
      ∃ m', sliceIter s m = (none, m') ∧ m.refusals < m'.refusals := by
  refine cursorIter_items sliceNext _ _ s.contents (fun i => ⟨s.contents, i⟩)
    (fun i x hx => ?_) ?_ rfl m
  · simp only [sliceNext, hx]
  · simp only [sliceNext, List.getElem?_eq_none (Nat.le_refl s.contents.length)]

theorem sliceIterRev_items (s : Slice α) (m : Mem) :
    (∃ it m₁ m', sliceIterRev s m = (some it, m₁) ∧
        iterItems (s.contents.length + 1) (some it.toIterT) m₁ =
          some (some s.contents.reverse, m') ∧ m'.refusals = m.refusals) ∨
      ∃ m', sliceIterRev s m = (none, m') ∧ m.refusals < m'.refusals := by
  have read := cursorIter_items sliceRevNext Iter.sizeofSliceState s.elemSize
    s.contents.reverse (fun i => ⟨s.contents, s.contents.length - i⟩) (fun i x hx => ?_) ?_ rfl m
  · rwa [List.length_reverse] at read
  · have inside : i < s.contents.length := by
      simpa using (List.getElem?_eq_some_iff.mp hx).1
    rw [List.getElem?_reverse inside] at hx
    have back : s.contents.length - i - 1 = s.contents.length - 1 - i := by omega
    simp only [sliceRevNext, if_neg (by omega : ¬s.contents.length - i = 0), back, hx,
      Option.map_some]
    rw [show s.contents.length - (i + 1) = s.contents.length - 1 - i by omega]
  · simp [sliceRevNext]

/-- Reading all of an iterator gives back what it owns. -/
theorem ownedItems_trades {it : OwnedIterT σ α} {fuel : Nat} {xs : Option (List α)}
    (read : iterItems fuel (some it.toIterT) m = some (xs, m')) : m.Trades it.blocks m' 0 := by
  simp only [iterItems] at read
  split at read
  · simp at read
  rename_i ys s m₁ ran
  obtain ⟨-, rfl⟩ := Prod.mk.inj (Option.some.inj read)
  have owns : ∀ i ∈ some it.toIterT, i.InCustody it.owned :=
    fun i hi => Option.some.inj hi ▸ it.custody.here
  have loop : iterWhile fuel (some it.toIterT) (fun x xs m => (true, xs ++ [x], m)) [] m =
      some (ys, some { it.toIterT with state := s }, m₁) := by
    simp only [iterWhile, ran]
  obtain ⟨custody, trades⟩ := iterWhile_quiet owns (fun _ _ _ => rfl) loop
  exact trades.trans (iterDestroy_trades custody m₁)

/-- An iterator is made, read and destroyed. -/
theorem cursorItems_trades {next : σ → Option (Option α × σ)} {size elemSize : Nat}
    {start : Option σ} {m₁ : Mem} {it : Option (OwnedIterT σ α)}
    {fuel : Nat} {xs : Option (List α)}
    (made : cursorIter next size elemSize start m = (it, m₁))
    (read : iterItems fuel (it.map OwnedIterT.toIterT) m₁ = some (xs, m')) :
    m.Trades 0 m' 0 := by
  have trades : m.Trades 0 (cursorIter next size elemSize start m).2
      ((cursorIter next size elemSize start m).1.elim 0 OwnedIterT.blocks) :=
    cursorIter_trades start m
  rw [made] at trades
  cases it with
  | none =>
    obtain ⟨-, rfl⟩ := Prod.mk.inj (Option.some.inj read)
    exact trades
  | some it => exact trades.trans (ownedItems_trades read)

end Reading

end Seqc
