import Seqc.Views
import Seqc.Deque
import Seqc.Holdings
import Seqc.Extends

/-! stack.c: a last-in first-out wrapper over `vec_t`. A NULL stack is `none`; a stack that was
created has its vector. The top is the end of the vector. -/

namespace Seqc
open Iteration Runs

variable {α : Type}

/-- `seqc_stack_t`. -/
structure Stack (α : Type) where
  addr : Nat
  vec : Option (Vec α)
  made : vec.isSome = true

def sizeofStack : Nat := 24

def Stack.contents (s : Stack α) : List α := vecContents s.vec

def stackCreate (α : Type) (elemSize : Nat) (m : Mem) : Option (Stack α) × Mem :=
  match memAlloc m sizeofStack with
  | (none, m) => (none, m)
  | (some addr, m) =>
    match vecCreate α elemSize m with
    | (none, m) => (none, memFree m (some addr) sizeofStack)
    | (some vec, m) => (some ⟨addr, some vec, rfl⟩, m)

theorem vecPush_isSome (v : Option (Vec α)) (elem : Option α) (m : Mem) :
    (vecPush v elem m).2.1.isSome = v.isSome := by
  cases v with
  | none => rfl
  | some v =>
    cases elem with
    | none => rfl
    | some x =>
      rcases vecPush_spec v x m with ⟨v', m', push, -⟩ | ⟨m', push, -⟩ <;>
        simp only [push, Option.isSome_some]

theorem vecPop_isSome (v : Option (Vec α)) (out : Bool) : (vecPop v out).2.isSome = v.isSome := by
  unfold vecPop
  split
  · rfl
  · exact Option.isSome_map

theorem vecClear_isSome (v : Option (Vec α)) : (vecClear v).isSome = v.isSome :=
  Option.isSome_map

def stackPush (s : Option (Stack α)) (elem : Option α) (m : Mem) :
    Status × Option (Stack α) × Mem :=
  match s with
  | none => (.invalid, none, m)
  | some s =>
    ((vecPush s.vec elem m).1,
      some ⟨s.addr, (vecPush s.vec elem m).2.1, (vecPush_isSome s.vec elem m).trans s.made⟩,
      (vecPush s.vec elem m).2.2)

/-- The status and what is written through `out`, and the stack after the call. -/
def stackPop (s : Option (Stack α)) (out : Bool) : (Status × Option α) × Option (Stack α) :=
  match s with
  | none => ((.invalid, none), none)
  | some s =>
    ((vecPop s.vec out).1,
      some ⟨s.addr, (vecPop s.vec out).2, (vecPop_isSome s.vec out).trans s.made⟩)

/-- What the pointer returned by `stack_peek_ptr` points at. -/
def stackPeekPtr : Option (Stack α) → Option α
  | none => none
  | some s => if vecLen s.vec = 0 then none else vecGetPtr s.vec (vecLen s.vec - 1)

def stackIsEmpty : Option (Stack α) → Bool
  | none => true
  | some s => vecLen s.vec = 0

def stackLen : Option (Stack α) → Nat
  | none => 0
  | some s => vecLen s.vec

def stackIter (s : Option (Stack α)) (m : Mem) : Option (OwnedIterT (SliceIterState α) α) × Mem :=
  match s with
  | none => (none, m)
  | some s => vecIter s.vec m

def stackIterRev (s : Option (Stack α)) (m : Mem) :
    Option (OwnedIterT (SliceIterState α) α) × Mem :=
  match s with
  | none => (none, m)
  | some s => vecIterRev s.vec m

def stackClear (s : Option (Stack α)) : Option (Stack α) :=
  s.map fun s => ⟨s.addr, vecClear s.vec, (vecClear_isSome s.vec).trans s.made⟩

def stackDestroy (s : Option (Stack α)) (m : Mem) : Mem :=
  match s with
  | none => m
  | some s => memFree (vecDestroy s.vec m) (some s.addr) sizeofStack

def stackPeek (s : Option (Stack α)) (out : Bool) : Status × Option α :=
  match s with
  | none => (.invalid, none)
  | some s => seqcCopyOut (stackPeekPtr (some s)) out

/-- `add_push` on a stack that is there. -/
def stackAdd : AddFn (Stack α) α := fun s x m =>
  match stackPush (some s) (some x) m with
  | (st, some s, m) => some (st, s, m)
  | (_, none, _) => none

def stackExtend {σ : Type*} (fuel : Nat) (s : Option (Stack α))
    (it : Option (LiveIter σ (Stack α) α)) (m : Mem) : Option (Status × Option (Stack α) × Mem) :=
  seqcExtendBy stackAdd (fun s => vecElemSize s.vec) fuel s it m

/-! ### Operations -/

inductive StackOp (α : Type) where
  | push (elem : Option α)
  | pop (out : Bool)
  | peek (out : Bool)
  | peekPtr
  | len
  | isEmpty
  | clear
  | iter
  | iterRev

/-- The same operation on a double-ended list, at its end. -/
def StackOp.onDeque : StackOp α → DequeOp α
  | .push elem => .pushBack elem
  | .pop out => .popBack out
  | .peek out => .back out
  | .peekPtr => .backPtr
  | .len => .len
  | .isEmpty => .isEmpty
  | .clear => .clear
  | .iter => .iter
  | .iterRev => .iterRev

/-- An iterator over the stack is read to its end and destroyed. -/
def stackItems (it : Option (OwnedIterT (SliceIterState α) α) × Mem) (s : Option (Stack α)) :
    Option (DequeAnswer α × Option (Stack α) × Mem) := do
  let (xs, m) ← iterItems (stackLen s + 1) (it.1.map OwnedIterT.toIterT) it.2
  pure (.items xs, s, m)

def stackStep (op : StackOp α) (s : Option (Stack α) × Mem) :
    Option (DequeAnswer α × Option (Stack α) × Mem) :=
  match op with
  | .push elem =>
    let (st, s, m) := stackPush s.1 elem s.2
    some (.of (.status st), s, m)
  | .pop out => some (.of (.read (stackPop s.1 out).1.1 (stackPop s.1 out).1.2),
      (stackPop s.1 out).2, s.2)
  | .peek out => some (.of (.read (stackPeek s.1 out).1 (stackPeek s.1 out).2), s)
  | .peekPtr => some (.of (.pointee (stackPeekPtr s.1)), s)
  | .len => some (.size (stackLen s.1), s)
  | .isEmpty => some (.of (.answer (stackIsEmpty s.1)), s)
  | .clear => some (.of .nothing, stackClear s.1, s.2)
  | .iter => stackItems (stackIter s.1 s.2) s.1
  | .iterRev => stackItems (stackIterRev s.1 s.2) s.1

section Operations
variable {s : Stack α} {m m' : Mem}

theorem stackPeekPtr_eq (s : Stack α) : stackPeekPtr (some s) = s.contents.getLast? := by
  rw [stackPeekPtr, vecGetPtr, vecLen, Stack.contents]
  by_cases empty : (vecContents s.vec).length = 0
  · rw [if_pos empty, List.length_eq_zero_iff.mp empty]
    rfl
  · rw [if_neg empty, List.getLast?_eq_getElem?]

theorem stackPush_spec (s : Stack α) (x : α) (m : Mem) :
    (∃ s' m', stackPush (some s) (some x) m = (.ok, some s', m') ∧
        s'.contents = s.contents ++ [x] ∧ m'.refusals = m.refusals) ∨
      ∃ m', stackPush (some s) (some x) m = (.oom, some s, m') ∧
        (m.refusals < m'.refusals ∨
          m.refusals = m'.refusals ∧ sizeMax / 2 < s.contents.length) := by
  obtain ⟨addr, vec, made⟩ := s
  obtain ⟨v, rfl⟩ := Option.isSome_iff_exists.mp made
  rcases vecPush_spec v x m with ⟨v', m', push, appended, -, quiet⟩ | ⟨m', push, more, why⟩
  · exact .inl ⟨⟨addr, some v', rfl⟩, m', by simp only [stackPush, push], appended, quiet⟩
  · refine .inr ⟨m', by simp only [stackPush, push], ?_⟩
    by_cases less : m.refusals < m'.refusals
    · exact .inl less
    · exact .inr ⟨by omega, why.resolve_left less⟩

theorem stackPop_spec (s : Stack α) (out : Bool) :
    (s.contents = [] ∧ stackPop (some s) out = ((.notFound, none), some s)) ∨
      ∃ xs x s', s.contents = xs ++ [x] ∧ s'.contents = xs ∧
        stackPop (some s) out = ((.ok, if out then some x else none), some s') := by
  obtain ⟨addr, vec, made⟩ := s
  obtain ⟨v, rfl⟩ := Option.isSome_iff_exists.mp made
  rcases List.eq_nil_or_concat' v.contents with empty | ⟨xs, x, split⟩
  · refine .inl ⟨empty, ?_⟩
    simp only [stackPop, vecPop, vecContents, empty, List.getLast?_nil]
  · refine .inr ⟨xs, x, ⟨addr, some { v with contents := xs }, rfl⟩, split, rfl, ?_⟩
    simp only [stackPop, vecPop, vecContents, split, List.getLast?_concat, Option.map_some,
      List.dropLast_concat]

/-- What reading an iterator over the stack answers, or its state block is refused. -/
theorem stackItems_spec {it : Mem → Option (OwnedIterT (SliceIterState α) α) × Mem}
    {ys : List α} (same : ys.length = s.contents.length)
    (read : (∃ i m₁ m', it m = (some i, m₁) ∧
        iterItems (ys.length + 1) (some i.toIterT) m₁ = some (some ys, m') ∧
        m'.refusals = m.refusals) ∨ ∃ m', it m = (none, m') ∧ m.refusals < m'.refusals) :
    (∃ m', stackItems (it m) (some s) = some (.items (some ys), some s, m') ∧
        m'.refusals = m.refusals) ∨
      ∃ m', stackItems (it m) (some s) = some (.items none, some s, m') ∧
        m.refusals < m'.refusals := by
  have len : stackLen (some s) = ys.length := same.symm
  rcases read with ⟨i, m₁, m', made, items, quiet⟩ | ⟨m', made, more⟩
  · exact .inl ⟨m', by simp [stackItems, made, len, items], quiet⟩
  · exact .inr ⟨m', by simp [stackItems, made, iterItems], more⟩

end Operations

/-! ### Runs -/

/-- The state of a stack with the elements `g.1`, the top last. -/
def StackOf (s : Option (Stack α) × Mem) (g : List α × Nat) : Prop :=
  ∃ st, s.1 = some st ∧ st.contents = g.1 ∧ g.2 = s.2.refusals

theorem stackStep_refines (op : StackOp α) (s : Option (Stack α) × Mem) (g : List α × Nat)
    (h : StackOf s g) :
    ∃ out s' g', stackStep op s = some (out, s') ∧ DequeStep g op.onDeque out g' ∧
      StackOf s' g' := by
  obtain ⟨_, m⟩ := s
  obtain ⟨_, _⟩ := g
  obtain ⟨s, rfl, rfl, rfl⟩ := h
  have state : StackOf (some s, m) (s.contents, m.refusals) := ⟨s, rfl, rfl, rfl⟩
  cases op with
  | push elem =>
    cases elem with
    | none =>
      refine ⟨_, (some s, m), _, ?_, .pushBackInvalid _, state⟩
      obtain ⟨addr, vec, made⟩ := s
      obtain ⟨v, rfl⟩ := Option.isSome_iff_exists.mp made
      rfl
    | some x =>
      rcases stackPush_spec s x m with ⟨s', m', run, appended, quiet⟩ | ⟨m', run, why⟩
      · exact ⟨_, (some s', m'), _, by simp [stackStep, run], .pushBackOk _ _ x, s', rfl,
          appended, quiet.symm⟩
      · exact ⟨_, (some s, m'), _, by simp [stackStep, run], .pushBackOom _ _ _ x why, s, rfl,
          rfl, rfl⟩
  | pop out =>
    rcases stackPop_spec s out with ⟨empty, run⟩ | ⟨xs, x, s', split, rest, run⟩
    · refine ⟨_, (some s, m), ([], m.refusals), by rw [stackStep, run], ?_, s, rfl, empty, rfl⟩
      rw [empty]
      exact .popBackMiss _ out
    · refine ⟨_, (some s', m), (xs, m.refusals), by rw [stackStep, run], ?_, s', rfl, rest, rfl⟩
      rw [split]
      exact .popBackHit xs x _ out
  | peek out =>
    refine ⟨_, (some s, m), _, rfl, ?_, state⟩
    rw [stackPeek, stackPeekPtr_eq]
    exact .back _ _ out
  | peekPtr =>
    refine ⟨_, (some s, m), _, rfl, ?_, state⟩
    rw [stackPeekPtr_eq]
    exact .backPtr _ _
  | len => exact ⟨_, (some s, m), _, rfl, .len _ _, state⟩
  | isEmpty =>
    refine ⟨_, (some s, m), _, rfl, ?_, state⟩
    have same : stackIsEmpty (some s) = s.contents.isEmpty := by
      rw [stackIsEmpty, vecLen, Stack.contents]
      cases vecContents s.vec <;> simp
    rw [same]
    exact .isEmpty _ _
  | clear =>
    refine ⟨_, (stackClear (some s), m), ([], m.refusals), rfl, .clear _ _, _, rfl, ?_, rfl⟩
    obtain ⟨addr, vec, made⟩ := s
    obtain ⟨v, rfl⟩ := Option.isSome_iff_exists.mp made
    rfl
  | iter =>
    obtain ⟨addr, vec, made⟩ := s
    obtain ⟨v, rfl⟩ := Option.isSome_iff_exists.mp made
    rcases stackItems_spec (s := ⟨addr, some v, made⟩) rfl (sliceIter_items ⟨v.dataAddr,
      v.contents, v.elemSize⟩ m) with ⟨m', read, quiet⟩ | ⟨m', read, more⟩
    · exact ⟨_, (_, m'), _, read, .iter _ _, _, rfl, rfl, quiet.symm⟩
    · exact ⟨_, (_, m'), _, read, .iterOom _ _ _ more, _, rfl, rfl, rfl⟩
  | iterRev =>
    obtain ⟨addr, vec, made⟩ := s
    obtain ⟨v, rfl⟩ := Option.isSome_iff_exists.mp made
    have read := sliceIterRev_items ⟨v.dataAddr, v.contents, v.elemSize⟩ m
    rw [← List.length_reverse] at read
    rcases stackItems_spec (s := ⟨addr, some v, made⟩) List.length_reverse read with
      ⟨m', read, quiet⟩ | ⟨m', read, more⟩
    · exact ⟨_, (_, m'), _, read, .iterRev _ _, _, rfl, rfl, quiet.symm⟩
    · exact ⟨_, (_, m'), _, read, .iterRevOom _ _ _ more, _, rfl, rfl, rfl⟩

/-! ### Blocks -/

section Blocks
variable {m m' : Mem}

/-- The struct, the one of the vector, and the buffer if there is one. -/
def stackBlocks : Option (Stack α) → Blocks
  | none => 0
  | some s => {(s.addr, sizeofStack)} + vecBlocks s.vec

/-- The blocks of the vector were handed out before. -/
def StackSound (s : Option (Stack α)) (m : Mem) : Prop :=
  ∀ t ∈ s, ∀ v ∈ t.vec, v.Sound m

/-- A call that leaves the vector accounted for. -/
theorem stackVec_trades {s t : Stack α} (same : t.addr = s.addr)
    (step : Accounted s.vec m t.vec m') :
    StackSound (some t) m' ∧ m.Trades (stackBlocks (some s)) m' (stackBlocks (some t)) := by
  refine ⟨fun u hu => Option.some.inj hu ▸ step.sound, ?_⟩
  simp only [stackBlocks, same]
  exact step.trades.within {(s.addr, sizeofStack)} (add_comm _ _) (add_comm _ _)

theorem stackPush_trades {s s' : Option (Stack α)} {st : Status} (sound : StackSound s m)
    {elem : Option α} (push : stackPush s elem m = (st, s', m')) :
    StackSound s' m' ∧ m.Trades (stackBlocks s) m' (stackBlocks s') := by
  cases s with
  | none =>
    obtain ⟨-, rfl, rfl⟩ : .invalid = st ∧ none = s' ∧ m = m' := by simpa [stackPush] using push
    exact ⟨sound, .refl m _⟩
  | some s =>
    rcases call : vecPush s.vec elem m with ⟨rs, v, m₁⟩
    have step := vecPush_accounted (sound s rfl) call
    simp only [stackPush, call] at push
    cases push
    exact stackVec_trades rfl step

/-- A call that only changes the elements. -/
theorem stackEdit_trades {s t : Stack α} (sound : StackSound (some s) m) (same : t.addr = s.addr)
    {f : List α → List α} (empty : f [] = [])
    (vec : t.vec = s.vec.map fun v => { v with contents := f v.contents }) :
    StackSound (some t) m ∧ m.Trades (stackBlocks (some s)) m (stackBlocks (some t)) :=
  stackVec_trades same (vec ▸ Accounted.edit (sound s rfl) empty)

theorem stackPop_trades {s s' : Option (Stack α)} (sound : StackSound s m) {out : Bool}
    {r : Status × Option α} (pop : stackPop s out = (r, s')) :
    StackSound s' m ∧ m.Trades (stackBlocks s) m (stackBlocks s') := by
  cases s with
  | none =>
    cases pop
    exact ⟨sound, .refl m _⟩
  | some s =>
    cases pop
    have vec : (vecPop s.vec out).2 = s.vec ∨
        (vecPop s.vec out).2 = s.vec.map fun v => { v with contents := v.contents.dropLast } := by
      unfold vecPop
      split
      · exact .inl rfl
      · exact .inr rfl
    cases vec with
    | inl kept =>
      refine stackVec_trades rfl ?_
      simp only [kept]
      exact .same (sound s rfl)
    | inr popped => exact stackEdit_trades sound rfl (f := List.dropLast) rfl popped

theorem stackItems_trades {next : SliceIterState α → Option (Option α × SliceIterState α)}
    {size elemSize : Nat} {start : Option (SliceIterState α)} {s s' : Option (Stack α)}
    {out : DequeAnswer α}
    (read : stackItems (cursorIter next size elemSize start m) s = some (out, s', m')) :
    s' = s ∧ m.Trades 0 m' 0 := by
  obtain ⟨⟨xs, m₁⟩, items, h⟩ := Option.bind_eq_some_iff.mp read
  obtain ⟨-, rfl, rfl⟩ : _ = out ∧ s = s' ∧ m₁ = m' := by simpa using h
  exact ⟨rfl, cursorItems_trades rfl items⟩

theorem stackStep_trades {op : StackOp α} {s s' : Option (Stack α)} {out : DequeAnswer α}
    (sound : StackSound s m) (step : stackStep op (s, m) = some (out, s', m')) :
    StackSound s' m' ∧ m.Trades (stackBlocks s) m' (stackBlocks s') := by
  have same (s₁ : Option (Stack α)) (here : s = s₁) (at_m : m = m') :
      StackSound s₁ m' ∧ m.Trades (stackBlocks s) m' (stackBlocks s₁) := by
    subst here at_m
    exact ⟨sound, .refl m _⟩
  have items (it : Option (OwnedIterT (SliceIterState α) α) × Mem)
      (made : it = (none, m) ∨
        ∃ next size elemSize start, it = cursorIter next size elemSize start m)
      (read : stackItems it s = some (out, s', m')) :
      StackSound s' m' ∧ m.Trades (stackBlocks s) m' (stackBlocks s') := by
    rcases made with rfl | ⟨next, size, elemSize, start, rfl⟩
    · obtain ⟨-, rfl, rfl⟩ : _ = out ∧ s = s' ∧ m = m' := by
        simpa [stackItems, iterItems] using read
      exact ⟨sound, .refl m _⟩
    · obtain ⟨rfl, trades⟩ := stackItems_trades read
      exact ⟨fun t ht v hv => (sound t ht v hv).later trades.later.requests_le,
        trades.within _ (zero_add _).symm (zero_add _).symm⟩
  cases op with
  | push elem =>
    rcases call : stackPush s elem m with ⟨st, s₁, m₁⟩
    obtain ⟨-, rfl, rfl⟩ : _ = out ∧ s₁ = s' ∧ m₁ = m' := by simpa [stackStep, call] using step
    exact stackPush_trades sound call
  | pop write =>
    obtain ⟨-, rfl, rfl⟩ : _ = out ∧ (stackPop s write).2 = s' ∧ m = m' := by
      simpa [stackStep] using step
    exact stackPop_trades sound rfl
  | peek _ | peekPtr | len | isEmpty =>
    obtain ⟨-, here, at_m⟩ : _ = out ∧ s = s' ∧ m = m' := by simpa [stackStep] using step
    exact same s' here at_m
  | clear =>
    obtain ⟨-, rfl, rfl⟩ : _ = out ∧ stackClear s = s' ∧ m = m' := by
      simpa [stackStep] using step
    cases s with
    | none => exact ⟨sound, .refl m _⟩
    | some s => exact stackEdit_trades sound rfl (f := fun _ => []) rfl rfl
  | iter =>
    refine items (stackIter s m) ?_ step
    cases s with
    | none => exact .inl rfl
    | some s =>
      obtain ⟨addr, vec, made⟩ := s
      obtain ⟨v, rfl⟩ := Option.isSome_iff_exists.mp made
      exact .inr ⟨sliceNext, _, v.elemSize, some ⟨v.contents, 0⟩, rfl⟩
  | iterRev =>
    refine items (stackIterRev s m) ?_ step
    cases s with
    | none => exact .inl rfl
    | some s =>
      obtain ⟨addr, vec, made⟩ := s
      obtain ⟨v, rfl⟩ := Option.isSome_iff_exists.mp made
      exact .inr ⟨sliceRevNext, _, v.elemSize, some ⟨v.contents, v.contents.length⟩, rfl⟩

theorem stackDestroy_trades (s : Option (Stack α)) (m : Mem) :
    m.Trades (stackBlocks s) (stackDestroy s m) 0 := by
  cases s with
  | none => exact .refl m 0
  | some s =>
    exact ((vecDestroy_trades m).within {(s.addr, sizeofStack)} (add_comm _ _)
      (zero_add _).symm).trans (memFree_trades _ s.addr sizeofStack)

/-- A struct and a vector behind it, or neither. -/
theorem stackCreate_spec {elemSize : Nat} {s : Option (Stack α)}
    (created : stackCreate α elemSize m = (s, m')) :
    m.Trades 0 m' (stackBlocks s) ∧ StackSound s m' ∧ ∀ t ∈ s, t.contents = [] := by
  unfold stackCreate at created
  split at created
  · rename_i hm
    cases created
    exact ⟨memAlloc_refused hm, by simp [StackSound], by simp⟩
  rename_i addr m₁ hm
  split at created
  · rename_i m₂ hv
    cases created
    obtain ⟨trades, -⟩ := vecStart_accounted (show vecStart α elemSize none m₁ = _ from hv)
    have struct := (memAlloc_trades hm).trans (trades.within {(addr, sizeofStack)} (zero_add _).symm
      (zero_add _).symm)
    exact ⟨struct.trans (memFree_trades _ addr sizeofStack), by simp [StackSound], by simp⟩
  · rename_i v m₂ hv
    cases created
    obtain ⟨trades, sound⟩ := vecStart_accounted (show vecStart α elemSize none m₁ = _ from hv)
    obtain ⟨_, _, again, empty, -⟩ := vecCreate_spec (α := α) elemSize m₁
    obtain ⟨rfl, rfl⟩ := Prod.mk.inj (hv.symm.trans again)
    refine ⟨(memAlloc_trades hm).trans (trades.within {(addr, sizeofStack)} (zero_add _).symm
      (add_comm _ _)), fun t ht => Option.some.inj ht ▸ sound, fun t ht => ?_⟩
    obtain rfl := Option.some.inj ht
    exact empty

/-- Only the size of the elements, or a refused request, stops `stack_create`. -/
theorem stackCreate_fails {elemSize : Nat} (failed : stackCreate α elemSize m = (none, m')) :
    m.refusals < m'.refusals ∨ ¬elemSize ≠ 0 ∧ m'.refusals = m.refusals := by
  unfold stackCreate at failed
  split at failed
  · rename_i hm
    obtain ⟨-, rfl⟩ := Prod.mk.inj failed
    have more := memAlloc_none hm
    exact .inl (by omega)
  rename_i addr m₁ hm
  have quiet := (memAlloc_some hm).2.2
  split at failed
  · rename_i m₂ hv
    obtain ⟨-, rfl⟩ := Prod.mk.inj failed
    obtain ⟨_, _, again, -, more, real⟩ := vecCreate_spec (α := α) elemSize m₁
    obtain ⟨rfl, rfl⟩ := Prod.mk.inj (hv.symm.trans again)
    rw [memFree_refusals]
    by_cases same : m₂.refusals = m₁.refusals
    · exact .inr ⟨fun sized => by simpa using real same sized, same.trans quiet⟩
    · exact .inl (by omega)
  · simp at failed

theorem stackCreate_quiet {elemSize : Nat} {s : Stack α}
    (created : stackCreate α elemSize m = (some s, m')) : m'.refusals = m.refusals := by
  unfold stackCreate at created
  split at created
  · simp at created
  rename_i addr m₁ hm
  split at created
  · simp at created
  · rename_i v m₂ hv
    obtain ⟨-, rfl⟩ := Prod.mk.inj created
    exact (vecCreate_quiet hv).trans (memAlloc_some hm).2.2

/-- `stack_create` leaves nothing behind when it fails, a stack always has exactly its two
structs and its buffer, and `stack_destroy` gives back all three. -/
theorem stack_owns (elemSize : Nat) :
    OwnsInRuns (stackCreate α elemSize) (fun s m => (some s, m)) stackStep Prod.snd
      (fun s => stackBlocks s.1) (fun s => some (stackDestroy s.1 s.2)) := by
  refine .of (fun s => StackSound s.1 s.2 ∧ ∃ g, StackOf s g) (fun m₀ r m₁ created => ?_)
    (fun op s state => ?_) (fun s _ => ⟨_, rfl, stackDestroy_trades s.1 s.2⟩)
  · obtain ⟨trades, sound, empty⟩ := stackCreate_spec created
    refine ⟨?_, fun s here => ⟨⟨here ▸ sound, ([], m₁.refusals), s, rfl, empty s here, rfl⟩, rfl⟩⟩
    cases r <;> exact trades
  · obtain ⟨sound, g, state⟩ := state
    obtain ⟨out, s', g', call, -, state'⟩ := stackStep_refines op s g state
    obtain ⟨sound', trades⟩ := stackStep_trades sound call
    exact ⟨out, s', call, ⟨sound', g', state'⟩, trades⟩

end Blocks

/-- Every run from `stack_create` is one of a list that grows and shrinks at its end, however
requests are refused in between. At its end the live blocks are the two structs and the buffer,
and `stack_destroy` gives back all of them. -/
theorem stack_run_refines {elemSize : Nat} {m₀ m₁ : Mem} {s₀ : Stack α}
    (created : stackCreate α elemSize m₀ = (some s₀, m₁)) (ops : List (StackOp α)) :
    ∃ outs s m, run stackStep ops (some s₀, m₁) = some (outs, (some s, m)) ∧
      SpecRun (fun g op => DequeStep g (StackOp.onDeque op)) ([], m₁.refusals) ops outs
        (s.contents, m.refusals) ∧
      m₀.Trades 0 m (stackBlocks (some s)) ∧ ((stackBlocks (some s)).map Prod.fst).Nodup ∧
      m₀.Trades 0 (stackDestroy (some s) m) 0 := by
  obtain ⟨-, -, empty⟩ := stackCreate_spec created
  obtain ⟨outs, ⟨_, m⟩, ⟨_, _⟩, ran, spec, s, rfl, rfl, rfl⟩ := run_refines stackStep
    (fun g op => DequeStep g (StackOp.onDeque op)) stackStep_refines ops (s := (some s₀, m₁))
    (g := ([], m₁.refusals)) ⟨s₀, rfl, empty s₀ rfl, rfl⟩
  obtain ⟨_, _, again, trades, distinct, _, destroyed, freed⟩ :=
    (stack_owns elemSize).runs m₀ s₀ m₁ ops created
  obtain ⟨rfl, rfl⟩ := Prod.mk.inj (Option.some.inj (ran.symm.trans again))
  obtain rfl := Option.some.inj destroyed
  exact ⟨outs, s, m, ran, spec, trades, distinct, freed⟩

/-- A run whose buffer is refused at first. -/
theorem stack_run_refines_ints :
    ∃ outs s m, run stackStep [.push (some 5), .push (some 7), .iterRev, .pop true]
        (some (⟨0, some ⟨1, none, [], 0, 4, by decide⟩, rfl⟩ : Stack Int),
          ⟨refusingOnce 2, 2, [.alloc 0 24, .alloc 1 48]⟩) = some (outs, (some s, m)) ∧
      SpecRun (fun g op => DequeStep g (StackOp.onDeque op)) ([], 0)
        [.push (some 5), .push (some 7), .iterRev, .pop true] outs (s.contents, m.refusals) := by
  have created : stackCreate Int 4 (.start (refusingOnce 2)) =
      (some ⟨0, some ⟨1, none, [], 0, 4, by decide⟩, rfl⟩,
        ⟨refusingOnce 2, 2, [.alloc 0 24, .alloc 1 48]⟩) := rfl
  obtain ⟨outs, s, m, ran, spec, -⟩ := stack_run_refines created
    [.push (some 5), .push (some 7), .iterRev, .pop true]
  exact ⟨outs, s, m, ran, spec⟩

end Seqc
