import Seqc.Views
import Seqc.PqueueRun
import Seqc.Holdings
import Seqc.Extends

/-! The rest of pqueue.c, and what a queue and the slices drained from it hold of the
allocator. A drained slice belongs to the caller, who frees it with its length times the
element size, before or after the queue is destroyed. -/

namespace Seqc
open Comparator Heap Iteration Runs

variable {α : Type} {cmp : α → α → Int} {m m' : Mem}

def pqueueIsEmpty : Option (Pqueue α) → Bool
  | none => true
  | some q => vecLen q.data = 0

def pqueueIter (q : Option (Pqueue α)) (m : Mem) :
    Option (OwnedIterT (SliceIterState α) α) × Mem :=
  match q with
  | none => (none, m)
  | some q => vecIter q.data m

def pqueueIterRev (q : Option (Pqueue α)) (m : Mem) :
    Option (OwnedIterT (SliceIterState α) α) × Mem :=
  match q with
  | none => (none, m)
  | some q => vecIterRev q.data m

def pqueueDestroy (q : Option (Pqueue α)) (m : Mem) : Mem :=
  match q with
  | none => m
  | some q => memFree (vecDestroy q.data m) (some q.addr) sizeofPqueue

/-- `add_push` of pqueue.c. -/
def pqueueAdd (cmp : α → α → Int) : AddFn (Pqueue α) α := fun q x m => pqueuePush cmp q (some x) m

def pqueueExtend {σ : Type*} (cmp : α → α → Int) (fuel : Nat) (q : Option (Pqueue α))
    (it : Option (LiveIter σ (Pqueue α) α)) (m : Mem) :
    Option (Status × Option (Pqueue α) × Mem) :=
  seqcExtendBy (pqueueAdd cmp) (fun q => vecElemSize q.data) fuel q it m

/-! ### The loops only move elements -/

theorem swapElems_perm {xs ys : List α} {i j : Nat} (h : swapElems xs i j = some ys) :
    ys.Perm xs := by
  obtain ⟨a, ha, h⟩ := Option.bind_eq_some_iff.mp h
  obtain ⟨b, hb, h⟩ := Option.bind_eq_some_iff.mp h
  obtain rfl := Option.some.inj h
  exact exchange_perm ha hb

/-- Whatever the comparator answers. -/
theorem siftUp_perm {fuel : Nat} {xs ys : List α} {i : Nat}
    (h : siftUp cmp fuel xs i = some ys) : ys.Perm xs := by
  induction fuel generalizing xs i with
  | zero => simp [siftUp] at h
  | succ fuel ih =>
    rw [siftUp] at h
    split at h
    · exact Option.some.inj h ▸ .refl _
    · obtain ⟨a, -, h⟩ := Option.bind_eq_some_iff.mp h
      obtain ⟨b, -, h⟩ := Option.bind_eq_some_iff.mp h
      split at h
      · obtain ⟨zs, swapped, h⟩ := Option.bind_eq_some_iff.mp h
        exact (ih h).trans (swapElems_perm swapped)
      · exact Option.some.inj h ▸ .refl _

theorem siftDown_perm {fuel : Nat} {xs ys : List α} {i : Nat}
    (h : siftDown cmp fuel xs i = some ys) : ys.Perm xs := by
  induction fuel generalizing xs i with
  | zero => simp [siftDown] at h
  | succ fuel ih =>
    obtain ⟨left, -, h⟩ := Option.bind_eq_some_iff.mp h
    obtain ⟨right, -, h⟩ := Option.bind_eq_some_iff.mp h
    split at h
    · exact Option.some.inj h ▸ .refl _
    · obtain ⟨zs, swapped, h⟩ := Option.bind_eq_some_iff.mp h
      exact (ih h).trans (swapElems_perm swapped)

/-- A pop leaves an empty queue alone; another it stores back with one element less. -/
theorem pqueuePop_store {q q' : Pqueue α} {out : Bool} {st : Status} {x : Option α}
    (h : pqueuePop cmp q out = some (st, x, q')) :
    (q.contents = [] ∧ q' = q) ∨
      ∃ xs, q' = q.store xs ∧ xs.length + 1 = q.contents.length ∧ (out = true → x.isSome) := by
  unfold pqueuePop at h
  by_cases empty : q.contents.length = 0
  · rw [if_pos empty] at h
    obtain ⟨-, -, rfl⟩ : .notFound = st ∧ none = x ∧ q = q' := by simpa using h
    exact .inl ⟨List.length_eq_zero_iff.mp empty, rfl⟩
  rw [if_neg empty] at h
  obtain ⟨first, -, h⟩ := Option.bind_eq_some_iff.mp h
  -- One element fewer goes into the sift, and as many come out.
  have stores (xs ys : List α) (same : xs.length = q.contents.length)
      (moved : ys.length = xs.dropLast.length)
      (done : (Status.ok, (if out then some first else none), q.store ys) = (st, x, q')) :
      ∃ xs, q' = q.store xs ∧ xs.length + 1 = q.contents.length ∧ (out = true → x.isSome) := by
    cases done
    refine ⟨ys, rfl, ?_, fun write => by simp [write]⟩
    rw [moved, List.length_dropLast, same]
    omega
  have sifts (xs : List α) (same : xs.length = q.contents.length)
      (rest : (if 0 < xs.dropLast.length then
          siftDown cmp (xs.dropLast.length + 1) xs.dropLast 0 >>= fun ys =>
            pure (Status.ok, (if out then some first else none), q.store ys)
        else pure (Status.ok, (if out then some first else none), q.store xs.dropLast)) =
          some (st, x, q')) :
      ∃ xs, q' = q.store xs ∧ xs.length + 1 = q.contents.length ∧ (out = true → x.isSome) := by
    split at rest
    · obtain ⟨ys, sifted, done⟩ := Option.bind_eq_some_iff.mp rest
      exact stores xs ys same (siftDown_perm sifted).length_eq (Option.some.inj done)
    · exact stores xs xs.dropLast same rfl (Option.some.inj rest)
  refine .inr ?_
  by_cases several : 0 < q.contents.length - 1
  · simp only [if_pos several] at h
    obtain ⟨last, -, h⟩ := Option.bind_eq_some_iff.mp h
    exact sifts (q.contents.set 0 last) List.length_set h
  · simp only [if_neg several] at h
    exact sifts q.contents rfl h

/-! ### Blocks -/

/-- The struct, the one of the vector, and the buffer if there is one. -/
def pqueueBlocks (q : Pqueue α) : Blocks := {(q.addr, sizeofPqueue)} + vecBlocks q.data

/-- The block of a slice that belongs to the caller. -/
def sliceBlocks (s : Slice α) : Blocks := bufferBlocks s.ptr (mulSize s.contents.length s.elemSize)

def PqueueSound (q : Pqueue α) (m : Mem) : Prop := ∀ v ∈ q.data, v.Sound m

/-- A call of the queue keeps to the protocol. -/
structure Queues (q : Pqueue α) (m : Mem) (q' : Pqueue α) (m' : Mem) : Prop where
  trades : m.Trades (pqueueBlocks q) m' (pqueueBlocks q')
  sound : PqueueSound q' m'

section Blocks
variable {q q' : Pqueue α}

theorem Queues.refl (sound : PqueueSound q m) : Queues q m q m := ⟨.refl m _, sound⟩

theorem Queues.of (a : Accounted q.data m q'.data m') (same : q'.addr = q.addr) :
    Queues q m q' m' := by
  refine ⟨?_, a.sound⟩
  rw [pqueueBlocks, pqueueBlocks, same]
  exact a.trades.within _ (add_comm _ _) (add_comm _ _)

/-- Other elements, none if there were none, in the same vector. -/
theorem Queues.store (h : Queues q m q' m') {xs : List α} (none_left : q'.contents = [] → xs = []) :
    Queues q m (q'.store xs) m' := by
  obtain ⟨addr, data⟩ := q'
  cases data with
  | none => exact h
  | some v =>
    refine ⟨h.trades, fun w hw => ?_⟩
    obtain rfl := Option.some.inj hw
    exact (h.sound v rfl).store fun null => none_left ((h.sound v rfl).null null).2

theorem pqueuePush_queues (sound : PqueueSound q m) {elem : Option α} {st : Status}
    (push : pqueuePush cmp q elem m = some (st, q', m')) : Queues q m q' m' := by
  cases elem with
  | none =>
    obtain ⟨-, rfl, rfl⟩ : .invalid = st ∧ q = q' ∧ m = m' := by simpa [pqueuePush] using push
    exact .refl sound
  | some x =>
    rcases pushed : vecPush q.data (some x) m with ⟨rs, data, m₁⟩
    have grown : Queues q m ⟨q.addr, data⟩ m₁ := .of (vecPush_accounted sound pushed) rfl
    simp only [pqueuePush, pushed] at push
    cases rs with
    | ok =>
      obtain ⟨xs, sifted, push⟩ := Option.bind_eq_some_iff.mp push
      obtain ⟨-, rfl, rfl⟩ : .ok = st ∧ _ = q' ∧ m₁ = m' := by simpa using push
      exact grown.store fun empty => by
        have moved := siftUp_perm sifted
        rw [empty] at moved
        exact moved.eq_nil
    | _ =>
      obtain ⟨-, rfl, rfl⟩ := by simpa using push
      exact grown

theorem pqueuePop_queues (sound : PqueueSound q m) {out : Bool} {st : Status} {x : Option α}
    (pop : pqueuePop cmp q out = some (st, x, q')) : Queues q m q' m := by
  rcases pqueuePop_store pop with ⟨-, rfl⟩ | ⟨xs, rfl, less, -⟩
  · exact .refl sound
  · exact (Queues.refl sound).store fun empty => by simp [empty] at less

theorem pqueueClear_queues (sound : PqueueSound q m) : Queues q m (pqueueClear q) m :=
  .of (.edit sound (f := fun _ => []) rfl) rfl

/-- The loop of `pqueue_drain` fills the slice it has room for. -/
theorem drainPops_queues {n : Nat} {xs : List α} (sound : PqueueSound q m)
    (len : q.contents.length = n) (pops : drainPops cmp n q = some (xs, q')) :
    Queues q m q' m ∧ xs.length = n := by
  induction n generalizing q xs with
  | zero =>
    obtain ⟨rfl, rfl⟩ : [] = xs ∧ q = q' := by simpa [drainPops] using pops
    exact ⟨.refl sound, rfl⟩
  | succ n ih =>
    obtain ⟨⟨st, x, q₁⟩, pop, pops⟩ := Option.bind_eq_some_iff.mp pops
    obtain ⟨⟨ys, q₂⟩, rest, pops⟩ := Option.bind_eq_some_iff.mp pops
    obtain ⟨rfl, rfl⟩ : x.toList ++ ys = xs ∧ q₂ = q' := by simpa using pops
    have first := pqueuePop_queues sound pop
    rcases pqueuePop_store pop with ⟨empty, -⟩ | ⟨zs, stored, less, written⟩
    · simp [empty] at len
    obtain ⟨x, rfl⟩ := Option.isSome_iff_exists.mp (written rfl)
    have here : q₁.contents.length = n := by
      rw [stored]
      cases hd : q.data with
      | none => simp [Pqueue.contents, hd, vecContents] at len
      | some v =>
        rw [(contents_store hd zs).2]
        omega
    obtain ⟨later, filled⟩ := ih first.sound here rest
    exact ⟨⟨first.trades.trans later.trades, later.sound⟩, by simp [filled]⟩

/-- The block of the slice is as large as the slice, if there is one. -/
theorem pqueueDrain_trades {s : Slice α} (sound : PqueueSound q m)
    (drain : pqueueDrain cmp q m = some (s, q', m')) :
    m.Trades (pqueueBlocks q) m' (sliceBlocks s + pqueueBlocks q') ∧ PqueueSound q' m' := by
  unfold pqueueDrain at drain
  simp only at drain
  split at drain
  · obtain ⟨rfl, rfl, rfl⟩ : _ = s ∧ q = q' ∧ m = m' := by simpa using drain
    exact ⟨.within (.refl m 0) _ (zero_add _).symm rfl, sound⟩
  split at drain
  · rename_i m₁ hm
    obtain ⟨rfl, rfl, rfl⟩ : _ = s ∧ pqueueClear q = q' ∧ m₁ = m' := by simpa using drain
    have refused := memAlloc_refused hm
    have cleared := pqueueClear_queues (fun v hv => (sound v hv).later
      refused.later.requests_le)
    refine ⟨?_, cleared.sound⟩
    rw [show sliceBlocks (⟨none, [], vecElemSize q.data⟩ : Slice α) = 0 from rfl, zero_add]
    exact (refused.within _ (zero_add _).symm (zero_add _).symm).trans cleared.trades
  · rename_i buf m₁ hm
    obtain ⟨⟨xs, q₁⟩, pops, drain⟩ := Option.bind_eq_some_iff.mp drain
    obtain ⟨rfl, rfl, rfl⟩ : _ = s ∧ q₁ = q' ∧ m₁ = m' := by simpa using drain
    have granted := memAlloc_trades hm
    obtain ⟨step, filled⟩ := drainPops_queues (fun v hv => (sound v hv).later
      granted.later.requests_le) rfl pops
    refine ⟨(granted.within _ (zero_add _).symm rfl).trans
      (step.trades.within _ (add_comm _ _) ?_), step.sound⟩
    rw [sliceBlocks, filled, add_comm]
    rfl

theorem pqueueStep_queues (sound : PqueueSound q m) {op : PqueueOp α} (plain : op ≠ .drain)
    {out : PqueueAnswer α} (step : pqueueStep cmp op (q, m) = some (out, q', m')) :
    Queues q m q' m' := by
  cases op with
  | push elem =>
    obtain ⟨⟨st, q₁, m₁⟩, push, step⟩ := Option.bind_eq_some_iff.mp step
    obtain ⟨-, rfl, rfl⟩ : _ = out ∧ q₁ = q' ∧ m₁ = m' := by simpa using step
    exact pqueuePush_queues sound push
  | pop write =>
    obtain ⟨⟨st, x, q₁⟩, pop, step⟩ := Option.bind_eq_some_iff.mp step
    obtain ⟨-, rfl, rfl⟩ : _ = out ∧ q₁ = q' ∧ m = m' := by simpa using step
    exact pqueuePop_queues sound pop
  | peek write =>
    obtain ⟨-, rfl, rfl⟩ : _ = out ∧ q = q' ∧ m = m' := by simpa [pqueueStep] using step
    exact .refl sound
  | clear =>
    obtain ⟨-, rfl, rfl⟩ : _ = out ∧ pqueueClear q = q' ∧ m = m' := by
      simpa [pqueueStep] using step
    exact pqueueClear_queues sound
  | drain => exact absurd rfl plain

theorem pqueueDestroy_trades (q : Pqueue α) (m : Mem) :
    m.Trades (pqueueBlocks q) (pqueueDestroy (some q) m) 0 :=
  ((vecDestroy_trades m).within {(q.addr, sizeofPqueue)} (add_comm _ _) (zero_add _).symm).trans
    (memFree_trades _ q.addr sizeofPqueue)

/-- A queue that was created has its struct, and a vector behind it unless that was refused. -/
theorem pqueueCreate_trades {elemSize : Nat} {r : Option (Pqueue α)}
    (created : pqueueCreate α elemSize m = (r, m')) :
    m.Trades 0 m' (r.elim 0 pqueueBlocks) ∧ ∀ q ∈ r, PqueueSound q m' := by
  unfold pqueueCreate at created
  split at created
  · rename_i hm
    cases created
    exact ⟨memAlloc_refused hm, by simp⟩
  · rename_i addr m₁ hm
    rcases hv : vecCreate α elemSize m₁ with ⟨data, m₂⟩
    rw [hv] at created
    cases created
    obtain ⟨trades, sound⟩ := vecStart_accounted (show vecStart α elemSize none m₁ = _ from hv)
    exact ⟨(memAlloc_trades hm).trans (trades.within {(addr, sizeofPqueue)} (zero_add _).symm
      (add_comm _ _)), fun q hq => Option.some.inj hq ▸ sound⟩

end Blocks

/-! ### A queue and its slices -/

inductive PqueueCall (α : Type) where
  | op (op : PqueueOp α)
  | len
  | isEmpty
  | iter (rev : Bool)
  /-- `mem_free` of a slice that was drained before. -/
  | release (i : Nat)

inductive PqueueReply (α : Type) where
  | of (a : PqueueAnswer α)
  | size (n : Nat)
  | items (xs : Option (List α))

/-- The queue, the slices that were drained and not freed, and the allocator. -/
abbrev Drained (α : Type) := (Pqueue α × List (Slice α)) × Mem

/-- `mem_free(a, s.ptr, s.len * s.elem_size)`; `ptr` may be NULL. -/
def sliceFree (s : Slice α) (m : Mem) : Mem :=
  memFree m s.ptr (mulSize s.contents.length s.elemSize)

@[simp] theorem sliceFree_refusals (s : Slice α) (m : Mem) :
    (sliceFree s m).refusals = m.refusals :=
  memFree_refusals m s.ptr _

def pqueueCall (cmp : α → α → Int) (call : PqueueCall α) (s : Drained α) :
    Option (PqueueReply α × Drained α) :=
  match call with
  | .op .drain => do
    let (slice, q, m) ← pqueueDrain cmp s.1.1 s.2
    pure (.of (.slice slice.contents), (q, slice :: s.1.2), m)
  | .op op => do
    let (out, q, m) ← pqueueStep cmp op (s.1.1, s.2)
    pure (.of out, (q, s.1.2), m)
  | .len => some (.size (pqueueLen s.1.1), s)
  | .isEmpty => some (.of (.of (.answer (pqueueIsEmpty (some s.1.1)))), s)
  | .iter rev => do
    let it := if rev then pqueueIterRev (some s.1.1) s.2 else pqueueIter (some s.1.1) s.2
    let (xs, m) ← iterItems (pqueueLen s.1.1 + 1) (it.1.map OwnedIterT.toIterT) it.2
    pure (.items xs, s.1, m)
  | .release i =>
    match s.1.2[i]? with
    | none => some (.of (.of .nothing), s)
    | some slice => some (.of (.of .nothing), (s.1.1, s.1.2.eraseIdx i), sliceFree slice s.2)

/-- What a multiset answers; iterators go over its elements in an unspecified order. -/
inductive PqueueCalled (cmp : α → α → Int) (live : Bool) :
    Multiset α × Nat → PqueueCall α → PqueueReply α → Multiset α × Nat → Prop
  | op {g op out g'} (step : QueueStep cmp live g op out g') :
      PqueueCalled cmp live g (.op op) (.of out) g'
  | len (s n) : PqueueCalled cmp live (s, n) .len (.size s.card) (s, n)
  | isEmpty (s n) :
      PqueueCalled cmp live (s, n) .isEmpty (.of (.of (.answer (s.card = 0)))) (s, n)
  | iter (xs : List α) (n rev) (real : live = true) :
      PqueueCalled cmp live ((xs : Multiset α), n) (.iter rev) (.items (some xs)) (xs, n)
  | iterOom (s n n' rev) (refused : n < n') :
      PqueueCalled cmp live (s, n) (.iter rev) (.items none) (s, n')
  | iterInvalid (g rev) (null : live = false) :
      PqueueCalled cmp live g (.iter rev) (.items none) g
  | release (g i) : PqueueCalled cmp live g (.release i) (.of (.of .nothing)) g

section Calls
variable {q q' : Pqueue α} {held held' : List (Slice α)}

/-- An iterator is read, or its state block was refused. -/
theorem readItems_spec {it : Option (OwnedIterT (SliceIterState α) α) × Mem} {ys : List α}
    {n : Nat} (len : n = ys.length)
    (read : (∃ i m₁ m', it = (some i, m₁) ∧
        iterItems (ys.length + 1) (some i.toIterT) m₁ = some (some ys, m') ∧
        m'.refusals = m.refusals) ∨ ∃ m', it = (none, m') ∧ m.refusals < m'.refusals) :
    ∃ xs m', iterItems (n + 1) (it.1.map OwnedIterT.toIterT) it.2 = some (xs, m') ∧
      (xs = none ∧ m.refusals < m'.refusals ∨ xs = some ys ∧ m'.refusals = m.refusals) := by
  subst len
  rcases read with ⟨i, m₁, m', rfl, read, quiet⟩ | ⟨m', rfl, more⟩
  · exact ⟨some ys, m', read, .inr ⟨rfl, quiet⟩⟩
  · exact ⟨none, m', rfl, .inl ⟨rfl, more⟩⟩

/-- Both iterators go over the elements of the heap. -/
theorem pqueueIter_items {v : Vec α} (hv : q.data = some v) (rev : Bool) (m : Mem) :
    ∃ xs m', iterItems (pqueueLen q + 1)
        ((if rev then pqueueIterRev (some q) m else pqueueIter (some q) m).1.map
          OwnedIterT.toIterT)
        (if rev then pqueueIterRev (some q) m else pqueueIter (some q) m).2 = some (xs, m') ∧
      (xs = none ∧ m.refusals < m'.refusals ∨
        ∃ ys, xs = some ys ∧ ys.Perm q.contents ∧ m'.refusals = m.refusals) := by
  obtain ⟨addr, data⟩ := q
  obtain rfl := hv
  cases rev with
  | false =>
    obtain ⟨xs, m', read, outcome⟩ := readItems_spec (n := v.contents.length) rfl
      (sliceIter_items ⟨v.dataAddr, v.contents, v.elemSize⟩ m)
    refine ⟨xs, m', read, outcome.imp_right fun h => ⟨_, h.1, .refl _, h.2⟩⟩
  | true =>
    have back := sliceIterRev_items ⟨v.dataAddr, v.contents, v.elemSize⟩ m
    rw [← List.length_reverse] at back
    obtain ⟨xs, m', read, outcome⟩ := readItems_spec (n := v.contents.length)
      List.length_reverse.symm back
    exact ⟨xs, m', read, outcome.imp_right fun h => ⟨_, h.1, List.reverse_perm _, h.2⟩⟩

/-- The blocks of the slices that were drained and not freed. -/
def slicesBlocks (held : List (Slice α)) : Blocks := (held.map sliceBlocks).sum

def drainedBlocks (s : Drained α) : Blocks := pqueueBlocks s.1.1 + slicesBlocks s.1.2

theorem sliceFree_trades (s : Slice α) (m : Mem) : m.Trades (sliceBlocks s) (sliceFree s m) 0 := by
  obtain ⟨ptr, contents, elemSize⟩ := s
  cases ptr with
  | none => exact ⟨Mem.Later.refl.free _ _, _, rfl, fun _ => rfl⟩
  | some addr => exact memFree_trades m addr _

theorem slicesBlocks_eraseIdx {i : Nat} {s : Slice α} (h : held[i]? = some s) :
    slicesBlocks held = sliceBlocks s + slicesBlocks (held.eraseIdx i) := by
  induction held generalizing i with
  | nil => simp at h
  | cons t held ih =>
    cases i with
    | zero =>
      obtain rfl := Option.some.inj h
      rfl
    | succ i =>
      simp only [slicesBlocks, List.map_cons, List.sum_cons, List.eraseIdx_cons_succ] at ih ⊢
      rw [ih h]
      abel

/-- The slices are freed one after the other. -/
theorem sliceFree_all (held : List (Slice α)) (m : Mem) :
    m.Trades (slicesBlocks held) (held.foldl (fun m s => sliceFree s m) m) 0 := by
  induction held generalizing m with
  | nil => exact .refl m 0
  | cons s held ih =>
    exact ((sliceFree_trades s m).within (slicesBlocks held) rfl (zero_add _).symm).trans (ih _)

/-- What is done with a queue and its slices trades their blocks. -/
theorem pqueueCall_trades {s s' : Drained α} (sound : PqueueSound s.1.1 s.2) {call : PqueueCall α}
    {out : PqueueReply α} (step : pqueueCall cmp call s = some (out, s')) :
    s.2.Trades (drainedBlocks s) s'.2 (drainedBlocks s') ∧ PqueueSound s'.1.1 s'.2 := by
  obtain ⟨⟨q, held⟩, m⟩ := s
  simp only at sound
  have plain (op : PqueueOp α) (plain : op ≠ .drain)
      (step : (do
        let (out, q, m) ← pqueueStep cmp op (q, m)
        pure (PqueueReply.of out, (q, held), m)) = some (out, s')) :
      m.Trades (drainedBlocks ((q, held), m)) s'.2 (drainedBlocks s') ∧
        PqueueSound s'.1.1 s'.2 := by
    obtain ⟨⟨a, q₁, m₁⟩, call, step⟩ := Option.bind_eq_some_iff.mp step
    obtain ⟨-, rfl⟩ : _ = out ∧ ((q₁, held), m₁) = s' := by simpa using step
    have kept := pqueueStep_queues sound plain call
    exact ⟨kept.trades.within _ rfl rfl, kept.sound⟩
  cases call with
  | op op =>
    cases op with
    | drain =>
      obtain ⟨⟨slice, q₁, m₁⟩, drain, step⟩ := Option.bind_eq_some_iff.mp step
      obtain ⟨-, rfl⟩ : _ = out ∧ ((q₁, slice :: held), m₁) = s' := by simpa using step
      obtain ⟨trades, sound'⟩ := pqueueDrain_trades sound drain
      refine ⟨trades.within (slicesBlocks held) rfl ?_, sound'⟩
      simp only [drainedBlocks, slicesBlocks, List.map_cons, List.sum_cons]
      abel
    | push elem => exact plain (.push elem) (by simp) step
    | pop write => exact plain (.pop write) (by simp) step
    | peek write => exact plain (.peek write) (by simp) step
    | clear => exact plain .clear (by simp) step
  | len | isEmpty =>
    obtain ⟨-, rfl⟩ : _ = out ∧ ((q, held), m) = s' := by simpa [pqueueCall] using step
    exact ⟨.refl m _, sound⟩
  | iter rev =>
    obtain ⟨⟨xs, m₁⟩, read, step⟩ := Option.bind_eq_some_iff.mp step
    obtain ⟨-, rfl⟩ : _ = out ∧ ((q, held), m₁) = s' := by simpa using step
    have quiet : m.Trades 0 m₁ 0 := by
      obtain ⟨addr, data⟩ := q
      cases data with
      | none =>
        cases rev <;>
        · obtain ⟨-, rfl⟩ := Prod.mk.inj (Option.some.inj read)
          exact .refl m 0
      | some v =>
        cases rev with
        | false =>
          exact cursorItems_trades (show cursorIter sliceNext Iter.sizeofSliceState v.elemSize
            (some ⟨v.contents, 0⟩) m = pqueueIter (some ⟨addr, some v⟩) m from rfl) read
        | true =>
          exact cursorItems_trades (show cursorIter sliceRevNext Iter.sizeofSliceState v.elemSize
            (some ⟨v.contents, v.contents.length⟩) m = pqueueIterRev (some ⟨addr, some v⟩) m
            from rfl) read
    exact ⟨quiet.within _ (zero_add _).symm (zero_add _).symm,
      fun v hv => (sound v hv).later quiet.later.requests_le⟩
  | release i =>
    simp only [pqueueCall] at step
    split at step
    · obtain ⟨-, rfl⟩ : _ = out ∧ ((q, held), m) = s' := by simpa using step
      exact ⟨.refl m _, sound⟩
    · rename_i slice here
      obtain ⟨-, rfl⟩ : _ = out ∧ ((q, held.eraseIdx i), sliceFree slice m) = s' := by
        simpa using step
      have freed := sliceFree_trades slice m
      refine ⟨freed.within (pqueueBlocks q + slicesBlocks (held.eraseIdx i)) ?_ (zero_add _).symm,
        fun v hv => (sound v hv).later freed.later.requests_le⟩
      simp only [drainedBlocks, slicesBlocks_eraseIdx here]
      abel

theorem pqueueCall_refines (laws : Laws cmp) (live : Bool) (call : PqueueCall α) (s : Drained α)
    (g : Multiset α × Nat) (h : QueueState cmp live (s.1.1, s.2) g) :
    ∃ out s' g', pqueueCall cmp call s = some (out, s') ∧ PqueueCalled cmp live g call out g' ∧
      QueueState cmp live (s'.1.1, s'.2) g' := by
  obtain ⟨⟨q, held⟩, m⟩ := s
  have plain (op : PqueueOp α) (same : pqueueCall cmp (.op op) ((q, held), m) = (do
        let (out, q, m) ← pqueueStep cmp op (q, m)
        pure (PqueueReply.of out, (q, held), m))) :
      ∃ out s' g', pqueueCall cmp (.op op) ((q, held), m) = some (out, s') ∧
        PqueueCalled cmp live g (.op op) out g' ∧ QueueState cmp live (s'.1.1, s'.2) g' := by
    obtain ⟨out, ⟨q', m'⟩, g', call, step, state⟩ := pqueueStep_refines laws live op (q, m) g h
    exact ⟨_, ((q', held), m'), g', by rw [same, call]; rfl, .op step, state⟩
  cases call with
  | op op =>
    cases op with
    | drain =>
      obtain ⟨out, ⟨q', m'⟩, g', call, step, state⟩ :=
        pqueueStep_refines laws live .drain (q, m) g h
      obtain ⟨⟨slice, q₁, m₁⟩, drain, call⟩ := Option.bind_eq_some_iff.mp call
      obtain ⟨rfl, rfl, rfl⟩ : .slice slice.contents = out ∧ q₁ = q' ∧ m₁ = m' := by
        simpa using call
      exact ⟨_, ((q₁, slice :: held), m₁), g', by simp only [pqueueCall, drain]; rfl, .op step,
        state⟩
    | push elem => exact plain (.push elem) rfl
    | pop write => exact plain (.pop write) rfl
    | peek write => exact plain (.peek write) rfl
    | clear => exact plain .clear rfl
  | len =>
    obtain ⟨real, ordered, rfl⟩ := h
    exact ⟨_, _, _, rfl, .len _ _, real, ordered, rfl⟩
  | isEmpty =>
    obtain ⟨real, ordered, rfl⟩ := h
    exact ⟨_, _, _, rfl, .isEmpty _ _, real, ordered, rfl⟩
  | iter rev =>
    obtain ⟨real, ordered, rfl⟩ := h
    cases hd : q.data with
    | none =>
      refine ⟨.items none, ((q, held), m), _, ?_, .iterInvalid _ rev ?_, real, ordered, rfl⟩
      · cases rev <;> simp [pqueueCall, pqueueIter, pqueueIterRev, hd, vecIter, vecIterRev,
          iterItems]
      · rw [← real, hd]
        rfl
    | some v =>
      obtain ⟨xs, m', read, outcome⟩ := pqueueIter_items hd rev m
      have call : pqueueCall cmp (.iter rev) ((q, held), m) =
          some (.items xs, (q, held), m') := by
        simp only [pqueueCall, read]
        rfl
      refine ⟨_, ((q, held), m'), ((q.contents : Multiset α), m'.refusals), call, ?_, real,
        ordered, rfl⟩
      rcases outcome with ⟨rfl, more⟩ | ⟨ys, rfl, perm, quiet⟩
      · exact .iterOom _ _ _ rev more
      · rw [quiet, ← Multiset.coe_eq_coe.mpr perm]
        exact .iter ys _ rev (by rw [← real, hd]; rfl)
  | release i =>
    simp only [pqueueCall]
    cases held[i]? with
    | none => exact ⟨_, _, _, rfl, .release g i, h⟩
    | some slice =>
      obtain ⟨real, ordered, rfl⟩ := h
      refine ⟨_, _, _, rfl, .release _ i, real, ordered, ?_⟩
      simp only [sliceFree_refusals]

end Calls

/-- Every run from `pqueue_create` is one of a multiset from which least elements are taken.
At its end the live blocks are the two structs, the buffer, and one for each slice that was
drained and not freed, as large as the slice. The slices outlive the queue; when they are freed
too, in any order, nothing is left. -/
theorem pqueue_drain_owns (laws : Laws cmp) {elemSize : Nat} {m₀ m₁ : Mem} {q₀ : Pqueue α}
    (created : pqueueCreate α elemSize m₀ = (some q₀, m₁)) (calls : List (PqueueCall α)) :
    ∃ outs q held m, run (pqueueCall cmp) calls ((q₀, []), m₁) = some (outs, ((q, held), m)) ∧
      SpecRun (PqueueCalled cmp q₀.data.isSome) (0, m₁.refusals) calls outs
        ((q.contents : Multiset α), m.refusals) ∧
      m₀.Trades 0 m (pqueueBlocks q + slicesBlocks held) ∧
      ((pqueueBlocks q + slicesBlocks held).map Prod.fst).Nodup ∧
      m₀.Trades 0 (pqueueDestroy (some q) m) (slicesBlocks held) ∧
      ∀ slices : List (Slice α), slices.Perm held →
        m₀.Trades 0 (slices.foldl (fun m s => sliceFree s m) (pqueueDestroy (some q) m)) 0 := by
  obtain ⟨trades₀, sound₀⟩ := pqueueCreate_trades created
  obtain ⟨empty, -, -⟩ := pqueueCreate_spec created
  obtain ⟨outs, ⟨⟨q, held⟩, m⟩, g, ran, spec, ⟨-, -, rfl⟩, -, trades⟩ :=
    run_refines (pqueueCall cmp) (PqueueCalled cmp q₀.data.isSome)
      (R := fun s g => QueueState cmp q₀.data.isSome (s.1.1, s.2) g ∧ PqueueSound s.1.1 s.2 ∧
        m₀.Trades 0 s.2 (drainedBlocks s))
      (fun call s g h => by
        obtain ⟨out, s', g', step, spec, state⟩ :=
          pqueueCall_refines laws q₀.data.isSome call s g h.1
        obtain ⟨traded, sound⟩ := pqueueCall_trades h.2.1 step
        exact ⟨out, s', g', step, spec, state, sound, h.2.2.trans traded⟩)
      calls (s := ((q₀, []), m₁)) (g := (0, m₁.refusals))
      ⟨⟨rfl, empty ▸ ordered_nil, by simp [empty]⟩, sound₀ q₀ rfl,
        by simpa [drainedBlocks, slicesBlocks] using trades₀⟩
  have destroyed := trades.trans ((pqueueDestroy_trades q m).within (slicesBlocks held) rfl
    (zero_add _).symm)
  refine ⟨outs, q, held, m, ran, spec, trades, trades.distinct.nodup, destroyed,
    fun slices order => destroyed.trans ?_⟩
  have same : slicesBlocks held = slicesBlocks slices := (order.map sliceBlocks).sum_eq.symm
  rw [same]
  exact sliceFree_all slices _

/-- A run with two drained slices, of which the first is freed early. -/
theorem pqueue_drain_owns_ints :
    ∃ outs q held m, run (pqueueCall intCmp)
        [.op (.push (some 3)), .op .drain, .op (.push (some 1)), .op (.push (some 0)), .op .drain,
          .release 1] ((⟨0, some ⟨1, none, [], 0, 4, by decide⟩⟩, []),
          ⟨refusingOnce 9, 2, [.alloc 0 32, .alloc 1 48]⟩) = some (outs, ((q, held), m)) ∧
      (Mem.start (refusingOnce 9)).Trades 0 m (pqueueBlocks q + slicesBlocks held) := by
  have created : pqueueCreate Int 4 (.start (refusingOnce 9)) =
      (some ⟨0, some ⟨1, none, [], 0, 4, by decide⟩⟩,
        ⟨refusingOnce 9, 2, [.alloc 0 32, .alloc 1 48]⟩) := rfl
  obtain ⟨outs, q, held, m, ran, -, trades, -⟩ := pqueue_drain_owns intCmp_laws created
    [.op (.push (some 3)), .op .drain, .op (.push (some 1)), .op (.push (some 0)), .op .drain,
      .release 1]
  exact ⟨outs, q, held, m, ran, trades⟩

end Seqc
