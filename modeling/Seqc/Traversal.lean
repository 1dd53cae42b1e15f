import Seqc.Bstree
import Seqc.Omap
import Seqc.Custody

/-! The iterators of bstree.c, avl.c and omap.c: traversals with a stack of nodes that grows
while they run. The three files have the same functions, as have the two directions; they
differ in what a node holds and in which child comes first. -/

namespace Seqc

variable {ι δ κ ν α : Type}

/-- The states of the iterators, the top of the stack first. Only the range iterators have a
copy of their upper bound. -/
structure TreeIterState (ι δ : Type) where
  addr : Nat
  stack : Option Nat
  nodes : List (Tree ι δ)
  cap : Nat
  current : Tree ι δ
  hi : Option Nat
  null : stack = none → cap = 0

def sizeofTreeIterState : Nat := 56
def sizeofTreeRangeIterState : Nat := 72
def sizeofNodePointer : Nat := 8
def sizeofOmapEntry : Nat := 16

/-- `BTREE_ITER_STACK_INIT_CAP` and its two copies. -/
def treeIterStackInitCap : Nat := 16

def treeStackPush (st : TreeIterState ι δ) (node : Tree ι δ) (m : Mem) :
    Bool × TreeIterState ι δ × Mem :=
  if st.nodes.length = st.cap then
    let newCap := if st.cap = 0 then treeIterStackInitCap else mulSize st.cap 2
    match memRealloc m st.stack (mulSize st.cap sizeofNodePointer)
      (mulSize newCap sizeofNodePointer) with
    | (none, m) => (false, st, m)
    | (some grown, m) =>
      (true, { st with
        stack := some grown, nodes := node :: st.nodes, cap := newCap, null := by simp }, m)
  else (true, { st with nodes := node :: st.nodes }, m)

/-- The loop that pushes the spine of `current`, to the left or, in reverse, to the right. -/
def pushSpine (rev : Bool) : Tree ι δ → TreeIterState ι δ → Mem → Bool × TreeIterState ι δ × Mem
  | .nil, st, m => (true, { st with current := .nil }, m)
  | .node a i l d r, st, m =>
    match treeStackPush st (.node a i l d r) m with
    | (false, st, m) => (false, { st with current := .node a i l d r }, m)
    | (true, st, m) => if rev then pushSpine rev r st m else pushSpine rev l st m

/-- The `next` functions; `beyond` says that the data lies above the upper bound. -/
def treeIterNext (rev : Bool) (beyond : δ → Bool) (st : TreeIterState ι δ) (m : Mem) :
    Option (Option δ × TreeIterState ι δ × Mem) :=
  match pushSpine rev st.current st m with
  | (false, st, m) => some (none, st, m)
  | (true, st, m) =>
    match st.nodes with
    | [] => some (none, st, m)
    | .nil :: _ => none
    | .node _ _ l d r :: nodes =>
      if beyond d then some (none, { st with nodes := [], current := .nil }, m)
      else some (some d, { st with nodes := nodes, current := if rev then l else r }, m)

/-- `bstree_push_lo` and its two copies; `before` says that the data lies below the lower
bound. -/
def treePushLo (before : δ → Bool) :
    Tree ι δ → TreeIterState ι δ → Mem → TreeIterState ι δ × Mem
  | .nil, st, m => (st, m)
  | .node a i l d r, st, m =>
    if before d then treePushLo before r st m
    else
      match treeStackPush st (.node a i l d r) m with
      | (false, st, m) => (st, m)
      | (true, st, m) => treePushLo before l st m

/-- The `drop` functions. -/
def treeIterDrop (size hiSize : Nat) (st : TreeIterState ι δ) (m : Mem) : Mem :=
  let m := match st.stack with
    | none => m
    | some stack => memFree m (some stack) (mulSize st.cap sizeofNodePointer)
  let m := match st.hi with
    | none => m
    | some hi => memFree m (some hi) hiSize
  memFree m (some st.addr) size

/-! ### What the iterators own -/

def TreeIterState.blocks (size hiSize : Nat) (st : TreeIterState ι δ) : Blocks :=
  {(st.addr, size)} + bufferBlocks st.stack (mulSize st.cap sizeofNodePointer) +
    bufferBlocks st.hi hiSize

section Trades
variable (size hiSize : Nat) {st st' : TreeIterState ι δ} {m m' : Mem} {done rev : Bool}
  {before beyond : δ → Bool}

/-- Either there is room on the stack, or it is requested anew. -/
theorem treeStackPush_cases {node : Tree ι δ} (push : treeStackPush st node m = (done, st', m')) :
    (st.nodes.length ≠ st.cap ∧ done = true ∧ st' = { st with nodes := node :: st.nodes } ∧
      m' = m) ∨
    st.nodes.length = st.cap ∧ ∃ r,
      memRealloc m st.stack (mulSize st.cap sizeofNodePointer)
        (mulSize (if st.cap = 0 then treeIterStackInitCap else mulSize st.cap 2)
          sizeofNodePointer) = (r, m') ∧
      done = r.isSome ∧
      st' = r.elim st fun grown => { st with
        stack := some grown
        nodes := node :: st.nodes
        cap := if st.cap = 0 then treeIterStackInitCap else mulSize st.cap 2
        null := by simp } := by
  unfold treeStackPush at push
  by_cases full : st.nodes.length = st.cap
  · rw [if_pos full] at push
    refine .inr ⟨full, ?_⟩
    rcases hm : memRealloc m st.stack (mulSize st.cap sizeofNodePointer)
      (mulSize (if st.cap = 0 then treeIterStackInitCap else mulSize st.cap 2) sizeofNodePointer)
      with ⟨_ | grown, m₁⟩
    · simp only [hm] at push
      obtain ⟨rfl, rfl, rfl⟩ : false = done ∧ st = st' ∧ m₁ = m' := by simpa using push
      exact ⟨none, rfl, rfl, rfl⟩
    · simp only [hm] at push
      obtain ⟨rfl, rfl, rfl⟩ : true = done ∧ _ = st' ∧ m₁ = m' := by simpa using push
      exact ⟨some grown, rfl, rfl, rfl⟩
  · rw [if_neg full] at push
    obtain ⟨rfl, rfl, rfl⟩ : true = done ∧ _ = st' ∧ m = m' := by simpa using push
    exact .inl ⟨full, rfl, rfl, rfl⟩

theorem treeStackPush_trades {node : Tree ι δ}
    (push : treeStackPush st node m = (done, st', m')) :
    m.Trades (st.blocks size hiSize) m' (st'.blocks size hiSize) := by
  obtain ⟨-, -, rfl, rfl⟩ | ⟨-, r, hm, -, rfl⟩ := treeStackPush_cases push
  · exact .refl m' _
  · have trades := memRealloc_buffer (fun none => by simp [st.null none, mulSize]) hm
    cases r with
    | none =>
      refine trades.within ({(st.addr, size)} + bufferBlocks st.hi hiSize) ?_ ?_ <;>
      · simp only [TreeIterState.blocks, Option.elim_none]
        abel
    | some grown =>
      refine trades.within ({(st.addr, size)} + bufferBlocks st.hi hiSize) ?_ ?_ <;>
      · simp only [TreeIterState.blocks, Option.elim_some, bufferBlocks]
        abel

theorem pushSpine_trades (t : Tree ι δ) (push : pushSpine rev t st m = (done, st', m')) :
    m.Trades (st.blocks size hiSize) m' (st'.blocks size hiSize) := by
  induction t generalizing st m with
  | nil =>
    obtain ⟨-, rfl, rfl⟩ : true = done ∧ _ = st' ∧ m = m' := by simpa [pushSpine] using push
    exact .refl m _
  | node a i l d r ihl ihr =>
    rcases first : treeStackPush st (.node a i l d r) m with ⟨_ | _, st₁, m₁⟩
    · have trades := treeStackPush_trades size hiSize first
      obtain ⟨-, rfl, rfl⟩ : false = done ∧ _ = st' ∧ m₁ = m' := by
        simpa [pushSpine, first] using push
      exact trades
    · have trades := treeStackPush_trades size hiSize first
      cases rev with
      | false => exact trades.trans (ihl (by simpa [pushSpine, first] using push))
      | true => exact trades.trans (ihr (by simpa [pushSpine, first] using push))

theorem treePushLo_trades (t : Tree ι δ) (push : treePushLo before t st m = (st', m')) :
    m.Trades (st.blocks size hiSize) m' (st'.blocks size hiSize) := by
  induction t generalizing st m with
  | nil =>
    obtain ⟨rfl, rfl⟩ : st = st' ∧ m = m' := by simpa [treePushLo] using push
    exact .refl m _
  | node a i l d r ihl ihr =>
    cases hb : before d with
    | true => exact ihr (by simpa [treePushLo, hb] using push)
    | false =>
      rcases first : treeStackPush st (.node a i l d r) m with ⟨_ | _, st₁, m₁⟩
      · obtain ⟨rfl, rfl⟩ : st₁ = st' ∧ m₁ = m' := by simpa [treePushLo, hb, first] using push
        exact treeStackPush_trades size hiSize first
      · exact (treeStackPush_trades size hiSize first).trans
          (ihl (by simpa [treePushLo, hb, first] using push))

theorem treeIterNext_trades {x : Option δ}
    (next : treeIterNext rev beyond st m = some (x, st', m')) :
    m.Trades (st.blocks size hiSize) m' (st'.blocks size hiSize) := by
  rcases push : pushSpine rev st.current st m with ⟨_ | _, st₁, m₁⟩
  · obtain ⟨-, rfl, rfl⟩ : none = x ∧ st₁ = st' ∧ m₁ = m' := by
      simpa [treeIterNext, push] using next
    exact pushSpine_trades size hiSize _ push
  · have trades := pushSpine_trades size hiSize _ push
    match top : st₁.nodes with
    | [] =>
      obtain ⟨-, rfl, rfl⟩ : none = x ∧ st₁ = st' ∧ m₁ = m' := by
        simpa [treeIterNext, push, top] using next
      exact trades
    | .nil :: nodes => simp [treeIterNext, push, top] at next
    | .node a i l d r :: nodes =>
      cases hb : beyond d with
      | true =>
        obtain ⟨-, rfl, rfl⟩ : none = x ∧ _ = st' ∧ m₁ = m' := by
          simpa [treeIterNext, push, top, hb] using next
        exact trades
      | false =>
        obtain ⟨-, rfl, rfl⟩ : some d = x ∧ _ = st' ∧ m₁ = m' := by
          simpa [treeIterNext, push, top, hb] using next
        exact trades

theorem treeIterDrop_trades (st : TreeIterState ι δ) (m : Mem) :
    m.Trades (st.blocks size hiSize) (treeIterDrop size hiSize st m) 0 := by
  obtain ⟨addr, stack, nodes, cap, current, hi, null⟩ := st
  have last (m : Mem) := memFree_trades m addr size
  have bound (m : Mem) : m.Trades ({(addr, size)} + bufferBlocks hi hiSize)
      (treeIterDrop size hiSize ⟨addr, none, nodes, 0, current, hi, fun _ => rfl⟩ m) 0 := by
    cases hi with
    | none => exact (last m).within 0 rfl rfl
    | some hi =>
      exact ((memFree_trades m hi hiSize).within _ (add_comm _ _) (zero_add _).symm).trans (last _)
  cases stack with
  | none => exact (bound m).within 0 (by simp [TreeIterState.blocks, bufferBlocks]) rfl
  | some stack =>
    have first := (memFree_trades m stack (mulSize cap sizeofNodePointer)).within
      ({(addr, size)} + bufferBlocks hi hiSize) rfl (zero_add _).symm
    refine (first.trans (bound _)).within 0 ?_ rfl
    simp only [TreeIterState.blocks, bufferBlocks, Option.elim_some]
    abel

end Trades

/-! ### The iterators -/

/-- An iterator over nodes from the state on, with what it owns. -/
def treeIterT (rev : Bool) (beyond : δ → Bool) (size hiSize elemSize : Nat)
    (st : TreeIterState ι δ) : OwnedIterT (TreeIterState ι δ) δ where
  next _ st m := treeIterNext rev beyond st m
  destroy := treeIterDrop size hiSize
  state := st
  elemSize := elemSize
  owned := TreeIterState.blocks size hiSize
  custody := ⟨treeIterNext_trades size hiSize, treeIterDrop_trades size hiSize⟩
  mono _ _ _ _ h := h
  quiet st m := by
    obtain ⟨addr, stack, nodes, cap, current, hi, null⟩ := st
    cases stack <;> cases hi <;> simp [treeIterDrop]

/-- `X_iter` and `X_iter_rev` for a tree that is not NULL. -/
def treeIter (rev : Bool) (elemSize : Nat) (root : Tree ι δ) (m : Mem) :
    Option (OwnedIterT (TreeIterState ι δ) δ) × Mem :=
  match memAlloc m sizeofTreeIterState with
  | (none, m) => (none, m)
  | (some addr, m) =>
    (some (treeIterT rev (fun _ => false) sizeofTreeIterState 0 elemSize
      ⟨addr, none, [], 0, root, none, fun _ => rfl⟩), m)

/-- The state of `X_iter_range` and its priming from `lo`. A refused push leaves it with what
was pushed. -/
def treeRangeStart (cmp : κ → κ → Int) (key : δ → κ) (root : Tree ι δ) (lo : Option κ) (addr : Nat)
    (hiCopy : Option Nat) (m : Mem) : TreeIterState ι δ × Mem :=
  match lo with
  | none => (⟨addr, none, [], 0, root, hiCopy, fun _ => rfl⟩, m)
  | some lo =>
    treePushLo (fun d => decide (cmp (key d) lo < 0)) root
      ⟨addr, none, [], 0, .nil, hiCopy, fun _ => rfl⟩ m

/-- The iterator of a range, in some state. -/
def treeRangeT (cmp : κ → κ → Int) (key : δ → κ) (hiSize elemSize : Nat) (hi : Option κ)
    (st : TreeIterState ι δ) : OwnedIterT (TreeIterState ι δ) δ :=
  treeIterT false (fun d => hi.any fun hi => decide (0 < cmp (key d) hi))
    sizeofTreeRangeIterState hiSize elemSize st

/-- `X_iter_range` for a tree that is not NULL; the copy of `hi` has the size `hiSize`. -/
def treeIterRange (cmp : κ → κ → Int) (key : δ → κ) (hiSize elemSize : Nat) (root : Tree ι δ)
    (lo hi : Option κ) (m : Mem) : Option (OwnedIterT (TreeIterState ι δ) δ) × Mem :=
  match memAlloc m sizeofTreeRangeIterState with
  | (none, m) => (none, m)
  | (some addr, m) =>
    match hi with
    | none =>
      let (st, m) := treeRangeStart cmp key root lo addr none m
      (some (treeRangeT cmp key hiSize elemSize none st), m)
    | some hi =>
      match memAlloc m hiSize with
      | (none, m) => (none, memFree m (some addr) sizeofTreeRangeIterState)
      | (some hiCopy, m) =>
        let (st, m) := treeRangeStart cmp key root lo addr (some hiCopy) m
        (some (treeRangeT cmp key hiSize elemSize (some hi) st), m)

theorem treeIter_trades (rev : Bool) (elemSize : Nat) (root : Tree ι δ) (m : Mem) :
    m.Trades 0 (treeIter rev elemSize root m).2
      ((treeIter rev elemSize root m).1.elim 0 OwnedIterT.blocks) := by
  rcases hm : memAlloc m sizeofTreeIterState with ⟨_ | addr, m₁⟩
  · simp only [treeIter, hm]
    exact memAlloc_refused hm
  · have trades := memAlloc_trades hm
    simp only [treeIter, hm]
    refine trades.within 0 rfl ?_
    simp [OwnedIterT.blocks, treeIterT, TreeIterState.blocks, bufferBlocks]

theorem treeIter_refusals (rev : Bool) (elemSize : Nat) (root : Tree ι δ) (m : Mem) :
    (treeIter rev elemSize root m).1.isSome = true →
      (treeIter rev elemSize root m).2.refusals = m.refusals := by
  rcases hm : memAlloc m sizeofTreeIterState with ⟨_ | addr, m₁⟩
  · simp [treeIter, hm]
  · simpa [treeIter, hm] using (memAlloc_some hm).2.2

theorem treeRangeStart_trades (size hiSize : Nat) (cmp : κ → κ → Int) (key : δ → κ)
    (root : Tree ι δ) (lo : Option κ) (addr : Nat) (hiCopy : Option Nat) (m : Mem) :
    m.Trades ({(addr, size)} + bufferBlocks hiCopy hiSize)
      (treeRangeStart cmp key root lo addr hiCopy m).2
      ((treeRangeStart cmp key root lo addr hiCopy m).1.blocks size hiSize) := by
  have start (current : Tree ι δ) : TreeIterState.blocks size hiSize
      ⟨addr, none, [], 0, current, hiCopy, fun _ => rfl⟩ =
        {(addr, size)} + bufferBlocks hiCopy hiSize := by
    simp [TreeIterState.blocks, bufferBlocks]
  cases lo with
  | none =>
    simp only [treeRangeStart, start]
    exact .refl m _
  | some lo =>
    rw [← start .nil]
    exact treePushLo_trades size hiSize root rfl

theorem treeIterRange_trades (cmp : κ → κ → Int) (key : δ → κ) (hiSize elemSize : Nat)
    (root : Tree ι δ) (lo hi : Option κ) (m : Mem) :
    m.Trades 0 (treeIterRange cmp key hiSize elemSize root lo hi m).2
      ((treeIterRange cmp key hiSize elemSize root lo hi m).1.elim 0 OwnedIterT.blocks) := by
  rcases hm : memAlloc m sizeofTreeRangeIterState with ⟨_ | addr, m₁⟩
  · simp only [treeIterRange, hm]
    exact memAlloc_refused hm
  have state := memAlloc_trades hm
  cases hi with
  | none =>
    have prime := treeRangeStart_trades sizeofTreeRangeIterState hiSize cmp key root lo addr none m₁
    simp only [treeIterRange, hm]
    exact state.trans (prime.within 0 (add_zero _).symm (add_zero _).symm)
  | some hi =>
    rcases hm₁ : memAlloc m₁ hiSize with ⟨_ | hiCopy, m₂⟩
    · have refused := (memAlloc_refused hm₁).within {(addr, sizeofTreeRangeIterState)} rfl rfl
      simp only [treeIterRange, hm, hm₁]
      exact (state.trans refused).trans (memFree_trades m₂ addr _)
    · have copy := (memAlloc_trades hm₁).within {(addr, sizeofTreeRangeIterState)} rfl rfl
      have prime := treeRangeStart_trades sizeofTreeRangeIterState hiSize cmp key root lo addr
        (some hiCopy) m₂
      simp only [treeIterRange, hm, hm₁]
      exact (state.trans copy).trans
        (prime.within 0 (by rw [add_comm, add_zero]; rfl) (add_zero _).symm)

def bstreeIter (t : Option (Bstree α)) (m : Mem) :
    Option (OwnedIterT (TreeIterState Unit α) α) × Mem :=
  match t with
  | none => (none, m)
  | some t => treeIter false t.elemSize t.root m

def bstreeIterRev (t : Option (Bstree α)) (m : Mem) :
    Option (OwnedIterT (TreeIterState Unit α) α) × Mem :=
  match t with
  | none => (none, m)
  | some t => treeIter true t.elemSize t.root m

def bstreeIterRange (cmp : α → α → Int) (t : Option (Bstree α)) (lo hi : Option α) (m : Mem) :
    Option (OwnedIterT (TreeIterState Unit α) α) × Mem :=
  match t with
  | none => (none, m)
  | some t => treeIterRange cmp id t.elemSize t.elemSize t.root lo hi m

def avlIter (t : Option (AvlT α)) (m : Mem) : Option (OwnedIterT (TreeIterState Int α) α) × Mem :=
  match t with
  | none => (none, m)
  | some t => treeIter false t.elemSize t.root m

def avlIterRev (t : Option (AvlT α)) (m : Mem) :
    Option (OwnedIterT (TreeIterState Int α) α) × Mem :=
  match t with
  | none => (none, m)
  | some t => treeIter true t.elemSize t.root m

def avlIterRange (cmp : α → α → Int) (t : Option (AvlT α)) (lo hi : Option α) (m : Mem) :
    Option (OwnedIterT (TreeIterState Int α) α) × Mem :=
  match t with
  | none => (none, m)
  | some t => treeIterRange cmp id t.elemSize t.elemSize t.root lo hi m

/-- The entries point into the nodes. -/
def omapIter (map : Option (Omap κ ν)) (m : Mem) :
    Option (OwnedIterT (TreeIterState Int (κ × ν)) (κ × ν)) × Mem :=
  match map with
  | none => (none, m)
  | some map => treeIter false sizeofOmapEntry map.root m

def omapIterRev (map : Option (Omap κ ν)) (m : Mem) :
    Option (OwnedIterT (TreeIterState Int (κ × ν)) (κ × ν)) × Mem :=
  match map with
  | none => (none, m)
  | some map => treeIter true sizeofOmapEntry map.root m

def omapIterRange (cmp : κ → κ → Int) (map : Option (Omap κ ν)) (lo hi : Option κ) (m : Mem) :
    Option (OwnedIterT (TreeIterState Int (κ × ν)) (κ × ν)) × Mem :=
  match map with
  | none => (none, m)
  | some map => treeIterRange cmp Prod.fst map.keySize sizeofOmapEntry map.root lo hi m

end Seqc
