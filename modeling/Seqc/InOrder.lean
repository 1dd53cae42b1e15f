import Seqc.Truncation

/-! The iterators of bstree.c, avl.c and omap.c against the order of the tree, as long as no
request is refused: what the first calls return, however often the stack has to grow, and that
the end lasts. -/

namespace Seqc
open Comparator Iteration

variable {ι δ κ ν : Type} {rev done : Bool} {before beyond : δ → Bool}
  {st st' : TreeIterState ι δ} {m m' : Mem}

/-- The pointers on the stack lie inside its block. -/
def TreeIterState.InRoom (st : TreeIterState ι δ) : Prop :=
  st.nodes.length ≤ st.cap ∧ st.cap * sizeofNodePointer ≤ ptrdiffMax

/-- A state after the last element. -/
def TreeIterState.Finished (st : TreeIterState ι δ) : Prop :=
  st.nodes = [] ∧ st.current = .nil

theorem treeStackPush_inRoom {node : Tree ι δ} (room : st.InRoom)
    (push : treeStackPush st node m = (done, st', m')) : st'.InRoom := by
  obtain ⟨fits, small⟩ := room
  obtain ⟨more, -, rfl, -⟩ | ⟨full, r, hm, -, rfl⟩ := treeStackPush_cases push
  · exact ⟨Nat.lt_of_le_of_ne fits more, small⟩
  · cases r with
    | none => exact ⟨fits, small⟩
    | some grown =>
      have granted := (memRealloc_some hm).2.1
      simp only [TreeIterState.InRoom, Option.elim_some, List.length_cons, full]
      by_cases zero : st.cap = 0
      · rw [if_pos zero, zero]
        decide
      · simp only [sizeofNodePointer, ptrdiffMax] at small granted ⊢
        have double : mulSize st.cap 2 = st.cap * 2 := mulSize_of_lt (by omega)
        rw [if_neg zero, double] at granted ⊢
        rw [mulSize_of_lt (by omega)] at granted
        exact ⟨by omega, granted⟩

theorem pushSpine_inRoom (t : Tree ι δ) (room : st.InRoom)
    (push : pushSpine rev t st m = (done, st', m')) : st'.InRoom := by
  induction t generalizing st m with
  | nil =>
    obtain ⟨-, rfl, -⟩ : true = done ∧ _ = st' ∧ m = m' := by simpa [pushSpine] using push
    exact room
  | node a i l d r ihl ihr =>
    rcases first : treeStackPush st (.node a i l d r) m with ⟨_ | _, st₁, m₁⟩
    · have room₁ := treeStackPush_inRoom room first
      obtain ⟨-, rfl, -⟩ : false = done ∧ _ = st' ∧ m₁ = m' := by
        simpa [pushSpine, first] using push
      exact room₁
    · have room₁ := treeStackPush_inRoom room first
      cases rev with
      | false => exact ihl room₁ (by simpa [pushSpine, first] using push)
      | true => exact ihr room₁ (by simpa [pushSpine, first] using push)

theorem treePushLo_inRoom (t : Tree ι δ) (room : st.InRoom)
    (push : treePushLo before t st m = (st', m')) : st'.InRoom := by
  induction t generalizing st m with
  | nil =>
    obtain ⟨rfl, -⟩ : st = st' ∧ m = m' := by simpa [treePushLo] using push
    exact room
  | node a i l d r ihl ihr =>
    cases hb : before d with
    | true => exact ihr room (by simpa [treePushLo, hb] using push)
    | false =>
      rcases first : treeStackPush st (.node a i l d r) m with ⟨_ | _, st₁, m₁⟩
      · obtain ⟨rfl, -⟩ : st₁ = st' ∧ m₁ = m' := by simpa [treePushLo, hb, first] using push
        exact treeStackPush_inRoom room first
      · have room₁ := treeStackPush_inRoom room first
        exact ihl room₁ (by simpa [treePushLo, hb, first] using push)

theorem treeIterNext_inRoom {x : Option δ} (room : st.InRoom)
    (next : treeIterNext rev beyond st m = some (x, st', m')) : st'.InRoom := by
  rcases push : pushSpine rev st.current st m with ⟨done, st₁, m₁⟩
  have room₁ := pushSpine_inRoom st.current room push
  cases done with
  | false =>
    obtain ⟨-, rfl, -⟩ : none = x ∧ st₁ = st' ∧ m₁ = m' := by
      simpa [treeIterNext, push] using next
    exact room₁
  | true =>
    rcases top : st₁.nodes with _ | ⟨_ | ⟨a, i, l, d, r⟩, nodes⟩
    · obtain ⟨-, rfl, -⟩ : none = x ∧ st₁ = st' ∧ m₁ = m' := by
        simpa [treeIterNext, push, top] using next
      exact room₁
    · simp [treeIterNext, push, top] at next
    · obtain ⟨fits, small⟩ := room₁
      rw [top, List.length_cons] at fits
      cases hb : beyond d with
      | true =>
        obtain ⟨-, rfl, -⟩ : none = x ∧ _ = st' ∧ m₁ = m' := by
          simpa [treeIterNext, push, top, hb] using next
        exact ⟨Nat.zero_le _, small⟩
      | false =>
        obtain ⟨-, rfl, -⟩ : some d = x ∧ _ = st' ∧ m₁ = m' := by
          simpa [treeIterNext, push, top, hb] using next
        exact ⟨Nat.le_of_succ_le fits, small⟩

/-- A call that finds nothing, and to which nothing is refused, leaves nothing behind. -/
theorem treeIterNext_finished (good : st.Stacked)
    (next : treeIterNext rev beyond st m = some (none, st', m'))
    (calm : m'.refusals = m.refusals) : st'.Finished := by
  rcases push : pushSpine rev st.current st m with ⟨done, st₁, m₁⟩
  obtain ⟨rfl, -, empty, -, -⟩ | ⟨rfl, grows⟩ := pushSpine_spec st.current good push
  · match top : st₁.nodes with
    | [] =>
      obtain ⟨rfl, rfl⟩ : st₁ = st' ∧ m₁ = m' := by simpa [treeIterNext, push, top] using next
      exact ⟨top, empty⟩
    | .nil :: nodes => simp [treeIterNext, push, top] at next
    | .node a i l d r :: nodes =>
      cases hb : beyond d with
      | true =>
        obtain ⟨rfl, rfl⟩ : _ = st' ∧ m₁ = m' := by
          simpa [treeIterNext, push, top, hb] using next
        exact ⟨rfl, rfl⟩
      | false => simp [treeIterNext, push, top, hb] at next
  · obtain ⟨rfl, rfl⟩ : st₁ = st' ∧ m₁ = m' := by simpa [treeIterNext, push] using next
    omega

theorem TreeIterState.Finished.ended (h : st.Finished) (rev : Bool) (beyond : δ → Bool) :
    Ended (fun _ (st : TreeIterState ι δ) m => treeIterNext rev beyond st m) st := by
  refine ⟨TreeIterState.Finished, h, fun st last m => ⟨st, m, ⟨0, ?_⟩, last⟩⟩
  obtain ⟨addr, stack, nodes, cap, current, hi, null⟩ := st
  obtain ⟨rfl, rfl⟩ : nodes = [] ∧ current = .nil := last
  rfl

/-- What `make` makes is NULL only if a request was refused. Otherwise, if none was, then
from any memory and for any number of calls: if nothing is refused to them either, they
return the first elements of `xs`, the stack stays inside its block, and a call that finds
no more is followed by such calls only. -/
def Traverses (make : Mem → Option (OwnedIterT (TreeIterState ι δ) δ) × Mem) (xs : List δ) :
    Prop :=
  (∀ m m₁, make m = (none, m₁) → m.refusals < m₁.refusals) ∧
  ∀ m it m₁, make m = (some it, m₁) → m₁.refusals = m.refusals →
    ∀ (m₂ : Mem) (count : Nat), ∃ zs st' m', Reads it.next count it.state m₂ zs st' m' ∧
      (m'.refusals = m₂.refusals → zs = xs.take count ∧ st'.InRoom ∧
        (xs.length < count → Ended it.next st'))

/-- The rule for the three constructors. -/
theorem treeIterT_reads {size hiSize elemSize : Nat} (good : st.Stacked) (room : st.InRoom)
    (m : Mem) (count : Nat) :
    ∃ zs st' m',
      Reads (treeIterT rev beyond size hiSize elemSize st).next count st m zs st' m' ∧
        (m'.refusals = m.refusals → zs = (st.left rev beyond).take count ∧ st'.InRoom ∧
          ((st.left rev beyond).length < count →
            Ended (treeIterT rev beyond size hiSize elemSize st).next st')) := by
  have f := (treeIter_falters (ι := ι) rev beyond).and_keeps (I := TreeIterState.InRoom)
    fun s m out s' m' room returns => treeIterNext_inRoom room returns.choose_spec
  obtain ⟨zs, st', m', reads, -, outcome⟩ :=
    f.reads (fun _ _ _ _ h => h) count ⟨good, room⟩ m
  refine ⟨zs, st', m', reads, fun calm => ?_⟩
  obtain ⟨first, last⟩ := outcome calm
  refine ⟨first, ?_, fun all => ?_⟩
  · rcases last with ⟨s₁, m₁, ⟨-, room₁⟩, ⟨_, returns⟩, -⟩ | ⟨-, -, room'⟩
    · exact treeIterNext_inRoom room₁ returns
    · exact room'
  · rcases last with ⟨s₁, m₁, ⟨good₁, -⟩, ⟨_, returns⟩, calm₁⟩ | ⟨enough, -⟩
    · exact (treeIterNext_finished good₁ returns calm₁).ended rev beyond
    · omega

theorem inRoom_empty (addr : Nat) (current : Tree ι δ) (hiCopy : Option Nat) :
    (⟨addr, none, [], 0, current, hiCopy, fun _ => rfl⟩ : TreeIterState ι δ).InRoom :=
  ⟨Nat.le_refl 0, by simp [ptrdiffMax]⟩

theorem treeIter_traverses (rev : Bool) (elemSize : Nat) (root : Tree ι δ) :
    Traverses (treeIter rev elemSize root) (root.walk rev) := by
  constructor
  · intro m m₁ made
    rcases hm : memAlloc m sizeofTreeIterState with ⟨_ | addr, m₂⟩
    · have refused := memAlloc_none hm
      obtain rfl : m₂ = m₁ := by simpa [treeIter, hm] using made
      omega
    · simp [treeIter, hm] at made
  · intro m it m₁ made _ m₂ count
    rcases hm : memAlloc m sizeofTreeIterState with ⟨_ | addr, m₃⟩
    · simp [treeIter, hm] at made
    · obtain ⟨rfl, rfl⟩ : _ = it ∧ m₃ = m₁ := by simpa [treeIter, hm] using made
      have whole : TreeIterState.left rev (fun _ => false)
          ⟨addr, none, [], 0, root, none, fun _ => rfl⟩ = root.walk rev := by
        simp [TreeIterState.left, List.takeWhile_eq_self_iff]
      rw [← whole]
      exact treeIterT_reads (by simp [TreeIterState.Stacked]) (inRoom_empty addr root none) m₂
        count

theorem treeIterRange_traverses {cmp : κ → κ → Int} {key : δ → κ} (laws : Laws cmp)
    (hiSize elemSize : Nat) {root : Tree ι δ} (asc : Ascending cmp key root.toList)
    (lo hi : Option κ) :
    Traverses (treeIterRange cmp key hiSize elemSize root lo hi)
      ((TreeWalk.iterRange lo hi).elems cmp key root) := by
  constructor
  · intro m m₁ made
    rcases hm : memAlloc m sizeofTreeRangeIterState with ⟨_ | addr, m₂⟩
    · have refused := memAlloc_none hm
      obtain rfl : m₂ = m₁ := by simpa [treeIterRange, hm] using made
      omega
    · have calm := (memAlloc_some hm).2.2
      cases hi with
      | none => simp [treeIterRange, hm] at made
      | some hi =>
        rcases hm₁ : memAlloc m₂ hiSize with ⟨_ | hiCopy, m₃⟩
        · have refused := memAlloc_none hm₁
          obtain rfl : memFree m₃ (some addr) sizeofTreeRangeIterState = m₁ := by
            simpa [treeIterRange, hm, hm₁] using made
          rw [memFree_refusals]
          omega
        · simp [treeIterRange, hm, hm₁] at made
  · intro m it m₁ made calm m₂ count
    obtain ⟨st, addr, hiCopy, m₃, start, rfl, -, -, calm₃⟩ := treeIterRange_made made
    obtain ⟨good, lost, found, outcome⟩ := treeRangeStart_spec laws asc start
    obtain rfl : lost = [] := by
      rcases outcome with ⟨-, none⟩ | ⟨grows, -⟩
      · exact none
      · omega
    obtain ⟨out, whole, none, -⟩ := range_split laws asc hi found
    rw [TreeWalk.elems, whole, none rfl, List.nil_append]
    have room : st.InRoom := by
      cases lo with
      | none =>
        obtain ⟨rfl, -⟩ := Prod.mk.inj start
        exact inRoom_empty addr root hiCopy
      | some lo => exact treePushLo_inRoom root (inRoom_empty addr .nil hiCopy) start
    exact treeIterT_reads good room m₂ count

/-- `X_iter` goes through the tree in order and `X_iter_rev` in reverse, whatever the shape of
the tree. -/
theorem traversals_in_order :
    (∀ t : Bstree κ, Traverses (bstreeIter (some t)) t.root.toList ∧
      Traverses (bstreeIterRev (some t)) t.root.toList.reverse) ∧
    (∀ t : AvlT κ, Traverses (avlIter (some t)) t.root.toList ∧
      Traverses (avlIterRev (some t)) t.root.toList.reverse) ∧
    ∀ map : Omap κ ν, Traverses (omapIter (some map)) map.root.toList ∧
      Traverses (omapIterRev (some map)) map.root.toList.reverse := by
  refine ⟨fun t => ⟨?_, ?_⟩, fun t => ⟨?_, ?_⟩, fun map => ⟨?_, ?_⟩⟩
  · exact treeIter_traverses false t.elemSize t.root
  · exact treeIter_traverses true t.elemSize t.root
  · exact treeIter_traverses false t.elemSize t.root
  · exact treeIter_traverses true t.elemSize t.root
  · exact treeIter_traverses false sizeofOmapEntry map.root
  · exact treeIter_traverses true sizeofOmapEntry map.root

/-- `X_iter_range` goes through the elements from `lo` to `hi` in order. -/
theorem ranges_in_order {cmp : κ → κ → Int} (laws : Laws cmp) (lo hi : Option κ) :
    (∀ t : Bstree κ, Ascending cmp id t.root.toList →
      Traverses (bstreeIterRange cmp (some t) lo hi)
        ((TreeWalk.iterRange lo hi).elems cmp id t.root)) ∧
    (∀ t : AvlT κ, Ascending cmp id t.root.toList →
      Traverses (avlIterRange cmp (some t) lo hi)
        ((TreeWalk.iterRange lo hi).elems cmp id t.root)) ∧
    ∀ map : Omap κ ν, Ascending cmp Prod.fst map.root.toList →
      Traverses (omapIterRange cmp (some map) lo hi)
        ((TreeWalk.iterRange lo hi).elems cmp Prod.fst map.root) := by
  refine ⟨fun t asc => ?_, fun t asc => ?_, fun map asc => ?_⟩
  · exact treeIterRange_traverses laws t.elemSize t.elemSize asc lo hi
  · exact treeIterRange_traverses laws t.elemSize t.elemSize asc lo hi
  · exact treeIterRange_traverses laws map.keySize sizeofOmapEntry asc lo hi

/-- The bounds need not be in the tree. -/
theorem ranges_in_order_ints :
    Traverses (bstreeIterRange intCmp
      (some ⟨0, .node 1 () .nil 3 (.node 2 () .nil 5 .nil), 2, 8⟩) (some 4) (some 9)) [5] :=
  (ranges_in_order (ν := Unit) intCmp_laws (some 4) (some 9)).1
    ⟨0, .node 1 () .nil 3 (.node 2 () .nil 5 .nil), 2, 8⟩
    (List.pairwise_pair.mpr (by decide))

end Seqc
