import Seqc.Traversal
import Seqc.Lib.Faltering

/-! What the tree iterators have left, and what a refused request makes of it: a `next` that
cannot push a node ends the iteration, and a range that cannot push while it looks for its
first element begins after it. -/

namespace Seqc
open Comparator Iteration

variable {ι δ κ : Type} {rev done : Bool} {beyond before : δ → Bool} {st st' : TreeIterState ι δ}
  {m m' : Mem}

/-- The data in the order of a traversal. -/
def Tree.walk (rev : Bool) (t : Tree ι δ) : List δ := if rev then t.toList.reverse else t.toList

/-- A node on the stack stands for its data and the subtree behind it. -/
def stacked (rev : Bool) : Tree ι δ → List δ
  | .nil => []
  | .node _ _ l d r => d :: (if rev then l else r).walk rev

/-- The elements left, up to the upper bound. -/
def TreeIterState.left (rev : Bool) (beyond : δ → Bool) (st : TreeIterState ι δ) : List δ :=
  (st.current.walk rev ++ st.nodes.flatMap (stacked rev)).takeWhile fun d => !beyond d

/-- The pointers on the stack are not NULL. -/
def TreeIterState.Stacked (st : TreeIterState ι δ) : Prop := ∀ n ∈ st.nodes, n.isNull = false

@[simp] theorem Tree.walk_nil : (.nil : Tree ι δ).walk rev = [] := by
  cases rev <;> rfl

/-- First one subtree, then what the node stands for on the stack. -/
theorem Tree.walk_node (a : Nat) (i : ι) (l : Tree ι δ) (d : δ) (r : Tree ι δ) :
    (Tree.node a i l d r).walk rev =
      (if rev then r else l).walk rev ++ stacked rev (.node a i l d r) := by
  cases rev with
  | false => rfl
  | true => simp [walk, stacked]

theorem treeStackPush_spec {node : Tree ι δ}
    (push : treeStackPush st node m = (done, st', m')) :
    (done = true ∧ st'.nodes = node :: st.nodes ∧ st'.current = st.current ∧
      m'.refusals = m.refusals) ∨
    (done = false ∧ st' = st ∧ m.refusals < m'.refusals) := by
  obtain ⟨-, rfl, rfl, rfl⟩ | ⟨-, r, hm, rfl, rfl⟩ := treeStackPush_cases push
  · exact .inl ⟨rfl, rfl, rfl, rfl⟩
  · cases r with
    | none =>
      have refused := memRealloc_none hm
      exact .inr ⟨rfl, rfl, by omega⟩
    | some grown => exact .inl ⟨rfl, rfl, rfl, (memRealloc_some hm).2.2⟩

theorem TreeIterState.Stacked.push {node : Tree ι δ} (h : st.Stacked) (some : node.isNull = false)
    (nodes : st'.nodes = node :: st.nodes) : st'.Stacked := by
  intro n hn
  rw [nodes] at hn
  rcases List.mem_cons.mp hn with rfl | hn
  · exact some
  · exact h n hn

theorem pushSpine_spec (t : Tree ι δ) (good : st.Stacked)
    (push : pushSpine rev t st m = (done, st', m')) :
    (done = true ∧ st'.Stacked ∧ st'.current = .nil ∧ m'.refusals = m.refusals ∧
      st'.nodes.flatMap (stacked rev) = t.walk rev ++ st.nodes.flatMap (stacked rev)) ∨
    (done = false ∧ m.refusals < m'.refusals) := by
  induction t generalizing st m with
  | nil =>
    obtain ⟨rfl, rfl, rfl⟩ : true = done ∧ _ = st' ∧ m = m' := by simpa [pushSpine] using push
    exact .inl ⟨rfl, good, rfl, rfl, by simp⟩
  | node a i l d r ihl ihr =>
    rcases first : treeStackPush st (.node a i l d r) m with ⟨pushed, st₁, m₁⟩
    obtain ⟨rfl, nodes, -, calm⟩ | ⟨rfl, -, grows⟩ := treeStackPush_spec first
    · have good₁ := good.push rfl nodes
      have deeper : pushSpine rev (if rev then r else l) st₁ m₁ = (done, st', m') := by
        cases rev <;> simpa [pushSpine, first] using push
      have outcome : (done = true ∧ st'.Stacked ∧ st'.current = .nil ∧
          m'.refusals = m₁.refusals ∧ st'.nodes.flatMap (stacked rev) =
            (if rev then r else l).walk rev ++ st₁.nodes.flatMap (stacked rev)) ∨
          (done = false ∧ m₁.refusals < m'.refusals) := by
        cases rev with
        | false => exact ihl good₁ deeper
        | true => exact ihr good₁ deeper
      rw [calm] at outcome
      obtain ⟨rfl, good', empty, calm', whole⟩ | lost := outcome
      · refine .inl ⟨rfl, good', empty, calm', ?_⟩
        rw [whole, nodes, List.flatMap_cons, Tree.walk_node, List.append_assoc]
      · exact .inr lost
    · obtain ⟨rfl, rfl, rfl⟩ : false = done ∧ _ = st' ∧ m₁ = m' := by
        simpa [pushSpine, first] using push
      exact .inr ⟨rfl, grows⟩

theorem treeIter_falters (rev : Bool) (beyond : δ → Bool) :
    Falters (fun _ (st : TreeIterState ι δ) m => treeIterNext rev beyond st m) Mem.refusals
      TreeIterState.Stacked (TreeIterState.left rev beyond) := by
  intro st m good
  rcases push : pushSpine rev st.current st m with ⟨done, st₁, m₁⟩
  obtain ⟨rfl, good₁, empty, calm, whole⟩ | ⟨rfl, grows⟩ := pushSpine_spec st.current good push
  · match top : st₁.nodes with
    | [] =>
      have call : Returns (fun _ st m => treeIterNext rev beyond st m) st m none st₁ m₁ :=
        ⟨0, by simp [treeIterNext, push, top]⟩
      refine .ended call calm ?_
      rw [TreeIterState.left, ← whole, top]
      rfl
    | .nil :: nodes => simpa [top, Tree.isNull] using good₁ .nil
    | .node a i l d r :: nodes =>
      cases hb : beyond d with
      | true =>
        have call : Returns (fun _ st m => treeIterNext rev beyond st m) st m none
            { st₁ with nodes := [], current := .nil } m₁ :=
          ⟨0, by simp [treeIterNext, push, top, hb]⟩
        refine .ended call calm ?_
        rw [TreeIterState.left, ← whole, top]
        simp [stacked, hb]
      | false =>
        have call : Returns (fun _ st m => treeIterNext rev beyond st m) st m (some d)
            { st₁ with nodes := nodes, current := if rev then l else r } m₁ :=
          ⟨0, by simp [treeIterNext, push, top, hb]⟩
        refine .item call calm ?_ ?_
        · intro n hn
          exact good₁ n (by rw [top]; exact List.mem_cons_of_mem _ hn)
        · rw [TreeIterState.left, ← whole, top]
          simp [stacked, hb, TreeIterState.left]
  · have call : Returns (fun _ st m => treeIterNext rev beyond st m) st m none st₁ m₁ :=
      ⟨0, by simp [treeIterNext, push]⟩
    exact .fault call grows

/-! ### The beginning of a range -/

section Range
variable {cmp : κ → κ → Int} {key : δ → κ}

/-- The priming finds the first element that is not below the bound, unless a push is refused:
then what lies up to the node not pushed is lost. -/
theorem treePushLo_spec (laws : Laws cmp) (lo : κ) (t : Tree ι δ)
    (asc : Ascending cmp key t.toList) (good : st.Stacked)
    (push : treePushLo (fun d => decide (cmp (key d) lo < 0)) t st m = (st', m')) :
    st'.Stacked ∧ st'.current = st.current ∧ ∃ lost,
      t.toList.dropWhile (fun d => decide (cmp (key d) lo < 0)) ++
          st.nodes.flatMap (stacked false) = lost ++ st'.nodes.flatMap (stacked false) ∧
        (m'.refusals = m.refusals ∧ lost = [] ∨ m.refusals < m'.refusals ∧ lost ≠ []) := by
  induction t generalizing st m with
  | nil =>
    obtain ⟨rfl, rfl⟩ : st = st' ∧ m = m' := by simpa [treePushLo] using push
    exact ⟨good, rfl, [], by simp, .inl ⟨rfl, rfl⟩⟩
  | node a i l d r ihl ihr =>
    obtain ⟨ascl, ascr, below, -⟩ := asc.parts
    by_cases less : cmp (key d) lo < 0
    · have deeper : treePushLo (fun d => decide (cmp (key d) lo < 0)) r st m = (st', m') := by
        simpa [treePushLo, less] using push
      have all (e : δ) (he : e ∈ l.toList) : decide (cmp (key e) lo < 0) = true := by
        have := laws.lt_of_lt_of_le (below e he) less.le
        simpa using this
      rw [Tree.toList_node, List.dropWhile_append_of_pos all, List.dropWhile_cons_of_pos (by simpa)]
      exact ihr ascr good deeper
    · rcases first : treeStackPush st (.node a i l d r) m with ⟨pushed, st₁, m₁⟩
      have split : (l.toList ++ d :: r.toList).dropWhile (fun d => decide (cmp (key d) lo < 0)) =
          l.toList.dropWhile (fun d => decide (cmp (key d) lo < 0)) ++ d :: r.toList := by
        rw [List.dropWhile_append]
        split
        · rename_i empty
          rw [List.isEmpty_iff.mp empty, List.dropWhile_cons_of_neg (by simpa using less)]
          rfl
        · rfl
      obtain ⟨rfl, nodes, same, calm⟩ | ⟨rfl, rfl, grows⟩ := treeStackPush_spec first
      · have deeper : treePushLo (fun d => decide (cmp (key d) lo < 0)) l st₁ m₁ = (st', m') := by
          simpa [treePushLo, less, first] using push
        obtain ⟨good', same', lost, whole, outcome⟩ := ihl ascl (good.push rfl nodes) deeper
        refine ⟨good', same'.trans same, lost, ?_, by rwa [calm] at outcome⟩
        rw [← whole, nodes, Tree.toList_node, split, List.append_assoc, List.flatMap_cons]
        rfl
      · obtain ⟨rfl, rfl⟩ : st₁ = st' ∧ m₁ = m' := by
          simpa [treePushLo, less, first] using push
        refine ⟨good, rfl, _, rfl, .inr ⟨grows, ?_⟩⟩
        rw [Tree.toList_node, split]
        simp

end Range

end Seqc
