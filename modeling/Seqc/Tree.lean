import Seqc.Allocator
import Seqc.Lib.Comparator

/-! The binary trees of bstree.c, avl.c and omap.c and the walks down them. A node is
its block, its bookkeeping (`height` in the two balanced trees) and its data, the
data of omap.c being a key and its value. The `len` of a tree is a plain number: every node has
a block of its own, and the address space has fewer than 2^64 of them. -/

namespace Seqc
open Comparator

inductive Tree (ι δ : Type) where
  | nil
  | node (addr : Nat) (info : ι) (left : Tree ι δ) (data : δ) (right : Tree ι δ)

namespace Tree

variable {ι δ : Type}

def isNull : Tree ι δ → Bool
  | nil => true
  | node .. => false

/-- The data in order. -/
def toList : Tree ι δ → List δ
  | nil => []
  | node _ _ l d r => l.toList ++ d :: r.toList

/-- The number of nodes. -/
def size : Tree ι δ → Nat
  | nil => 0
  | node _ _ l _ r => l.size + 1 + r.size

/-- The real height. -/
def height : Tree ι δ → Int
  | nil => 0
  | node _ _ l _ r => 1 + max l.height r.height

@[simp] theorem toList_nil : (nil : Tree ι δ).toList = [] := rfl

@[simp] theorem toList_node (a : Nat) (i : ι) (l : Tree ι δ) (d : δ) (r : Tree ι δ) :
    (node a i l d r).toList = l.toList ++ d :: r.toList := rfl

@[simp] theorem height_nil : (nil : Tree ι δ).height = 0 := rfl

@[simp] theorem height_node (a : Nat) (i : ι) (l : Tree ι δ) (d : δ) (r : Tree ι δ) :
    (node a i l d r).height = 1 + max l.height r.height := rfl

theorem size_eq (t : Tree ι δ) : t.size = t.toList.length := by
  induction t with
  | nil => rfl
  | node a i l d r ihl ihr =>
    simp only [size, toList, List.length_append, List.length_cons, ihl, ihr]
    omega

theorem isNull_of_toList {t : Tree ι δ} {pre post : List δ} {d : δ}
    (h : t.toList = pre ++ d :: post) : t.isNull = false := by
  cases t with
  | nil => simp at h
  | node => rfl

theorem height_nonneg (t : Tree ι δ) : 0 ≤ t.height := by
  cases t with
  | nil => exact le_rfl
  | node a i l d r =>
    have := height_nonneg l
    simp only [height]
    omega

end Tree

variable {ι δ κ : Type}

/-- The walk to the leftmost node. -/
def minData : Tree ι δ → Option δ
  | .nil => none
  | .node _ _ .nil d _ => some d
  | .node _ _ l _ _ => minData l

def maxData : Tree ι δ → Option δ
  | .nil => none
  | .node _ _ _ d .nil => some d
  | .node _ _ _ _ r => maxData r

/-- The walk of a lookup. -/
def treeFind (cmp : κ → κ → Int) (key : δ → κ) (k : κ) : Tree ι δ → Option δ
  | .nil => none
  | .node _ _ l d r =>
    if cmp k (key d) < 0 then treeFind cmp key k l
    else if 0 < cmp k (key d) then treeFind cmp key k r
    else some d

def freeSubtree (size : Nat) : Tree ι δ → Mem → Mem
  | .nil, m => m
  | .node a _ l _ r, m => memFree (freeSubtree size r (freeSubtree size l m)) (some a) size

theorem minData_eq (t : Tree ι δ) : minData t = t.toList.head? := by
  induction t with
  | nil => rfl
  | node a i l d r ihl ihr =>
    cases l with
    | nil => rfl
    | node a' i' l' d' r' =>
      have step : minData (.node a i (.node a' i' l' d' r') d r) =
          minData (.node a' i' l' d' r') := rfl
      rw [step, ihl, Tree.toList_node _ _ _ d, List.head?_append]
      simp

theorem maxData_eq (t : Tree ι δ) : maxData t = t.toList.getLast? := by
  induction t with
  | nil => rfl
  | node a i l d r ihl ihr =>
    cases r with
    | nil => simp [maxData]
    | node a' i' l' d' r' =>
      have step : maxData (.node a i l d (.node a' i' l' d' r')) =
          maxData (.node a' i' l' d' r') := rfl
      rw [step, ihr, Tree.toList_node _ _ l d, List.append_cons, List.getLast?_append]
      simp [List.getLast?_cons]

theorem freeSubtree_refusals (size : Nat) (t : Tree ι δ) (m : Mem) :
    (freeSubtree size t m).refusals = m.refusals := by
  induction t generalizing m with
  | nil => rfl
  | node a i l d r ihl ihr => rw [freeSubtree, memFree_refusals, ihr, ihl]

section Find
variable {cmp : κ → κ → Int} {key : δ → κ}

/-- A lookup in an ascending tree finds the entry with an equal key. -/
theorem treeFind_spec (laws : Laws cmp) (k : κ) (t : Tree ι δ)
    (asc : Ascending cmp key t.toList) :
    (∀ d, treeFind cmp key k t = some d → d ∈ t.toList ∧ cmp k (key d) = 0) ∧
      (treeFind cmp key k t = none → ∀ d ∈ t.toList, cmp k (key d) ≠ 0) := by
  induction t with
  | nil => simp [treeFind]
  | node a i l d r ihl ihr =>
    obtain ⟨ascl, ascr, -, -⟩ := asc.parts
    rw [treeFind]
    by_cases less : cmp k (key d) < 0
    · rw [if_pos less]
      refine ⟨fun e he => ?_, fun h e he => ?_⟩
      · obtain ⟨mem, equal⟩ := (ihl ascl).1 e he
        exact ⟨by simp [mem], equal⟩
      · rcases List.mem_append.mp he with he | he
        · exact (ihl ascl).2 h e he
        · exact (asc.above laws less e he).ne
    by_cases more : 0 < cmp k (key d)
    · rw [if_neg less, if_pos more]
      refine ⟨fun e he => ?_, fun h e he => ?_⟩
      · obtain ⟨mem, equal⟩ := (ihr ascr).1 e he
        exact ⟨by simp [mem], equal⟩
      · rw [Tree.toList_node, List.append_cons] at he
        rcases List.mem_append.mp he with he | he
        · exact (asc.below laws more e he).ne'
        · exact (ihr ascr).2 h e he
    · rw [if_neg less, if_neg more]
      refine ⟨fun e he => ?_, by simp⟩
      obtain rfl := Option.some.inj he
      exact ⟨by simp, by omega⟩

end Find

end Seqc
