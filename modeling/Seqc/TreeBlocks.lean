import Seqc.Holdings
import Seqc.Bstree
import Seqc.Omap

/-! The blocks of the trees of bstree.c, avl.c and omap.c: one a node, whatever the comparator
answers. A rotation moves nodes, a removal below a node with two children frees another node
than the one whose data goes. -/

namespace Seqc
open Runs

variable {ι δ κ ν α : Type} {size : Nat}

namespace Tree

/-- One block a node. -/
def blocks (size : Nat) : Tree ι δ → Blocks
  | nil => 0
  | node a _ l _ r => {(a, size)} + (l.blocks size + r.blocks size)

@[simp] theorem blocks_nil : (nil : Tree ι δ).blocks size = 0 := rfl

@[simp] theorem blocks_node (a : Nat) (i : ι) (l : Tree ι δ) (d : δ) (r : Tree ι δ) :
    (node a i l d r).blocks size = {(a, size)} + (l.blocks size + r.blocks size) := rfl

theorem blocks_of_isNull {t : Tree ι δ} (h : t.isNull = true) : t.blocks size = 0 := by
  cases t with
  | nil => rfl
  | node => simp [isNull] at h

end Tree

theorem freeSubtree_trades (size : Nat) (t : Tree ι δ) (m : Mem) :
    m.Trades (t.blocks size) (freeSubtree size t m) 0 := by
  induction t generalizing m with
  | nil => exact .refl m 0
  | node a i l d r ihl ihr =>
    refine ((ihl m).within ({(a, size)} + r.blocks size) ?_ (zero_add _).symm).trans ?_
    · rw [Tree.blocks_node]
      abel
    refine ((ihr _).within {(a, size)} (add_comm _ _) (zero_add _).symm).trans ?_
    exact memFree_trades _ a size

/-! ### bstree.c -/

theorem bstreeInsert_trades (cmp : α → α → Int) (size : Nat) (x : α) (t : Tree Unit α) (m : Mem) :
    m.Trades (t.blocks size) (bstreeInsert cmp size x t m).2.2
      ((bstreeInsert cmp size x t m).2.1.blocks size) := by
  induction t with
  | nil =>
    rcases hm : memAlloc m size with ⟨_ | addr, m₁⟩
    · simp only [bstreeInsert, hm]
      exact memAlloc_refused hm
    · simp only [bstreeInsert, hm]
      exact memAlloc_trades hm
  | node a i l d r ihl ihr =>
    rw [bstreeInsert]
    split
    · refine ihl.within ({(a, size)} + r.blocks size) ?_ ?_ <;>
        rw [Tree.blocks_node] <;> abel
    · split
      · refine ihr.within ({(a, size)} + l.blocks size) ?_ ?_ <;>
          rw [Tree.blocks_node] <;> abel
      · exact .refl m _

theorem bstreeDoRemove_trades (cmp : α → α → Int) (size : Nat) (t : Tree Unit α) (x : α)
    (m : Mem) :
    m.Trades (t.blocks size) (bstreeDoRemove cmp size t x m).2.2
      ((bstreeDoRemove cmp size t x m).1.blocks size) := by
  induction t generalizing x with
  | nil => exact .refl m 0
  | node a i l d r ihl ihr =>
    rw [bstreeDoRemove]
    split
    · refine (ihl x).within ({(a, size)} + r.blocks size) ?_ ?_ <;>
        rw [Tree.blocks_node] <;> abel
    split
    · refine (ihr x).within ({(a, size)} + l.blocks size) ?_ ?_ <;>
        rw [Tree.blocks_node] <;> abel
    split
    · rename_i none_left
      refine (memFree_trades m a size).within (r.blocks size) ?_ (zero_add _).symm
      rw [Tree.blocks_node, Tree.blocks_of_isNull none_left, zero_add]
    split
    · rename_i none_right
      refine (memFree_trades m a size).within (l.blocks size) ?_ (zero_add _).symm
      rw [Tree.blocks_node, Tree.blocks_of_isNull none_right, add_zero]
    -- The successor's node goes, or none if no element of the right subtree equals it.
    split
    · exact .refl m _
    · rename_i succ _
      refine (ihr succ).within ({(a, size)} + l.blocks size) ?_ ?_ <;>
        rw [Tree.blocks_node] <;> abel

/-! ### Rotations -/

@[simp] theorem blocks_updateHeight (t : Tree Int δ) :
    (updateHeight t).blocks size = t.blocks size := by
  cases t <;> rfl

@[simp] theorem isNull_updateHeight (t : Tree Int δ) : (updateHeight t).isNull = t.isNull := by
  cases t <;> rfl

theorem rotateRight_blocks (size : Nat) {t t' : Tree Int δ} (h : rotateRight t = some t') :
    t'.blocks size = t.blocks size ∧ t'.isNull = false := by
  unfold rotateRight at h
  split at h
  · obtain rfl := Option.some.inj h
    refine ⟨?_, rfl⟩
    simp only [blocks_updateHeight, Tree.blocks_node]
    abel
  · simp at h

theorem rotateLeft_blocks (size : Nat) {t t' : Tree Int δ} (h : rotateLeft t = some t') :
    t'.blocks size = t.blocks size ∧ t'.isNull = false := by
  unfold rotateLeft at h
  split at h
  · obtain rfl := Option.some.inj h
    refine ⟨?_, rfl⟩
    simp only [blocks_updateHeight, Tree.blocks_node]
    abel
  · simp at h

theorem rebalance_blocks (size : Nat) {t t' : Tree Int δ} (h : rebalance t = some t') :
    t'.blocks size = t.blocks size ∧ t'.isNull = false := by
  rw [← blocks_updateHeight t]
  unfold rebalance at h
  split at h
  · simp at h
  rename_i a i l d r same
  rw [same]
  simp only [Option.bind_eq_bind, Option.pure_def] at h
  split at h
  · obtain ⟨bf, -, h⟩ := Option.bind_eq_some_iff.mp h
    split at h
    · exact rotateRight_blocks size h
    · obtain ⟨l', turned, h⟩ := Option.bind_eq_some_iff.mp h
      obtain ⟨blocks, there⟩ := rotateRight_blocks size h
      refine ⟨?_, there⟩
      rw [blocks, Tree.blocks_node, Tree.blocks_node, (rotateLeft_blocks size turned).1]
  split at h
  · obtain ⟨bf, -, h⟩ := Option.bind_eq_some_iff.mp h
    split at h
    · exact rotateLeft_blocks size h
    · obtain ⟨r', turned, h⟩ := Option.bind_eq_some_iff.mp h
      obtain ⟨blocks, there⟩ := rotateLeft_blocks size h
      refine ⟨?_, there⟩
      rw [blocks, Tree.blocks_node, Tree.blocks_node, (rotateRight_blocks size turned).1]
  · obtain rfl := Option.some.inj h
    exact ⟨rfl, rfl⟩

/-! ### avl.c and omap.c -/

section Balanced
variable {a : Nat} {h : Int} {l l' r r' : Tree Int δ} {d d' : δ} {m m' : Mem} {oom : Bool}

/-- What an insertion makes of a balanced tree and its blocks. -/
structure Inserts (size : Nat) (t : Tree Int δ) (m : Mem) (t' : Tree Int δ) (oom : Bool)
    (m' : Mem) : Prop where
  avl : Avl t'
  low : t.height ≤ t'.height
  high : t'.height ≤ t.height + 1
  same : oom = true → t' = t
  there : oom = false → t'.isNull = false
  trades : m.Trades (t.blocks size) m' (t'.blocks size)

/-- What a removal makes of a balanced tree and its blocks. -/
structure Removes (size : Nat) (t : Tree Int δ) (m : Mem) (t' : Tree Int δ) (m' : Mem) :
    Prop where
  avl : Avl t'
  low : t.height ≤ t'.height + 1
  high : t'.height ≤ t.height
  trades : m.Trades (t.blocks size) m' (t'.blocks size)

theorem trades_left (traded : m.Trades (l.blocks size) m' (l'.blocks size)) :
    m.Trades ((Tree.node a h l d r).blocks size) m' ((Tree.node a h l' d' r).blocks size) := by
  refine traded.within ({(a, size)} + r.blocks size) ?_ ?_ <;>
    rw [Tree.blocks_node] <;> abel

theorem trades_right (traded : m.Trades (r.blocks size) m' (r'.blocks size)) :
    m.Trades ((Tree.node a h l d r).blocks size) m' ((Tree.node a h l d' r').blocks size) := by
  refine traded.within ({(a, size)} + l.blocks size) ?_ ?_ <;>
    rw [Tree.blocks_node] <;> abel

/-- A subtree has grown, and the node is balanced again. -/
theorem Inserts.left (avl : Avl (.node a h l d r)) (ins : Inserts size l m l' false m') :
    ∃ t', rebalance (.node a h l' d r) = some t' ∧
      Inserts size (.node a h l d r) m t' false m' := by
  obtain ⟨-, hr, -, left, right⟩ := avl
  have low := ins.low
  have high := ins.high
  obtain ⟨t', balanced, avl', -, above, below, same⟩ :=
    rebalance_spec a h d ins.avl hr (by omega) (by omega)
  obtain ⟨blocks, there⟩ := rebalance_blocks size balanced
  refine ⟨t', balanced, avl', ?_, ?_, by simp, fun _ => there, blocks ▸ trades_left ins.trades⟩ <;>
    simp only [Tree.height] <;> omega

theorem Inserts.right (avl : Avl (.node a h l d r)) (ins : Inserts size r m r' false m') :
    ∃ t', rebalance (.node a h l d r') = some t' ∧
      Inserts size (.node a h l d r) m t' false m' := by
  obtain ⟨hl, -, -, left, right⟩ := avl
  have low := ins.low
  have high := ins.high
  obtain ⟨t', balanced, avl', -, above, below, same⟩ :=
    rebalance_spec a h d hl ins.avl (by omega) (by omega)
  obtain ⟨blocks, there⟩ := rebalance_blocks size balanced
  refine ⟨t', balanced, avl', ?_, ?_, by simp, fun _ => there, blocks ▸ trades_right ins.trades⟩ <;>
    simp only [Tree.height] <;> omega

/-- A subtree has shrunk, and the node, with its data or others, is balanced again. -/
theorem Removes.left (avl : Avl (.node a h l d r)) (rem : Removes size l m l' m') (d' : δ) :
    ∃ t', rebalance (.node a h l' d' r) = some t' ∧ Removes size (.node a h l d r) m t' m' := by
  obtain ⟨-, hr, -, left, right⟩ := avl
  have low := rem.low
  have high := rem.high
  obtain ⟨t', balanced, avl', -, above, below, same⟩ :=
    rebalance_spec a h d' rem.avl hr (by omega) (by omega)
  refine ⟨t', balanced, avl', ?_, ?_,
    (rebalance_blocks size balanced).1 ▸ trades_left rem.trades⟩ <;>
    simp only [Tree.height] <;> omega

theorem Removes.right (avl : Avl (.node a h l d r)) (rem : Removes size r m r' m') (d' : δ) :
    ∃ t', rebalance (.node a h l d' r') = some t' ∧ Removes size (.node a h l d r) m t' m' := by
  obtain ⟨hl, -, -, left, right⟩ := avl
  have low := rem.low
  have high := rem.high
  obtain ⟨t', balanced, avl', -, above, below, same⟩ :=
    rebalance_spec a h d' hl rem.avl (by omega) (by omega)
  refine ⟨t', balanced, avl', ?_, ?_,
    (rebalance_blocks size balanced).1 ▸ trades_right rem.trades⟩ <;>
    simp only [Tree.height] <;> omega

end Balanced

theorem doInsert_inserts (cmp : κ → κ → Int) (key : δ → κ) (hit : δ → δ) (size : Nat) (x : δ)
    (t : Tree Int δ) (m : Mem) (avl : Avl t) :
    ∃ t' inserted oom m', doInsert cmp key hit size x t m = some (t', inserted, oom, m') ∧
      Inserts size t m t' oom m' := by
  induction t with
  | nil =>
    rcases hm : memAlloc m size with ⟨_ | addr, m₁⟩
    · refine ⟨.nil, false, true, m₁, by simp only [doInsert, hm], trivial, le_rfl, by simp,
        fun _ => rfl, by simp, memAlloc_refused hm⟩
    · refine ⟨.node addr 1 .nil x .nil, true, false, m₁, by simp only [doInsert, hm], ?_, ?_, ?_,
        by simp, fun _ => rfl, memAlloc_trades hm⟩
      · simp [Avl, Tree.height]
      · simp [Tree.height]
      · simp [Tree.height]
  | node a h l d r ihl ihr =>
    by_cases less : cmp (key x) (key d) < 0
    · obtain ⟨l', inserted, oom, m', run, ins⟩ := ihl avl.1
      simp only [doInsert, if_pos less, run]
      cases oom with
      | true =>
        obtain rfl := ins.same rfl
        exact ⟨_, inserted, true, m', rfl, avl, le_rfl, by simp, fun _ => rfl, by simp,
          trades_left ins.trades⟩
      | false =>
        obtain ⟨t', balanced, ins'⟩ := ins.left avl
        exact ⟨t', inserted, false, m', by simp [balanced], ins'⟩
    by_cases more : 0 < cmp (key x) (key d)
    · obtain ⟨r', inserted, oom, m', run, ins⟩ := ihr avl.2.1
      simp only [doInsert, if_neg less, if_pos more, run]
      cases oom with
      | true =>
        obtain rfl := ins.same rfl
        exact ⟨_, inserted, true, m', rfl, avl, le_rfl, by simp, fun _ => rfl, by simp,
          trades_right ins.trades⟩
      | false =>
        obtain ⟨t', balanced, ins'⟩ := ins.right avl
        exact ⟨t', inserted, false, m', by simp [balanced], ins'⟩
    · simp only [doInsert, if_neg less, if_neg more]
      exact ⟨_, false, false, m, rfl, avl, le_rfl, by simp [Tree.height], by simp, fun _ => rfl,
        .refl m _⟩

theorem doRemove_removes (cmp : κ → κ → Int) (key : δ → κ) (size : Nat) (t : Tree Int δ) (k : κ)
    (m : Mem) (avl : Avl t) :
    ∃ t' removed m', doRemove cmp key size t k m = some (t', removed, m') ∧
      Removes size t m t' m' := by
  induction t generalizing k with
  | nil => exact ⟨.nil, false, m, rfl, trivial, by simp, le_rfl, .refl m 0⟩
  | node a h l d r ihl ihr =>
    by_cases less : cmp k (key d) < 0
    · obtain ⟨l', removed, m', run, rem⟩ := ihl k avl.1
      obtain ⟨t', balanced, rem'⟩ := rem.left avl d
      exact ⟨t', removed, m', by simp [doRemove, if_pos less, run, balanced], rem'⟩
    by_cases more : 0 < cmp k (key d)
    · obtain ⟨r', removed, m', run, rem⟩ := ihr k avl.2.1
      obtain ⟨t', balanced, rem'⟩ := rem.right avl d
      exact ⟨t', removed, m', by simp [doRemove, if_neg less, if_pos more, run, balanced], rem'⟩
    simp only [doRemove, if_neg less, if_neg more]
    cases l with
    | nil =>
      have nonneg := r.height_nonneg
      refine ⟨r, true, memFree m (some a) size, rfl, avl.2.1, ?_, ?_, ?_⟩
      · simp only [Tree.height_nil, Tree.height_node]
        omega
      · simp only [Tree.height_nil, Tree.height_node]
        omega
      · refine (memFree_trades m a size).within (r.blocks size) ?_ (zero_add _).symm
        rw [Tree.blocks_node, Tree.blocks_nil, zero_add]
    | node la lh ll ld lr =>
      cases r with
      | nil =>
        have nonneg := (Tree.node la lh ll ld lr).height_nonneg
        refine ⟨.node la lh ll ld lr, true, memFree m (some a) size, rfl, avl.1, ?_, ?_, ?_⟩
        · simp only [Tree.height_nil, Tree.height_node _ _ _ d]
          omega
        · simp only [Tree.height_nil, Tree.height_node _ _ _ d]
          omega
        · refine (memFree_trades m a size).within ((Tree.node la lh ll ld lr).blocks size) ?_
            (zero_add _).symm
          rw [Tree.blocks_node a, Tree.blocks_nil, add_zero]
      | node ra rh rl rd rr =>
        obtain ⟨succ, least⟩ : ∃ succ, minData (.node ra rh rl rd rr) = some succ := by
          rw [minData_eq, ← Option.isSome_iff_exists, List.isSome_head?]
          simp
        obtain ⟨r', removed, m', run, rem⟩ := ihr (key succ) avl.2.1
        obtain ⟨t', balanced, rem'⟩ := rem.right avl succ
        exact ⟨t', true, m', by simp [Tree.isNull, least, run, balanced], rem'⟩

/-! ### Runs -/

/-- The struct and the nodes. -/
def bstreeBlocks (t : Bstree α) : Blocks :=
  {(t.addr, sizeofBstree)} + t.root.blocks (bstreeNodeAllocSize t.elemSize)

def avlBlocks (t : AvlT α) : Blocks :=
  {(t.addr, sizeofAvl)} + t.root.blocks (avlNodeAllocSize t.elemSize)

def omapBlocks (map : Omap κ ν) : Blocks :=
  {(map.addr, sizeofOmap)} + map.root.blocks (omapNodeSize map.keySize map.valSize)

/-- The struct outlives a change of the nodes. -/
theorem trades_root {m m' : Mem} {a b : Blocks} (addr sizeof : Nat) (h : m.Trades a m' b) :
    m.Trades ({(addr, sizeof)} + a) m' ({(addr, sizeof)} + b) :=
  h.within {(addr, sizeof)} (add_comm _ _) (add_comm _ _)

/-- The nodes are freed, then the struct. -/
theorem trades_destroy {m : Mem} (t : Tree ι δ) (size addr sizeof : Nat) :
    m.Trades ({(addr, sizeof)} + t.blocks size)
      (memFree (freeSubtree size t m) (some addr) sizeof) 0 := by
  have freed := trades_root addr sizeof (freeSubtree_trades size t m)
  rw [add_zero] at freed
  exact freed.trans (memFree_trades _ addr sizeof)

/-- Whatever the comparator answers. -/
theorem bstreeStep_keeps (cmp : α → α → Int) (op : AvlOp α) (s : Bstree α × Mem) :
    ∃ out s', bstreeStep cmp op s = some (out, s') ∧
      s.2.Trades (bstreeBlocks s.1) s'.2 (bstreeBlocks s'.1) := by
  obtain ⟨t, m⟩ := s
  cases op with
  | add elem =>
    cases elem with
    | none => exact ⟨_, _, rfl, .refl m _⟩
    | some x =>
      exact ⟨_, _, rfl, trades_root _ _ (bstreeInsert_trades cmp _ x t.root m)⟩
  | remove elem =>
    cases elem with
    | none => exact ⟨_, _, rfl, .refl m _⟩
    | some x =>
      have traded := bstreeDoRemove_trades cmp (bstreeNodeAllocSize t.elemSize) t.root x m
      rcases hr : bstreeDoRemove cmp (bstreeNodeAllocSize t.elemSize) t.root x m with
        ⟨root, removed, m'⟩
      rw [hr] at traded
      simp only [bstreeStep, bstreeRemove, hr]
      cases removed with
      | true => exact ⟨_, _, rfl, trades_root _ _ traded⟩
      | false => exact ⟨_, _, rfl, trades_root _ _ traded⟩
  | contains elem => exact ⟨_, _, rfl, .refl m _⟩
  | min out => exact ⟨_, _, rfl, .refl m _⟩
  | max out => exact ⟨_, _, rfl, .refl m _⟩
  | clear => exact ⟨_, _, rfl, trades_root _ _ (freeSubtree_trades _ _ m)⟩

theorem bstree_owns (cmp : α → α → Int) (elemSize : Nat) :
    OwnsInRuns (bstreeCreate α elemSize) Prod.mk (bstreeStep cmp) Prod.snd
      (fun s => bstreeBlocks s.1) (fun s => some (bstreeDestroy s.1 s.2)) := by
  refine .of (fun _ => True) (fun m₀ r m₁ created => ?_) (fun op s _ => ?_)
    (fun s _ => ⟨_, rfl, trades_destroy ..⟩)
  · unfold bstreeCreate at created
    split at created <;> rename_i hm <;> obtain ⟨rfl, rfl⟩ := Prod.mk.inj created
    · exact ⟨memAlloc_refused hm, by simp⟩
    · exact ⟨memAlloc_trades hm, fun _ _ => ⟨trivial, rfl⟩⟩
  · obtain ⟨out, s', step, traded⟩ := bstreeStep_keeps cmp op s
    exact ⟨out, s', step, trivial, traded⟩

theorem avlStep_keeps (cmp : α → α → Int) (op : AvlOp α) (s : AvlT α × Mem) (avl : Avl s.1.root) :
    ∃ out s', avlStep cmp op s = some (out, s') ∧ Avl s'.1.root ∧
      s.2.Trades (avlBlocks s.1) s'.2 (avlBlocks s'.1) := by
  obtain ⟨t, m⟩ := s
  cases op with
  | add elem =>
    cases elem with
    | none => exact ⟨_, _, rfl, avl, .refl m _⟩
    | some x =>
      obtain ⟨root, inserted, oom, m', run, ins⟩ :=
        doInsert_inserts cmp id id (avlNodeAllocSize t.elemSize) x t.root m avl
      have traded := trades_root t.addr sizeofAvl ins.trades
      cases oom with
      | true =>
        obtain rfl := ins.same rfl
        exact ⟨.status .oom, (t, m'), by simp [avlStep, avlAdd, avlDoInsert, run], avl, traded⟩
      | false =>
        have there := ins.there rfl
        cases inserted with
        | true =>
          exact ⟨.status .ok, ({ t with root := root, len := t.len + 1 }, m'),
            by simp [avlStep, avlAdd, avlDoInsert, run, there], ins.avl, traded⟩
        | false =>
          exact ⟨.status .duplicate, ({ t with root := root }, m'),
            by simp [avlStep, avlAdd, avlDoInsert, run, there], ins.avl, traded⟩
  | remove elem =>
    cases elem with
    | none => exact ⟨_, _, rfl, avl, .refl m _⟩
    | some x =>
      obtain ⟨root, removed, m', run, rem⟩ :=
        doRemove_removes cmp id (avlNodeAllocSize t.elemSize) t.root x m avl
      simp only [avlStep, avlRemove, avlDoRemove, run]
      cases removed with
      | true => exact ⟨_, _, rfl, rem.avl, trades_root _ _ rem.trades⟩
      | false => exact ⟨_, _, rfl, rem.avl, trades_root _ _ rem.trades⟩
  | contains elem => exact ⟨_, _, rfl, avl, .refl m _⟩
  | min out => exact ⟨_, _, rfl, avl, .refl m _⟩
  | max out => exact ⟨_, _, rfl, avl, .refl m _⟩
  | clear => exact ⟨_, _, rfl, trivial, trades_root _ _ (freeSubtree_trades _ _ m)⟩

theorem avl_owns (cmp : α → α → Int) (elemSize : Nat) :
    OwnsInRuns (avlCreate α elemSize) Prod.mk (avlStep cmp) Prod.snd
      (fun s => avlBlocks s.1) (fun s => some (avlDestroy s.1 s.2)) := by
  refine .of (fun s => Avl s.1.root) (fun m₀ r m₁ created => ?_) (avlStep_keeps cmp)
    (fun s _ => ⟨_, rfl, trades_destroy ..⟩)
  · unfold avlCreate at created
    split at created <;> rename_i hm <;> obtain ⟨rfl, rfl⟩ := Prod.mk.inj created
    · exact ⟨memAlloc_refused hm, by simp⟩
    · refine ⟨memAlloc_trades hm, fun s here => ?_⟩
      obtain rfl := Option.some.inj here
      exact ⟨trivial, rfl⟩

theorem omapStep_keeps (cmp : κ → κ → Int) (op : OmapOp κ ν) (s : Omap κ ν × Mem)
    (avl : Avl s.1.root) :
    ∃ out s', omapStep cmp op s = some (out, s') ∧ Avl s'.1.root ∧
      s.2.Trades (omapBlocks s.1) s'.2 (omapBlocks s'.1) := by
  obtain ⟨map, m⟩ := s
  cases op with
  | set key value =>
    cases key with
    | none => exact ⟨_, _, rfl, avl, .refl m _⟩
    | some key =>
      cases value with
      | none => exact ⟨_, _, rfl, avl, .refl m _⟩
      | some value =>
        obtain ⟨root, inserted, oom, m', run, ins⟩ :=
          doInsert_inserts cmp Prod.fst (fun d => (d.1, value))
            (omapNodeSize map.keySize map.valSize) (key, value) map.root m avl
        have traded := trades_root map.addr sizeofOmap ins.trades
        cases oom with
        | true =>
          obtain rfl := ins.same rfl
          exact ⟨.of (.status .oom), (map, m'), by simp [omapStep, omapSet, omapDoSet, run],
            avl, traded⟩
        | false =>
          have there := ins.there rfl
          cases inserted with
          | true =>
            exact ⟨.of (.status .ok), ({ map with root := root, len := map.len + 1 }, m'),
              by simp [omapStep, omapSet, omapDoSet, run, there], ins.avl, traded⟩
          | false =>
            exact ⟨.of (.status .ok), ({ map with root := root }, m'),
              by simp [omapStep, omapSet, omapDoSet, run, there], ins.avl, traded⟩
  | remove key =>
    cases key with
    | none => exact ⟨_, _, rfl, avl, .refl m _⟩
    | some key =>
      obtain ⟨root, removed, m', run, rem⟩ := doRemove_removes cmp Prod.fst
        (omapNodeSize map.keySize map.valSize) map.root key m avl
      simp only [omapStep, omapRemove, omapDoRemove, run]
      cases removed with
      | true => exact ⟨_, _, rfl, rem.avl, trades_root _ _ rem.trades⟩
      | false => exact ⟨_, _, rfl, rem.avl, trades_root _ _ rem.trades⟩
  | get key out => exact ⟨_, _, rfl, avl, .refl m _⟩
  | getPtr key => exact ⟨_, _, rfl, avl, .refl m _⟩
  | contains key => exact ⟨_, _, rfl, avl, .refl m _⟩
  | minKey out => exact ⟨_, _, rfl, avl, .refl m _⟩
  | maxKey out => exact ⟨_, _, rfl, avl, .refl m _⟩
  | minEntry keyOut valOut => exact ⟨_, _, rfl, avl, .refl m _⟩
  | maxEntry keyOut valOut => exact ⟨_, _, rfl, avl, .refl m _⟩
  | clear => exact ⟨_, _, rfl, trivial, trades_root _ _ (freeSubtree_trades _ _ m)⟩

theorem omap_owns (cmp : κ → κ → Int) (keySize valSize : Nat) :
    OwnsInRuns (omapCreate κ ν keySize valSize) Prod.mk (omapStep cmp) Prod.snd
      (fun s => omapBlocks s.1) (fun s => some (omapDestroy s.1 s.2)) := by
  refine .of (fun s => Avl s.1.root) (fun m₀ r m₁ created => ?_) (omapStep_keeps cmp)
    (fun s _ => ⟨_, rfl, trades_destroy ..⟩)
  · unfold omapCreate at created
    split at created <;> rename_i hm <;> obtain ⟨rfl, rfl⟩ := Prod.mk.inj created
    · exact ⟨memAlloc_refused hm, by simp⟩
    · refine ⟨memAlloc_trades hm, fun s here => ?_⟩
      obtain rfl := Option.some.inj here
      exact ⟨trivial, rfl⟩

end Seqc
