import Seqc.Tree

/-! The rotations of avl.c and omap.c, which are the same functions in both, and the
insertions and removals that rebalance on the way up. `none` as the outcome of a
call means that it follows a NULL pointer. -/

namespace Seqc
open Comparator

variable {δ κ : Type}

/-! ### Rotations -/

def nodeHeight : Tree Int δ → Int
  | .nil => 0
  | .node _ h _ _ _ => h

def updateHeight : Tree Int δ → Tree Int δ
  | .nil => .nil
  | .node a _ l d r => .node a (1 + max (nodeHeight l) (nodeHeight r)) l d r

def balanceFactor : Tree Int δ → Option Int
  | .nil => none
  | .node _ _ l _ r => some (nodeHeight l - nodeHeight r)

def rotateRight : Tree Int δ → Option (Tree Int δ)
  | .node ya yh (.node xa xh a x b) y c =>
    some (updateHeight (.node xa xh a x (updateHeight (.node ya yh b y c))))
  | _ => none

def rotateLeft : Tree Int δ → Option (Tree Int δ)
  | .node xa xh a x (.node ya yh b y c) =>
    some (updateHeight (.node ya yh (updateHeight (.node xa xh a x b)) y c))
  | _ => none

def rebalance (n : Tree Int δ) : Option (Tree Int δ) :=
  match updateHeight n with
  | .nil => none
  | .node addr h l d r => do
    let bf := nodeHeight l - nodeHeight r
    if 1 < bf then
      if 0 ≤ (← balanceFactor l) then rotateRight (.node addr h l d r)
      else rotateRight (.node addr h (← rotateLeft l) d r)
    else if bf < -1 then
      if (← balanceFactor r) ≤ 0 then rotateLeft (.node addr h l d r)
      else rotateLeft (.node addr h l d (← rotateRight r))
    else pure (.node addr h l d r)

/-- Stored heights are the real ones, and siblings differ by one at most. -/
def Avl : Tree Int δ → Prop
  | .nil => True
  | .node _ h l _ r =>
    Avl l ∧ Avl r ∧ h = 1 + max l.height r.height ∧ l.height ≤ r.height + 1 ∧
      r.height ≤ l.height + 1

theorem Avl.nodeHeight_eq {t : Tree Int δ} (h : Avl t) : nodeHeight t = t.height := by
  cases t with
  | nil => rfl
  | node a i l d r => exact h.2.2.1

theorem avl_node {a : Nat} {h : Int} {l r : Tree Int δ} {d : δ} (hl : Avl l) (hr : Avl r)
    (left : l.height ≤ r.height + 1) (right : r.height ≤ l.height + 1) :
    Avl (updateHeight (.node a h l d r)) := by
  refine ⟨hl, hr, ?_, left, right⟩
  rw [hl.nodeHeight_eq, hr.nodeHeight_eq]

@[simp] theorem height_updateHeight (t : Tree Int δ) : (updateHeight t).height = t.height := by
  cases t <;> rfl

@[simp] theorem toList_updateHeight (t : Tree Int δ) : (updateHeight t).toList = t.toList := by
  cases t <;> rfl

/-- Between two balanced subtrees whose heights differ by two at most, whatever the
stored height, a balanced tree with the same data takes the place of the node. -/
theorem rebalance_spec (addr : Nat) (h : Int) {l r : Tree Int δ} (d : δ) (hl : Avl l) (hr : Avl r)
    (left : l.height ≤ r.height + 2) (right : r.height ≤ l.height + 2) :
    ∃ t, rebalance (.node addr h l d r) = some t ∧ Avl t ∧ t.toList = l.toList ++ d :: r.toList ∧
      max l.height r.height ≤ t.height ∧ t.height ≤ max l.height r.height + 1 ∧
      (l.height ≤ r.height + 1 → r.height ≤ l.height + 1 →
        t.height = max l.height r.height + 1) := by
  have hlh := hl.nodeHeight_eq
  have hrh := hr.nodeHeight_eq
  simp only [rebalance, updateHeight, hlh, hrh]
  by_cases high : 1 < l.height - r.height
  · rw [if_pos high]
    cases l with
    | nil =>
      have := r.height_nonneg
      simp only [Tree.height] at high
      omega
    | node xa xh a x b =>
      obtain ⟨ha, hb, hx, hab, hba⟩ := hl
      have hah := ha.nodeHeight_eq
      have hbh := hb.nodeHeight_eq
      simp only [Tree.height] at left right high
      simp only [balanceFactor, hah, hbh, Option.bind_eq_bind, Option.bind_some]
      by_cases outer : 0 ≤ a.height - b.height
      · -- LL
        rw [if_pos outer]
        refine ⟨_, rfl, avl_node ha (avl_node hb hr (by omega) (by omega)) ?_ ?_, by simp,
          ?_, ?_, ?_⟩ <;>
          simp only [height_updateHeight, Tree.height] <;> omega
      · -- LR
        rw [if_neg outer]
        cases b with
        | nil =>
          have := a.height_nonneg
          simp only [Tree.height] at outer
          omega
        | node ba bh b₁ y b₂ =>
          obtain ⟨hb₁, hb₂, -, h₁₂, h₂₁⟩ := hb
          simp only [Tree.height] at left right high outer hab hba
          refine ⟨_, rfl, avl_node (avl_node ha hb₁ (by omega) (by omega))
            (avl_node hb₂ hr (by omega) (by omega)) ?_ ?_, by simp, ?_, ?_, ?_⟩ <;>
            simp only [height_updateHeight, Tree.height] <;> omega
  rw [if_neg high]
  by_cases low : l.height - r.height < -1
  · rw [if_pos low]
    cases r with
    | nil =>
      have := l.height_nonneg
      simp only [Tree.height] at low
      omega
    | node ya yh b y c =>
      obtain ⟨hb, hc, hy, hbc, hcb⟩ := hr
      have hbh := hb.nodeHeight_eq
      have hch := hc.nodeHeight_eq
      simp only [Tree.height] at left right low
      simp only [balanceFactor, hbh, hch, Option.bind_eq_bind, Option.bind_some]
      by_cases outer : b.height - c.height ≤ 0
      · -- RR
        rw [if_pos outer]
        refine ⟨_, rfl, avl_node (avl_node hl hb (by omega) (by omega)) hc ?_ ?_, by simp,
          ?_, ?_, ?_⟩ <;>
          simp only [height_updateHeight, Tree.height] <;> omega
      · -- RL
        rw [if_neg outer]
        cases b with
        | nil =>
          have := c.height_nonneg
          simp only [Tree.height] at outer
          omega
        | node ba bh b₁ x b₂ =>
          obtain ⟨hb₁, hb₂, -, h₁₂, h₂₁⟩ := hb
          simp only [Tree.height] at left right low outer hbc hcb
          refine ⟨_, rfl, avl_node (avl_node hl hb₁ (by omega) (by omega))
            (avl_node hb₂ hc (by omega) (by omega)) ?_ ?_, by simp, ?_, ?_, ?_⟩ <;>
            simp only [height_updateHeight, Tree.height] <;> omega
  · rw [if_neg low]
    refine ⟨_, rfl, ⟨hl, hr, rfl, by omega, by omega⟩, rfl, ?_, ?_, ?_⟩ <;>
      simp only [Tree.height] <;> omega

/-! ### Insertion -/

/-- `do_insert` and `do_set`: the tree that takes the place of the node, `*inserted`
and `*oom`. `hit` is what happens to the data of an equal key. -/
def doInsert (cmp : κ → κ → Int) (key : δ → κ) (hit : δ → δ) (size : Nat) (fresh : δ) :
    Tree Int δ → Mem → Option (Tree Int δ × Bool × Bool × Mem)
  | .nil, m =>
    match memAlloc m size with
    | (none, m) => some (.nil, false, true, m)
    | (some addr, m) => some (.node addr 1 .nil fresh .nil, true, false, m)
  | .node addr h l d r, m =>
    if cmp (key fresh) (key d) < 0 then do
      let (l', inserted, oom, m) ← doInsert cmp key hit size fresh l m
      if oom then pure (.node addr h l d r, inserted, oom, m)
      else pure (← rebalance (.node addr h l' d r), inserted, oom, m)
    else if 0 < cmp (key fresh) (key d) then do
      let (r', inserted, oom, m) ← doInsert cmp key hit size fresh r m
      if oom then pure (.node addr h l d r, inserted, oom, m)
      else pure (← rebalance (.node addr h l d r'), inserted, oom, m)
    else some (.node addr h l (hit d) r, false, false, m)

/-- How an insertion of `x` into an ascending balanced tree can end. -/
inductive Insertion (cmp : κ → κ → Int) (key : δ → κ) (hit : δ → δ) (x : δ) (t : Tree Int δ)
    (m : Mem) : Tree Int δ × Bool × Bool × Mem → Prop
  | oom {pre post : List δ} {m' : Mem} (split : t.toList = pre ++ post)
      (cut : Cut cmp key (key x) pre post) (refused : m.refusals < m'.refusals) :
      Insertion cmp key hit x t m (t, false, true, m')
  | fresh {pre post : List δ} {t' : Tree Int δ} {m' : Mem} (split : t.toList = pre ++ post)
      (cut : Cut cmp key (key x) pre post) (stored : t'.toList = pre ++ x :: post) (avl : Avl t')
      (low : t.height ≤ t'.height) (high : t'.height ≤ t.height + 1)
      (granted : m'.refusals = m.refusals) :
      Insertion cmp key hit x t m (t', true, false, m')
  | hit {pre post : List δ} {d : δ} {t' : Tree Int δ} (split : t.toList = pre ++ d :: post)
      (equal : cmp (key x) (key d) = 0) (stored : t'.toList = pre ++ hit d :: post) (avl : Avl t')
      (level : t'.height = t.height) : Insertion cmp key hit x t m (t', false, false, m)

theorem doInsert_spec {cmp : κ → κ → Int} {key : δ → κ} (laws : Laws cmp) (hit : δ → δ)
    (size : Nat) (x : δ) (t : Tree Int δ) (m : Mem) (avl : Avl t)
    (asc : Ascending cmp key t.toList) :
    ∃ r, doInsert cmp key hit size x t m = some r ∧ Insertion cmp key hit x t m r := by
  induction t with
  | nil =>
    rcases hm : memAlloc m size with ⟨_ | addr, m₁⟩
    · have more := memAlloc_none hm
      simp only [doInsert, hm]
      exact ⟨_, rfl, .oom (by rfl) .nil (by omega)⟩
    · simp only [doInsert, hm]
      refine ⟨_, rfl, .fresh (by rfl) .nil rfl ?_ ?_ ?_ (memAlloc_some hm).2.2⟩
      · simp [Avl, Tree.height]
      · simp [Tree.height]
      · simp [Tree.height]
  | node addr h l d r ihl ihr =>
    obtain ⟨hl, hr, hh, left, right⟩ := avl
    obtain ⟨ascl, ascr, -, -⟩ := asc.parts
    by_cases less : cmp (key x) (key d) < 0
    · obtain ⟨_, run, outcome⟩ := ihl hl ascl
      simp only [doInsert, if_pos less, run]
      cases outcome with
      | oom split cut refused =>
        exact ⟨_, rfl, .oom (by rw [Tree.toList_node, split, List.append_assoc])
          (cut.left laws asc less) refused⟩
      | fresh split cut stored hl' low high granted =>
        obtain ⟨t', balanced, avl', data, above, below, same⟩ :=
          rebalance_spec addr h d hl' hr (by omega) (by omega)
        simp only [Option.bind_eq_bind, Option.bind_some, balanced]
        refine ⟨_, rfl, .fresh (by rw [Tree.toList_node, split, List.append_assoc])
          (cut.left laws asc less) (by simp [data, stored]) avl' ?_ ?_ granted⟩ <;>
          simp only [Tree.height] <;> omega
      | hit split equal stored hl' level =>
        obtain ⟨t', balanced, avl', data, -, -, same⟩ :=
          rebalance_spec addr h d hl' hr (by omega) (by omega)
        simp only [Option.bind_eq_bind, Option.bind_some, balanced]
        refine ⟨_, rfl, .hit (by rw [Tree.toList_node, split, List.append_assoc, List.cons_append])
          equal (by simp [data, stored]) avl' ?_⟩
        have := same (by omega) (by omega)
        simp only [Tree.height]
        omega
    by_cases more : 0 < cmp (key x) (key d)
    · obtain ⟨_, run, outcome⟩ := ihr hr ascr
      simp only [doInsert, if_neg less, if_pos more, run]
      cases outcome with
      | oom split cut refused =>
        exact ⟨_, rfl, .oom (by rw [Tree.toList_node, split, List.append_cons,
          ← List.append_assoc, ← List.append_cons]) (cut.right laws asc more) refused⟩
      | fresh split cut stored hr' low high granted =>
        obtain ⟨t', balanced, avl', data, above, below, same⟩ :=
          rebalance_spec addr h d hl hr' (by omega) (by omega)
        simp only [Option.bind_eq_bind, Option.bind_some, balanced]
        refine ⟨_, rfl, .fresh (by simp [split]) (cut.right laws asc more)
          (by simp [data, stored]) avl' ?_ ?_ granted⟩ <;>
          simp only [Tree.height] <;> omega
      | hit split equal stored hr' level =>
        obtain ⟨t', balanced, avl', data, -, -, same⟩ :=
          rebalance_spec addr h d hl hr' (by omega) (by omega)
        simp only [Option.bind_eq_bind, Option.bind_some, balanced]
        refine ⟨_, rfl, .hit (by rw [Tree.toList_node, split, List.append_cons,
          ← List.append_assoc, ← List.append_cons]) equal (by simp [data, stored]) avl' ?_⟩
        have := same (by omega) (by omega)
        simp only [Tree.height]
        omega
    · simp only [doInsert, if_neg less, if_neg more]
      exact ⟨_, rfl, .hit rfl (by omega) rfl ⟨hl, hr, hh, left, right⟩ rfl⟩

/-! ### Removal -/

/-- `do_remove`: the tree that takes the place of the node, and `*removed`. A node with
two children takes over the data of its successor, which is then removed below. -/
def doRemove (cmp : κ → κ → Int) (key : δ → κ) (size : Nat) :
    Tree Int δ → κ → Mem → Option (Tree Int δ × Bool × Mem)
  | .nil, _, m => some (.nil, false, m)
  | .node addr h l d r, k, m =>
    if cmp k (key d) < 0 then do
      let (l', removed, m) ← doRemove cmp key size l k m
      pure (← rebalance (.node addr h l' d r), removed, m)
    else if 0 < cmp k (key d) then do
      let (r', removed, m) ← doRemove cmp key size r k m
      pure (← rebalance (.node addr h l d r'), removed, m)
    else if l.isNull then some (r, true, memFree m (some addr) size)
    else if r.isNull then some (l, true, memFree m (some addr) size)
    else do
      let succ ← minData r
      let (r', _, m) ← doRemove cmp key size r (key succ) m
      pure (← rebalance (.node addr h l succ r'), true, m)

/-- How a removal of `k` from an ascending balanced tree can end. -/
inductive Removal (cmp : κ → κ → Int) (key : δ → κ) (k : κ) (t : Tree Int δ) (m : Mem) :
    Tree Int δ × Bool × Mem → Prop
  | absent {t' : Tree Int δ} (none_equal : ∀ d ∈ t.toList, cmp k (key d) ≠ 0)
      (same : t'.toList = t.toList) (avl : Avl t') (level : t'.height = t.height) :
      Removal cmp key k t m (t', false, m)
  | removed {pre post : List δ} {d : δ} {t' : Tree Int δ} {m' : Mem}
      (split : t.toList = pre ++ d :: post) (equal : cmp k (key d) = 0)
      (rest : t'.toList = pre ++ post) (avl : Avl t') (high : t'.height ≤ t.height)
      (low : t.height ≤ t'.height + 1) (quiet : m'.refusals = m.refusals) :
      Removal cmp key k t m (t', true, m')

theorem Removal.height_le {cmp : κ → κ → Int} {key : δ → κ} {k : κ} {t t' : Tree Int δ}
    {removed : Bool} {m m' : Mem} (h : Removal cmp key k t m (t', removed, m')) :
    Avl t' ∧ t'.height ≤ t.height ∧ t.height ≤ t'.height + 1 := by
  cases h with
  | absent _ _ avl level => exact ⟨avl, level.le, by omega⟩
  | removed _ _ _ avl high low _ => exact ⟨avl, high, low⟩

/-- The least entry of an ascending list is the only one with its key. -/
theorem Removal.of_head {cmp : κ → κ → Int} {key : δ → κ} (laws : Laws cmp) {succ : δ} {rest : List δ}
    {t t' : Tree Int δ} {removed : Bool} {m m' : Mem}
    (h : Removal cmp key (key succ) t m (t', removed, m'))
    (asc : Ascending cmp key t.toList) (first : t.toList = succ :: rest) :
    t'.toList = rest ∧ m'.refusals = m.refusals := by
  cases h with
  | absent none_equal =>
    exact absurd (laws.self (key succ)) (none_equal succ (by simp [first]))
  | @removed pre post d _ _ split equal after _ _ _ quiet =>
    cases pre with
    | nil =>
      rw [split] at first
      exact ⟨by simpa [after] using congrArg List.tail first, quiet⟩
    | cons p pre =>
      rw [split] at first asc
      obtain rfl := (List.cons.inj first).1
      have less := (asc.parts).2.2.1 p (by simp)
      omega

theorem doRemove_spec {cmp : κ → κ → Int} {key : δ → κ} (laws : Laws cmp) (size : Nat)
    (t : Tree Int δ) (k : κ) (m : Mem) (avl : Avl t) (asc : Ascending cmp key t.toList) :
    ∃ r, doRemove cmp key size t k m = some r ∧ Removal cmp key k t m r := by
  induction t generalizing k m with
  | nil => exact ⟨_, rfl, .absent (by simp) rfl avl rfl⟩
  | node addr h l d r ihl ihr =>
    obtain ⟨hl, hr, hh, left, right⟩ := avl
    obtain ⟨ascl, ascr, -, -⟩ := asc.parts
    by_cases less : cmp k (key d) < 0
    · obtain ⟨⟨l', removed, m'⟩, run, outcome⟩ := ihl k m hl ascl
      obtain ⟨hl', high, low⟩ := outcome.height_le
      obtain ⟨t', balanced, avl', data, above, below, same⟩ :=
        rebalance_spec addr h d hl' hr (by omega) (by omega)
      simp only [doRemove, if_pos less, run, Option.bind_eq_bind, Option.bind_some, balanced]
      cases outcome with
      | absent none_equal kept _ level =>
        refine ⟨_, rfl, .absent (fun e he => ?_) (by rw [data, kept, Tree.toList_node]) avl' ?_⟩
        · rcases List.mem_append.mp he with he | he
          · exact none_equal e he
          · exact (asc.above laws less e he).ne
        · have := same (by omega) (by omega)
          simp only [Tree.height]
          omega
      | removed split equal rest _ _ _ quiet =>
        refine ⟨_, rfl, .removed (by rw [Tree.toList_node, split, List.append_assoc, List.cons_append])
          equal (by rw [data, rest, List.append_assoc]) avl' ?_ ?_ quiet⟩ <;>
          simp only [Tree.height] <;> omega
    by_cases more : 0 < cmp k (key d)
    · obtain ⟨⟨r', removed, m'⟩, run, outcome⟩ := ihr k m hr ascr
      obtain ⟨hr', high, low⟩ := outcome.height_le
      obtain ⟨t', balanced, avl', data, above, below, same⟩ :=
        rebalance_spec addr h d hl hr' (by omega) (by omega)
      simp only [doRemove, if_neg less, if_pos more, run, Option.bind_eq_bind, Option.bind_some,
        balanced]
      cases outcome with
      | absent none_equal kept _ level =>
        refine ⟨_, rfl, .absent (fun e he => ?_) (by rw [data, kept, Tree.toList_node]) avl' ?_⟩
        · rw [Tree.toList_node, List.append_cons] at he
          rcases List.mem_append.mp he with he | he
          · exact (asc.below laws more e he).ne'
          · exact none_equal e he
        · have := same (by omega) (by omega)
          simp only [Tree.height]
          omega
      | removed split equal rest _ _ _ quiet =>
        refine ⟨_, rfl, .removed (by rw [Tree.toList_node, split, List.append_cons,
          ← List.append_assoc, ← List.append_cons]) equal (by simp [data, rest]) avl' ?_ ?_ quiet⟩ <;>
          simp only [Tree.height] <;> omega
    · have equal : cmp k (key d) = 0 := by omega
      simp only [doRemove, if_neg less, if_neg more]
      cases l with
      | nil =>
        have nonneg := r.height_nonneg
        refine ⟨_, rfl, .removed (by rfl) equal rfl hr ?_ ?_ (by simp)⟩ <;>
          simp only [Tree.height_nil, Tree.height_node] <;> omega
      | node la lh ll ld lr =>
        cases r with
        | nil =>
          have nonneg := (Tree.node la lh ll ld lr).height_nonneg
          refine ⟨_, rfl, .removed (by rfl) equal (by simp) hl ?_ ?_ (by simp)⟩ <;>
            simp only [Tree.height_nil, Tree.height_node _ _ _ d] <;> omega
        | node ra rh rl rd rr =>
          -- The successor is the head of the right subtree, and only it is removed there.
          obtain ⟨succ, rest, first⟩ : ∃ succ rest,
              (Tree.node ra rh rl rd rr).toList = succ :: rest := by
            cases hrl : (Tree.node ra rh rl rd rr).toList with
            | nil => simp at hrl
            | cons succ rest => exact ⟨succ, rest, rfl⟩
          have least : minData (.node ra rh rl rd rr) = some succ := by
            rw [minData_eq, first]
            rfl
          obtain ⟨⟨r', removed, m'⟩, run, outcome⟩ := ihr (key succ) m hr ascr
          obtain ⟨hr', high, low⟩ := outcome.height_le
          obtain ⟨others, quiet⟩ := outcome.of_head laws ascr first
          obtain ⟨t', balanced, avl', data, above, below, same⟩ :=
            rebalance_spec addr h succ hl hr' (by omega) (by omega)
          refine ⟨(t', true, m'), by simp [Tree.isNull, least, run, balanced],
            .removed (by rfl) equal (by rw [data, others, first]) avl' ?_ ?_ quiet⟩ <;>
            rw [Tree.height] <;> omega

end Seqc
