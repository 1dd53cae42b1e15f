import Seqc.Avl

/-! bstree.c: an ordered set in a tree of any shape, and the runs of its operations from
`bstree_create` with node allocations failing at arbitrary points. The operations are those
of avl.c, and the finite set they are compared with is the same. -/

namespace Seqc
open Comparator Runs

/-- `bstree_t`. -/
structure Bstree (α : Type) where
  addr : Nat
  root : Tree Unit α
  len : Nat
  elemSize : Nat

def sizeofBstree : Nat := 48

/-- The two links of the node header, then the element. -/
def bstreeNodeAllocSize (elemSize : Nat) : Nat := addSize 16 elemSize

variable {α : Type}

def bstreeCreate (α : Type) (elemSize : Nat) (m : Mem) : Option (Bstree α) × Mem :=
  match memAlloc m sizeofBstree with
  | (none, m) => (none, m)
  | (some addr, m) => (some ⟨addr, .nil, 0, elemSize⟩, m)

/-- The walk to a link and the store through it, also of the NULL of a refused node. -/
def bstreeInsert (cmp : α → α → Int) (size : Nat) (elem : α) :
    Tree Unit α → Mem → Status × Tree Unit α × Mem
  | .nil, m =>
    match memAlloc m size with
    | (none, m) => (.oom, .nil, m)
    | (some addr, m) => (.ok, .node addr () .nil elem .nil, m)
  | .node addr i l d r, m =>
    if cmp elem d < 0 then
      let (st, l, m) := bstreeInsert cmp size elem l m
      (st, .node addr i l d r, m)
    else if 0 < cmp elem d then
      let (st, r, m) := bstreeInsert cmp size elem r m
      (st, .node addr i l d r, m)
    else (.duplicate, .node addr i l d r, m)

def bstreeAdd (cmp : α → α → Int) (t : Bstree α) (elem : Option α) (m : Mem) :
    Status × Bstree α × Mem :=
  match elem with
  | none => (.invalid, t, m)
  | some elem =>
    let (st, root, m) := bstreeInsert cmp (bstreeNodeAllocSize t.elemSize) elem t.root m
    (st, { t with root := root, len := if st = .ok then t.len + 1 else t.len }, m)

def bstreeContains (cmp : α → α → Int) (t : Bstree α) (elem : Option α) : Bool :=
  match elem with
  | none => false
  | some elem => (treeFind cmp id elem t.root).isSome

/-- A node with two children takes over the data of its successor, which is then removed
from the right subtree by a search for an equal element. -/
def bstreeDoRemove (cmp : α → α → Int) (size : Nat) :
    Tree Unit α → α → Mem → Tree Unit α × Bool × Mem
  | .nil, _, m => (.nil, false, m)
  | .node addr i l d r, elem, m =>
    if cmp elem d < 0 then
      let (l, removed, m) := bstreeDoRemove cmp size l elem m
      (.node addr i l d r, removed, m)
    else if 0 < cmp elem d then
      let (r, removed, m) := bstreeDoRemove cmp size r elem m
      (.node addr i l d r, removed, m)
    else if l.isNull then (r, true, memFree m (some addr) size)
    else if r.isNull then (l, true, memFree m (some addr) size)
    else
      match minData r with
      | none => (.node addr i l d r, true, m)
      | some succ =>
        let (r, _, m) := bstreeDoRemove cmp size r succ m
        (.node addr i l succ r, true, m)

def bstreeRemove (cmp : α → α → Int) (t : Bstree α) (elem : Option α) (m : Mem) :
    Status × Bstree α × Mem :=
  match elem with
  | none => (.invalid, t, m)
  | some elem =>
    let (root, removed, m) := bstreeDoRemove cmp (bstreeNodeAllocSize t.elemSize) t.root elem m
    if removed then (.ok, { t with root := root, len := t.len - 1 }, m)
    else (.notFound, { t with root := root }, m)

def bstreeMinPtr (t : Bstree α) : Option α := minData t.root
def bstreeMaxPtr (t : Bstree α) : Option α := maxData t.root
def bstreeMin (t : Bstree α) (out : Bool) : Status × Option α := seqcCopyOut (bstreeMinPtr t) out
def bstreeMax (t : Bstree α) (out : Bool) : Status × Option α := seqcCopyOut (bstreeMaxPtr t) out
def bstreeLen (t : Bstree α) : Nat := t.len
def bstreeHeight (t : Bstree α) : Int := t.root.height

def bstreeClear (t : Bstree α) (m : Mem) : Bstree α × Mem :=
  ({ t with root := .nil, len := 0 }, freeSubtree (bstreeNodeAllocSize t.elemSize) t.root m)

def bstreeDestroy (t : Bstree α) (m : Mem) : Mem :=
  memFree (freeSubtree (bstreeNodeAllocSize t.elemSize) t.root m) (some t.addr) sizeofBstree

def bstreeStep (cmp : α → α → Int) (op : AvlOp α) (s : Bstree α × Mem) :
    Option (Answer α × Bstree α × Mem) :=
  match op with
  | .add elem =>
    let (st, t, m) := bstreeAdd cmp s.1 elem s.2
    some (.status st, t, m)
  | .remove elem =>
    let (st, t, m) := bstreeRemove cmp s.1 elem s.2
    some (.status st, t, m)
  | .contains elem => some (.answer (bstreeContains cmp s.1 elem), s)
  | .min out => some (.read (bstreeMin s.1 out).1 (bstreeMin s.1 out).2, s)
  | .max out => some (.read (bstreeMax s.1 out).1 (bstreeMax s.1 out).2, s)
  | .clear => some (.nothing, bstreeClear s.1 s.2)

/-! ### What the walks do -/

/-- How an insertion of `x` into an ascending tree can end. -/
inductive Placement (cmp : α → α → Int) (x : α) (t : Tree Unit α) (m : Mem) :
    Status × Tree Unit α × Mem → Prop
  | oom {pre post : List α} {m' : Mem} (split : t.toList = pre ++ post)
      (cut : Cut cmp id x pre post) (refused : m.refusals < m'.refusals) :
      Placement cmp x t m (.oom, t, m')
  | fresh {pre post : List α} {t' : Tree Unit α} {m' : Mem} (split : t.toList = pre ++ post)
      (cut : Cut cmp id x pre post) (stored : t'.toList = pre ++ x :: post)
      (granted : m'.refusals = m.refusals) : Placement cmp x t m (.ok, t', m')
  | duplicate {d : α} (mem : d ∈ t.toList) (equal : cmp x d = 0) :
      Placement cmp x t m (.duplicate, t, m)

/-- How a removal of `x` from an ascending tree can end. -/
inductive Deletion (cmp : α → α → Int) (x : α) (t : Tree Unit α) (m : Mem) :
    Tree Unit α × Bool × Mem → Prop
  | absent (none_equal : ∀ d ∈ t.toList, cmp x d ≠ 0) : Deletion cmp x t m (t, false, m)
  | removed {pre post : List α} {d : α} {t' : Tree Unit α} {m' : Mem}
      (split : t.toList = pre ++ d :: post) (equal : cmp x d = 0)
      (rest : t'.toList = pre ++ post) (quiet : m'.refusals = m.refusals) :
      Deletion cmp x t m (t', true, m')

section Walks
variable {cmp : α → α → Int} {x : α} {m : Mem}

theorem bstreeInsert_spec (laws : Laws cmp) (size : Nat) (x : α) (t : Tree Unit α) (m : Mem)
    (asc : Ascending cmp id t.toList) : Placement cmp x t m (bstreeInsert cmp size x t m) := by
  induction t with
  | nil =>
    rcases hm : memAlloc m size with ⟨_ | addr, m₁⟩
    · have more := memAlloc_none hm
      simp only [bstreeInsert, hm]
      exact .oom (by rfl) .nil (by omega)
    · simp only [bstreeInsert, hm]
      exact .fresh (by rfl) .nil rfl (memAlloc_some hm).2.2
  | node addr i l d r ihl ihr =>
    obtain ⟨ascl, ascr, -, -⟩ := asc.parts
    rw [bstreeInsert]
    by_cases less : cmp x d < 0
    · rw [if_pos less]
      have outcome := ihl ascl
      generalize bstreeInsert cmp size x l m = result at outcome
      cases outcome with
      | oom split cut refused =>
        exact .oom (by rw [Tree.toList_node, split, List.append_assoc])
          (cut.left laws asc less) refused
      | fresh split cut stored granted =>
        exact .fresh (by rw [Tree.toList_node, split, List.append_assoc])
          (cut.left laws asc less) (by simp [stored]) granted
      | duplicate mem equal => exact .duplicate (by simp [mem]) equal
    by_cases more : 0 < cmp x d
    · rw [if_neg less, if_pos more]
      have outcome := ihr ascr
      generalize bstreeInsert cmp size x r m = result at outcome
      cases outcome with
      | oom split cut refused =>
        exact .oom (by simp [split]) (cut.right laws asc more) refused
      | fresh split cut stored granted =>
        exact .fresh (by simp [split]) (cut.right laws asc more) (by simp [stored]) granted
      | duplicate mem equal => exact .duplicate (by simp [mem]) equal
    · rw [if_neg less, if_neg more]
      exact .duplicate (by simp) (by omega : cmp x d = 0)

/-- The least element of an ascending list is the only one equal to it. -/
theorem Deletion.of_head (laws : Laws cmp) {succ : α} {rest : List α} {t t' : Tree Unit α}
    {removed : Bool} {m' : Mem} (h : Deletion cmp succ t m (t', removed, m'))
    (asc : Ascending cmp id t.toList) (first : t.toList = succ :: rest) :
    t'.toList = rest ∧ m'.refusals = m.refusals := by
  cases h with
  | absent none_equal => exact absurd (laws.self succ) (none_equal succ (by simp [first]))
  | @removed pre post d _ _ split equal after quiet =>
    cases pre with
    | nil =>
      rw [split] at first
      exact ⟨by simpa [after] using congrArg List.tail first, quiet⟩
    | cons p pre =>
      rw [split] at first asc
      obtain rfl := (List.cons.inj first).1
      have less : cmp p d < 0 := (asc.parts).2.2.1 p (by simp)
      omega

theorem bstreeDoRemove_spec (laws : Laws cmp) (size : Nat) (t : Tree Unit α) (x : α) (m : Mem)
    (asc : Ascending cmp id t.toList) : Deletion cmp x t m (bstreeDoRemove cmp size t x m) := by
  induction t generalizing x m with
  | nil => exact .absent (by simp)
  | node addr i l d r ihl ihr =>
    obtain ⟨ascl, ascr, -, -⟩ := asc.parts
    rw [bstreeDoRemove]
    by_cases less : cmp x d < 0
    · rw [if_pos less]
      have outcome := ihl x m ascl
      generalize bstreeDoRemove cmp size l x m = result at outcome
      cases outcome with
      | absent none_equal =>
        refine .absent fun e he => ?_
        rcases List.mem_append.mp he with he | he
        · exact none_equal e he
        · exact (asc.above laws less e he).ne
      | removed split equal rest quiet =>
        exact .removed (by rw [Tree.toList_node, split, List.append_assoc, List.cons_append])
          equal (by rw [Tree.toList_node, rest, List.append_assoc]) quiet
    by_cases more : 0 < cmp x d
    · rw [if_neg less, if_pos more]
      have outcome := ihr x m ascr
      generalize bstreeDoRemove cmp size r x m = result at outcome
      cases outcome with
      | absent none_equal =>
        refine .absent fun e he => ?_
        rw [Tree.toList_node, List.append_cons] at he
        rcases List.mem_append.mp he with he | he
        · exact (asc.below laws more e he).ne'
        · exact none_equal e he
      | @removed pre post e _ _ split equal rest quiet =>
        have split' : (Tree.node addr i l d r).toList = (l.toList ++ d :: pre) ++ e :: post := by
          simp [split]
        exact .removed split' equal (by simp [rest]) quiet
    · have equal : cmp x d = 0 := by omega
      rw [if_neg less, if_neg more]
      cases l with
      | nil =>
        have split : (Tree.node addr i .nil d r).toList = [] ++ d :: r.toList := rfl
        exact .removed split equal rfl (by simp)
      | node la li ll ld lr =>
        cases r with
        | nil => exact .removed (by rfl) equal (List.append_nil _).symm (by simp)
        | node ra ri rl rd rr =>
          -- The successor is the head of the right subtree, and only it is removed there.
          obtain ⟨succ, rest, first⟩ : ∃ succ rest,
              (Tree.node ra ri rl rd rr).toList = succ :: rest := by
            cases hrl : (Tree.node ra ri rl rd rr).toList with
            | nil => simp at hrl
            | cons succ rest => exact ⟨succ, rest, rfl⟩
          have least : minData (.node ra ri rl rd rr) = some succ := by
            rw [minData_eq, first]
            rfl
          have outcome := ihr succ m ascr
          simp only [Tree.isNull, Bool.false_eq_true, if_false, least]
          generalize bstreeDoRemove cmp size (.node ra ri rl rd rr) succ m = result at outcome ⊢
          obtain ⟨r', removed, m'⟩ := result
          obtain ⟨others, quiet⟩ := outcome.of_head laws ascr first
          exact .removed (by rfl) equal (by rw [Tree.toList_node, others, first]) quiet

end Walks

/-! ### Runs -/

structure BstreeInv (cmp : α → α → Int) (t : Bstree α) : Prop where
  ascending : Ascending cmp id t.root.toList
  counted : t.len = t.root.size

section Runs
variable {cmp : α → α → Int} {t : Bstree α}

theorem bstreeAdd_spec (laws : Laws cmp) (inv : BstreeInv cmp t) (x : α) (m : Mem) {st : Status}
    {t' : Bstree α} {m' : Mem} (added : bstreeAdd cmp t (some x) m = (st, t', m')) :
    BstreeInv cmp t' ∧ OrderedSetStep cmp (t.root.toList, m.refusals) (.add (some x))
      (.status st) (t'.root.toList, m'.refusals) := by
  have outcome := bstreeInsert_spec laws (bstreeNodeAllocSize t.elemSize) x t.root m inv.ascending
  have count := inv.counted
  rw [Tree.size_eq] at count
  simp only [bstreeAdd] at added
  generalize bstreeInsert cmp (bstreeNodeAllocSize t.elemSize) x t.root m = r at added outcome
  obtain ⟨rfl, rfl, rfl⟩ := added
  cases outcome with
  | oom split cut refused =>
    refine ⟨inv, .addOom _ _ _ x ?_ refused⟩
    rw [split]
    exact cut.absent
  | fresh split cut stored granted =>
    refine ⟨⟨?_, ?_⟩, ?_⟩
    · rw [stored]
      exact (split ▸ inv.ascending).put laws cut
    · rw [split] at count
      simp only [if_true, Tree.size_eq, stored, count, List.length_append, List.length_cons]
      omega
    · rw [split, stored, granted]
      exact .addOk _ _ _ x cut.absent
  | @duplicate d mem equal => exact ⟨inv, .addDuplicate _ _ x ⟨d, mem, equal⟩⟩

theorem bstreeRemove_spec (laws : Laws cmp) (inv : BstreeInv cmp t) (x : α) (m : Mem)
    {st : Status} {t' : Bstree α} {m' : Mem}
    (removed : bstreeRemove cmp t (some x) m = (st, t', m')) :
    BstreeInv cmp t' ∧ OrderedSetStep cmp (t.root.toList, m.refusals) (.remove (some x))
      (.status st) (t'.root.toList, m'.refusals) := by
  have outcome := bstreeDoRemove_spec laws (bstreeNodeAllocSize t.elemSize) t.root x m
    inv.ascending
  have count := inv.counted
  rw [Tree.size_eq] at count
  simp only [bstreeRemove] at removed
  generalize bstreeDoRemove cmp (bstreeNodeAllocSize t.elemSize) t.root x m = r
    at removed outcome
  cases outcome with
  | absent none_equal =>
    obtain ⟨rfl, rfl, rfl⟩ := removed
    exact ⟨inv, .removeMiss _ _ x none_equal⟩
  | @removed pre post d _ _ split equal rest quiet =>
    obtain ⟨rfl, rfl, rfl⟩ := removed
    refine ⟨⟨?_, ?_⟩, ?_⟩
    · rw [rest]
      exact (split ▸ inv.ascending).drop
    · rw [split] at count
      simp only [Tree.size_eq, rest, count, List.length_append, List.length_cons]
      omega
    · rw [split, rest, quiet]
      exact .removeOk pre post _ x d equal

theorem bstreeContains_iff (laws : Laws cmp) (inv : BstreeInv cmp t) (x : α) :
    bstreeContains cmp t (some x) = true ↔ ∃ y ∈ t.root.toList, cmp x y = 0 := by
  obtain ⟨found, absent⟩ := treeFind_spec laws x t.root inv.ascending
  rw [bstreeContains]
  cases h : treeFind cmp id x t.root with
  | none => simpa using absent h
  | some d => simpa using ⟨d, found d h⟩

theorem bstreeStep_refines (laws : Laws cmp) (op : AvlOp α) (s : Bstree α × Mem)
    (g : List α × Nat) (h : BstreeInv cmp s.1 ∧ g = (s.1.root.toList, s.2.refusals)) :
    ∃ out s' g', bstreeStep cmp op s = some (out, s') ∧ OrderedSetStep cmp g op out g' ∧
      BstreeInv cmp s'.1 ∧ g' = (s'.1.root.toList, s'.2.refusals) := by
  obtain ⟨t, m⟩ := s
  obtain ⟨inv, rfl⟩ := h
  cases op with
  | add elem =>
    cases elem with
    | none => exact ⟨_, _, _, rfl, .addInvalid _, inv, rfl⟩
    | some x =>
      obtain ⟨inv', spec⟩ := bstreeAdd_spec laws inv x m rfl
      exact ⟨_, _, _, rfl, spec, inv', rfl⟩
  | remove elem =>
    cases elem with
    | none => exact ⟨_, _, _, rfl, .removeInvalid _, inv, rfl⟩
    | some x =>
      obtain ⟨inv', spec⟩ := bstreeRemove_spec laws inv x m rfl
      exact ⟨_, _, _, rfl, spec, inv', rfl⟩
  | contains elem =>
    cases elem with
    | none => exact ⟨_, _, _, rfl, .containsNull _, inv, rfl⟩
    | some x => exact ⟨_, _, _, rfl, .contains _ _ x _ (bstreeContains_iff laws inv x), inv, rfl⟩
  | min out =>
    refine ⟨_, (t, m), _, rfl, ?_, inv, rfl⟩
    rw [bstreeMin, bstreeMinPtr, minData_eq]
    exact .min_head laws inv.ascending _ out
  | max out =>
    refine ⟨_, (t, m), _, rfl, ?_, inv, rfl⟩
    rw [bstreeMax, bstreeMaxPtr, maxData_eq]
    exact .max_getLast laws inv.ascending _ out
  | clear =>
    refine ⟨_, _, _, rfl, .clear _ _, ⟨List.Pairwise.nil, rfl⟩, ?_⟩
    simp only [bstreeClear, freeSubtree_refusals, Tree.toList_nil]

theorem bstreeCreate_spec (cmp : α → α → Int) {elemSize : Nat} {m m' : Mem}
    (h : bstreeCreate α elemSize m = (some t, m')) : BstreeInv cmp t ∧ t.root.toList = [] := by
  unfold bstreeCreate at h
  split at h
  · simp at h
  · obtain ⟨here, -⟩ := Prod.mk.inj h
    obtain rfl := Option.some.inj here
    exact ⟨⟨List.Pairwise.nil, rfl⟩, rfl⟩

/-- Every run from `bstree_create` is one of a finite set of classes, and ends in a tree that
ascends strictly and has `len` nodes. -/
theorem bstree_run_refines (laws : Laws cmp) {elemSize : Nat} {m₀ m₁ : Mem} {t₀ : Bstree α}
    (created : bstreeCreate α elemSize m₀ = (some t₀, m₁)) (ops : List (AvlOp α)) :
    ∃ outs t m, run (bstreeStep cmp) ops (t₀, m₁) = some (outs, (t, m)) ∧
      SpecRun (OrderedSetStep cmp) ([], m₁.refusals) ops outs (t.root.toList, m.refusals) ∧
      Ascending cmp id t.root.toList ∧ bstreeLen t = t.root.size := by
  obtain ⟨inv₀, start⟩ := bstreeCreate_spec cmp created
  obtain ⟨outs, ⟨t, m⟩, g, ran, spec, inv, rfl⟩ := run_refines (bstreeStep cmp)
    (OrderedSetStep cmp) (bstreeStep_refines laws) ops (s := (t₀, m₁)) (g := ([], m₁.refusals))
    ⟨inv₀, by rw [start]⟩
  exact ⟨outs, t, m, ran, spec, inv.ascending, inv.counted⟩

/-- A run whose third node cannot be allocated, and that removes a node with two children. -/
theorem bstree_run_refines_ints :
    ∃ outs t m, run (bstreeStep intCmp)
        [.add (some 3), .add (some 1), .add (some 2), .add (some 4), .remove (some 3)]
        (⟨0, .nil, 0, 8⟩, ⟨refusingOnce 3, 1, [.alloc 0 48]⟩) = some (outs, (t, m)) ∧
      Ascending intCmp id t.root.toList ∧ bstreeLen t = t.root.size := by
  have created : bstreeCreate Int 8 (.start (refusingOnce 3)) =
      (some ⟨0, .nil, 0, 8⟩, ⟨refusingOnce 3, 1, [.alloc 0 48]⟩) := rfl
  obtain ⟨outs, t, m, ran, -, tree⟩ := bstree_run_refines intCmp_laws created
    [.add (some 3), .add (some 1), .add (some 2), .add (some 4), .remove (some 3)]
  exact ⟨outs, t, m, ran, tree⟩

end Runs

end Seqc
