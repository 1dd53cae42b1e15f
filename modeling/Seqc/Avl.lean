import Seqc.Balance
import Seqc.Lib.Runs

/-! avl.c: an ordered set, and the runs of its operations from `avl_create` with
node allocations failing at arbitrary points. `cmp` never changes after the
creation, so it is a parameter; a NULL element is `none`. -/

namespace Seqc
open Comparator Runs

/-- `avl_t`. -/
structure AvlT (α : Type) where
  addr : Nat
  root : Tree Int α
  len : Nat
  elemSize : Nat

def sizeofAvl : Nat := 48

/-- The node header rounded up to the largest alignment, then the element. -/
def avlNodeAllocSize (elemSize : Nat) : Nat := addSize 32 elemSize

variable {α : Type}

def avlCreate (α : Type) (elemSize : Nat) (m : Mem) : Option (AvlT α) × Mem :=
  match memAlloc m sizeofAvl with
  | (none, m) => (none, m)
  | (some addr, m) => (some ⟨addr, .nil, 0, elemSize⟩, m)

/-- A duplicate leaves the stored element. -/
def avlDoInsert (cmp : α → α → Int) (size : Nat) (elem : α) (node : Tree Int α) (m : Mem) :
    Option (Tree Int α × Bool × Bool × Mem) := doInsert cmp id id size elem node m

def avlAdd (cmp : α → α → Int) (t : AvlT α) (elem : Option α) (m : Mem) :
    Option (Status × AvlT α × Mem) :=
  match elem with
  | none => some (.invalid, t, m)
  | some elem => do
    let (newRoot, inserted, oom, m) ← avlDoInsert cmp (avlNodeAllocSize t.elemSize) elem t.root m
    if oom then pure (.oom, t, m)
    else
      let t := if newRoot.isNull then t else { t with root := newRoot }
      if inserted then pure (.ok, { t with len := t.len + 1 }, m) else pure (.duplicate, t, m)

def avlContains (cmp : α → α → Int) (t : AvlT α) (elem : Option α) : Bool :=
  match elem with
  | none => false
  | some elem => (treeFind cmp id elem t.root).isSome

def avlDoRemove (cmp : α → α → Int) (size : Nat) (node : Tree Int α) (elem : α) (m : Mem) :
    Option (Tree Int α × Bool × Mem) := doRemove cmp id size node elem m

def avlRemove (cmp : α → α → Int) (t : AvlT α) (elem : Option α) (m : Mem) :
    Option (Status × AvlT α × Mem) :=
  match elem with
  | none => some (.invalid, t, m)
  | some elem => do
    let (root, removed, m) ← avlDoRemove cmp (avlNodeAllocSize t.elemSize) t.root elem m
    if removed then pure (.ok, { t with root := root, len := t.len - 1 }, m)
    else pure (.notFound, { t with root := root }, m)

def avlMinPtr (t : AvlT α) : Option α := minData t.root
def avlMaxPtr (t : AvlT α) : Option α := maxData t.root
def avlMin (t : AvlT α) (out : Bool) : Status × Option α := seqcCopyOut (avlMinPtr t) out
def avlMax (t : AvlT α) (out : Bool) : Status × Option α := seqcCopyOut (avlMaxPtr t) out
def avlLen (t : AvlT α) : Nat := t.len
def avlHeight (t : AvlT α) : Int := nodeHeight t.root

def avlClear (t : AvlT α) (m : Mem) : AvlT α × Mem :=
  ({ t with root := .nil, len := 0 }, freeSubtree (avlNodeAllocSize t.elemSize) t.root m)

def avlDestroy (t : AvlT α) (m : Mem) : Mem :=
  memFree (freeSubtree (avlNodeAllocSize t.elemSize) t.root m) (some t.addr) sizeofAvl

/-! ### Runs -/

inductive AvlOp (α : Type) where
  | add (elem : Option α)
  | remove (elem : Option α)
  | contains (elem : Option α)
  | min (out : Bool)
  | max (out : Bool)
  | clear

def avlStep (cmp : α → α → Int) (op : AvlOp α) (s : AvlT α × Mem) :
    Option (Answer α × AvlT α × Mem) :=
  match op with
  | .add elem => do
    let (st, t, m) ← avlAdd cmp s.1 elem s.2
    pure (.status st, t, m)
  | .remove elem => do
    let (st, t, m) ← avlRemove cmp s.1 elem s.2
    pure (.status st, t, m)
  | .contains elem => some (.answer (avlContains cmp s.1 elem), s)
  | .min out => some (.read (avlMin s.1 out).1 (avlMin s.1 out).2, s)
  | .max out => some (.read (avlMax s.1 out).1 (avlMax s.1 out).2, s)
  | .clear => some (.nothing, avlClear s.1 s.2)

/-- What a finite set of classes of elements answers. Its state is the list of the
elements that stand for their classes, and the number of requests refused so far. -/
inductive OrderedSetStep (cmp : α → α → Int) :
    List α × Nat → AvlOp α → Answer α → List α × Nat → Prop
  | addOk (pre post : List α) (n x) (absent : ∀ y ∈ pre ++ post, cmp x y ≠ 0) :
      OrderedSetStep cmp (pre ++ post, n) (.add (some x)) (.status .ok) (pre ++ x :: post, n)
  | addOom (xs n n' x) (absent : ∀ y ∈ xs, cmp x y ≠ 0) (refused : n < n') :
      OrderedSetStep cmp (xs, n) (.add (some x)) (.status .oom) (xs, n')
  | addDuplicate (xs n x) (present : ∃ y ∈ xs, cmp x y = 0) :
      OrderedSetStep cmp (xs, n) (.add (some x)) (.status .duplicate) (xs, n)
  | addInvalid (s) : OrderedSetStep cmp s (.add none) (.status .invalid) s
  | removeOk (pre post : List α) (n x y) (equal : cmp x y = 0) :
      OrderedSetStep cmp (pre ++ y :: post, n) (.remove (some x)) (.status .ok) (pre ++ post, n)
  | removeMiss (xs n x) (absent : ∀ y ∈ xs, cmp x y ≠ 0) :
      OrderedSetStep cmp (xs, n) (.remove (some x)) (.status .notFound) (xs, n)
  | removeInvalid (s) : OrderedSetStep cmp s (.remove none) (.status .invalid) s
  | contains (xs n x b) (iff : b = true ↔ ∃ y ∈ xs, cmp x y = 0) :
      OrderedSetStep cmp (xs, n) (.contains (some x)) (.answer b) (xs, n)
  | containsNull (s) : OrderedSetStep cmp s (.contains none) (.answer false) s
  | minHit (xs n y out) (mem : y ∈ xs) (least : ∀ z ∈ xs, cmp y z ≤ 0) :
      OrderedSetStep cmp (xs, n) (.min out) (.read .ok (if out then some y else none)) (xs, n)
  | minMiss (n out) : OrderedSetStep cmp ([], n) (.min out) (.read .notFound none) ([], n)
  | maxHit (xs n y out) (mem : y ∈ xs) (greatest : ∀ z ∈ xs, cmp z y ≤ 0) :
      OrderedSetStep cmp (xs, n) (.max out) (.read .ok (if out then some y else none)) (xs, n)
  | maxMiss (n out) : OrderedSetStep cmp ([], n) (.max out) (.read .notFound none) ([], n)
  | clear (xs n) : OrderedSetStep cmp (xs, n) .clear .nothing ([], n)

/-- `min` and `max` of an ascending sequence are its ends. -/
theorem OrderedSetStep.min_head {cmp : α → α → Int} (laws : Laws cmp) {xs : List α}
    (asc : Ascending cmp id xs) (n : Nat) (out : Bool) :
    OrderedSetStep cmp (xs, n) (.min out)
      (.read (seqcCopyOut xs.head? out).1 (seqcCopyOut xs.head? out).2) (xs, n) := by
  cases h : xs.head? with
  | none =>
    rw [List.head?_eq_none_iff.mp h]
    exact .minMiss n out
  | some y =>
    obtain ⟨mem, least⟩ := asc.head_le laws h
    exact .minHit xs n y out mem least

theorem OrderedSetStep.max_getLast {cmp : α → α → Int} (laws : Laws cmp) {xs : List α}
    (asc : Ascending cmp id xs) (n : Nat) (out : Bool) :
    OrderedSetStep cmp (xs, n) (.max out)
      (.read (seqcCopyOut xs.getLast? out).1 (seqcCopyOut xs.getLast? out).2) (xs, n) := by
  cases h : xs.getLast? with
  | none =>
    rw [List.getLast?_eq_none_iff.mp h]
    exact .maxMiss n out
  | some y =>
    obtain ⟨mem, greatest⟩ := asc.le_getLast laws h
    exact .maxHit xs n y out mem greatest

structure AvlInv (cmp : α → α → Int) (t : AvlT α) : Prop where
  ascending : Ascending cmp id t.root.toList
  balanced : Avl t.root
  counted : t.len = t.root.size

variable {cmp : α → α → Int} {t : AvlT α}

theorem avlAdd_spec (laws : Laws cmp) (inv : AvlInv cmp t) (x : α) (m : Mem) :
    ∃ st t' m', avlAdd cmp t (some x) m = some (st, t', m') ∧ AvlInv cmp t' ∧
      OrderedSetStep cmp (t.root.toList, m.refusals) (.add (some x)) (.status st)
        (t'.root.toList, m'.refusals) := by
  obtain ⟨_, run, outcome⟩ := doInsert_spec laws id (avlNodeAllocSize t.elemSize) x t.root m
    inv.balanced inv.ascending
  have count := inv.counted
  rw [Tree.size_eq] at count
  cases outcome with
  | oom split cut refused =>
    refine ⟨.oom, t, _, by simp [avlAdd, avlDoInsert, run], inv, .addOom _ _ _ x ?_ refused⟩
    rw [split]
    exact cut.absent
  | @fresh pre post root m' split cut stored avl _ _ granted =>
    have real := Tree.isNull_of_toList stored
    refine ⟨.ok, { t with root := root, len := t.len + 1 }, m',
      by simp [avlAdd, avlDoInsert, run, real], ⟨?_, avl, ?_⟩, ?_⟩
    · rw [stored]
      exact (split ▸ inv.ascending).put laws cut
    · rw [split] at count
      simp only [Tree.size_eq, stored, count, List.length_append, List.length_cons]
      omega
    · rw [split, stored, granted]
      exact .addOk pre post _ x cut.absent
  | @hit pre post d root split equal stored avl _ =>
    have real := Tree.isNull_of_toList stored
    have same : root.toList = t.root.toList := by rw [stored, split, id]
    refine ⟨.duplicate, { t with root := root }, m,
      by simp [avlAdd, avlDoInsert, run, real], ⟨same ▸ inv.ascending, avl, ?_⟩, ?_⟩
    · simp only [Tree.size_eq, same, count]
    · simp only [same]
      exact .addDuplicate _ _ x ⟨d, by simp [split], equal⟩

theorem avlRemove_spec (laws : Laws cmp) (inv : AvlInv cmp t) (x : α) (m : Mem) :
    ∃ st t' m', avlRemove cmp t (some x) m = some (st, t', m') ∧ AvlInv cmp t' ∧
      OrderedSetStep cmp (t.root.toList, m.refusals) (.remove (some x)) (.status st)
        (t'.root.toList, m'.refusals) := by
  obtain ⟨_, run, outcome⟩ := doRemove_spec laws (avlNodeAllocSize t.elemSize) t.root x m
    inv.balanced inv.ascending
  have count := inv.counted
  rw [Tree.size_eq] at count
  cases outcome with
  | @absent root none_equal same avl _ =>
    refine ⟨.notFound, { t with root := root }, m, by simp [avlRemove, avlDoRemove, run],
      ⟨same ▸ inv.ascending, avl, ?_⟩, ?_⟩
    · simp only [Tree.size_eq, same, count]
    · simp only [same]
      exact .removeMiss _ _ x none_equal
  | @removed pre post d root m' split equal rest avl _ _ quiet =>
    refine ⟨.ok, { t with root := root, len := t.len - 1 }, m',
      by simp [avlRemove, avlDoRemove, run], ⟨?_, avl, ?_⟩, ?_⟩
    · rw [rest]
      exact (split ▸ inv.ascending).drop
    · rw [split] at count
      simp only [Tree.size_eq, rest, count, List.length_append, List.length_cons]
      omega
    · rw [split, rest, quiet]
      exact .removeOk pre post _ x d equal

theorem avlContains_iff (laws : Laws cmp) (inv : AvlInv cmp t) (x : α) :
    avlContains cmp t (some x) = true ↔ ∃ y ∈ t.root.toList, cmp x y = 0 := by
  obtain ⟨found, absent⟩ := treeFind_spec laws x t.root inv.ascending
  rw [avlContains]
  cases h : treeFind cmp id x t.root with
  | none => simpa using absent h
  | some d => simpa using ⟨d, found d h⟩

theorem avlStep_refines (laws : Laws cmp) (op : AvlOp α) (s : AvlT α × Mem) (g : List α × Nat)
    (h : AvlInv cmp s.1 ∧ g = (s.1.root.toList, s.2.refusals)) :
    ∃ out s' g', avlStep cmp op s = some (out, s') ∧ OrderedSetStep cmp g op out g' ∧
      AvlInv cmp s'.1 ∧ g' = (s'.1.root.toList, s'.2.refusals) := by
  obtain ⟨t, m⟩ := s
  obtain ⟨inv, rfl⟩ := h
  cases op with
  | add elem =>
    cases elem with
    | none => exact ⟨_, _, _, rfl, .addInvalid _, inv, rfl⟩
    | some x =>
      obtain ⟨st, t', m', run, inv', spec⟩ := avlAdd_spec laws inv x m
      exact ⟨_, (t', m'), _, by simp [avlStep, run], spec, inv', rfl⟩
  | remove elem =>
    cases elem with
    | none => exact ⟨_, _, _, rfl, .removeInvalid _, inv, rfl⟩
    | some x =>
      obtain ⟨st, t', m', run, inv', spec⟩ := avlRemove_spec laws inv x m
      exact ⟨_, (t', m'), _, by simp [avlStep, run], spec, inv', rfl⟩
  | contains elem =>
    cases elem with
    | none => exact ⟨_, _, _, rfl, .containsNull _, inv, rfl⟩
    | some x => exact ⟨_, _, _, rfl, .contains _ _ x _ (avlContains_iff laws inv x), inv, rfl⟩
  | min out =>
    refine ⟨_, (t, m), _, rfl, ?_, inv, rfl⟩
    rw [avlMin, avlMinPtr, minData_eq]
    exact .min_head laws inv.ascending _ out
  | max out =>
    refine ⟨_, (t, m), _, rfl, ?_, inv, rfl⟩
    rw [avlMax, avlMaxPtr, maxData_eq]
    exact .max_getLast laws inv.ascending _ out
  | clear =>
    refine ⟨_, _, _, rfl, .clear _ _, ⟨List.Pairwise.nil, trivial, rfl⟩, ?_⟩
    simp only [avlClear, freeSubtree_refusals, Tree.toList_nil]

theorem avlCreate_spec (cmp : α → α → Int) {elemSize : Nat} {m m' : Mem}
    (h : avlCreate α elemSize m = (some t, m')) : AvlInv cmp t ∧ t.root.toList = [] := by
  unfold avlCreate at h
  rcases ht : memAlloc m sizeofAvl with ⟨_ | addr, m₁⟩
  · simp [ht] at h
  simp only [ht, Prod.mk.injEq, Option.some.injEq] at h
  obtain ⟨rfl, rfl⟩ := h
  exact ⟨⟨List.Pairwise.nil, trivial, rfl⟩, rfl⟩

/-- Every run from `avl_create` is one of a finite set, and ends in a tree that ascends
strictly, is balanced with the right heights and has `len` nodes. -/
theorem avl_run_refines (laws : Laws cmp) {elemSize : Nat} {m₀ m₁ : Mem} {t₀ : AvlT α}
    (created : avlCreate α elemSize m₀ = (some t₀, m₁)) (ops : List (AvlOp α)) :
    ∃ outs t m, run (avlStep cmp) ops (t₀, m₁) = some (outs, (t, m)) ∧
      SpecRun (OrderedSetStep cmp) ([], m₁.refusals) ops outs (t.root.toList, m.refusals) ∧
      Ascending cmp id t.root.toList ∧ Avl t.root ∧ avlLen t = t.root.size := by
  obtain ⟨inv₀, start⟩ := avlCreate_spec cmp created
  obtain ⟨outs, ⟨t, m⟩, g, ran, spec, inv, rfl⟩ := run_refines (avlStep cmp) (OrderedSetStep cmp)
    (avlStep_refines laws) ops (s := (t₀, m₁)) (g := ([], m₁.refusals)) ⟨inv₀, by rw [start]⟩
  exact ⟨outs, t, m, ran, spec, inv.ascending, inv.balanced, inv.counted⟩

/-- A run whose third node cannot be allocated. -/
theorem avl_run_refines_ints :
    ∃ outs t m, run (avlStep intCmp)
        [.add (some 3), .add (some 1), .add (some 2), .remove (some 3), .min true]
        (⟨0, .nil, 0, 8⟩, ⟨refusingOnce 3, 1, [.alloc 0 48]⟩) = some (outs, (t, m)) ∧
      Ascending intCmp id t.root.toList ∧ Avl t.root ∧ avlLen t = t.root.size := by
  have created : avlCreate Int 8 (.start (refusingOnce 3)) =
      (some ⟨0, .nil, 0, 8⟩, ⟨refusingOnce 3, 1, [.alloc 0 48]⟩) := rfl
  obtain ⟨outs, t, m, ran, -, tree⟩ := avl_run_refines intCmp_laws created
    [.add (some 3), .add (some 1), .add (some 2), .remove (some 3), .min true]
  exact ⟨outs, t, m, ran, tree⟩

end Seqc
