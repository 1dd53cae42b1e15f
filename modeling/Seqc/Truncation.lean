import Seqc.TraversalSpec
import Mathlib.Data.List.TakeWhile

/-! `vec_extend` and `iter_collect` over the iterators of bstree.c, avl.c and omap.c. The
iterators map a refused request for their stack to the end of the iteration, which their
consumers take for success. -/

namespace Seqc
open Comparator Iteration Runs

variable {ι δ κ ν σ : Type}

/-- Which of `X_iter`, `X_iter_rev` and `X_iter_range` makes the iterator. -/
inductive TreeWalk (κ : Type) where
  | iter
  | iterRev
  | iterRange (lo hi : Option κ)

namespace TreeWalk
variable (cmp : κ → κ → Int) (key : δ → κ)

/-- The elements it stands for. -/
def elems (root : Tree ι δ) : TreeWalk κ → List δ
  | iter => root.toList
  | iterRev => root.toList.reverse
  | iterRange lo hi => root.toList.filter fun d =>
    lo.all (fun lo => decide (0 ≤ cmp (key d) lo)) && hi.all fun hi => decide (cmp (key d) hi ≤ 0)

/-- The elements it has left in a state. -/
def left : TreeWalk κ → TreeIterState ι δ → List δ
  | iter => TreeIterState.left false fun _ => false
  | iterRev => TreeIterState.left true fun _ => false
  | iterRange _ hi => TreeIterState.left false fun d => hi.any fun hi => decide (0 < cmp (key d) hi)

end TreeWalk

def bstreeWalk (cmp : κ → κ → Int) (t : Bstree κ) (w : TreeWalk κ) (m : Mem) :
    Option (OwnedIterT (TreeIterState Unit κ) κ) × Mem :=
  match w with
  | .iter => bstreeIter (some t) m
  | .iterRev => bstreeIterRev (some t) m
  | .iterRange lo hi => bstreeIterRange cmp (some t) lo hi m

def avlWalk (cmp : κ → κ → Int) (t : AvlT κ) (w : TreeWalk κ) (m : Mem) :
    Option (OwnedIterT (TreeIterState Int κ) κ) × Mem :=
  match w with
  | .iter => avlIter (some t) m
  | .iterRev => avlIterRev (some t) m
  | .iterRange lo hi => avlIterRange cmp (some t) lo hi m

def omapWalk (cmp : κ → κ → Int) (map : Omap κ ν) (w : TreeWalk κ) (m : Mem) :
    Option (OwnedIterT (TreeIterState Int (κ × ν)) (κ × ν)) × Mem :=
  match w with
  | .iter => omapIter (some map) m
  | .iterRev => omapIterRev (some map) m
  | .iterRange lo hi => omapIterRange cmp (some map) lo hi m

/-- The three functions of one file. -/
def treeWalk (cmp : κ → κ → Int) (key : δ → κ) (hiSize elemSize : Nat) (root : Tree ι δ)
    (w : TreeWalk κ) (m : Mem) : Option (OwnedIterT (TreeIterState ι δ) δ) × Mem :=
  match w with
  | .iter => treeIter false elemSize root m
  | .iterRev => treeIter true elemSize root m
  | .iterRange lo hi => treeIterRange cmp key hiSize elemSize root lo hi m

/-! ### What the iterators start with -/

section Ranges
variable {cmp : κ → κ → Int} {key : δ → κ} {xs : List δ}

theorem filter_eq_dropWhile {p : δ → Bool} (down : xs.Pairwise fun a b => p b = true → p a = true) :
    xs.filter (fun d => !p d) = xs.dropWhile p := by
  induction xs with
  | nil => rfl
  | cons x xs ih =>
    obtain ⟨first, rest⟩ := List.pairwise_cons.mp down
    cases hp : p x with
    | true =>
      rw [List.dropWhile_cons_of_pos hp, ← ih rest]
      simp [hp]
    | false =>
      have all (y : δ) (hy : y ∈ x :: xs) : (!p y) = true := by
        rcases List.mem_cons.mp hy with rfl | hy
        · simp [hp]
        · have := mt (first y hy)
          simpa [hp] using this
      rw [List.dropWhile_cons_of_neg (by simp [hp]), List.filter_eq_self.mpr all]

theorem filter_eq_takeWhile {p : δ → Bool} (up : xs.Pairwise fun a b => p a = true → p b = true) :
    xs.filter (fun d => !p d) = xs.takeWhile fun d => !p d := by
  induction xs with
  | nil => rfl
  | cons x xs ih =>
    obtain ⟨first, rest⟩ := List.pairwise_cons.mp up
    cases hp : p x with
    | true =>
      have none : xs.filter (fun d => !p d) = [] := by
        apply List.filter_eq_nil_iff.mpr
        intro y hy
        simp [first y hy hp]
      simp [hp, none]
    | false => simp [hp, ih rest]

/-- The elements of a range, and what the search for the first of them leaves out when it is
refused a push. -/
theorem range_split (laws : Laws cmp) (asc : Ascending cmp key xs) {lo : Option κ}
    (hi : Option κ) {lost kept : List δ}
    (found : xs.dropWhile (fun d => lo.any fun lo => decide (cmp (key d) lo < 0)) = lost ++ kept) :
    ∃ out, (xs.filter fun d => lo.all (fun lo => decide (0 ≤ cmp (key d) lo)) &&
        hi.all fun hi => decide (cmp (key d) hi ≤ 0)) =
      out ++ kept.takeWhile (fun d => !hi.any fun hi => decide (0 < cmp (key d) hi)) ∧
        (lost = [] → out = []) ∧ (lost ≠ [] → out = [] → kept.takeWhile (fun d =>
          !hi.any fun hi => decide (0 < cmp (key d) hi)) = []) := by
  let before (d : δ) : Bool := lo.any fun lo => decide (cmp (key d) lo < 0)
  let beyond (d : δ) : Bool := hi.any fun hi => decide (0 < cmp (key d) hi)
  have down : xs.Pairwise fun a b => before b = true → before a = true := by
    refine asc.imp fun {a b} less => ?_
    cases lo with
    | none => simp [before]
    | some lo =>
      simp only [before, Option.any_some, decide_eq_true_eq]
      exact fun h => laws.lt_of_lt_of_le less h.le
  have up : xs.Pairwise fun a b => beyond a = true → beyond b = true := by
    refine asc.imp fun {a b} less => ?_
    cases hi with
    | none => simp [beyond]
    | some hi =>
      simp only [beyond, Option.any_some, decide_eq_true_eq]
      intro h
      have back := laws.lt_of_lt_of_le ((laws.flip hi (key a)).mpr h) less.le
      exact (laws.flip hi (key b)).mp back
  have inside (d : δ) : (lo.all (fun lo => decide (0 ≤ cmp (key d) lo)) &&
      hi.all fun hi => decide (cmp (key d) hi ≤ 0)) = (!beyond d && !before d) := by
    cases lo <;> cases hi <;> simp [before, beyond, Bool.and_comm, ← decide_not]
  have all : (xs.filter fun d => lo.all (fun lo => decide (0 ≤ cmp (key d) lo)) &&
      hi.all fun hi => decide (cmp (key d) hi ≤ 0)) =
        lost.filter (fun d => !beyond d) ++ kept.filter fun d => !beyond d := by
    rw [List.filter_congr fun d _ => inside d, ← List.filter_filter, filter_eq_dropWhile down,
      found, List.filter_append]
  have sub : (lost ++ kept).Sublist xs := found ▸ List.dropWhile_sublist _
  have up' := up.sublist sub
  obtain ⟨-, upKept, across⟩ := List.pairwise_append.mp up'
  refine ⟨lost.filter fun d => !beyond d, ?_, fun none => by rw [none]; rfl, fun some none => ?_⟩
  · rw [all, filter_eq_takeWhile upKept]
  · obtain ⟨d, ds, rfl⟩ := List.exists_cons_of_ne_nil some
    have past : beyond d = true := by
      simpa using List.filter_eq_nil_iff.mp none d List.mem_cons_self
    have empty : kept.filter (fun d => !beyond d) = [] := by
      apply List.filter_eq_nil_iff.mpr
      intro e he
      simp [across d List.mem_cons_self e he past]
    rw [filter_eq_takeWhile upKept] at empty
    exact empty

theorem treeRangeStart_spec (laws : Laws cmp) {root : Tree ι δ}
    (asc : Ascending cmp key root.toList) {lo : Option κ} {addr : Nat} {hiCopy : Option Nat}
    {m m' : Mem} {st : TreeIterState ι δ}
    (start : treeRangeStart cmp key root lo addr hiCopy m = (st, m')) :
    st.Stacked ∧ ∃ lost,
      root.toList.dropWhile (fun d => lo.any fun lo => decide (cmp (key d) lo < 0)) =
          lost ++ (st.current.walk false ++ st.nodes.flatMap (stacked false)) ∧
        (m'.refusals = m.refusals ∧ lost = [] ∨ m.refusals < m'.refusals ∧ lost ≠ []) := by
  cases lo with
  | none =>
    obtain ⟨rfl, rfl⟩ := Prod.mk.inj start
    have nothing : root.toList.dropWhile (fun d => (none : Option κ).any fun lo =>
        decide (cmp (key d) lo < 0)) = root.toList := by
      cases root.toList <;> rfl
    refine ⟨by simp [TreeIterState.Stacked], [], ?_, .inl ⟨rfl, rfl⟩⟩
    rw [nothing]
    simp [Tree.walk]
  | some lo =>
    obtain ⟨good, same, lost, whole, outcome⟩ := treePushLo_spec laws lo root asc
      (by simp [TreeIterState.Stacked]) start
    refine ⟨good, lost, ?_, outcome⟩
    rw [same]
    simpa using whole

/-- The requests that precede the priming of a range. -/
theorem treeIterRange_made {root : Tree ι δ} {hiSize elemSize : Nat} {lo hi : Option κ}
    {m m₁ : Mem} {it : OwnedIterT (TreeIterState ι δ) δ}
    (made : treeIterRange cmp key hiSize elemSize root lo hi m = (some it, m₁)) :
    ∃ st addr hiCopy m₂, treeRangeStart cmp key root lo addr hiCopy m₂ = (st, m₁) ∧
      treeRangeT cmp key hiSize elemSize hi st = it ∧ m₂.allocator = m.allocator ∧
      m₂.requests = m.requests + 1 + (if hi.isSome then 1 else 0) ∧
      m₂.refusals = m.refusals := by
  rcases hm : memAlloc m sizeofTreeRangeIterState with ⟨_ | addr, m₂⟩
  · simp [treeIterRange, hm] at made
  have calm := (memAlloc_some hm).2.2
  have same := memAlloc_allocator hm
  have count := (memAlloc_requests hm).1
  cases hi with
  | none =>
    rcases hs : treeRangeStart cmp key root lo addr none m₂ with ⟨st, m₃⟩
    obtain ⟨rfl, rfl⟩ : _ = it ∧ m₃ = m₁ := by simpa [treeIterRange, hm, hs] using made
    exact ⟨st, addr, none, m₂, hs, rfl, same, count, calm⟩
  | some hi =>
    rcases hm₁ : memAlloc m₂ hiSize with ⟨_ | hiCopy, m₃⟩
    · simp [treeIterRange, hm, hm₁] at made
    rcases hs : treeRangeStart cmp key root lo addr (some hiCopy) m₃ with ⟨st, m₄⟩
    obtain ⟨rfl, rfl⟩ : _ = it ∧ m₄ = m₁ := by simpa [treeIterRange, hm, hm₁, hs] using made
    exact ⟨st, addr, some hiCopy, m₃, hs, rfl, (memAlloc_allocator hm₁).trans same,
      (memAlloc_requests hm₁).1.trans (congrArg (· + 1) count),
      (memAlloc_some hm₁).2.2.trans calm⟩

/-- A valid iterator has all its elements left, unless a push was refused that looked for the
first of them. -/
theorem treeWalk_spec (laws : Laws cmp) {root : Tree ι δ} (asc : Ascending cmp key root.toList)
    {hiSize elemSize : Nat} {w : TreeWalk κ} {m m₁ : Mem}
    {it : OwnedIterT (TreeIterState ι δ) δ}
    (made : treeWalk cmp key hiSize elemSize root w m = (some it, m₁)) :
    Falters it.next Mem.refusals TreeIterState.Stacked (w.left cmp key) ∧ it.state.Stacked ∧
      ∃ out, w.elems cmp key root = out ++ w.left cmp key it.state ∧
        (m₁.refusals = m.refusals ∧ out = [] ∨
          m.refusals < m₁.refusals ∧ (out = [] → w.elems cmp key root = [])) := by
  have whole (rev : Bool) (addr : Nat) (hiCopy : Option Nat) :
      TreeIterState.left rev (fun _ => false) ⟨addr, none, [], 0, root, hiCopy, fun _ => rfl⟩ =
        root.walk rev := by
    simp [TreeIterState.left, List.takeWhile_eq_self_iff]
  cases w with
  | iter =>
    rcases hm : memAlloc m sizeofTreeIterState with ⟨_ | addr, m₂⟩
    · simp [treeWalk, treeIter, hm] at made
    · obtain ⟨rfl, rfl⟩ : _ = it ∧ m₂ = m₁ := by simpa [treeWalk, treeIter, hm] using made
      refine ⟨treeIter_falters false _, by simp [treeIterT, TreeIterState.Stacked], [], ?_,
        .inl ⟨(memAlloc_some hm).2.2, rfl⟩⟩
      exact (whole false addr none).symm
  | iterRev =>
    rcases hm : memAlloc m sizeofTreeIterState with ⟨_ | addr, m₂⟩
    · simp [treeWalk, treeIter, hm] at made
    · obtain ⟨rfl, rfl⟩ : _ = it ∧ m₂ = m₁ := by simpa [treeWalk, treeIter, hm] using made
      refine ⟨treeIter_falters true _, by simp [treeIterT, TreeIterState.Stacked], [], ?_,
        .inl ⟨(memAlloc_some hm).2.2, rfl⟩⟩
      exact (whole true addr none).symm
  | iterRange lo hi =>
    obtain ⟨st, addr, hiCopy, m₂, start, rfl, -, -, calm⟩ := treeIterRange_made made
    obtain ⟨good, lost, found, outcome⟩ := treeRangeStart_spec laws asc start
    obtain ⟨out, split, none, some⟩ := range_split laws asc hi found
    refine ⟨treeIter_falters false _, good, out, split, ?_⟩
    rw [calm] at outcome
    cases outcome with
    | inl primed => exact .inl ⟨primed.1, none primed.2⟩
    | inr refused =>
      refine .inr ⟨refused.1, fun empty => ?_⟩
      rw [TreeWalk.elems, split, empty, some refused.2 empty, List.append_nil]

end Ranges

/-! ### What their consumers make of it -/

section Consumers
variable {left : σ → List δ} {Good : σ → Prop} {it : OwnedIterT σ δ}

/-- No request is refused to a call of the loop of `vec_extend` while elements are left. -/
def OwnedIterT.ExtendsWhole (it : OwnedIterT σ δ) (left : σ → List δ) (v : Vec δ) (m : Mem) :
    Prop :=
  ∀ elem m₁, memAlloc m v.elemSize = (some elem, m₁) →
    ¬Truncated it.next Mem.refusals left extendBody it.state (.ok, some v) m₁

/-- No request is refused to a call of the loop of `iter_collect` while elements are left. -/
def OwnedIterT.CollectsWhole (it : OwnedIterT σ δ) (left : σ → List δ) (m : Mem) : Prop :=
  ∀ buf m₁ tmp m₂, memAlloc m (mulSize 16 it.elemSize) = (some buf, m₁) →
    scratchAcquire it.elemSize m₁ = (some tmp, m₂) →
      ¬Truncated it.next Mem.refusals left (collectBody it.elemSize) it.state
        ⟨buf, 16, [], false⟩ m₂

/-- `vec_extend` returns, and after `SEQC_OK` it has appended what the iterator had left if
and only if no request was refused to a call of its loop before the last element. -/
theorem vecExtend_falters (f : Falters it.next Mem.refusals Good left) (good : Good it.state)
    (v : Vec δ) (m : Mem) :
    ∃ n, ∀ fuel, n ≤ fuel → ∃ st w m',
      vecExtend fuel (some v) (some it.toIterT) m = some (st, some w, m') ∧
        (st = .ok → ∃ zs, w.contents = v.contents ++ zs ∧ zs <+: left it.state ∧
          (zs = left it.state ↔ it.ExtendsWhole left v m)) := by
  by_cases same : it.elemSize = v.elemSize
  · rcases hm : memAlloc m v.elemSize with ⟨_ | elem, m₁⟩
    · refine ⟨0, fun fuel _ => ⟨.oom, v, it.destroy it.state m₁, ?_, by simp⟩⟩
      simp [vecExtend, iterIsValid, iterElemSize, vecElemSize, iterDestroy, same, hm]
    · obtain ⟨⟨st, w⟩, s', m', zs, ⟨n, run⟩, initial, outcome⟩ := f.while it.mono extendBody
        (J := fun zs a => a.1 = .ok ∧ ∃ w, a.2 = some w ∧ w.contents = v.contents ++ zs)
        (fun done x a m a' m' kept hb => by
          obtain ⟨st, w⟩ := a
          obtain ⟨-, w, rfl, contents⟩ := kept
          obtain ⟨w', m₂, push, more, -, -⟩ | ⟨m₂, push, -⟩ := vecPush_spec w x m
          · obtain ⟨rfl, rfl⟩ : (.ok, some w') = a' ∧ m₂ = m' := by
              simpa [extendBody, push] using hb
            exact ⟨rfl, w', rfl, by rw [more, contents, List.append_assoc]⟩
          · simp [extendBody, push] at hb)
        good [] (.ok, some v) m₁ ⟨rfl, v, rfl, (List.append_nil _).symm⟩
      have result (w : Option (Vec δ)) (st : Status) (fuel : Nat) (le : n ≤ fuel)
          (h : whileNext it.next extendBody fuel it.state (.ok, some v) m₁ =
            some ((st, w), s', m')) :
          vecExtend fuel (some v) (some it.toIterT) m =
            some (st, w, memFree (it.destroy s' m') (some elem) (vecElemSize w)) := by
        simp [vecExtend, iterIsValid, iterElemSize, vecElemSize, iterDestroy, iterWhile, same, hm,
          h]
      refine ⟨n, fun fuel le => ?_⟩
      cases outcome with
      | inl all =>
        obtain ⟨⟨rfl, w, rfl, contents⟩, whole⟩ := all
        have same : it.ExtendsWhole left v m ↔
            ¬Truncated it.next Mem.refusals left extendBody it.state (.ok, some v) m₁ := by
          simp [OwnedIterT.ExtendsWhole, hm]
        exact ⟨.ok, w, _, result _ _ fuel le (run fuel le),
          fun _ => ⟨zs, contents, initial, whole.trans same.symm⟩⟩
      | inr stopped =>
        obtain ⟨x, ⟨st₁, w₁⟩, m₂, ⟨-, w₁, rfl, -⟩, hb⟩ := stopped
        obtain ⟨w', m₃, push, -⟩ | ⟨m₃, push, -⟩ := vecPush_spec w₁ x m₂
        · simp [extendBody, push] at hb
        · obtain ⟨⟨rfl, rfl⟩, rfl⟩ : (.oom = st ∧ some w₁ = w) ∧ m₃ = m' := by
            simpa [extendBody, push] using hb
          exact ⟨.oom, w₁, _, result _ _ fuel le (run fuel le), by simp⟩
  · refine ⟨0, fun fuel _ => ⟨.invalid, v, it.destroy it.state m, ?_, by simp⟩⟩
    simp [vecExtend, iterIsValid, iterElemSize, vecElemSize, iterDestroy, same]

/-- `iter_collect` returns, and what it returns, if anything, is all the iterator had left if
and only if no request was refused to a call of its loop before the last element. -/
theorem iterCollect_falters (f : Falters it.next Mem.refusals Good left) (good : Good it.state)
    (m : Mem) :
    ∃ n, ∀ fuel, n ≤ fuel → ∃ slice m',
      iterCollect fuel (some it.toIterT) m = some (slice, m') ∧
        (slice.contents = [] → slice.ptr = none) ∧
        (slice.contents ≠ [] → slice.contents <+: left it.state ∧
          (slice.contents = left it.state ↔ it.CollectsWhole left m)) := by
  rcases hm : memAlloc m (mulSize 16 it.elemSize) with ⟨_ | buf, m₁⟩
  · refine ⟨0, fun fuel _ => ⟨⟨none, [], it.elemSize⟩, it.destroy it.state m₁, ?_, by simp⟩⟩
    simp [iterCollect, iterElemSize, iterDestroy, hm]
  · rcases hs : scratchAcquire it.elemSize m₁ with ⟨_ | tmp, m₂⟩
    · refine ⟨0, fun fuel _ => ⟨⟨none, [], it.elemSize⟩,
        memFree (it.destroy it.state m₂) (some buf) (mulSize 16 it.elemSize), ?_, by simp⟩⟩
      simp [iterCollect, iterElemSize, iterDestroy, hm, hs]
    · obtain ⟨c, s', m', zs, ⟨n, run⟩, initial, outcome⟩ := f.while it.mono
        (collectBody it.elemSize) (J := fun zs c => c.contents = zs ∧ c.failed = false)
        (fun done x c m c' m' kept hb => by
          obtain ⟨buf, cap, m₂, push, -⟩ | ⟨m₂, push, -⟩ := collectBody_spec it.elemSize x c m
          · obtain ⟨rfl, rfl⟩ : _ = c' ∧ m₂ = m' := by simpa using push.symm.trans hb
            exact ⟨by rw [kept.1], kept.2⟩
          · simp [push] at hb)
        good [] ⟨buf, 16, [], false⟩ m₂ ⟨rfl, rfl⟩
      rcases hr : collectResult it.elemSize c (scratchRelease tmp it.elemSize (it.destroy s' m'))
        with ⟨slice, m₃⟩
      have contents := collectResult_contents it.elemSize c
        (scratchRelease tmp it.elemSize (it.destroy s' m'))
      rw [hr] at contents
      refine ⟨n, fun fuel le => ⟨slice, m₃, ?_, ?_, ?_⟩⟩
      · simp [iterCollect, iterElemSize, iterDestroy, iterWhile, hm, hs, run fuel le, hr]
      · intro nothing
        have none := collectResult_ptr it.elemSize c
          (scratchRelease tmp it.elemSize (it.destroy s' m'))
        rw [hr] at none
        exact none nothing
      · intro some
        cases outcome with
        | inl all =>
          obtain ⟨⟨rfl, running⟩, whole⟩ := all
          simp only [running, Bool.false_eq_true, if_false] at contents
          have same : it.CollectsWhole left m ↔ ¬Truncated it.next Mem.refusals left
              (collectBody it.elemSize) it.state ⟨buf, 16, [], false⟩ m₂ := by
            refine ⟨fun h => h buf m₁ tmp m₂ hm hs, fun h buf' m₃ tmp' m₄ first second => ?_⟩
            obtain ⟨rfl, rfl⟩ : buf = buf' ∧ m₁ = m₃ := by simpa [hm] using first
            obtain ⟨rfl, rfl⟩ : tmp = tmp' ∧ m₂ = m₄ := by simpa [hs] using second
            exact h
          rw [contents]
          exact ⟨initial, whole.trans same.symm⟩
        | inr stopped =>
          obtain ⟨x, c₁, m₂, kept, hb⟩ := stopped
          obtain ⟨_, _, _, push, -⟩ | ⟨m₃, push, -⟩ := collectBody_spec it.elemSize x c₁ m₂
          · simp [push] at hb
          · obtain ⟨rfl, rfl⟩ : _ = c ∧ m₃ = m' := by simpa using push.symm.trans hb
            rw [contents] at some
            simp at some

end Consumers

/-! ### The three files -/

/-- For every valid iterator that `make` makes: after `SEQC_OK` of `vec_extend`, and in what
`iter_collect` returns if it is anything, are all its elements if and only if no request was
refused while there were elements to come: to the search for the first, or to a call. -/
def WholeIff (cmp : κ → κ → Int) (key : δ → κ) (root : Tree ι δ)
    (make : TreeWalk κ → Mem → Option (OwnedIterT (TreeIterState ι δ) δ) × Mem) : Prop :=
  ∀ (w : TreeWalk κ) (m m₁ : Mem) (it : OwnedIterT (TreeIterState ι δ) δ),
    make w m = (some it, m₁) →
      let primed := m₁.refusals = m.refusals ∨ w.elems cmp key root = []
      (∀ (v : Vec δ) (m : Mem), ∃ n, ∀ fuel, n ≤ fuel → ∃ st v' m',
        vecExtend fuel (some v) (some it.toIterT) m = some (st, some v', m') ∧
          (st = .ok → (v'.contents = v.contents ++ w.elems cmp key root ↔
            primed ∧ it.ExtendsWhole (w.left cmp key) v m))) ∧
      ∀ m : Mem, ∃ n, ∀ fuel, n ≤ fuel → ∃ slice m',
        iterCollect fuel (some it.toIterT) m = some (slice, m') ∧
          (slice.contents = [] → slice.ptr = none) ∧
          (slice.contents ≠ [] → (slice.contents = w.elems cmp key root ↔
            primed ∧ it.CollectsWhole (w.left cmp key) m))

theorem treeWalk_whole {cmp : κ → κ → Int} {key : δ → κ} (laws : Laws cmp) {root : Tree ι δ}
    (asc : Ascending cmp key root.toList) (hiSize elemSize : Nat) :
    WholeIff cmp key root (treeWalk cmp key hiSize elemSize root) := by
  intro w m m₁ it made primed
  obtain ⟨f, good, out, split, outcome⟩ := treeWalk_spec laws asc made
  have whole_iff (zs : List δ) (initial : zs <+: w.left cmp key it.state) :
      zs = w.elems cmp key root ↔ primed ∧ zs = w.left cmp key it.state := by
    cases outcome with
    | inl calm =>
      obtain ⟨calm, rfl⟩ := calm
      rw [split, List.nil_append]
      exact ⟨fun same => ⟨.inl calm, same⟩, And.right⟩
    | inr refused =>
      obtain ⟨grows, lost⟩ := refused
      have short := initial.length_le
      constructor
      · intro same
        have lengths := congrArg List.length (same.trans split)
        rw [List.length_append] at lengths
        have none : out = [] := List.length_eq_zero_iff.mp (by omega)
        exact ⟨.inr (lost none), by rw [same, split, none, List.nil_append]⟩
      · rintro ⟨calm | empty, rfl⟩
        · omega
        · rw [empty] at split ⊢
          exact (List.append_eq_nil_iff.mp split.symm).2
  constructor
  · intro v m
    obtain ⟨n, run⟩ := vecExtend_falters f good v m
    refine ⟨n, fun fuel le => ?_⟩
    obtain ⟨st, v', m', result, appended⟩ := run fuel le
    refine ⟨st, v', m', result, fun ok => ?_⟩
    obtain ⟨zs, contents, initial, whole⟩ := appended ok
    rw [contents, List.append_cancel_left_eq, whole_iff zs initial, whole]
  · intro m
    obtain ⟨n, run⟩ := iterCollect_falters f good m
    refine ⟨n, fun fuel le => ?_⟩
    obtain ⟨slice, m', result, empty, some⟩ := run fuel le
    refine ⟨slice, m', result, empty, fun nonempty => ?_⟩
    obtain ⟨initial, whole⟩ := some nonempty
    rw [whole_iff _ initial, whole]

/-- What the consumers of an iteration deliver is whole if and only if no request was refused
while there were elements to come. -/
theorem tree_iterations_whole {cmp : κ → κ → Int} (laws : Laws cmp) :
    (∀ t : Bstree κ, Ascending cmp id t.root.toList → WholeIff cmp id t.root (bstreeWalk cmp t)) ∧
    (∀ t : AvlT κ, Ascending cmp id t.root.toList → WholeIff cmp id t.root (avlWalk cmp t)) ∧
    ∀ map : Omap κ ν, Ascending cmp Prod.fst map.root.toList →
      WholeIff cmp Prod.fst map.root (omapWalk cmp map) := by
  refine ⟨fun t asc => ?_, fun t asc => ?_, fun map asc => ?_⟩
  · intro w
    have whole := treeWalk_whole laws asc t.elemSize t.elemSize w
    cases w <;> exact whole
  · intro w
    have whole := treeWalk_whole laws asc t.elemSize t.elemSize w
    cases w <;> exact whole
  · intro w
    have whole := treeWalk_whole laws asc map.keySize sizeofOmapEntry w
    cases w <;> exact whole

theorem tree_iterations_whole_ints :
    WholeIff intCmp id (.node 1 () .nil 3 (.node 2 () .nil 5 .nil))
      (bstreeWalk intCmp ⟨0, .node 1 () .nil 3 (.node 2 () .nil 5 .nil), 2, 8⟩) :=
  (tree_iterations_whole (ν := Unit) intCmp_laws).1
    ⟨0, .node 1 () .nil 3 (.node 2 () .nil 5 .nil), 2, 8⟩
    (List.pairwise_pair.mpr (by decide))

/-- A root and, to its right, a spine of 17 nodes that falls to the left. -/
def spineAdds : List (AvlOp Int) :=
  .add (some 0) :: (List.range 17).map fun i => .add (some (17 - i))

/-- The second call of `next` is refused room for the 17th node of the spine: `vec_extend`
returns `SEQC_OK` and `iter_collect` an array, both with one of the 18 elements. -/
theorem tree_iteration_truncated : ∃ outs t m it m₁,
    run (bstreeStep intCmp) spineAdds
      (⟨0, .nil, 0, 4⟩, ⟨refusingOnce 22, 1, [.alloc 0 48]⟩) = some (outs, (t, m)) ∧
    bstreeWalk intCmp t .iter m = (some it, m₁) ∧
    (TreeWalk.iter.elems intCmp id t.root).length = 18 ∧
    (∃ v m', vecExtend 5 (some ⟨100, some 101, [], 4, 4, by decide⟩) (some it.toIterT) m₁ =
      some (.ok, some v, m') ∧ v.contents = [0]) ∧
    ∃ slice m', iterCollect 5 (some it.toIterT) m₁ = some (slice, m') ∧ slice.contents = [0] :=
  ⟨_, _, _, _, _, rfl, rfl, rfl, ⟨_, _, rfl, rfl⟩, _, _, rfl, rfl⟩

end Seqc
