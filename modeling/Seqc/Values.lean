import Seqc.Lib.Scanning
import Seqc.Copying

/-! What the terminals of iter.c make of the elements, and where the collections have functions
of their own for it. -/

namespace Seqc
open Iteration Comparator Heap

variable {σ α β γ : Type} {it : OwnedIterT σ β} {xs : List β} {m m' : Mem}

/-- `r` is what `value` makes of a first part of `xs`, and of all of it if nothing is refused. -/
def Sees (value : List β → α) (xs : List β) (m : Mem) (r : α) (m' : Mem) : Prop :=
  (∃ zs, zs <+: xs ∧ r = value zs) ∧ (m'.refusals = m.refusals → r = value xs)

theorem scratchLoop_scan (gives : it.Gives xs) (step : β → α → Bool × α) (refused start : α)
    (m : Mem) :
    ∃ fuel r m', scratchLoop fuel (some it.toIterT)
        (fun x a m => ((step x a).1, (step x a).2, m)) refused start m = some (r, m') ∧
      (r = refused ∧ m.refusals < m'.refusals ∨
        Sees (fun zs => scan step zs start) xs m r m') := by
  rcases scratchAcquire_spec it.elemSize m with ⟨tmp, m₁, room, calm⟩ | ⟨m₁, room, more⟩
  · obtain ⟨fuel, s', m₂, zs, run, grows, part, whole⟩ :=
      gives.scan it.mono step start m₁
    refine ⟨fuel, scan step zs start, scratchRelease tmp it.elemSize (it.destroy s' m₂),
      by simp only [scratchLoop, iterElemSize, room, iterWhile, run, iterDestroy],
      .inr ⟨⟨zs, part, rfl⟩, fun same => whole ?_⟩⟩
    rw [scratchRelease_refusals, it.quiet] at same
    omega
  · refine ⟨0, refused, it.destroy it.state m₁,
      by simp only [scratchLoop, iterElemSize, room, iterDestroy], .inl ⟨rfl, ?_⟩⟩
    rw [it.quiet]
    omega

/-- What a terminal returns without its buffer is what it makes of no elements. -/
theorem scratchLoop_sees (gives : it.Gives xs) (step : β → α → Bool × α) (start : α) (m : Mem) :
    ∃ fuel r m', scratchLoop fuel (some it.toIterT)
        (fun x a m => ((step x a).1, (step x a).2, m)) start start m = some (r, m') ∧
      Sees (fun zs => scan step zs start) xs m r m' := by
  obtain ⟨fuel, r, m', run, ⟨rfl, more⟩ | sees⟩ := scratchLoop_scan gives step start start m
  · exact ⟨fuel, _, m', run, ⟨[], List.nil_prefix, rfl⟩, fun same => absurd same more.ne'⟩
  · exact ⟨fuel, r, m', run, sees⟩

theorem Sees.congr {value value' : List β → α} (same : ∀ zs, value zs = value' zs) {r : α}
    (h : Sees value xs m r m') : Sees value' xs m r m' := by
  obtain rfl := funext same
  exact h

/-! ### The terminals -/

theorem scratchDrop_refusals (tmp : Option (Option Nat)) (size : Nat) (m : Mem) :
    (scratchDrop tmp size m).refusals = m.refusals := by
  cases tmp with
  | none => exact memFree_refusals m none size
  | some tmp => exact scratchRelease_refusals tmp size m

theorem iterWhile_run {body : β → α → Mem → Bool × α × Mem} {fuel : Nat} {a a' : α} {s' : σ}
    (run : whileNext it.next body fuel it.state a m = some (a', s', m')) :
    iterWhile fuel (some it.toIterT) body a m =
      some (a', some { it.toIterT with state := s' }, m') := by
  simp only [iterWhile, run]

theorem iterBest_picks (gives : it.Gives xs) {better : β → β → Bool} (p : Prefers better)
    (m : Mem) :
    ∃ fuel r m', iterBest better fuel (some it.toIterT) m = some (r, m') ∧
      (∃ zs, zs <+: xs ∧ Picks better zs r) ∧ (m'.refusals = m.refusals → Picks better xs r) := by
  have refused (m₁ m₂ : Mem) (best cur : Option (Option Nat)) (more : m₁.refusals < m₂.refusals) :
      m₁.refusals < (scratchDrop cur it.elemSize (scratchDrop best it.elemSize
        (it.destroy it.state m₂))).refusals := by
    rwa [scratchDrop_refusals, scratchDrop_refusals, it.quiet]
  rcases scratchAcquire_spec it.elemSize m with ⟨best, m₁, room, calm⟩ | ⟨m₁, room, more⟩
  · rcases scratchAcquire_spec it.elemSize m₁ with ⟨cur, m₂, room', calm'⟩ | ⟨m₂, room', more'⟩
    · obtain ⟨fuel, s', m₃, zs, run, grows, part, whole⟩ :=
        gives.scan it.mono (fun x found => (true, keepBest better found x)) none m₂
      refine ⟨fuel, scan (fun x found => (true, keepBest better found x)) zs none,
        scratchRelease cur it.elemSize (scratchRelease best it.elemSize (it.destroy s' m₃)), ?_,
        ⟨zs, part, ?_⟩, fun same => ?_⟩
      · simp only [iterBest, iterElemSize, room, room']
        have looped := iterWhile_run run
        split
        · rename_i none
          cases looped.symm.trans none
        · rename_i some
          cases looped.symm.trans some
          rfl
      · rw [scan_foldl]
        exact foldl_keepBest p zs
      · rw [scratchRelease_refusals, scratchRelease_refusals, it.quiet] at same
        rw [whole (by omega), scan_foldl]
        exact foldl_keepBest p xs
    · have less := refused m m₂ (some best) none (by omega)
      refine ⟨0, none, _, by simp only [iterBest, iterElemSize, room, room', iterDestroy],
        ⟨[], List.nil_prefix, .inl ⟨rfl, rfl⟩⟩, fun same => absurd same less.ne'⟩
  · obtain ⟨cur, m₂, room', more'⟩ : ∃ cur m₂, scratchAcquire it.elemSize m₁ = (cur, m₂) ∧
        m₁.refusals ≤ m₂.refusals := by
      rcases scratchAcquire_spec it.elemSize m₁ with ⟨cur, m₂, room', calm'⟩ | ⟨m₂, room', more'⟩
      · exact ⟨_, m₂, room', calm'.ge⟩
      · exact ⟨_, m₂, room', by omega⟩
    have less := refused m m₂ none cur (by omega)
    refine ⟨0, none, _, by simp only [iterBest, iterElemSize, room, room', iterDestroy],
      ⟨[], List.nil_prefix, .inl ⟨rfl, rfl⟩⟩, fun same => absurd same less.ne'⟩

theorem prefers_less {cmp : β → β → Int} (laws : Laws cmp) :
    Prefers fun cur best => decide (cmp cur best < 0) where
  asymm a b := by
    simp only [decide_eq_true_eq, decide_eq_false_iff_not]
    have := laws.flip a b
    omega
  weak a b c := by
    simp only [decide_eq_true_eq, decide_eq_false_iff_not]
    intro less none
    have := laws.flip c b
    exact laws.lt_of_lt_of_le less (by omega)

theorem prefers_greater {cmp : β → β → Int} (laws : Laws cmp) :
    Prefers fun cur best => decide (0 < cmp cur best) where
  asymm a b := by
    simp only [decide_eq_true_eq, decide_eq_false_iff_not]
    have := laws.flip a b
    omega
  weak a b c := by
    simp only [decide_eq_true_eq, decide_eq_false_iff_not]
    intro more none
    refine (laws.flip c a).mp (laws.lt_of_le_of_lt (by omega) ((laws.flip b a).mpr more))

theorem scan_any (p : β → Bool) (xs : List β) :
    scan (fun x found => if p x then (false, true) else (true, found)) xs false = xs.any p := by
  induction xs with
  | nil => rfl
  | cons x xs ih =>
    rw [scan]
    cases hit : p x with
    | true => simp [hit]
    | false => simp [hit, ih]

theorem scan_all (p : β → Bool) (xs : List β) :
    scan (fun x all => if p x then (true, all) else (false, false)) xs true = xs.all p := by
  induction xs with
  | nil => rfl
  | cons x xs ih =>
    rw [scan]
    cases hit : p x with
    | true => simp [hit, ih]
    | false => simp [hit]

/-- A body that tells by a test whether to go on. -/
theorem testing_body (p : β → Bool) (b c : Bool) (u v : β → α → α) :
    (fun x a (m : Mem) => if p x then (b, u x a, m) else (c, v x a, m)) = fun x a m =>
      ((if p x then (b, u x a) else (c, v x a)).1,
        (if p x then (b, u x a) else (c, v x a)).2, m) := by
  funext x a m
  by_cases hit : p x <;> simp [hit]

theorem foldl_addSize (xs : List β) : xs.foldl (fun n _ => addSize n 1) 0 = xs.length % 2 ^ 64 := by
  induction xs using List.reverseRecOn with
  | nil => rfl
  | append_singleton xs x ih =>
    rw [List.foldl_concat, ih, List.length_append, List.length_singleton, addSize, Nat.mod_add_mod]

theorem iterFind_sees (gives : it.Gives xs) (pred : β → Bool) (m : Mem) :
    ∃ fuel r m', iterFind fuel (some it.toIterT) pred m = some (r, m') ∧
      Sees (List.find? pred) xs m r m' := by
  obtain ⟨fuel, r, m', run, sees⟩ := scratchLoop_sees gives
    (fun x found => if pred x then (false, some x) else (true, found)) none m
  refine ⟨fuel, r, m', ?_, sees.congr fun zs => ?_⟩
  · rw [iterFind, testing_body pred false true (fun x _ => some x) fun _ found => found]
    exact run
  · rw [scan_find]
    cases zs.find? pred <;> rfl

theorem iterAny_sees (gives : it.Gives xs) (pred : β → Bool) (m : Mem) :
    ∃ fuel r m', iterAny fuel (some it.toIterT) pred m = some (r, m') ∧
      Sees (fun zs => zs.any pred) xs m r m' := by
  obtain ⟨fuel, r, m', run, sees⟩ := scratchLoop_sees gives
    (fun x found => if pred x then (false, true) else (true, found)) false m
  refine ⟨fuel, r, m', ?_, sees.congr fun zs => scan_any pred zs⟩
  rw [iterAny, testing_body pred false true (fun _ _ => true) fun _ found => found]
  exact run

/-- What the terminals return of an iterator that gives `xs`. -/
theorem terminals_see (gives : it.Gives xs) (m : Mem) :
    (∃ fuel n m', iterCount fuel (some it.toIterT) m = some (n, m') ∧
      Sees (fun zs => zs.length % 2 ^ 64) xs m n m') ∧
    (∀ (visit : β → γ → γ) ctx, ∃ fuel r m',
      iterForeach fuel (some it.toIterT) visit ctx m = some (r, m') ∧
        Sees (fun zs => zs.foldl (fun ctx x => visit x ctx) ctx) xs m r m') ∧
    (∀ (combine : γ → β → γ) acc, ∃ fuel r m',
      iterReduce fuel (some it.toIterT) acc combine m = some (r, m') ∧
        Sees (fun zs => zs.foldl combine acc) xs m r m') ∧
    (∀ pred, ∃ fuel r m', iterFind fuel (some it.toIterT) pred m = some (r, m') ∧
      Sees (List.find? pred) xs m r m') ∧
    (∀ pred, ∃ fuel r m', iterAny fuel (some it.toIterT) pred m = some (r, m') ∧
      Sees (fun zs => zs.any pred) xs m r m') ∧
    (∀ pred, ∃ fuel r m', iterAll fuel (some it.toIterT) pred m = some (r, m') ∧
      (r = false ∧ m.refusals < m'.refusals ∨ Sees (fun zs => zs.all pred) xs m r m')) ∧
    ∀ cmp, Laws cmp →
      (∃ fuel r m', iterMin fuel (some it.toIterT) cmp m = some (r, m') ∧
        (∃ zs, zs <+: xs ∧ Picks (fun x y => decide (cmp x y < 0)) zs r) ∧
        (m'.refusals = m.refusals → Picks (fun x y => decide (cmp x y < 0)) xs r)) ∧
      ∃ fuel r m', iterMax fuel (some it.toIterT) cmp m = some (r, m') ∧
        (∃ zs, zs <+: xs ∧ Picks (fun x y => decide (0 < cmp x y)) zs r) ∧
        (m'.refusals = m.refusals → Picks (fun x y => decide (0 < cmp x y)) xs r) := by
  refine ⟨?_, fun visit ctx => ?_, fun combine acc => ?_, fun pred => iterFind_sees gives pred m,
    fun pred => iterAny_sees gives pred m, fun pred => ?_,
    fun cmp laws => ⟨iterBest_picks gives (prefers_less laws) m,
      iterBest_picks gives (prefers_greater laws) m⟩⟩
  · obtain ⟨fuel, n, m', run, sees⟩ :=
      scratchLoop_sees gives (fun _ n => (true, addSize n 1)) 0 m
    exact ⟨fuel, n, m', run, sees.congr fun zs => (scan_foldl _ zs 0).trans (foldl_addSize zs)⟩
  · obtain ⟨fuel, r, m', run, sees⟩ :=
      scratchLoop_sees gives (fun x ctx => (true, visit x ctx)) ctx m
    exact ⟨fuel, r, m', run, sees.congr fun zs => scan_foldl _ zs ctx⟩
  · obtain ⟨fuel, r, m', run, sees⟩ :=
      scratchLoop_sees gives (fun x acc => (true, combine acc x)) acc m
    exact ⟨fuel, r, m', run, sees.congr fun zs => scan_foldl _ zs acc⟩
  · obtain ⟨fuel, r, m', run, sees⟩ := scratchLoop_scan gives
      (fun x all => if pred x then (true, all) else (false, false)) false true m
    refine ⟨fuel, r, m', ?_, sees.imp_right fun h => h.congr fun zs => scan_all pred zs⟩
    rw [iterAll, if_pos (by rfl), testing_body pred true false (fun _ all => all) fun _ _ => false]
    exact run

theorem terminals_see_ints :
    ∃ fuel r m', iterReduce fuel
        (some (cursorIterT sliceNext Iter.sizeofSliceState 4 0 ⟨([3, 1, 2] : List Int), 0⟩).toIterT)
        0 (fun acc x => acc + x) (.start (refusingOnce 9)) = some (r, m') ∧
      (m'.refusals = 0 → r = 6) := by
  have made : sliceIter ⟨some 1, ([3, 1, 2] : List Int), 4⟩ (.start (refusingOnce 9)) =
      (some (cursorIterT sliceNext Iter.sizeofSliceState 4 0 ⟨[3, 1, 2], 0⟩),
        ⟨refusingOnce 9, 1, [.alloc 0 Iter.sizeofSliceState]⟩) := rfl
  obtain ⟨-, gives⟩ := (slice_served _ _).1.gives made rfl
  obtain ⟨fuel, r, m', run, -, sum⟩ :=
    (terminals_see gives (.start (refusingOnce 9))).2.2.1 (fun acc x => acc + x) 0
  exact ⟨fuel, r, m', run, sum⟩

/-! ### Searches and extremes of the collections themselves -/

theorem findFrom_find (pred : α → Bool) (pre xs : List α) :
    ((findFrom pred xs pre.length).bind fun i => (pre ++ xs)[i]?) = xs.find? pred ∧
      (findFrom pred xs pre.length).isSome = xs.any pred := by
  induction xs generalizing pre with
  | nil => exact ⟨rfl, rfl⟩
  | cons x xs ih =>
    rw [findFrom]
    cases hit : pred x with
    | true => simp [hit]
    | false =>
      have rest := ih (pre ++ [x])
      rw [List.length_append, List.length_singleton, List.append_assoc] at rest
      simpa [hit] using rest

/-- What a search that returns an index and one over the iterator find. -/
def FindsAlike (it : OwnedIterT σ α) (xs : List α) (pred : α → Bool) (index : Option Nat)
    (found : Bool) : Prop :=
  ∀ m, ∃ fuel r m₁ fuel' b m₂, iterFind fuel (some it.toIterT) pred m = some (r, m₁) ∧
    iterAny fuel' (some it.toIterT) pred m = some (b, m₂) ∧
    (m₁.refusals = m.refusals → r = index.bind fun i => xs[i]?) ∧
    (m₂.refusals = m.refusals → b = found)

theorem OwnedIterT.Gives.finds_alike {it : OwnedIterT σ α} {xs : List α} (gives : it.Gives xs)
    (pred : α → Bool) :
    FindsAlike it xs pred (findFrom pred xs 0) (findFrom pred xs 0).isSome := by
  intro m
  obtain ⟨fuel, r, m₁, run, -, finds⟩ := iterFind_sees gives pred m
  obtain ⟨fuel', b, m₂, run', -, anys⟩ := iterAny_sees gives pred m
  obtain ⟨found, some⟩ := findFrom_find pred [] xs
  exact ⟨fuel, r, m₁, fuel', b, m₂, run, run', fun calm => (finds calm).trans found.symm,
    fun calm => (anys calm).trans some.symm⟩

/-- The searches of vec.c and slice.c find what `iter_find` and `iter_any` do over their
iterators; those of a slice see nothing without a block or an element size. -/
theorem finds_agree (m : Mem) (pred : α → Bool) :
    (∀ (v : Vec α) it m₁, vecIter (some v) m = (some it, m₁) →
      FindsAlike it v.contents pred (vecFind (some v) (some pred))
        (vecAny (some v) (some pred))) ∧
    ∀ (s : Slice α) it m₁, sliceIter s m = (some it, m₁) →
      (s.contents ≠ [] → s.ptr ≠ none ∧ s.elemSize ≠ 0) →
      FindsAlike it s.contents pred (sliceFind s (some pred)) (sliceAny s (some pred)) := by
  constructor
  · intro v it m₁ made
    have sliced : sliceIter (vecAsSlice (some v)) m = (some it, m₁) := made
    obtain ⟨-, gives⟩ := (slice_served _ m).1.gives sliced (cursorIter_calm sliced)
    exact gives.finds_alike pred
  · intro s it m₁ made whole
    obtain ⟨-, gives⟩ := (slice_served s m).1.gives made (cursorIter_calm made)
    have same : sliceFind s (some pred) = findFrom pred s.contents 0 := by
      rw [sliceFind]
      by_cases bad : s.ptr = none ∨ s.elemSize = 0
      · have empty : s.contents = [] := by
          by_contra some
          exact bad.elim (whole some).1 (whole some).2
        rw [if_pos bad, empty]
        rfl
      · rw [if_neg bad]
    rw [sliceAny, same]
    exact gives.finds_alike pred

/-- The least and the greatest element over an iterator. -/
def Extremes (cmp : β → β → Int) (it : OwnedIterT σ β) (lo hi : Option β) : Prop :=
  ∀ m, ∃ fuel r m₁ fuel' r' m₂, iterMin fuel (some it.toIterT) cmp m = some (r, m₁) ∧
    iterMax fuel' (some it.toIterT) cmp m = some (r', m₂) ∧
    (m₁.refusals = m.refusals → r = lo) ∧ (m₂.refusals = m.refusals → r' = hi)

theorem OwnedIterT.Gives.extremes {cmp : β → β → Int} {ys : List β} {it : OwnedIterT σ β}
    (gives : it.Gives ys) (laws : Laws cmp) (asc : Ascending cmp id xs) (perm : ys.Perm xs) :
    Extremes cmp it xs.head? xs.getLast? := by
  have least {r : Option β} (picks : Picks (fun x y => decide (cmp x y < 0)) ys r) :
      r = xs.head? := by
    obtain ⟨rfl, rfl⟩ | ⟨x, rfl, best⟩ := picks
    · rw [← perm.nil_eq]
      rfl
    obtain ⟨here, least⟩ := best.none_better (prefers_less laws)
    cases first : xs.head? with
    | none =>
      rw [List.head?_eq_none_iff.mp first] at perm
      simp [perm.eq_nil] at here
    | some h =>
      obtain ⟨mem, le⟩ := asc.head_le laws first
      have hx := le x (perm.subset here)
      have xh := of_decide_eq_false (least h (perm.symm.subset mem))
      rw [asc.unequal.same laws mem (perm.subset here) (by simp only [id] at hx; omega)]
  have greatest {r : Option β} (picks : Picks (fun x y => decide (0 < cmp x y)) ys r) :
      r = xs.getLast? := by
    obtain ⟨rfl, rfl⟩ | ⟨x, rfl, best⟩ := picks
    · rw [← perm.nil_eq]
      rfl
    obtain ⟨here, greatest⟩ := best.none_better (prefers_greater laws)
    cases last : xs.getLast? with
    | none =>
      rw [List.getLast?_eq_none_iff.mp last] at perm
      simp [perm.eq_nil] at here
    | some h =>
      obtain ⟨mem, le⟩ := asc.le_getLast laws last
      have xh := le x (perm.subset here)
      have hx := of_decide_eq_false (greatest h (perm.symm.subset mem))
      have := laws.flip x h
      rw [asc.unequal.same laws (perm.subset here) mem (by simp only [id] at xh; omega)]
  intro m
  obtain ⟨fuel, r, m₁, run, -, picks⟩ := iterBest_picks gives (prefers_less laws) m
  obtain ⟨fuel', r', m₂, run', -, picks'⟩ := iterBest_picks gives (prefers_greater laws) m
  exact ⟨fuel, r, m₁, fuel', r', m₂, run, run', fun calm => least (picks calm),
    fun calm => greatest (picks' calm)⟩

/-- The extremes that the trees and the queues of priorities return are those of `iter_min` and
`iter_max` over their iterators, in either direction; a queue may have another of its least
elements in front. -/
theorem extremes_agree {cmp : α → α → Int} (laws : Laws cmp) (m₀ : Mem) :
    (∀ t : AvlT α, AvlInv cmp t → ∀ it m₁,
      (avlIter (some t) m₀ = (some it, m₁) ∨ avlIterRev (some t) m₀ = (some it, m₁)) →
      Extremes cmp it (avlMin t true).2 (avlMax t true).2) ∧
    (∀ t : Bstree α, BstreeInv cmp t → ∀ it m₁,
      (bstreeIter (some t) m₀ = (some it, m₁) ∨ bstreeIterRev (some t) m₀ = (some it, m₁)) →
      Extremes cmp it (bstreeMin t true).2 (bstreeMax t true).2) ∧
    ∀ q : Pqueue α, Ordered cmp q.contents → ∀ it m₁,
      (pqueueIter (some q) m₀ = (some it, m₁) ∨ pqueueIterRev (some q) m₀ = (some it, m₁)) →
      ∀ m, ∃ fuel r m', iterMin fuel (some it.toIterT) cmp m = some (r, m') ∧
        (m'.refusals = m.refusals →
          Option.Rel (fun a b => cmp a b = 0) r (pqueuePeek q true).2) := by
  have copied (x : Option α) : (seqcCopyOut x true).2 = x := by cases x <;> rfl
  have walks {ι : Type} {root : Tree ι α} (asc : Ascending cmp id root.toList) {size : Nat}
      {it : OwnedIterT (TreeIterState ι α) α} {m₁ : Mem}
      (made : treeIter false size root m₀ = (some it, m₁) ∨
        treeIter true size root m₀ = (some it, m₁)) :
      Extremes cmp it root.toList.head? root.toList.getLast? := by
    rcases made with made | made
    · obtain ⟨-, gives⟩ := (treeWalk_served laws asc size size .iter m₀).gives made
        (treeIter_calm made)
      exact gives.extremes laws asc (.refl _)
    · obtain ⟨-, gives⟩ := (treeWalk_served laws asc size size .iterRev m₀).gives made
        (treeIter_calm made)
      exact gives.extremes laws asc (List.reverse_perm _)
  refine ⟨fun t inv it m₁ made => ?_, fun t inv it m₁ made => ?_, fun q ordered it m₁ made m => ?_⟩
  · rw [avlMin, avlMax, copied, copied, avlMinPtr, avlMaxPtr, minData_eq, maxData_eq]
    exact walks inv.ascending made
  · rw [bstreeMin, bstreeMax, copied, copied, bstreeMinPtr, bstreeMaxPtr, minData_eq, maxData_eq]
    exact walks inv.ascending made
  · obtain ⟨ys, perm, gives⟩ : ∃ ys, ys.Perm q.contents ∧ it.Gives ys := by
      cases there : q.data with
      | none => simp [pqueueIter, pqueueIterRev, vecIter, vecIterRev, there] at made
      | some v =>
        rw [pqueueIter, pqueueIterRev, there] at made
        rcases made with made | made
        · have sliced : sliceIter (vecAsSlice (some v)) m₀ = (some it, m₁) := made
          obtain ⟨-, gives⟩ := (slice_served _ m₀).1.gives sliced (cursorIter_calm sliced)
          exact ⟨_, by rw [Pqueue.contents, there]; exact .refl _, gives⟩
        · have sliced : sliceIterRev (vecAsSlice (some v)) m₀ = (some it, m₁) := made
          obtain ⟨-, gives⟩ := (slice_served _ m₀).2.gives sliced (cursorIter_calm sliced)
          exact ⟨_, by rw [Pqueue.contents, there]; exact List.reverse_perm _, gives⟩
    obtain ⟨fuel, r, m', run, -, picks⟩ := iterBest_picks gives (prefers_less laws) m
    refine ⟨fuel, r, m', run, fun calm => ?_⟩
    have peek : (pqueuePeek q true).2 = q.contents[0]? := copied _
    rw [peek]
    obtain ⟨rfl, rfl⟩ | ⟨x, rfl, best⟩ := picks calm
    · rw [← perm.nil_eq]
      exact .none
    · obtain ⟨here, least⟩ := best.none_better (prefers_less laws)
      obtain ⟨h, first⟩ : ∃ h, q.contents[0]? = some h := by
        have := List.length_pos_of_mem (perm.subset here)
        exact ⟨_, List.getElem?_eq_getElem this⟩
      have hx := ordered.least laws first x (perm.subset here)
      have xh := of_decide_eq_false (least h (perm.symm.subset (List.mem_of_getElem? first)))
      have := laws.flip h x
      rw [first]
      exact .some (laws.eq_symm (by omega))

theorem extremes_agree_ints :
    Extremes intCmp (treeIterT true (fun _ => false) sizeofTreeIterState 0 4
      ⟨0, none, [], 0, .node 1 (2 : Int) .nil 1 (.node 2 1 .nil 3 .nil), none, fun _ => rfl⟩)
      (some 1) (some 3) :=
  (extremes_agree intCmp_laws (.start (refusingOnce 9))).1
    ⟨9, .node 1 2 .nil 1 (.node 2 1 .nil 3 .nil), 2, 4⟩
    ⟨List.pairwise_pair.mpr (by decide), by simp [Avl, Tree.height], rfl⟩ _ _ (.inr rfl)

end Seqc
