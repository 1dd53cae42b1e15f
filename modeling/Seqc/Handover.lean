import Seqc.Consumers
import Seqc.Cursors
import Seqc.Ownership
import Seqc.Priming
import Mathlib.Data.List.ReduceOption

/-! Programs that make iterators, call them and hand them on. Every iterator is handed to one
constructor, terminal or extend function, or to `iter_destroy`, and is not used again. -/

namespace Seqc
open Iteration Iter Comparator

variable {s t u : ElemType} {m m' : Mem}

/-! ### Constructors -/

/-- An iterator of another module. -/
def iterOf {σ : Type} (make : Mem → Option (OwnedIterT σ t.Val) × Mem) (m : Mem) : Iter t × Mem :=
  match make m with
  | (none, m) => (.failed, m)
  | (some it, m) => (.foreign it, m)

/-- The sources, without the range iterators of trees. The iterators of vec.c, stack.c and
pqueue.c and those over the characters of a string are iterators over slices. A NULL
container has none. -/
inductive Source : {t : ElemType} → (Mem → Iter t × Mem) → Prop
  | null {t : ElemType} : Source fun m => ((.failed : Iter t), m)
  | fromSlice {t : ElemType} (contents : List t.Val) : Source (iterFromSlice contents)
  | fromSliceRev {t : ElemType} (contents : List t.Val) : Source (iterFromSliceRev contents)
  | generate {t : ElemType} {σ : Type} (fn : σ → Option t.Val × σ) (ctx : σ) :
      Source (iterGenerate fn ctx)
  | range (start stop step : Int) : Source (iterRange start stop step)
  | split (str delim : Str) (anychar : Bool) : Source (iterSplit str delim anychar)
  | cursor {t : ElemType} {σ : Type} (next : σ → Option (Option t.Val × σ)) (size elemSize : Nat)
      (start : Option σ) : Source (iterOf (cursorIter next size elemSize start))
  | tree {t : ElemType} {ι : Type} (rev : Bool) (elemSize : Nat) (root : Tree ι t.Val) :
      Source (iterOf (treeIter rev elemSize root))

/-- The range iterators of bstree.c, avl.c and omap.c, and the memories in which their priming
is refused nothing. -/
inductive RangeSource : {t : ElemType} → (Mem → Iter t × Mem) → (Mem → Prop) → Prop
  | treeRange {t : ElemType} {ι κ : Type} (cmp : κ → κ → Int) (key : t.Val → κ)
      (hiSize elemSize : Nat) (root : Tree ι t.Val) (lo hi : Option κ) :
      RangeSource (iterOf (treeIterRange cmp key hiSize elemSize root lo hi))
        (PrimesGranted cmp key hiSize root lo hi)

/-- The adaptors of one source, `iter_flat_map` apart. -/
inductive Adaptor : {s t : ElemType} → (Iter s → Mem → Iter t × Mem) → Prop
  | filter {t : ElemType} (pred : t.Val → Bool) : Adaptor fun source => iterFilter source pred
  | map {s t : ElemType} (fn : s.Val → t.Val) : Adaptor fun source => iterMap source fn
  | take {t : ElemType} (n : Nat) : Adaptor fun source : Iter t => iterTake source n
  | takeWhile {t : ElemType} (pred : t.Val → Bool) : Adaptor fun source => iterTakeWhile source pred
  | skip {t : ElemType} (n : Nat) : Adaptor fun source : Iter t => iterSkip source n
  | skipWhile {t : ElemType} (pred : t.Val → Bool) : Adaptor fun source => iterSkipWhile source pred
  | enumerate {t : ElemType} : Adaptor fun source : Iter t => iterEnumerate source
  | window {t : ElemType} (n : Nat) : Adaptor fun source : Iter t => iterWindow source n
  | chunks {t : ElemType} (n : Nat) : Adaptor fun source : Iter t => iterChunks source n
  | peekable {t : ElemType} : Adaptor fun source : Iter t => iterPeekable source
  | dedup {t : ElemType} (cmp : t.Val → t.Val → Int) : Adaptor fun source => iterDedup source cmp

/-- The adaptors of two sources. -/
inductive Joiner : {s t u : ElemType} → (Iter s → Iter t → Mem → Iter u × Mem) → Prop
  | chain {t : ElemType} : Joiner fun a b : Iter t => iterChain a b
  | zip {s t : ElemType} : Joiner fun (a : Iter s) (b : Iter t) => iterZip a b

theorem iterOf_takes {σ : Type} {make : Mem → Option (OwnedIterT σ t.Val) × Mem}
    (trades : m.Trades 0 (make m).2 ((make m).1.elim 0 OwnedIterT.blocks)) :
    Takes m 0 (iterOf make m) := by
  rcases hm : make m with ⟨_ | it, m'⟩
  · rw [hm] at trades
    simp only [iterOf, hm]
    exact ⟨trivial, trades⟩
  · rw [hm] at trades
    simp only [iterOf, hm]
    exact ⟨trivial, trades⟩

theorem iterOf_granted {σ : Type} {make : Mem → Option (OwnedIterT σ t.Val) × Mem}
    (granted : (make m).1.isSome = true → (make m).2.refusals = m.refusals)
    (valid : (iterOf make m).1.isValid = true) : (iterOf make m).2.refusals = m.refusals := by
  rcases hm : make m with ⟨_ | it, m'⟩
  · simp [iterOf, hm, Iter.isValid] at valid
  · rw [hm] at granted
    simpa only [iterOf, hm] using granted rfl

/-- A source that needs a state block only. -/
theorem stateSource_takes {size : Nat} {make : Nat → Iter t} (kept : ∀ addr, (make addr).Kept)
    (owns : ∀ addr, (make addr).owned = {(addr, size)}) (m : Mem) :
    Takes m 0 (withState m size id make) :=
  withState_takes (fun m => .refl m 0) kept (fun addr => (owns addr).trans (zero_add _).symm) m

theorem Source.takes {make : Mem → Iter t × Mem} (source : Source make) (m : Mem) :
    Takes m 0 (make m) := by
  cases source with
  | null => exact .fail (.refl m 0)
  | fromSlice contents => exact stateSource_takes (fun _ => by trivial) (fun _ => by rfl) m
  | fromSliceRev contents => exact stateSource_takes (fun _ => by trivial) (fun _ => by rfl) m
  | generate fn ctx => exact stateSource_takes (fun _ => by trivial) (fun _ => by rfl) m
  | range start stop step => exact stateSource_takes (fun _ => by trivial) (fun _ => by rfl) m
  | split str delim anychar => exact stateSource_takes (fun _ => by trivial) (fun _ => by rfl) m
  | cursor next size elemSize start =>
    exact iterOf_takes (cursorIter_trades start m)
  | tree rev elemSize root =>
    exact iterOf_takes (treeIter_trades rev elemSize root m)

/-- A source that was refused a request fails. -/
theorem Source.granted {make : Mem → Iter t × Mem} (source : Source make)
    (valid : (make m).1.isValid = true) : (make m).2.refusals = m.refusals := by
  cases source with
  | null => rfl
  | fromSlice contents => exact withState_granted valid
  | fromSliceRev contents => exact withState_granted valid
  | generate fn ctx => exact withState_granted valid
  | range start stop step => exact withState_granted valid
  | split str delim anychar => exact withState_granted valid
  | cursor next size elemSize start => exact iterOf_granted (cursorIter_refusals start m) valid
  | tree rev elemSize root => exact iterOf_granted (treeIter_refusals rev elemSize root m) valid

theorem RangeSource.takes {make : Mem → Iter t × Mem} {granted : Mem → Prop}
    (source : RangeSource make granted) (m : Mem) : Takes m 0 (make m) := by
  cases source with
  | treeRange cmp key hiSize elemSize root lo hi =>
    exact iterOf_takes (treeIterRange_trades cmp key hiSize elemSize root lo hi m)

theorem iterOf_granted_iff {σ : Type} {make : Mem → Option (OwnedIterT σ t.Val) × Mem} :
    ((iterOf make m).1.isValid = true → (iterOf make m).2.refusals = m.refusals) ↔
      ((make m).1.isSome = true → (make m).2.refusals = m.refusals) := by
  rcases hm : make m with ⟨_ | it, m'⟩ <;> simp [iterOf, hm, Iter.isValid]

/-- A range iterator that was refused a request has failed, but for its priming. -/
theorem RangeSource.granted_iff {make : Mem → Iter t × Mem} {granted : Mem → Prop}
    (source : RangeSource make granted) (m : Mem) :
    ((make m).1.isValid = true → (make m).2.refusals = m.refusals) ↔ granted m := by
  cases source with
  | treeRange cmp key hiSize elemSize root lo hi =>
    exact iterOf_granted_iff.trans
      (treeIterRange_granted_iff cmp key hiSize elemSize root lo hi m)

/-- An adaptor with a state block only. -/
theorem stateAdaptor_takes {src : Iter s} (kept : src.Kept) {size : Nat} {make : Nat → Iter t}
    (keeps : ∀ addr, src.Kept → (make addr).Kept)
    (owns : ∀ addr, (make addr).owned = src.owned + {(addr, size)}) (m : Mem) :
    Takes m src.owned (if src.isValid then withState m size src.destroy make else (.failed, m)) := by
  by_cases valid : src.isValid = true
  · rw [if_pos valid]
    exact withState_takes src.destroy_trades (fun addr => keeps addr kept) owns m
  · cases src with
    | failed => exact .fail (.refl m 0)
    | _ => simp [Iter.isValid] at valid

/-- An adaptor with a state block and a buffer. -/
theorem bufferAdaptor_takes {src : Iter s} (kept : src.Kept) {size bufSize : Nat}
    {make : Nat → Nat → Iter t} (keeps : ∀ addr buf, src.Kept → (make addr buf).Kept)
    (owns : ∀ addr buf, (make addr buf).owned = src.owned + {(buf, bufSize)} + {(addr, size)})
    (m : Mem) :
    Takes m src.owned
      (if src.isValid then withBuffer m size bufSize src.destroy make else (.failed, m)) := by
  by_cases valid : src.isValid = true
  · rw [if_pos valid]
    exact withBuffer_takes src.destroy_trades (fun addr buf => keeps addr buf kept) owns m
  · cases src with
    | failed => exact .fail (.refl m 0)
    | _ => simp [Iter.isValid] at valid

theorem iterMap_takes {src : Iter s} (kept : src.Kept) (fn : s.Val → t.Val) (m : Mem) :
    Takes m src.owned (iterMap src fn m) := by
  by_cases valid : src.isValid = true
  · simp only [iterMap, if_pos valid]
    rcases hm : memAlloc m sizeofMapState with ⟨_ | addr, m₁⟩
    · simp only
      exact .fail (((memAlloc_refused hm).within _ (zero_add _).symm (zero_add _).symm).trans
        (src.destroy_trades m₁))
    rcases hm' : memAlloc m₁ s.size with ⟨_ | inBuf, m₂⟩
    · have state := ((memAlloc_trades hm).trans ((memAlloc_refused hm').within
        {(addr, sizeofMapState)} (zero_add _).symm (zero_add _).symm)).trans
        (memFree_trades m₂ addr sizeofMapState)
      simp only [hm']
      exact .fail ((state.within src.owned (zero_add _).symm (zero_add _).symm).trans
        (src.destroy_trades _))
    · have both := (memAlloc_trades hm).trans ((memAlloc_trades hm').within
        {(addr, sizeofMapState)} (zero_add _).symm rfl)
      simp only [hm']
      refine ⟨kept, both.within src.owned (zero_add _).symm ?_⟩
      simp only [Iter.owned]
      abel
  · cases src with
    | failed => exact .fail (.refl m 0)
    | _ => simp [Iter.isValid] at valid

theorem Adaptor.takes {make : Iter s → Mem → Iter t × Mem} (adaptor : Adaptor make) {src : Iter s}
    (kept : src.Kept) (m : Mem) : Takes m src.owned (make src m) := by
  cases adaptor with
  | filter pred => exact stateAdaptor_takes kept (fun _ kept => by exact kept) (fun _ => by rfl) m
  | map fn => exact iterMap_takes kept fn m
  | take n => exact stateAdaptor_takes kept (fun _ kept => by exact kept) (fun _ => by rfl) m
  | takeWhile pred => exact stateAdaptor_takes kept (fun _ kept => by exact kept) (fun _ => by rfl) m
  | skip n => exact stateAdaptor_takes kept (fun _ kept => by exact kept) (fun _ => by rfl) m
  | skipWhile pred => exact stateAdaptor_takes kept (fun _ kept => by exact kept) (fun _ => by rfl) m
  | enumerate => exact bufferAdaptor_takes kept (fun _ _ kept => by exact kept) (fun _ _ => by rfl) m
  | window n =>
    by_cases zero : n = 0
    · simp only [iterWindow, if_pos zero]
      exact stateAdaptor_takes kept (fun _ kept => by exact kept)
        (fun _ => by simp [Iter.owned, bufferBlocks]) m
    · simp only [iterWindow, if_neg zero]
      exact bufferAdaptor_takes kept (fun _ _ kept => by exact kept) (fun _ _ => by rfl) m
  | chunks n =>
    by_cases zero : n = 0
    · simp only [iterChunks, if_pos zero]
      exact stateAdaptor_takes kept (fun _ kept => by exact kept)
        (fun _ => by simp [Iter.owned, bufferBlocks]) m
    · simp only [iterChunks, if_neg zero]
      exact bufferAdaptor_takes kept (fun _ _ kept => by exact kept) (fun _ _ => by rfl) m
  | peekable => exact bufferAdaptor_takes kept (fun _ _ kept => by exact kept) (fun _ _ => by rfl) m
  | dedup cmp => exact bufferAdaptor_takes kept (fun _ _ kept => by exact kept) (fun _ _ => by rfl) m

/-- An adaptor that makes a valid iterator. -/
theorem guarded_granted {valid : Bool} {r : Iter t × Mem}
    (granted : r.1.isValid = true → r.2.refusals = m.refusals)
    (made : (if valid = true then r else (.failed, m)).1.isValid = true) :
    valid = true ∧ (if valid = true then r else (.failed, m)).2.refusals = m.refusals := by
  cases valid with
  | false => simp [Iter.isValid] at made
  | true => exact ⟨rfl, granted made⟩

theorem iterMap_granted {src : Iter s} {fn : s.Val → t.Val}
    (valid : (iterMap src fn m).1.isValid = true) :
    src.isValid = true ∧ (iterMap src fn m).2.refusals = m.refusals := by
  refine guarded_granted (fun made => ?_) valid
  rcases hm : memAlloc m sizeofMapState with ⟨_ | addr, m₁⟩
  · simp [hm, Iter.isValid] at made
  rcases hm' : memAlloc m₁ s.size with ⟨_ | inBuf, m₂⟩
  · simp [hm, hm', Iter.isValid] at made
  · simpa only [hm, hm'] using (memAlloc_some hm').2.2.trans (memAlloc_some hm).2.2

/-- An adaptor that was refused a request, or was given a failed source, fails. -/
theorem Adaptor.granted {make : Iter s → Mem → Iter t × Mem} (adaptor : Adaptor make) {src : Iter s}
    (valid : (make src m).1.isValid = true) :
    src.isValid = true ∧ (make src m).2.refusals = m.refusals := by
  cases adaptor with
  | filter pred => exact guarded_granted withState_granted valid
  | map fn => exact iterMap_granted valid
  | take n => exact guarded_granted withState_granted valid
  | takeWhile pred => exact guarded_granted withState_granted valid
  | skip n => exact guarded_granted withState_granted valid
  | skipWhile pred => exact guarded_granted withState_granted valid
  | enumerate => exact guarded_granted withBuffer_granted valid
  | window n =>
    refine guarded_granted (fun made => ?_) valid
    by_cases zero : n = 0
    · rw [if_pos zero] at made ⊢
      exact withState_granted made
    · rw [if_neg zero] at made ⊢
      exact withBuffer_granted made
  | chunks n =>
    refine guarded_granted (fun made => ?_) valid
    by_cases zero : n = 0
    · rw [if_pos zero] at made ⊢
      exact withState_granted made
    · rw [if_neg zero] at made ⊢
      exact withBuffer_granted made
  | peekable => exact guarded_granted withBuffer_granted valid
  | dedup cmp => exact guarded_granted withBuffer_granted valid

theorem iterFlatMap_granted {src : Iter s} {fn : s.Val → Mem → Iter t × Mem}
    (valid : (iterFlatMap src fn m).1.isValid = true) :
    src.isValid = true ∧ (iterFlatMap src fn m).2.refusals = m.refusals :=
  guarded_granted withBuffer_granted valid

theorem Joiner.granted {make : Iter s → Iter t → Mem → Iter u × Mem} (joiner : Joiner make)
    {a : Iter s} {b : Iter t} (made : (make a b m).1.isValid = true) :
    (a.isValid = true ∧ b.isValid = true) ∧ (make a b m).2.refusals = m.refusals := by
  cases joiner with
  | chain =>
    by_cases valid : a.isValid = true ∧ b.isValid = true
    · simp only [iterChain, if_pos valid] at made ⊢
      exact ⟨valid, withState_granted made⟩
    · simp only [iterChain, if_neg valid] at made
      simp [Iter.isValid] at made
  | zip =>
    by_cases valid : a.isValid = true ∧ b.isValid = true
    · simp only [iterZip, if_pos valid] at made ⊢
      exact ⟨valid, withBuffer_granted made⟩
    · simp only [iterZip, if_neg valid] at made
      simp [Iter.isValid] at made

theorem Joiner.takes {make : Iter s → Iter t → Mem → Iter u × Mem} (joiner : Joiner make)
    {a : Iter s} {b : Iter t} (keptA : a.Kept) (keptB : b.Kept) (m : Mem) :
    Takes m (a.owned + b.owned) (make a b m) := by
  have dropped (m : Mem) : m.Trades (a.owned + b.owned) (b.destroy (a.destroy m)) 0 :=
    (a.destroy_trades m).both (b.destroy_trades _)
  cases joiner with
  | chain =>
    by_cases valid : a.isValid = true ∧ b.isValid = true
    · simp only [iterChain, if_pos valid]
      exact withState_takes dropped (fun _ => by exact ⟨keptA, keptB⟩) (fun _ => by rfl) m
    · simp only [iterChain, if_neg valid]
      exact .fail (dropped m)
  | zip =>
    by_cases valid : a.isValid = true ∧ b.isValid = true
    · simp only [iterZip, if_pos valid]
      exact withBuffer_takes dropped (fun _ _ => by exact ⟨keptA, keptB⟩) (fun _ _ => by rfl) m
    · simp only [iterZip, if_neg valid]
      exact .fail (dropped m)

theorem iterFlatMap_takes {src : Iter s} (kept : src.Kept) {fn : s.Val → Mem → Iter t × Mem}
    (handsOver : ∀ x (m : Mem), (fn x m).1.Kept ∧ m.Trades 0 (fn x m).2 (fn x m).1.owned)
    (m : Mem) : Takes m src.owned (iterFlatMap src fn m) := by
  refine bufferAdaptor_takes kept (fun _ _ kept => ?_) (fun _ _ => ?_) m
  · exact ⟨kept, trivial, handsOver⟩
  · simp [Iter.owned]

/-! ### Consumers -/

/-- The terminals, with the pointer each returns, and `iter_destroy`. -/
inductive Terminal : {t : ElemType} → (Nat → Iter t → Mem → Option (Option Nat × Mem)) → Prop
  | destroy {t : ElemType} : Terminal fun _ (it : Iter t) m => some (none, it.destroy m)
  | collect {t : ElemType} : Terminal fun fuel (it : Iter t) m =>
      (iterCollect fuel it.asIterT m).map fun r => (r.1.ptr, r.2)
  | sort {t : ElemType} (qsort : (t.Val → t.Val → Int) → List t.Val → List t.Val)
      (cmp : t.Val → t.Val → Int) : Terminal fun fuel (it : Iter t) m =>
        (iterSort qsort fuel it.asIterT cmp m).map fun r => (r.1.ptr, r.2)
  | count {t : ElemType} : Terminal fun fuel (it : Iter t) m =>
      (iterCount fuel it.asIterT m).map fun r => (none, r.2)
  | foreach {t : ElemType} {γ : Type} (visit : t.Val → γ → γ) (ctx : γ) :
      Terminal fun fuel (it : Iter t) m =>
        (iterForeach fuel it.asIterT visit ctx m).map fun r => (none, r.2)
  | reduce {t : ElemType} {γ : Type} (acc : γ) (combine : γ → t.Val → γ) :
      Terminal fun fuel (it : Iter t) m =>
        (iterReduce fuel it.asIterT acc combine m).map fun r => (none, r.2)
  | find {t : ElemType} (pred : t.Val → Bool) : Terminal fun fuel (it : Iter t) m =>
      (iterFind fuel it.asIterT pred m).map fun r => (none, r.2)
  | any {t : ElemType} (pred : t.Val → Bool) : Terminal fun fuel (it : Iter t) m =>
      (iterAny fuel it.asIterT pred m).map fun r => (none, r.2)
  | all {t : ElemType} (pred : t.Val → Bool) : Terminal fun fuel (it : Iter t) m =>
      (iterAll fuel it.asIterT pred m).map fun r => (none, r.2)
  | min {t : ElemType} (cmp : t.Val → t.Val → Int) : Terminal fun fuel (it : Iter t) m =>
      (iterMin fuel it.asIterT cmp m).map fun r => (none, r.2)
  | max {t : ElemType} (cmp : t.Val → t.Val → Int) : Terminal fun fuel (it : Iter t) m =>
      (iterMax fuel it.asIterT cmp m).map fun r => (none, r.2)
  | stringJoin (sep : Str) : Terminal fun fuel (it : Iter .string) m =>
      (Seqc.stringJoin fuel it.asIterT sep m).map fun r => (r.1.ptr, r.2)

theorem asIterT_custody {it : Iter t} (kept : it.Kept) :
    (∀ i ∈ it.asIterT, i.InCustody Iter.owned) ∧ iterBlocks Iter.owned it.asIterT = it.owned := by
  have custody (it : Iter t) (kept : it.Kept) : IterT.InCustody
      ⟨fun fuel it => it.next fuel, Iter.destroy, it, t.size⟩ Iter.owned :=
    ⟨Iter.Kept, kept, fun kept call => ⟨(Iter.next_steps _ _ kept call).kept,
      (Iter.next_steps _ _ kept call).trades⟩, Iter.destroy_trades⟩
  cases it with
  | failed => exact ⟨fun i hi => by simp [asIterT] at hi, rfl⟩
  | _ => exact ⟨fun i hi => Option.some.inj hi ▸ custody _ kept, rfl⟩

/-- A terminal leaves nothing of its iterator but the block of the pointer it returns. -/
theorem Terminal.trades {fn : Nat → Iter t → Mem → Option (Option Nat × Mem)}
    (terminal : Terminal fn) {it : Iter t} (kept : it.Kept) {fuel : Nat} {ptr : Option Nat}
    (run : fn fuel it m = some (ptr, m')) : ∃ size, m.Trades it.owned m' (bufferBlocks ptr size) := by
  obtain ⟨custody, same⟩ := asIterT_custody kept
  rw [← same]
  cases terminal with
  | destroy =>
    cases run
    rw [same]
    exact ⟨0, it.destroy_trades m⟩
  | collect =>
    obtain ⟨r, ran, same'⟩ := Option.map_eq_some_iff.mp run
    cases same'
    exact iterCollect_trades custody ran
  | sort qsort cmp =>
    obtain ⟨r, ran, same'⟩ := Option.map_eq_some_iff.mp run
    cases same'
    exact iterSort_trades custody ran
  | count =>
    obtain ⟨r, ran, same'⟩ := Option.map_eq_some_iff.mp run
    cases same'
    exact ⟨0, scratchLoop_trades custody (by exact fun _ _ _ => rfl) ran⟩
  | foreach visit ctx =>
    obtain ⟨r, ran, same'⟩ := Option.map_eq_some_iff.mp run
    cases same'
    exact ⟨0, scratchLoop_trades custody (by exact fun _ _ _ => rfl) ran⟩
  | reduce acc combine =>
    obtain ⟨r, ran, same'⟩ := Option.map_eq_some_iff.mp run
    cases same'
    exact ⟨0, scratchLoop_trades custody (by exact fun _ _ _ => rfl) ran⟩
  | find pred =>
    obtain ⟨r, ran, same'⟩ := Option.map_eq_some_iff.mp run
    cases same'
    exact ⟨0, iterFind_trades custody ran⟩
  | any pred =>
    obtain ⟨r, ran, same'⟩ := Option.map_eq_some_iff.mp run
    cases same'
    exact ⟨0, iterAny_trades custody ran⟩
  | all pred =>
    obtain ⟨r, ran, same'⟩ := Option.map_eq_some_iff.mp run
    cases same'
    exact ⟨0, iterAll_trades custody ran⟩
  | min cmp =>
    obtain ⟨r, ran, same'⟩ := Option.map_eq_some_iff.mp run
    cases same'
    exact ⟨0, iterBest_trades custody ran⟩
  | max cmp =>
    obtain ⟨r, ran, same'⟩ := Option.map_eq_some_iff.mp run
    cases same'
    exact ⟨0, iterBest_trades custody ran⟩
  | stringJoin sep =>
    obtain ⟨r, ran, same'⟩ := Option.map_eq_some_iff.mp run
    cases same'
    exact ⟨_, stringJoin_trades custody ran⟩

/-! ### Programs -/

/-- An iterator of some type. -/
abbrev AnyIter := Σ t : ElemType, Iter t

/-- `Program m₀ o₀ m its bufs o`: from the memory `m₀`, with the blocks `o₀` in other hands, a
program has come to `m`, has the iterators `its`, was given the pointers `bufs` by terminals,
and `o` are the blocks in other hands, those of collections among them. -/
inductive Program : Mem → Blocks → Mem → List AnyIter → List (Option Nat) → Blocks → Prop
  | start (m : Mem) (o : Blocks) : Program m o m [] [] o
  | elsewhere {m₀ o₀ m its bufs o m' o'} (before : Program m₀ o₀ m its bufs o)
      (trades : m.Trades o m' o') : Program m₀ o₀ m' its bufs o'
  | order {m₀ o₀ m its bufs o its'} (before : Program m₀ o₀ m its bufs o) (perm : its.Perm its') :
      Program m₀ o₀ m its' bufs o
  | source {m₀ o₀ m its bufs o} {t : ElemType} {make : Mem → Iter t × Mem}
      (before : Program m₀ o₀ m its bufs o) (source : Source make) :
      Program m₀ o₀ (make m).2 (⟨t, (make m).1⟩ :: its) bufs o
  | rangeSource {m₀ o₀ m its bufs o} {t : ElemType} {make : Mem → Iter t × Mem}
      {granted : Mem → Prop} (before : Program m₀ o₀ m its bufs o)
      (source : RangeSource make granted) :
      Program m₀ o₀ (make m).2 (⟨t, (make m).1⟩ :: its) bufs o
  | adaptor {m₀ o₀ m its bufs o} {s t : ElemType} {src : Iter s} {make : Iter s → Mem → Iter t × Mem}
      (before : Program m₀ o₀ m (⟨s, src⟩ :: its) bufs o) (adaptor : Adaptor make) :
      Program m₀ o₀ (make src m).2 (⟨t, (make src m).1⟩ :: its) bufs o
  | flatMap {m₀ o₀ m its bufs o} {s t : ElemType} {src : Iter s} {fn : s.Val → Mem → Iter t × Mem}
      (before : Program m₀ o₀ m (⟨s, src⟩ :: its) bufs o)
      (subs : ∀ x m, Program m 0 (fn x m).2 [⟨t, (fn x m).1⟩] [] 0) :
      Program m₀ o₀ (iterFlatMap src fn m).2 (⟨t, (iterFlatMap src fn m).1⟩ :: its) bufs o
  | joiner {m₀ o₀ m its bufs o} {s t u : ElemType} {a : Iter s} {b : Iter t}
      {make : Iter s → Iter t → Mem → Iter u × Mem}
      (before : Program m₀ o₀ m (⟨s, a⟩ :: ⟨t, b⟩ :: its) bufs o) (joiner : Joiner make) :
      Program m₀ o₀ (make a b m).2 (⟨u, (make a b m).1⟩ :: its) bufs o
  | next {m₀ o₀ m its bufs o m'} {t : ElemType} {it it' : Iter t} (fuel : Nat) {x : Option t.Val}
      (before : Program m₀ o₀ m (⟨t, it⟩ :: its) bufs o)
      (call : it.next fuel m = some (x, it', m')) : Program m₀ o₀ m' (⟨t, it'⟩ :: its) bufs o
  | peek {m₀ o₀ m its bufs o m'} {t : ElemType} {it it' : Iter t} (fuel : Nat) {x : Option t.Val}
      (before : Program m₀ o₀ m (⟨t, it⟩ :: its) bufs o)
      (call : it.peek fuel m = some (x, it', m')) : Program m₀ o₀ m' (⟨t, it'⟩ :: its) bufs o
  | finish {m₀ o₀ m its bufs o m'} {t : ElemType} {it : Iter t} (fuel : Nat) {ptr : Option Nat}
      {fn : Nat → Iter t → Mem → Option (Option Nat × Mem)}
      (before : Program m₀ o₀ m (⟨t, it⟩ :: its) bufs o) (terminal : Terminal fn)
      (run : fn fuel it m = some (ptr, m')) : Program m₀ o₀ m' its (ptr :: bufs) o
  | vecExtend {m₀ o₀ m its bufs o m'} {t : ElemType} {it : Iter t} {fuel : Nat} {st : Status}
      {v v' : Option (Vec t.Val)} (before : Program m₀ o₀ m (⟨t, it⟩ :: its) bufs (vecBlocks v + o))
      (sound : ∀ w ∈ v, w.Sound m) (run : vecExtend fuel v it.asIterT m = some (st, v', m')) :
      Program m₀ o₀ m' its bufs (vecBlocks v' + o)
  | seqcExtend {m₀ o₀ m its bufs o m'} {t : ElemType} {it : Iter t} {fuel elemSize : Nat}
      {st : Status} {γ : Type} {coll : Collection γ t.Val} {c c' : Option γ}
      (before : Program m₀ o₀ m (⟨t, it⟩ :: its) bufs (coll.blocks c + o))
      (holds : ∀ d ∈ c, coll.Holds d m)
      (run : seqcExtend coll elemSize fuel c it.asIterT m = some (st, c', m')) :
      Program m₀ o₀ m' its bufs (coll.blocks c' + o)
  | entryExtend {m₀ o₀ m its bufs o m'} {t : ElemType} {it : Iter t} {fuel elemSize : Nat}
      {st : Status} {γ : Type} {coll : Collection γ t.Val} {c c' : Option γ}
      (before : Program m₀ o₀ m (⟨t, it⟩ :: its) bufs (coll.blocks c + o))
      (holds : ∀ d ∈ c, coll.Holds d m)
      (run : entryExtend coll elemSize fuel c it.asIterT m = some (st, c', m')) :
      Program m₀ o₀ m' its bufs (coll.blocks c' + o)

/-- The blocks of the iterators a program has. -/
def heldBlocks (its : List AnyIter) : Blocks := (its.map fun i => i.2.owned).sum

theorem heldBlocks_cons (i : AnyIter) (its : List AnyIter) :
    heldBlocks (i :: its) = i.2.owned + heldBlocks its := by
  simp [heldBlocks]

/-- The iterators are in custody, and the other blocks the program has are those of the
pointers it was given. -/
structure Program.Custody (m₀ : Mem) (o₀ : Blocks) (m : Mem) (its : List AnyIter)
    (bufs : List (Option Nat)) (o : Blocks) : Prop where
  kept : ∀ i ∈ its, i.2.Kept
  trades : ∃ held : Blocks, held.map Prod.fst = (bufs.reduceOption : Multiset Nat) ∧
    m₀.Trades o₀ m (heldBlocks its + held + o)

section Custody
variable {m₀ m : Mem} {o₀ o o' : Blocks} {its its' : List AnyIter} {bufs : List (Option Nat)}

/-- A step that trades the blocks of some iterators and of others. -/
theorem Program.Custody.step (h : Program.Custody m₀ o₀ m its bufs o)
    (kept : ∀ i ∈ its', i.2.Kept) {given made : Blocks} (trades : m.Trades given m' made)
    (rest : Blocks) (before : heldBlocks its + o = given + rest)
    (after : heldBlocks its' + o' = made + rest) : Program.Custody m₀ o₀ m' its' bufs o' := by
  obtain ⟨held, ptrs, past⟩ := h.trades
  refine ⟨kept, held, ptrs, past.trans (trades.within (rest + held) ?_ ?_)⟩
  · rw [← add_assoc, ← before]
    abel
  · rw [← add_assoc, ← after]
    abel

/-- A constructor takes over the iterators at the head. -/
theorem Program.Custody.make (given : List AnyIter) {t : ElemType} {it : Iter t}
    (h : Program.Custody m₀ o₀ m (given ++ its) bufs o) (kept : it.Kept)
    (trades : m.Trades (heldBlocks given) m' it.owned) :
    Program.Custody m₀ o₀ m' (⟨t, it⟩ :: its) bufs o := by
  refine h.step (fun i hi => ?_) trades (heldBlocks its + o) ?_ ?_
  · rcases List.mem_cons.mp hi with rfl | hi
    · exact kept
    · exact h.kept i (List.mem_append_right _ hi)
  · simp only [heldBlocks, List.map_append, List.sum_append]
    abel
  · rw [heldBlocks_cons]
    abel

/-- An extend function takes over the iterator at the head. -/
theorem Program.Custody.spend {t : ElemType} {it : Iter t} {c c' : Blocks}
    (h : Program.Custody m₀ o₀ m (⟨t, it⟩ :: its) bufs (c + o))
    (trades : m.Trades (c + it.owned) m' c') : Program.Custody m₀ o₀ m' its bufs (c' + o) := by
  refine h.step (fun i hi => h.kept i (List.mem_cons_of_mem _ hi)) trades
    (heldBlocks its + o) ?_ ?_
  · rw [heldBlocks_cons]
    abel
  · abel

/-- By induction on the program. -/
theorem Program.custody (program : Program m₀ o₀ m its bufs o) :
    Program.Custody m₀ o₀ m its bufs o := by
  induction program with
  | start m o => exact ⟨by simp, 0, rfl, by simpa [heldBlocks] using .refl m o⟩
  | elsewhere _ trades ih =>
    exact ih.step ih.kept trades _ (add_comm _ _) (add_comm _ _)
  | order _ perm ih =>
    obtain ⟨held, ptrs, past⟩ := ih.trades
    refine ⟨fun i hi => ih.kept i (perm.mem_iff.mpr hi), held, ptrs, ?_⟩
    rwa [heldBlocks, ← (perm.map _).sum_eq]
  | @source _ _ m its bufs o t make _ source ih =>
    have takes := source.takes m
    exact ih.make [] takes.kept takes.trades
  | @rangeSource _ _ m its bufs o t make granted _ source ih =>
    have takes := source.takes m
    exact ih.make [] takes.kept takes.trades
  | @adaptor _ _ m its bufs o s t src make _ adaptor ih =>
    have takes := adaptor.takes (ih.kept ⟨s, src⟩ (by simp)) m
    exact ih.make [⟨s, src⟩] takes.kept (by simpa [heldBlocks] using takes.trades)
  | @flatMap _ _ m its bufs o s t src fn _ _ ih subs =>
    have handsOver (x : s.Val) (m : Mem) :
        (fn x m).1.Kept ∧ m.Trades 0 (fn x m).2 (fn x m).1.owned := by
      obtain ⟨held, none, trades⟩ := (subs x m).trades
      obtain rfl : held = 0 := by simpa [List.reduceOption_nil] using none
      exact ⟨(subs x m).kept ⟨t, (fn x m).1⟩ (by simp), by simpa [heldBlocks] using trades⟩
    have takes := iterFlatMap_takes (ih.kept ⟨s, src⟩ (by simp)) handsOver m
    exact ih.make [⟨s, src⟩] takes.kept (by simpa [heldBlocks] using takes.trades)
  | @joiner _ _ m its bufs o s t u a b make _ joiner ih =>
    have takes := joiner.takes (ih.kept ⟨s, a⟩ (by simp)) (ih.kept ⟨t, b⟩ (by simp)) m
    exact ih.make [⟨s, a⟩, ⟨t, b⟩] takes.kept (by simpa [heldBlocks] using takes.trades)
  | @next _ _ m its bufs o m' t it it' fuel x _ call ih =>
    have steps := it.next_steps fuel (ih.kept ⟨t, it⟩ (by simp)) call
    exact ih.make [⟨t, it⟩] steps.kept (by simpa [heldBlocks] using steps.trades)
  | @peek _ _ m its bufs o m' t it it' fuel x _ call ih =>
    have steps := Iter.peek_steps (ih.kept ⟨t, it⟩ (by simp)) call
    exact ih.make [⟨t, it⟩] steps.kept (by simpa [heldBlocks] using steps.trades)
  | @finish _ _ m its bufs o m' t it fuel ptr fn _ terminal run ih =>
    obtain ⟨size, trades⟩ := terminal.trades (ih.kept ⟨t, it⟩ (by simp)) run
    obtain ⟨held, ptrs, past⟩ := ih.trades
    refine ⟨fun i hi => ih.kept i (by simp [hi]), bufferBlocks ptr size + held, ?_,
      past.trans (trades.within (heldBlocks its + held + o) ?_ ?_)⟩
    · cases ptr with
      | none => simpa [bufferBlocks, List.reduceOption_cons_of_none] using ptrs
      | some addr => simp [bufferBlocks, ptrs, List.reduceOption_cons_of_some]
    · rw [heldBlocks_cons]
      abel
    · abel
  | @vecExtend _ _ m its bufs o m' t it fuel st v v' _ sound run ih =>
    obtain ⟨custody, same⟩ := asIterT_custody (ih.kept ⟨t, it⟩ (by simp))
    obtain ⟨trades, -, -⟩ := vecExtend_accounted custody sound run
    exact ih.spend (same ▸ trades)
  | @seqcExtend _ _ m its bufs o m' t it fuel elemSize st γ coll c c' _ holds run ih =>
    obtain ⟨custody, same⟩ := asIterT_custody (ih.kept ⟨t, it⟩ (by simp))
    exact ih.spend (same ▸ (seqcExtend_trades custody holds run).2)
  | @entryExtend _ _ m its bufs o m' t it fuel elemSize st γ coll c c' _ holds run ih =>
    obtain ⟨custody, same⟩ := asIterT_custody (ih.kept ⟨t, it⟩ (by simp))
    exact ih.spend (same ▸ (entryExtend_trades custody holds run).2)

end Custody

/-- What constructors make of the iterators a program has: a valid iterator only of valid
ones, and only if nothing was refused. Of the range iterators this holds exactly where their
priming is refused nothing. -/
structure Program.Constructors (m : Mem) (its : List AnyIter) : Prop where
  source : ∀ {t} {make : Mem → Iter t × Mem}, Source make → (make m).1.isValid = true →
    (make m).2.refusals = m.refusals
  rangeSource : ∀ {t} {make : Mem → Iter t × Mem} {granted : Mem → Prop},
    RangeSource make granted →
      (((make m).1.isValid = true → (make m).2.refusals = m.refusals) ↔ granted m)
  adaptor : ∀ {s t} {src : Iter s} {make : Iter s → Mem → Iter t × Mem}, ⟨s, src⟩ ∈ its →
    Adaptor make → (make src m).1.isValid = true →
      src.isValid = true ∧ (make src m).2.refusals = m.refusals
  flatMap : ∀ {s t} {src : Iter s} {fn : s.Val → Mem → Iter t × Mem}, ⟨s, src⟩ ∈ its →
    (iterFlatMap src fn m).1.isValid = true →
      src.isValid = true ∧ (iterFlatMap src fn m).2.refusals = m.refusals
  joiner : ∀ {s t u} {a : Iter s} {b : Iter t} {make : Iter s → Iter t → Mem → Iter u × Mem},
    ⟨s, a⟩ ∈ its → ⟨t, b⟩ ∈ its → Joiner make → (make a b m).1.isValid = true →
      (a.isValid = true ∧ b.isValid = true) ∧ (make a b m).2.refusals = m.refusals

/-- Whatever a program did with its iterators, the live blocks are those its iterators own,
one for each pointer it was given, and those in other hands. So a program that has no
iterator left has only the buffers it was given. -/
theorem iterators_accounted {m₀ m : Mem} {o₀ o : Blocks} {its : List AnyIter}
    {bufs : List (Option Nat)} (program : Program m₀ o₀ m its bufs o)
    (before : liveBlocks m₀.events = some o₀) :
    Program.Constructors m its ∧ ∃ held : Blocks,
      held.map Prod.fst = (bufs.reduceOption : Multiset Nat) ∧
        liveBlocks m.events = some (heldBlocks its + held + o) := by
  obtain ⟨held, ptrs, trades⟩ := program.custody.trades
  have live := trades.liveBlocks_eq (by rwa [add_zero])
  rw [add_zero] at live
  exact ⟨⟨Source.granted, fun source => source.granted_iff m, fun _ adaptor => adaptor.granted,
    fun _ => iterFlatMap_granted, fun _ _ joiner => joiner.granted⟩, held, ptrs, live⟩

/-- A filter over a range, destroyed after its first element; a range iterator over a tree made
afterwards, whose stack is granted, would say that it was refused nothing. -/
theorem iterators_accounted_filter :
    ∃ (it it' : Iter .longLong) (m m' : Mem) (held : Blocks),
      iterFilter (iterRange 0 3 1 (.start .generous)).1 (fun x => decide (0 < x))
        (iterRange 0 3 1 (.start .generous)).2 = (it, m) ∧
      it.next 5 m = some (some 1, it', m') ∧
      held.map Prod.fst = (([none] : List (Option Nat)).reduceOption : Multiset Nat) ∧
      liveBlocks (it'.destroy m').events = some (heldBlocks [] + held + 0) ∧
      ((iterOf (t := .value Int 8)
          (treeIterRange intCmp id 8 8 (.node 1 1 .nil 5 .nil : Tree Int Int) (some 0) none)
          (it'.destroy m')).1.isValid = true →
        (iterOf (t := .value Int 8)
          (treeIterRange intCmp id 8 8 (.node 1 1 .nil 5 .nil : Tree Int Int) (some 0) none)
          (it'.destroy m')).2.refusals = (it'.destroy m').refusals) := by
  obtain ⟨constructors, held, ptrs, live⟩ := iterators_accounted
    (.finish 0 (.next 5 (.adaptor (.source (.start (.start .generous) 0)
      (.range 0 3 1)) (.filter fun x => decide (0 < x))) rfl) .destroy rfl) rfl
  refine ⟨_, _, _, _, held, rfl, rfl, ptrs, live, (constructors.rangeSource
    (.treeRange (t := .value Int 8) intCmp id 8 8 (.node 1 1 .nil 5 .nil) (some 0) none)).mpr ?_⟩
  intro _ _ k needed
  cases k with
  | zero => rfl
  | succ k =>
    have wide : stackRoom 1 ≤ stackRoom (k + 1) := roomAfter_mono _ (Nat.le_add_left 1 k)
    change stackRoom (k + 1) < 1 at needed
    exact absurd (wide.trans_lt needed) (by decide)

/-- A range iterator over a tree whose stack is refused is valid all the same. -/
theorem iterators_accounted_primed :
    (iterOf (t := .value Int 8) (avlIterRange intCmp (some ⟨0, .node 1 1 .nil 5 .nil, 1, 8⟩)
        (some 0) none) (.start (refusingOnce 1))).1.isValid = true ∧
      (iterOf (t := .value Int 8) (avlIterRange intCmp (some ⟨0, .node 1 1 .nil 5 .nil, 1, 8⟩)
        (some 0) none) (.start (refusingOnce 1))).2.refusals = 1 :=
  ⟨rfl, rfl⟩

end Seqc
