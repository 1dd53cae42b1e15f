import Seqc.VecRoom
import Seqc.Consumers

/-! The block behind the slice that `iter_collect` or `iter_sort` returns, and the size its
owner gives it back with: the number of elements times their size. -/

namespace Seqc
open Iteration

variable {σ : Type*} {β : Type} {m m₁ m' : Mem} {it : Option (IterT σ β)} {owned : σ → Blocks}

/-! ### The capacity -/

/-- The local `cap` of `iter_collect` once it has copied `n` elements. -/
def collectCap : (n : Nat) → Nat
  | 0 => 16
  | n + 1 => if n = collectCap n then mulSize (collectCap n) 2 else collectCap n

/-- It is the first 16·2^k that is enough, as long as it does not wrap. -/
theorem collectCap_spec (n : Nat) (small : n ≤ 2 ^ 63) :
    ∃ k ≤ 59, collectCap n = 16 * 2 ^ k ∧ n ≤ 16 * 2 ^ k ∧ ∀ j < k, 16 * 2 ^ j < n := by
  induction n with
  | zero => exact ⟨0, by simp [collectCap]⟩
  | succ n ih =>
    obtain ⟨k, le, cap, enough, least⟩ := ih (by omega)
    by_cases full : n = collectCap n
    · have more : k < 59 := by
        by_contra last
        obtain rfl : k = 59 := by omega
        norm_num at cap
        omega
      have pos := Nat.two_pow_pos k
      have fits : 16 * 2 ^ k * 2 < 2 ^ 64 := by
        have bound : 2 ^ k ≤ 2 ^ 58 := Nat.pow_le_pow_right (by decide) (by omega)
        omega
      refine ⟨k + 1, by omega, ?_, by omega, fun j hj => ?_⟩
      · rw [collectCap, if_pos full, cap, mulSize_of_lt fits, Nat.pow_succ, Nat.mul_assoc]
      · have mono : 2 ^ j ≤ 2 ^ k := Nat.pow_le_pow_right (by decide) (by omega)
        omega
    · refine ⟨k, le, by rw [collectCap, if_neg full, cap], by omega, fun j hj => ?_⟩
      have less := least j hj
      omega

/-- The buffer is full just at the numbers 16·2^k. -/
theorem collectCap_full {n : Nat} (small : n ≤ 2 ^ 63) :
    n = collectCap n ↔ ∃ k, n = 16 * 2 ^ k := by
  obtain ⟨k, -, cap, enough, least⟩ := collectCap_spec n small
  rw [cap]
  constructor
  · exact fun full => ⟨k, full⟩
  · rintro ⟨j, rfl⟩
    by_contra apart
    have less : 2 ^ j < 2 ^ k := by omega
    exact lt_irrefl _ (least j ((Nat.pow_lt_pow_iff_right (by decide)).mp less))

theorem le_collectCap {n : Nat} (small : n ≤ 2 ^ 63) : n ≤ collectCap n := by
  obtain ⟨k, -, cap, enough, -⟩ := collectCap_spec n small
  omega

/-! ### The block -/

/-- The capacity is the one of the elements, and the buffer has the bytes for it. -/
structure Collecting.Sized (c : Collecting β) (elemSize : Nat) (m : Mem) : Prop where
  cap : c.cap = collectCap c.contents.length
  old : c.buf < m.requests
  size : m.blockSize c.buf = mulSize c.cap elemSize

theorem Collecting.Sized.later {c : Collecting β} {elemSize : Nat} (h : c.Sized elemSize m)
    (later : m.Later m') : c.Sized elemSize m' :=
  ⟨h.cap, h.old.trans_le later.requests_le, by rw [later.blockSize_eq h.old, h.size]⟩

theorem sized_start {elemSize buf : Nat} (ha : memAlloc m (mulSize 16 elemSize) = (some buf, m')) :
    (⟨buf, 16, [], false⟩ : Collecting β).Sized elemSize m' := by
  obtain ⟨more, here⟩ := memAlloc_requests ha
  have same := here buf rfl
  exact ⟨rfl, by simp only; omega, memAlloc_blockSize ha⟩

theorem collectBody_sized {elemSize : Nat} {x : β} {c c' : Collecting β} {go : Bool}
    (h : c.Sized elemSize m) (turn : collectBody elemSize x c m = (go, c', m')) :
    c'.Sized elemSize m' := by
  unfold collectBody at turn
  by_cases full : c.contents.length = c.cap
  · rw [if_pos full] at turn
    rcases hm : memRealloc m (some c.buf) (mulSize c.cap elemSize)
      (mulSize (mulSize c.cap 2) elemSize) with ⟨_ | grown, m₁⟩
    · simp only [hm] at turn
      cases turn
      have kept := h.later (memRealloc_later hm)
      exact ⟨kept.cap, kept.old, kept.size⟩
    · simp only [hm] at turn
      cases turn
      obtain ⟨more, here⟩ := memRealloc_requests hm
      have same := here grown rfl
      refine ⟨?_, by simp only; omega, memRealloc_blockSize hm⟩
      rw [List.length_append, List.length_singleton, collectCap, ← h.cap, if_pos full]
  · rw [if_neg full] at turn
    cases turn
    refine ⟨?_, h.old, h.size⟩
    rw [List.length_append, List.length_singleton, collectCap, ← h.cap, if_neg full]

/-- The memory in which `iter_collect` comes to the request that shrinks its buffer. -/
def BeforeShrink (fuel : Nat) (it : Option (IterT σ β)) (m m₁ : Mem) : Prop :=
  ∃ c, iterGather fuel it m = some (some c, m₁)

/-- The buffer has the size of the `n` elements, or has room and is shrunk to it. -/
def Shrinks (n elemSize : Nat) (m : Mem) : Prop :=
  mulSize (collectCap n) elemSize = mulSize n elemSize ∨
    n < collectCap n ∧ m.allocator.grants m.requests (mulSize n elemSize) = true

/-- Where no product wraps, the buffer need not be shrunk just if the number is a 16·2^k. -/
theorem shrinks_iff {n elemSize : Nat} (some_size : 0 < elemSize) (small : n ≤ 2 ^ 63)
    (fits : collectCap n * elemSize < 2 ^ 64) : Shrinks n elemSize m ↔
      (∃ k, n = 16 * 2 ^ k) ∨ m.allocator.grants m.requests (mulSize n elemSize) = true := by
  have enough := le_collectCap small
  have below : n * elemSize < 2 ^ 64 := (Nat.mul_le_mul_right elemSize enough).trans_lt fits
  have same : mulSize (collectCap n) elemSize = mulSize n elemSize ↔ n = collectCap n := by
    rw [mulSize_of_lt fits, mulSize_of_lt below, Nat.mul_left_inj some_size.ne', eq_comm]
  rw [Shrinks, same, collectCap_full small]
  constructor
  · exact Or.imp_right And.right
  · rintro (full | granted)
    · exact .inl full
    · by_cases room : n < collectCap n
      · exact .inr ⟨room, granted⟩
      · exact .inl ((collectCap_full small).mp (by omega))

/-- What becomes of the memory with a slice: nothing is left behind NULL, and a block behind
any other pointer, which its owner can give back just if the buffer was shrunk. -/
structure Leaves (owned : σ → Blocks) (fuel : Nat) (it : Option (IterT σ β)) (m : Mem)
    (slice : Slice β) (m' : Mem) : Prop where
  nothing : slice.ptr = none → slice.contents = [] ∧ m.Trades (iterBlocks owned it) m' 0
  block : ∀ p, slice.ptr = some p → m.Trades (iterBlocks owned it) m' {(p, m'.blockSize p)} ∧
    ∃ m₁, BeforeShrink fuel it m m₁ ∧
      (m'.blockSize p = mulSize slice.contents.length slice.elemSize ↔
        Shrinks slice.contents.length slice.elemSize m₁)

/-- The end of `iter_collect`: a full buffer is as large as it was, and another is shrunk if the
request is granted. -/
theorem collectResult_leaves {c : Collecting β} {elemSize : Nat} (sized : c.Sized elemSize m)
    {slice : Slice β} (result : collectResult elemSize c m = (slice, m')) :
    slice.elemSize = elemSize ∧
      (slice.ptr = none → slice.contents = [] ∧
        m.Trades {(c.buf, mulSize c.cap elemSize)} m' 0) ∧
      ∀ p, slice.ptr = some p →
        m.Trades {(c.buf, mulSize c.cap elemSize)} m' {(p, m'.blockSize p)} ∧
        (m'.blockSize p = mulSize slice.contents.length elemSize ↔
          Shrinks slice.contents.length elemSize m) := by
  unfold collectResult at result
  by_cases stop : c.failed ∨ c.contents.length = 0
  · rw [if_pos stop] at result
    cases result
    exact ⟨rfl, fun _ => ⟨rfl, memFree_trades m c.buf _⟩, by simp⟩
  · rw [if_neg stop] at result
    by_cases loose : c.contents.length < c.cap
    · rw [if_pos loose] at result
      have granted := memRealloc_isSome m (some c.buf) (mulSize c.cap elemSize)
        (mulSize c.contents.length elemSize)
      rcases hm : memRealloc m (some c.buf) (mulSize c.cap elemSize)
        (mulSize c.contents.length elemSize) with ⟨_ | tight, m₁⟩
      · simp only [hm, Option.isSome_none] at result granted
        cases result
        refine ⟨rfl, by simp, fun p hp => ?_⟩
        obtain rfl := Option.some.inj hp
        have size := (sized.later (memRealloc_later hm)).size
        refine ⟨by rw [size]; exact memRealloc_refused hm, ?_⟩
        rw [Shrinks, ← granted, size, sized.cap]
        simp
      · simp only [hm, Option.isSome_some] at result granted
        cases result
        refine ⟨rfl, by simp, fun p hp => ?_⟩
        obtain rfl := Option.some.inj hp
        have size := memRealloc_blockSize hm
        refine ⟨size ▸ memRealloc_trades hm, iff_of_true size (.inr ⟨?_, granted.symm⟩)⟩
        rwa [← sized.cap]
    · rw [if_neg loose] at result
      cases result
      refine ⟨rfl, by simp, fun p hp => ?_⟩
      obtain rfl := Option.some.inj hp
      refine ⟨sized.size ▸ .refl m _, ?_⟩
      rw [Shrinks, ← sized.cap, sized.size]
      simp [loose]

theorem iterCollect_leaves (custody : ∀ i ∈ it, i.InCustody owned) {fuel : Nat} {slice : Slice β}
    (run : iterCollect fuel it m = some (slice, m')) : Leaves owned fuel it m slice m' := by
  rw [iterCollect_eq] at run
  obtain ⟨⟨r, m₁⟩, gather, result⟩ := Option.map_eq_some_iff.mp run
  obtain ⟨sized, trades⟩ := iterGather_trades custody
    (I := fun c m => c.Sized (iterElemSize it) m) Collecting.Sized.later sized_start
    collectBody_sized gather
  cases r with
  | none =>
    cases result
    exact ⟨fun _ => ⟨rfl, trades⟩, by simp⟩
  | some c =>
    obtain ⟨size, nothing, block⟩ := collectResult_leaves (sized c rfl) result
    refine ⟨fun null => ?_, fun p hp => ?_⟩
    · obtain ⟨empty, freed⟩ := nothing null
      exact ⟨empty, trades.trans freed⟩
    · obtain ⟨kept, tight⟩ := block p hp
      exact ⟨trades.trans kept, m₁, ⟨c, gather⟩, by rwa [size]⟩

/-- The block of a slice has the size that its owner computes, just if the buffer was full or
was shrunk; and nothing is left behind NULL. -/
theorem collect_leaves_iff (custody : ∀ i ∈ it, i.InCustody owned)
    {qsort : (β → β → Int) → List β → List β} {cmp : β → β → Int}
    (sorts : ∀ xs, (qsort cmp xs).Perm xs) (fuel : Nat) :
    (∀ slice m', iterCollect fuel it m = some (slice, m') → Leaves owned fuel it m slice m') ∧
      ∀ slice m', iterSort qsort fuel it cmp m = some (slice, m') →
        Leaves owned fuel it m slice m' := by
  refine ⟨fun slice m' run => iterCollect_leaves custody run, fun slice m' run => ?_⟩
  unfold iterSort at run
  rcases collect : iterCollect fuel it m with _ | ⟨s, m₁⟩
  · simp [collect] at run
  · simp only [collect] at run
    cases run
    have leaves := iterCollect_leaves custody collect
    by_cases long : 1 < s.contents.length
    · rw [if_pos long]
      have length := (sorts s.contents).length_eq
      refine ⟨fun null => ?_, fun p hp => ?_⟩
      · obtain ⟨empty, -⟩ := leaves.nothing null
        simp [empty] at long
      · simpa only [length] using leaves.block p hp
    · rw [if_neg long]
      exact leaves

/-- An iterator over the numbers below `n`, with a state block. -/
def belowIter (addr n : Nat) : IterT Nat Nat where
  next _ s m := some (if s < n then (some s, s + 1, m) else (none, s, m))
  destroy _ m := memFree m (some addr) 16
  state := 0
  elemSize := 4

theorem belowIter_custody (addr n : Nat) :
    ∀ i ∈ some (belowIter addr n), i.InCustody fun _ => {(addr, 16)} := by
  intro i hi
  obtain rfl := Option.some.inj hi
  refine ⟨fun _ => True, trivial, fun {_ s x s' m m'} _ call => ⟨trivial, ?_⟩,
    fun _ m => memFree_trades m addr 16⟩
  obtain rfl : m = m' := by
    have same := Option.some.inj call
    split at same <;> exact (Prod.mk.inj (Prod.mk.inj same).2).2
  exact .refl _ _

/-- The buffer grows for the last of 17 elements and is shrunk to 68 bytes. -/
theorem collect_leaves_iff_below : ∃ m',
    iterCollect 18 (some (belowIter 0 17)) (memAlloc (.start .generous) 16).2 =
      some (⟨some 3, List.range 17, 4⟩, m') ∧ m'.blockSize 3 = 68 ∧
    Leaves (fun _ => {(0, 16)}) 18 (some (belowIter 0 17)) (memAlloc (.start .generous) 16).2
      ⟨some 3, List.range 17, 4⟩ m' := by
  have both := @collect_leaves_iff _ _ (memAlloc (.start .generous) 16).2 _ _
    (belowIter_custody 0 17) (fun cmp xs => xs.mergeSort fun a b => decide (cmp a b ≤ 0))
    (fun a b => a - b) (fun xs => xs.mergeSort_perm _) 18
  exact ⟨_, rfl, by decide, both.1 _ _ rfl⟩

/-- An iterator over one element. -/
def singleIter : IterT Bool Nat where
  next _ s m := some (if s then some 7 else none, false, m)
  destroy _ m := m
  state := true
  elemSize := 4

/-- The request that shrinks the buffer is refused, and the slice has a block of 64 bytes for
an element of 4. -/
theorem collect_loose : ∃ m', iterCollect 2 (some singleIter) (.start (refusingOnce 1)) =
    some (⟨some 0, [7], 4⟩, m') ∧ m'.blockSize 0 = 64 ∧ m'.blockSize 0 ≠ mulSize [7].length 4 :=
  ⟨_, rfl, by decide, by decide⟩

end Seqc
