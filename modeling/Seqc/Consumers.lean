import Seqc.VecRun
import Seqc.Str

/-! The consumers of an iterator: the terminals of iter.c, `string_join`, `seqc_extend` of
collection.c and the extend functions that do not call it. Each destroys its iterator and
gives back what it requests, up to the buffer it returns. -/

namespace Seqc
open Iteration

variable {σ : Type*} {α β γ : Type} {m m₁ m' : Mem} {it : Option (IterT σ β)} {owned : σ → Blocks}

/-! ### Terminals -/

/-- The terminals that need a scratch buffer only; `refused` is what they return without it. -/
def scratchLoop (fuel : Nat) (it : Option (IterT σ β)) (body : β → α → Mem → Bool × α × Mem)
    (refused start : α) (m : Mem) : Option (α × Mem) :=
  match scratchAcquire (iterElemSize it) m with
  | (none, m) => some (refused, iterDestroy it m)
  | (some tmp, m) =>
    match iterWhile fuel it body start m with
    | none => none
    | some (a, it', m) => some (a, scratchRelease tmp (iterElemSize it) (iterDestroy it' m))

def iterCount (fuel : Nat) (it : Option (IterT σ β)) (m : Mem) : Option (Nat × Mem) :=
  scratchLoop fuel it (fun _ n m => (true, addSize n 1, m)) 0 0 m

/-- `visit` keeps what it sees in its context. -/
def iterForeach (fuel : Nat) (it : Option (IterT σ β)) (visit : β → γ → γ) (ctx : γ) (m : Mem) :
    Option (γ × Mem) :=
  scratchLoop fuel it (fun x ctx m => (true, visit x ctx, m)) ctx ctx m

def iterReduce (fuel : Nat) (it : Option (IterT σ β)) (acc : γ) (combine : γ → β → γ) (m : Mem) :
    Option (γ × Mem) :=
  scratchLoop fuel it (fun x acc m => (true, combine acc x, m)) acc acc m

/-- Returns what it writes to `out`; true if that is anything. -/
def iterFind (fuel : Nat) (it : Option (IterT σ β)) (pred : β → Bool) (m : Mem) :
    Option (Option β × Mem) :=
  scratchLoop fuel it (fun x found m => if pred x then (false, some x, m) else (true, found, m))
    none none m

def iterAny (fuel : Nat) (it : Option (IterT σ β)) (pred : β → Bool) (m : Mem) :
    Option (Bool × Mem) :=
  scratchLoop fuel it (fun x found m => if pred x then (false, true, m) else (true, found, m))
    false false m

/-- A failed iterator is not vacuously all. -/
def iterAll (fuel : Nat) (it : Option (IterT σ β)) (pred : β → Bool) (m : Mem) :
    Option (Bool × Mem) :=
  if iterIsValid it then
    scratchLoop fuel it (fun x all m => if pred x then (true, all, m) else (false, false, m))
      false true m
  else some (false, m)

/-- `scratch_release` of a buffer that may not have been acquired: NULL is freed. -/
def scratchDrop (tmp : Option (Option Nat)) (size : Nat) (m : Mem) : Mem :=
  match tmp with
  | none => memFree m none size
  | some tmp => scratchRelease tmp size m

/-- `iter_min` and `iter_max`, which differ in when an element is the better one. -/
def iterBest (better : β → β → Bool) (fuel : Nat) (it : Option (IterT σ β)) (m : Mem) :
    Option (Option β × Mem) :=
  let size := iterElemSize it
  let take (x : β) : Option β → β
    | none => x
    | some best => if better x best then x else best
  match scratchAcquire size m with
  | (best, m) =>
    match best, scratchAcquire size m with
    | some best, (some cur, m) =>
      match iterWhile fuel it (fun x found m => (true, some (take x found), m)) none m with
      | none => none
      | some (found, it', m) =>
        some (found, scratchRelease cur size (scratchRelease best size (iterDestroy it' m)))
    | best, (cur, m) => some (none, scratchDrop cur size (scratchDrop best size (iterDestroy it m)))

def iterMin (fuel : Nat) (it : Option (IterT σ β)) (cmp : β → β → Int) (m : Mem) :
    Option (Option β × Mem) :=
  iterBest (fun cur best => decide (cmp cur best < 0)) fuel it m

def iterMax (fuel : Nat) (it : Option (IterT σ β)) (cmp : β → β → Int) (m : Mem) :
    Option (Option β × Mem) :=
  iterBest (fun cur best => decide (0 < cmp cur best)) fuel it m

/-- `iter_collect` up to the release of its scratch buffer: the locals that are left, or none
if it has given up before its loop. -/
def iterGather (fuel : Nat) (it : Option (IterT σ β)) (m : Mem) :
    Option (Option (Collecting β) × Mem) :=
  let elemSize := iterElemSize it
  match memAlloc m (mulSize 16 elemSize) with
  | (none, m) => some (none, iterDestroy it m)
  | (some buf, m) =>
    match scratchAcquire elemSize m with
    | (none, m) => some (none, memFree (iterDestroy it m) (some buf) (mulSize 16 elemSize))
    | (some tmp, m) =>
      match iterWhile fuel it (collectBody elemSize) ⟨buf, 16, [], false⟩ m with
      | none => none
      | some (c, it, m) => some (some c, scratchRelease tmp elemSize (iterDestroy it m))

/-- What `iter_collect` returns with these locals. -/
def gathered (elemSize : Nat) : Option (Collecting β) × Mem → Slice β × Mem
  | (none, m) => (⟨none, [], elemSize⟩, m)
  | (some c, m) => collectResult elemSize c m

theorem iterCollect_eq (fuel : Nat) (it : Option (IterT σ β)) (m : Mem) :
    iterCollect fuel it m = (iterGather fuel it m).map (gathered (iterElemSize it)) := by
  simp only [iterCollect, iterGather]
  rcases memAlloc m (mulSize 16 (iterElemSize it)) with ⟨_ | buf, m₁⟩
  · rfl
  · rcases hs : scratchAcquire (iterElemSize it) m₁ with ⟨_ | tmp, m₂⟩
    · simp only [hs]
      rfl
    · simp only [hs]
      cases iterWhile fuel it (collectBody (iterElemSize it)) ⟨buf, 16, [], false⟩ m₂ <;> rfl

/-- `qsort` may order equal elements as it likes. -/
def iterSort (qsort : (β → β → Int) → List β → List β) (fuel : Nat) (it : Option (IterT σ β))
    (cmp : β → β → Int) (m : Mem) : Option (Slice β × Mem) :=
  match iterCollect fuel it m with
  | none => none
  | some (s, m) =>
    some (if 1 < s.contents.length then { s with contents := qsort cmp s.contents } else s, m)

/-! ### Collections -/

/-- A collection with its add function. It keeps to the protocol of the allocator with the
blocks it owns while `Holds`; one that has an allocator of its own owns none. -/
structure Collection (γ β : Type) where
  add : γ → β → Mem → Status × γ × Mem
  owned : γ → Blocks
  Holds : γ → Mem → Prop
  lasts : ∀ {c m m'}, Holds c m → m.Later m' → Holds c m'
  adds : ∀ {c x m st c' m'}, Holds c m → add c x m = (st, c', m') →
    Holds c' m' ∧ m.Trades (owned c) m' (owned c')

/-- A collection with an allocator of its own. -/
def Collection.apart (add : γ → β → Status × γ) : Collection γ β where
  add c x m := ((add c x).1, (add c x).2, m)
  owned _ := 0
  Holds _ _ := True
  lasts _ _ := trivial
  adds _ same := by
    obtain ⟨-, -, rfl⟩ := same
    exact ⟨trivial, .refl _ 0⟩

/-- A vector, as stack.c and pqueue.c have it. -/
def vecCollection (β : Type) : Collection (Option (Vec β)) β where
  add v x m := vecPush v (some x) m
  owned := vecBlocks
  Holds v m := ∀ w ∈ v, w.Sound m
  lasts holds later w hw := (holds w hw).later later.requests_le
  adds holds push := ⟨(vecPush_accounted holds push).sound, (vecPush_accounted holds push).trades⟩

def Collection.blocks (coll : Collection γ β) (c : Option γ) : Blocks := c.elim 0 coll.owned

/-- A turn of the loops: an error stops it, and so does a duplicate, where that is one. -/
def Collection.body (coll : Collection γ β) (duplicates : Bool) (x : β) (a : Status × γ) (m : Mem) :
    Bool × (Status × γ) × Mem :=
  match coll.add a.2 x m with
  | (st, c, m) =>
    if st = .ok ∨ duplicates = true ∧ st = .duplicate then (true, (.ok, c), m)
    else (false, (st, c), m)

/-- `seqc_extend` and `set_extend`; list.c, dlist.c, queue.c, stack.c, pqueue.c, ringbuf.c,
bstree.c and avl.c check for NULL before they call it. -/
def seqcExtend (coll : Collection γ β) (elemSize fuel : Nat) (c : Option γ)
    (it : Option (IterT σ β)) (m : Mem) : Option (Status × Option γ × Mem) :=
  match c with
  | none => some (.invalid, c, iterDestroy it m)
  | some c =>
    if ¬iterIsValid it ∨ iterElemSize it ≠ elemSize then
      some (.invalid, some c, iterDestroy it m)
    else
      match memAlloc m elemSize with
      | (none, m) => some (.oom, some c, iterDestroy it m)
      | (some elem, m) =>
        match iterWhile fuel it (coll.body true) (.ok, c) m with
        | none => none
        | some ((st, c), it, m) =>
          some (st, some c, memFree (iterDestroy it m) (some elem) elemSize)

/-- `hashmap_extend` and `omap_extend`, over entries that point at keys and values. -/
def entryExtend (coll : Collection γ β) (elemSize fuel : Nat) (c : Option γ)
    (it : Option (IterT σ β)) (m : Mem) : Option (Status × Option γ × Mem) :=
  match c with
  | none => some (.invalid, c, iterDestroy it m)
  | some c =>
    if ¬iterIsValid it ∨ iterElemSize it ≠ elemSize then
      some (.invalid, some c, iterDestroy it m)
    else
      match iterWhile fuel it (coll.body false) (.ok, c) m with
      | none => none
      | some ((st, c), it, m) => some (st, some c, iterDestroy it m)

/-! ### Custody -/

/-- The block of a scratch buffer, if it was acquired and is not the one on the stack. -/
def scratchBlocks (tmp : Option (Option Nat)) (size : Nat) : Blocks :=
  tmp.elim 0 fun tmp => bufferBlocks tmp size

theorem scratchAcquire_trades {size : Nat} {tmp : Option (Option Nat)}
    (h : scratchAcquire size m = (tmp, m')) : m.Trades 0 m' (scratchBlocks tmp size) := by
  unfold scratchAcquire at h
  by_cases small : size ≤ scratchMax
  · rw [if_pos small] at h
    cases h
    exact .refl m 0
  · rw [if_neg small] at h
    rcases ha : memAlloc m size with ⟨_ | addr, m₁⟩
    · rw [ha] at h
      cases h
      exact memAlloc_refused ha
    · rw [ha] at h
      cases h
      exact memAlloc_trades ha

theorem scratchRelease_trades (tmp : Option Nat) (size : Nat) (m : Mem) :
    m.Trades (bufferBlocks tmp size) (scratchRelease tmp size m) 0 := by
  cases tmp with
  | none => exact .refl m 0
  | some addr => exact memFree_trades m addr size

theorem scratchDrop_trades (tmp : Option (Option Nat)) (size : Nat) (m : Mem) :
    m.Trades (scratchBlocks tmp size) (scratchDrop tmp size m) 0 := by
  cases tmp with
  | none => exact ⟨Mem.Later.refl.free _ _, _, rfl, fun _ => rfl⟩
  | some tmp => exact scratchRelease_trades tmp size m

theorem collectResult_trades (elemSize : Nat) (c : Collecting β) (m : Mem) :
    ∃ size, m.Trades {(c.buf, mulSize c.cap elemSize)} (collectResult elemSize c m).2
      (bufferBlocks (collectResult elemSize c m).1.ptr size) := by
  unfold collectResult
  by_cases stop : c.failed ∨ c.contents.length = 0
  · rw [if_pos stop]
    exact ⟨0, memFree_trades m c.buf _⟩
  · rw [if_neg stop]
    by_cases loose : c.contents.length < c.cap
    · rw [if_pos loose]
      rcases hm : memRealloc m (some c.buf) (mulSize c.cap elemSize)
        (mulSize c.contents.length elemSize) with ⟨_ | tight, m₁⟩
      · exact ⟨_, memRealloc_refused hm⟩
      · exact ⟨_, memRealloc_trades hm⟩
    · rw [if_neg loose]
      exact ⟨_, .refl m _⟩

theorem collectBody_trades {elemSize : Nat} {x : β} {c c' : Collecting β} {go : Bool}
    (turn : collectBody elemSize x c m = (go, c', m')) :
    m.Trades {(c.buf, mulSize c.cap elemSize)} m' {(c'.buf, mulSize c'.cap elemSize)} := by
  unfold collectBody at turn
  by_cases full : c.contents.length = c.cap
  · rw [if_pos full] at turn
    rcases hm : memRealloc m (some c.buf) (mulSize c.cap elemSize)
      (mulSize (mulSize c.cap 2) elemSize) with ⟨_ | grown, m₁⟩
    · simp only [hm] at turn
      cases turn
      exact memRealloc_refused hm
    · simp only [hm] at turn
      cases turn
      exact memRealloc_trades hm
  · rw [if_neg full] at turn
    cases turn
    exact .refl m _

section Custody
variable (custody : ∀ i ∈ it, i.InCustody owned) {fuel : Nat}
include custody

/-- The iterator is destroyed and a block it was read into is given back. -/
theorem iterDestroy_release (tmp : Option Nat) (size : Nat) (m : Mem) :
    m.Trades (bufferBlocks tmp size + iterBlocks owned it)
      (scratchRelease tmp size (iterDestroy it m)) 0 :=
  ((iterDestroy_trades custody m).within (bufferBlocks tmp size) (add_comm _ _)
    (zero_add _).symm).trans (scratchRelease_trades tmp size _)

/-- A loop whose body requests nothing. -/
theorem iterWhile_quiet {body : β → α → Mem → Bool × α × Mem} (quiet : ∀ x a m, (body x a m).2.2 = m)
    {a a' : α} {it' : Option (IterT σ β)} (run : iterWhile fuel it body a m = some (a', it', m')) :
    (∀ i ∈ it', i.InCustody owned) ∧ m.Trades (iterBlocks owned it) m' (iterBlocks owned it') := by
  obtain ⟨-, custody', trades⟩ := iterWhile_trades custody (H := fun _ => 0)
    (I := fun _ _ => True) (fun _ _ => trivial) (fun {x a m go a' m'} _ turn => by
      have same := quiet x a m
      rw [turn] at same
      obtain rfl : m' = m := same
      exact ⟨trivial, .refl _ 0⟩) trivial run
  simp only [zero_add] at trades
  exact ⟨custody', trades⟩

theorem scratchLoop_trades {body : β → α → Mem → Bool × α × Mem} {refused start a : α}
    (quiet : ∀ x a m, (body x a m).2.2 = m)
    (run : scratchLoop fuel it body refused start m = some (a, m')) :
    m.Trades (iterBlocks owned it) m' 0 := by
  unfold scratchLoop at run
  rcases scratch : scratchAcquire (iterElemSize it) m with ⟨_ | tmp, m₁⟩
  · rw [scratch] at run
    cases run
    exact ((scratchAcquire_trades scratch).within _ (zero_add _).symm (zero_add _).symm).trans
      (iterDestroy_trades custody m₁)
  · simp only [scratch] at run
    rcases loop : iterWhile fuel it body start m₁ with _ | ⟨b, it', m₂⟩
    · simp [loop] at run
    · simp only [loop] at run
      cases run
      obtain ⟨custody', trades⟩ := iterWhile_quiet custody quiet loop
      have acquired := (scratchAcquire_trades scratch).within (iterBlocks owned it)
        (zero_add _).symm rfl
      exact (acquired.trans (trades.within _ (add_comm _ _) (add_comm _ _))).trans
        (iterDestroy_release custody' tmp _ m₂)

theorem iterFind_trades {pred : β → Bool} {found : Option β}
    (run : iterFind fuel it pred m = some (found, m')) : m.Trades (iterBlocks owned it) m' 0 := by
  refine scratchLoop_trades custody (fun x a m => ?_) run
  cases pred x <;> rfl

theorem iterAny_trades {pred : β → Bool} {found : Bool}
    (run : iterAny fuel it pred m = some (found, m')) : m.Trades (iterBlocks owned it) m' 0 := by
  refine scratchLoop_trades custody (fun x a m => ?_) run
  cases pred x <;> rfl

theorem iterAll_trades {pred : β → Bool} {all : Bool}
    (run : iterAll fuel it pred m = some (all, m')) : m.Trades (iterBlocks owned it) m' 0 := by
  unfold iterAll at run
  cases it with
  | none =>
    cases run
    exact .refl m 0
  | some it =>
    refine scratchLoop_trades custody (fun x a m => ?_) run
    cases pred x <;> rfl

/-- The loop of `iter_min` and `iter_max` and what it leaves. -/
theorem iterBest_trades {better : β → β → Bool} {found : Option β}
    (run : iterBest better fuel it m = some (found, m')) :
    m.Trades (iterBlocks owned it) m' 0 := by
  have close (best cur : Option (Option Nat)) (size : Nat) (m : Mem) :
      m.Trades (scratchBlocks best size + scratchBlocks cur size)
        (scratchDrop cur size (scratchDrop best size m)) 0 :=
    ((scratchDrop_trades best size m).within (scratchBlocks cur size) rfl (zero_add _).symm).trans
      (scratchDrop_trades cur size _)
  rcases first : scratchAcquire (iterElemSize it) m with ⟨best, m₁⟩
  rcases second : scratchAcquire (iterElemSize it) m₁ with ⟨cur, m₂⟩
  have buffers : m.Trades (iterBlocks owned it) m₂
      (scratchBlocks best (iterElemSize it) + scratchBlocks cur (iterElemSize it) +
        iterBlocks owned it) :=
    ((scratchAcquire_trades first).trans ((scratchAcquire_trades second).within
      (scratchBlocks best (iterElemSize it)) (zero_add _).symm (add_comm _ _))).within
        (iterBlocks owned it) (zero_add _).symm rfl
  have stop (it' : Option (IterT σ β)) (custody' : ∀ i ∈ it', i.InCustody owned) (m : Mem) :
      m.Trades (scratchBlocks best (iterElemSize it) + scratchBlocks cur (iterElemSize it) +
          iterBlocks owned it')
        (scratchDrop cur (iterElemSize it) (scratchDrop best (iterElemSize it)
          (iterDestroy it' m))) 0 :=
    ((iterDestroy_trades custody' m).within _ (add_comm _ _) (zero_add _).symm).trans
      (close best cur _ _)
  unfold iterBest at run
  simp only [first, second] at run
  cases best with
  | none =>
    cases run
    exact buffers.trans (stop it custody m₂)
  | some best =>
    cases cur with
    | none =>
      cases run
      exact buffers.trans (stop it custody m₂)
    | some cur =>
      simp only at run
      split at run
      · simp at run
      · rename_i found' it' m₃ loop
        cases run
        obtain ⟨custody', trades⟩ := iterWhile_quiet custody (fun _ _ _ => rfl) loop
        exact (buffers.trans (trades.within _ (add_comm _ _) (add_comm _ _))).trans
          (stop it' custody' m₃)

/-- What `iter_collect` holds before it returns is its buffer. `I` may be said of its locals,
as long as it lasts. -/
theorem iterGather_trades {r : Option (Collecting β)} {I : Collecting β → Mem → Prop}
    (lasts : ∀ {c m m'}, I c m → m.Later m' → I c m')
    (start : ∀ {buf} {m m' : Mem}, memAlloc m (mulSize 16 (iterElemSize it)) = (some buf, m') →
      I ⟨buf, 16, [], false⟩ m')
    (keep : ∀ {x c m go c' m'}, I c m → collectBody (iterElemSize it) x c m = (go, c', m') →
      I c' m')
    (run : iterGather fuel it m = some (r, m')) : (∀ c ∈ r, I c m') ∧
      m.Trades (iterBlocks owned it) m'
        (r.elim 0 fun c => {(c.buf, mulSize c.cap (iterElemSize it))}) := by
  unfold iterGather at run
  rcases ha : memAlloc m (mulSize 16 (iterElemSize it)) with ⟨_ | buf, m₁⟩
  · simp only [ha] at run
    cases run
    exact ⟨by simp, ((memAlloc_refused ha).within _ (zero_add _).symm (zero_add _).symm).trans
      (iterDestroy_trades custody m₁)⟩
  · have buffer := (memAlloc_trades ha).within (iterBlocks owned it) (zero_add _).symm rfl
    rcases scratch : scratchAcquire (iterElemSize it) m₁ with ⟨_ | tmp, m₂⟩
    · simp only [ha, scratch] at run
      cases run
      have refused := (scratchAcquire_trades scratch).within
        ({(buf, mulSize 16 (iterElemSize it))} + iterBlocks owned it)
        (zero_add _).symm (zero_add _).symm
      have dropped := (iterDestroy_trades custody m₂).within {(buf, mulSize 16 (iterElemSize it))}
        (add_comm _ _) (zero_add _).symm
      exact ⟨by simp, ((buffer.trans refused).trans dropped).trans (memFree_trades _ buf _)⟩
    · simp only [ha, scratch] at run
      rcases loop : iterWhile fuel it (collectBody (iterElemSize it)) ⟨buf, 16, [], false⟩ m₂ with
        _ | ⟨c, it', m₃⟩
      · simp [loop] at run
      · simp only [loop] at run
        cases run
        have acquired := scratchAcquire_trades scratch
        obtain ⟨kept, custody', trades⟩ := iterWhile_trades custody
          (H := fun c => {(c.buf, mulSize c.cap (iterElemSize it))}) (I := I) lasts
          (fun now turn => ⟨keep now turn, collectBody_trades turn⟩)
          (lasts (start ha) acquired.later) loop
        have got := acquired.within
          ({(buf, mulSize 16 (iterElemSize it))} + iterBlocks owned it) (zero_add _).symm rfl
        have ran := (buffer.trans got).trans (trades.within (bufferBlocks tmp (iterElemSize it))
          (add_comm _ _) rfl)
        have closed := iterDestroy_release custody' tmp (iterElemSize it) m₃
        refine ⟨fun d hd => Option.some.inj hd ▸ lasts kept closed.later, ran.trans
          (closed.within {(c.buf, mulSize c.cap (iterElemSize it))} ?_ (zero_add _).symm)⟩
        abel

/-- `iter_collect` leaves nothing but the buffer of its slice, whose block may be larger
than the slice. -/
theorem iterCollect_trades {slice : Slice β} (run : iterCollect fuel it m = some (slice, m')) :
    ∃ size, m.Trades (iterBlocks owned it) m' (bufferBlocks slice.ptr size) := by
  rw [iterCollect_eq] at run
  obtain ⟨⟨r, m₁⟩, gather, result⟩ := Option.map_eq_some_iff.mp run
  obtain ⟨-, trades⟩ := iterGather_trades custody (I := fun _ _ => True) (fun _ _ => trivial)
    (fun _ => trivial) (fun _ _ => trivial) gather
  cases r with
  | none =>
    cases result
    exact ⟨0, trades⟩
  | some c =>
    obtain ⟨size, finish⟩ := collectResult_trades (iterElemSize it) c m₁
    rw [show collectResult (iterElemSize it) c m₁ = (slice, m') from result] at finish
    exact ⟨size, trades.trans finish⟩

theorem iterSort_trades {qsort : (β → β → Int) → List β → List β} {cmp : β → β → Int}
    {slice : Slice β} (run : iterSort qsort fuel it cmp m = some (slice, m')) :
    ∃ size, m.Trades (iterBlocks owned it) m' (bufferBlocks slice.ptr size) := by
  unfold iterSort at run
  rcases collect : iterCollect fuel it m with _ | ⟨s, m₁⟩
  · simp [collect] at run
  · simp only [collect] at run
    cases run
    have trades := iterCollect_trades custody collect
    by_cases long : 1 < s.contents.length
    · simpa only [if_pos long] using trades
    · simpa only [if_neg long] using trades

/-! ### Extending a collection -/

variable {coll : Collection γ β} {c c' : Option γ} {elemSize : Nat} {st : Status}

/-- The loop of the extend functions. -/
theorem Collection.loop_trades {dup : Bool} {c : γ} (holds : coll.Holds c m) {a : Status × γ}
    {it' : Option (IterT σ β)}
    (loop : iterWhile fuel it (coll.body dup) (.ok, c) m = some (a, it', m')) :
    coll.Holds a.2 m' ∧ (∀ i ∈ it', i.InCustody owned) ∧
      m.Trades (coll.owned c + iterBlocks owned it) m' (coll.owned a.2 + iterBlocks owned it') := by
  refine iterWhile_trades custody (H := fun a => coll.owned a.2) (I := fun a m => coll.Holds a.2 m)
    coll.lasts ?_ holds loop
  intro x a m go a' m' h turn
  rcases added : coll.add a.2 x m with ⟨st, c₁, m₁⟩
  have done := coll.adds h added
  unfold Collection.body at turn
  rw [added] at turn
  by_cases fine : st = .ok ∨ dup = true ∧ st = .duplicate
  · simp only [if_pos fine] at turn
    cases turn
    exact done
  · simp only [if_neg fine] at turn
    cases turn
    exact done

/-- The iterator of a collection that is not extended is destroyed. -/
theorem Collection.drop_trades (holds : ∀ d ∈ c, coll.Holds d m) :
    (∀ d ∈ c, coll.Holds d (iterDestroy it m)) ∧
      m.Trades (coll.blocks c + iterBlocks owned it) (iterDestroy it m) (coll.blocks c) := by
  have trades := (iterDestroy_trades custody m).within (coll.blocks c) (add_comm _ _)
    (zero_add _).symm
  exact ⟨fun d hd => coll.lasts (holds d hd) trades.later, trades⟩

theorem seqcExtend_trades (holds : ∀ d ∈ c, coll.Holds d m)
    (run : seqcExtend coll elemSize fuel c it m = some (st, c', m')) :
    (∀ d ∈ c', coll.Holds d m') ∧
      m.Trades (coll.blocks c + iterBlocks owned it) m' (coll.blocks c') := by
  cases c with
  | none =>
    cases run
    exact Collection.drop_trades custody holds
  | some c =>
    simp only [seqcExtend] at run
    by_cases bad : ¬iterIsValid it ∨ iterElemSize it ≠ elemSize
    · rw [if_pos bad] at run
      cases run
      exact Collection.drop_trades custody holds
    · rw [if_neg bad] at run
      rcases ha : memAlloc m elemSize with ⟨_ | elem, m₁⟩
      · simp only [ha] at run
        cases run
        have refused := memAlloc_refused ha
        obtain ⟨still, trades⟩ := Collection.drop_trades custody (c := some c)
          fun d hd => coll.lasts (holds d hd) refused.later
        exact ⟨still, (refused.within _ (zero_add _).symm (zero_add _).symm).trans trades⟩
      · simp only [ha] at run
        rcases loop : iterWhile fuel it (coll.body true) (.ok, c) m₁ with _ | ⟨⟨st₁, c₁⟩, it', m₂⟩
        · simp [loop] at run
        · simp only [loop] at run
          cases run
          have buffer := memAlloc_trades ha
          obtain ⟨holds', custody', trades⟩ := Collection.loop_trades custody
            (coll.lasts (holds c rfl) buffer.later) loop
          have dropped := (iterDestroy_trades custody' m₂).within
            (coll.owned c₁ + {(elem, elemSize)}) rfl (zero_add _).symm
          have freed := (memFree_trades (iterDestroy it' m₂) elem elemSize).within
            (coll.owned c₁) (add_comm _ _) (zero_add _).symm
          have closed := dropped.trans freed
          refine ⟨fun d hd => ?_, ?_⟩
          · obtain rfl := Option.some.inj hd
            exact coll.lasts holds' closed.later
          · refine ((buffer.within (coll.owned c + iterBlocks owned it) (zero_add _).symm rfl).trans
              (trades.within {(elem, elemSize)} (add_comm _ _) rfl)).trans
                (closed.within 0 ?_ (add_zero _).symm)
            abel

theorem entryExtend_trades (holds : ∀ d ∈ c, coll.Holds d m)
    (run : entryExtend coll elemSize fuel c it m = some (st, c', m')) :
    (∀ d ∈ c', coll.Holds d m') ∧
      m.Trades (coll.blocks c + iterBlocks owned it) m' (coll.blocks c') := by
  cases c with
  | none =>
    cases run
    exact Collection.drop_trades custody holds
  | some c =>
    simp only [entryExtend] at run
    by_cases bad : ¬iterIsValid it ∨ iterElemSize it ≠ elemSize
    · rw [if_pos bad] at run
      cases run
      exact Collection.drop_trades custody holds
    · rw [if_neg bad] at run
      rcases loop : iterWhile fuel it (coll.body false) (.ok, c) m with _ | ⟨⟨st₁, c₁⟩, it', m₁⟩
      · simp [loop] at run
      · simp only [loop] at run
        cases run
        obtain ⟨holds', custody', trades⟩ := Collection.loop_trades custody (holds c rfl) loop
        obtain ⟨still, dropped⟩ := Collection.drop_trades custody' (c := some c₁)
          fun d hd => Option.some.inj hd ▸ holds'
        exact ⟨still, trades.trans dropped⟩

end Custody

/-! ### `string_join` -/

/-- What a builder owns. -/
def strbufBlocks (sb : Strbuf) : Blocks := {(sb.addr, sizeofStrbuf)} + vecBlocks (some sb.chars)

/-- A step of the builder keeps to the protocol. -/
structure Builds (sb : Strbuf) (m : Mem) (sb' : Strbuf) (m' : Mem) : Prop where
  trades : m.Trades (strbufBlocks sb) m' (strbufBlocks sb')
  sound : sb'.chars.Sound m'

section Builder
variable {sb sb' sb₁ : Strbuf} {st : Status}

theorem Builds.refl (sound : sb.chars.Sound m) : Builds sb m sb m := ⟨.refl m _, sound⟩

theorem Builds.trans (h : Builds sb m sb₁ m₁) (h' : Builds sb₁ m₁ sb' m') : Builds sb m sb' m' :=
  ⟨h.trades.trans h'.trades, h'.sound⟩

theorem strbufCreate_trades {r : Option Strbuf} (create : strbufCreate m = (r, m')) :
    m.Trades 0 m' (r.elim 0 strbufBlocks) ∧ ∀ sb ∈ r, sb.chars.Sound m' := by
  unfold strbufCreate at create
  rcases ha : memAlloc m sizeofStrbuf with ⟨_ | addr, m₁⟩
  · simp only [ha] at create
    cases create
    exact ⟨memAlloc_refused ha, by simp⟩
  · have state := memAlloc_trades ha
    simp only [ha] at create
    split at create
    · rename_i m₂ made
      cases create
      obtain ⟨trades, -⟩ := vecStart_accounted (show vecStart UInt8 1 none m₁ = _ from made)
      exact ⟨(state.trans (trades.within {(addr, sizeofStrbuf)} (zero_add _).symm
        (zero_add _).symm)).trans (memFree_trades m₂ addr _), by simp⟩
    · rename_i chars m₂ made
      cases create
      obtain ⟨trades, sound⟩ := vecStart_accounted (show vecStart UInt8 1 none m₁ = _ from made)
      refine ⟨state.trans (trades.within {(addr, sizeofStrbuf)} (zero_add _).symm (add_comm _ _)),
        fun sb hsb => ?_⟩
      obtain rfl := Option.some.inj hsb
      exact sound chars rfl

theorem strbufPush_trades (sound : sb.chars.Sound m) {b : UInt8}
    (push : strbufPush sb b m = (st, sb', m')) : Builds sb m sb' m' := by
  unfold strbufPush at push
  split at push
  · rename_i rs chars m₁ pushed
    cases push
    have kept := vecPush_accounted (v := some sb.chars) (by simpa using sound) pushed
    exact ⟨kept.trades.within _ (add_comm _ _) (add_comm _ _), kept.sound chars rfl⟩
  · rename_i rs m₁ pushed
    obtain ⟨_, _, _, run, -⟩ := vecPush_byteVec sb.bounded b m
    simp [pushed] at run

theorem strbufAppendBytes_trades {bs : List UInt8} (sound : sb.chars.Sound m)
    (append : strbufAppendBytes sb m bs = (st, sb', m')) : Builds sb m sb' m' := by
  induction bs generalizing sb m with
  | nil =>
    cases append
    exact .refl sound
  | cons b bs ih =>
    rcases push : strbufPush sb b m with ⟨rs, sb₁, m₁⟩
    have first := strbufPush_trades sound push
    cases rs with
    | ok => exact first.trans (ih first.sound (by simpa only [strbufAppendBytes, push] using append))
    | _ =>
      simp only [strbufAppendBytes, push] at append
      cases append
      exact first

theorem joinBody_trades {sep token : Str} {j j' : Joining} {go : Bool} (sound : j.sb.chars.Sound m)
    (turn : joinBody sep token j m = (go, j', m')) : Builds j.sb m j'.sb m' := by
  have appended {sb sb' : Strbuf} {m m' : Mem} {st : Status} {s : Str} (sound : sb.chars.Sound m)
      (append : strbufAppend sb s m = (st, sb', m')) : Builds sb m sb' m' :=
    strbufAppendBytes_trades sound append
  rcases first : (if j.first then (j.status, j.sb, m) else strbufAppend j.sb sep m)
    with ⟨st, sb₁, m₁⟩
  have separated : Builds j.sb m sb₁ m₁ := by
    cases hf : j.first with
    | true =>
      simp only [hf, if_true] at first
      cases first
      exact .refl sound
    | false => exact appended sound (by simpa [hf] using first)
  simp only [joinBody, first] at turn
  by_cases fine : st = .ok
  · rcases second : strbufAppend sb₁ token m₁ with ⟨st₂, sb₂, m₂⟩
    simp only [if_pos fine, second] at turn
    cases turn
    exact separated.trans (appended separated.sound second)
  · simp only [if_neg fine] at turn
    cases turn
    exact separated

theorem strbufDestroy_trades (sb : Strbuf) (m : Mem) :
    m.Trades (strbufBlocks sb) (strbufDestroy sb m) 0 :=
  ((vecDestroy_trades m).within {(sb.addr, sizeofStrbuf)} (add_comm _ _) (zero_add _).symm).trans
    (memFree_trades _ sb.addr sizeofStrbuf)

theorem stringCopy_trades {s r : Str} (copy : stringCopy s m = (r, m')) :
    m.Trades 0 m' (bufferBlocks r.ptr r.len) := by
  unfold stringCopy at copy
  by_cases empty : s.ptr = none ∨ s.len = 0
  · rw [if_pos empty] at copy
    cases copy
    exact .refl m 0
  · rw [if_neg empty] at copy
    rcases ha : memAlloc m s.len with ⟨_ | buf, m₁⟩
    · simp only [ha] at copy
      cases copy
      exact memAlloc_refused ha
    · simp only [ha] at copy
      cases copy
      exact memAlloc_trades ha

/-- `string_join` leaves nothing but the block of its string. -/
theorem stringJoin_trades {it : Option (IterT σ Str)} (custody : ∀ i ∈ it, i.InCustody owned)
    {fuel : Nat} {sep r : Str} (run : stringJoin fuel it sep m = some (r, m')) :
    m.Trades (iterBlocks owned it) m' (bufferBlocks r.ptr r.len) := by
  unfold stringJoin at run
  rcases create : (if iterIsValid it then strbufCreate m else (none, m)) with ⟨_ | sb, m₁⟩
  · have refused : m.Trades 0 m₁ 0 := by
      by_cases valid : iterIsValid it
      · exact (strbufCreate_trades (by simpa only [if_pos valid] using create)).1
      · rw [if_neg valid] at create
        cases create
        exact .refl m 0
    simp only [create] at run
    cases run
    exact (refused.within _ (zero_add _).symm (zero_add _).symm).trans
      (iterDestroy_trades custody m₁)
  · have valid : iterIsValid it = true := by
      by_contra invalid
      simp [invalid] at create
    rw [if_pos valid] at create
    obtain ⟨created, sound⟩ := strbufCreate_trades create
    simp only [if_pos valid, create] at run
    rcases loop : iterWhile fuel it (joinBody sep) ⟨.ok, true, sb⟩ m₁ with _ | ⟨j, it', m₂⟩
    · simp [loop] at run
    · obtain ⟨-, custody', trades⟩ := iterWhile_trades custody (H := fun j => strbufBlocks j.sb)
        (I := fun j m => j.sb.chars.Sound m) (fun h later => h.later later.requests_le)
        (fun h turn => ⟨(joinBody_trades h turn).sound, (joinBody_trades h turn).trades⟩)
        (sound sb rfl) loop
      have dropped := (iterDestroy_trades custody' m₂).within (strbufBlocks j.sb) (add_comm _ _)
        (zero_add _).symm
      have ran := ((created.within (iterBlocks owned it) (zero_add _).symm rfl).trans trades).trans
        dropped
      have finish {r : Str} {m' : Mem} (copied : (iterDestroy it' m₂).Trades 0 m'
          (bufferBlocks r.ptr r.len)) :
          m.Trades (iterBlocks owned it) (strbufDestroy j.sb m') (bufferBlocks r.ptr r.len) :=
        (ran.trans (copied.within (strbufBlocks j.sb) (zero_add _).symm (add_comm _ _))).trans
          ((strbufDestroy_trades j.sb m').within (bufferBlocks r.ptr r.len) rfl (zero_add _).symm)
      simp only [loop] at run
      by_cases fine : j.status = .ok
      · rcases copy : strbufToString j.sb (iterDestroy it' m₂) with ⟨s, m₃⟩
        simp only [if_pos fine, copy] at run
        cases run
        exact finish (stringCopy_trades copy)
      · simp only [if_neg fine] at run
        cases run
        exact finish (.refl _ 0)

end Builder

end Seqc
