import Seqc.Vec
import Seqc.Lib.Iteration

/-! `iter_t` as the code that consumes it sees it, and the consumers: `iter_collect`
of iter.c, `vec_extend` of vec.c and the loop they share. `none` as the outcome of a
call means that the bound on the depth of the calls was too small. -/

namespace Seqc
open Iteration

/-- `iter_t`: its functions, its state and its element size. -/
structure IterT (σ : Type*) (β : Type) where
  next : Nat → σ → Mem → Option (Option β × σ × Mem)
  destroy : σ → Mem → Mem
  state : σ
  elemSize : Nat

variable {σ : Type*} {β α : Type}

/-- The zero `iter_t`, a failed iterator, is `none`. -/
def iterIsValid (it : Option (IterT σ β)) : Bool := it.isSome

def iterElemSize : Option (IterT σ β) → Nat
  | none => 0
  | some it => it.elemSize

def iterDestroy (it : Option (IterT σ β)) (m : Mem) : Mem :=
  match it with
  | none => m
  | some it => it.destroy it.state m

/-- `while (iter_next(&it, elem)) body`. -/
def iterWhile (fuel : Nat) (it : Option (IterT σ β)) (body : β → α → Mem → Bool × α × Mem) (a : α)
    (m : Mem) : Option (α × Option (IterT σ β) × Mem) :=
  match it with
  | none => some (a, none, m)
  | some it =>
    match whileNext it.next body fuel it.state a m with
    | none => none
    | some (a, s, m) => some (a, some { it with state := s }, m)

/-- `SEQC_SCRATCH_MAX`. -/
def scratchMax : Nat := 512

/-- The scratch buffer: `some none` is the one on the stack. -/
def scratchAcquire (elemSize : Nat) (m : Mem) : Option (Option Nat) × Mem :=
  if elemSize ≤ scratchMax then (some none, m)
  else
    match memAlloc m elemSize with
    | (none, m) => (none, m)
    | (some addr, m) => (some (some addr), m)

def scratchRelease (tmp : Option Nat) (size : Nat) (m : Mem) : Mem :=
  match tmp with
  | none => m
  | some addr => memFree m (some addr) size

/-! ### `iter_collect` -/

/-- The locals of `iter_collect`; `failed` is set when it leaves its loop for a failed
growth. -/
structure Collecting (β : Type) where
  buf : Nat
  cap : Nat
  contents : List β
  failed : Bool

def collectBody (elemSize : Nat) (x : β) (c : Collecting β) (m : Mem) :
    Bool × Collecting β × Mem :=
  if c.contents.length = c.cap then
    let newCap := mulSize c.cap 2
    match memRealloc m (some c.buf) (mulSize c.cap elemSize) (mulSize newCap elemSize) with
    | (none, m) => (false, { c with failed := true }, m)
    | (some grown, m) =>
      (true, { c with buf := grown, cap := newCap, contents := c.contents ++ [x] }, m)
  else (true, { c with contents := c.contents ++ [x] }, m)

/-- What `iter_collect` returns after its loop. -/
def collectResult (elemSize : Nat) (c : Collecting β) (m : Mem) : Slice β × Mem :=
  if c.failed ∨ c.contents.length = 0 then
    (⟨none, [], elemSize⟩, memFree m (some c.buf) (mulSize c.cap elemSize))
  else if c.contents.length < c.cap then
    match memRealloc m (some c.buf) (mulSize c.cap elemSize)
      (mulSize c.contents.length elemSize) with
    | (none, m) => (⟨some c.buf, c.contents, elemSize⟩, m)
    | (some tight, m) => (⟨some tight, c.contents, elemSize⟩, m)
  else (⟨some c.buf, c.contents, elemSize⟩, m)

/-- The array has the elements as they are copied: one that points into a buffer of the iterator,
which is destroyed here, is not what it pointed at any more. -/
def iterCollect (fuel : Nat) (it : Option (IterT σ β)) (m : Mem) : Option (Slice β × Mem) :=
  let elemSize := iterElemSize it
  let cap := 16
  match memAlloc m (mulSize cap elemSize) with
  | (none, m) => some (⟨none, [], elemSize⟩, iterDestroy it m)
  | (some buf, m) =>
    match scratchAcquire elemSize m with
    | (none, m) =>
      some (⟨none, [], elemSize⟩, memFree (iterDestroy it m) (some buf) (mulSize cap elemSize))
    | (some tmp, m) =>
      match iterWhile fuel it (collectBody elemSize) ⟨buf, cap, [], false⟩ m with
      | none => none
      | some (c, it, m) =>
        some (collectResult elemSize c (scratchRelease tmp elemSize (iterDestroy it m)))

/-! ### `vec_extend` -/

def extendBody (x : β) (a : Status × Option (Vec β)) (m : Mem) :
    Bool × (Status × Option (Vec β)) × Mem :=
  match vecPush a.2 (some x) m with
  | (st, v, m) => (st = .ok, (st, v), m)

def vecExtend (fuel : Nat) (v : Option (Vec β)) (it : Option (IterT σ β)) (m : Mem) :
    Option (Status × Option (Vec β) × Mem) :=
  if v.isNone ∨ ¬iterIsValid it ∨ iterElemSize it ≠ vecElemSize v then
    some (.invalid, v, iterDestroy it m)
  else
    match memAlloc m (vecElemSize v) with
    | (none, m) => some (.oom, v, iterDestroy it m)
    | (some elem, m) =>
      match iterWhile fuel it extendBody (.ok, v) m with
      | none => none
      | some ((st, v), it, m) =>
        some (st, v, memFree (iterDestroy it m) (some elem) (vecElemSize v))

/-! ### What the bodies do -/

/-- The elements are appended, or the growth was refused. -/
theorem collectBody_spec (elemSize : Nat) (x : β) (c : Collecting β) (m : Mem) :
    (∃ buf cap m', collectBody elemSize x c m =
        (true, ⟨buf, cap, c.contents ++ [x], c.failed⟩, m') ∧ m'.refusals = m.refusals) ∨
      ∃ m', collectBody elemSize x c m = (false, { c with failed := true }, m') ∧
        m'.refusals = m.refusals + 1 := by
  unfold collectBody
  by_cases full : c.contents.length = c.cap
  · rw [if_pos full]
    match hm : memRealloc m (some c.buf) (mulSize c.cap elemSize)
      (mulSize (mulSize c.cap 2) elemSize) with
    | (none, m₁) => exact .inr ⟨m₁, by simp only [hm], memRealloc_none hm⟩
    | (some grown, m₁) =>
      exact .inl ⟨grown, mulSize c.cap 2, m₁, by simp only [hm], (memRealloc_some hm).2.2⟩
  · rw [if_neg full]
    exact .inl ⟨c.buf, c.cap, m, rfl, rfl⟩

theorem collectResult_contents (elemSize : Nat) (c : Collecting β) (m : Mem) :
    (collectResult elemSize c m).1.contents = if c.failed then [] else c.contents := by
  unfold collectResult
  by_cases stop : c.failed ∨ c.contents.length = 0
  · rw [if_pos stop]
    cases hf : c.failed with
    | true => rfl
    | false =>
      have empty := stop.resolve_left (by simp [hf])
      simp [List.length_eq_zero_iff.mp empty]
  · obtain ⟨running, -⟩ := not_or.mp stop
    rw [if_neg stop, if_neg running]
    by_cases loose : c.contents.length < c.cap
    · rw [if_pos loose]
      match memRealloc m (some c.buf) (mulSize c.cap elemSize)
        (mulSize c.contents.length elemSize) with
      | (none, _) => rfl
      | (some _, _) => rfl
    · rw [if_neg loose]

/-- Nothing is returned as NULL. -/
theorem collectResult_ptr (elemSize : Nat) (c : Collecting β) (m : Mem)
    (nothing : (collectResult elemSize c m).1.contents = []) :
    (collectResult elemSize c m).1.ptr = none := by
  have contents := collectResult_contents elemSize c m
  by_cases stop : c.failed ∨ c.contents.length = 0
  · rw [collectResult, if_pos stop]
  · obtain ⟨running, some⟩ := not_or.mp stop
    rw [nothing, if_neg running] at contents
    simp [← contents] at some

theorem collectResult_refusals (elemSize : Nat) (c : Collecting β) (m : Mem) :
    m.refusals ≤ (collectResult elemSize c m).2.refusals := by
  unfold collectResult
  by_cases stop : c.failed ∨ c.contents.length = 0
  · rw [if_pos stop, memFree_refusals]
  · rw [if_neg stop]
    by_cases loose : c.contents.length < c.cap
    · rw [if_pos loose]
      match hm : memRealloc m (some c.buf) (mulSize c.cap elemSize)
        (mulSize c.contents.length elemSize) with
      | (none, _) =>
        have refused := memRealloc_none hm
        simp only
        omega
      | (some _, _) => exact (memRealloc_some hm).2.2.ge
    · rw [if_neg loose]

@[simp] theorem scratchRelease_refusals (tmp : Option Nat) (size : Nat) (m : Mem) :
    (scratchRelease tmp size m).refusals = m.refusals := by
  cases tmp with
  | none => rfl
  | some addr => exact memFree_refusals m _ size

theorem scratchAcquire_spec (elemSize : Nat) (m : Mem) :
    (∃ tmp m', scratchAcquire elemSize m = (some tmp, m') ∧ m'.refusals = m.refusals) ∨
      ∃ m', scratchAcquire elemSize m = (none, m') ∧ m'.refusals = m.refusals + 1 := by
  unfold scratchAcquire
  by_cases small : elemSize ≤ scratchMax
  · rw [if_pos small]
    exact .inl ⟨none, m, rfl, rfl⟩
  · rw [if_neg small]
    match hm : memAlloc m elemSize with
    | (none, m₁) => exact .inr ⟨m₁, rfl, memAlloc_none hm⟩
    | (some addr, m₁) => exact .inl ⟨some addr, m₁, rfl, (memAlloc_some hm).2.2⟩

/-- The loop of a consumer, for every bound from some on. -/
theorem iterWhile_spec {it : IterT σ β} {E : σ → Prop} {xs : List β} {A : Set (List β)}
    (mono : Mono it.next) (body : β → α → Mem → Bool × α × Mem) {J : List β → α → Prop}
    (keep : ∀ done x a m go a' m', J done a → body x a m = (go, a', m') →
      m.refusals ≤ m'.refusals ∧ (go = true → J (done ++ [x]) a'))
    (h : Delivers it.next Mem.refusals E it.state xs A) (a : α) (m : Mem) (start : J [] a) :
    ∃ n a' s m', (∀ fuel, n ≤ fuel →
        iterWhile fuel (some it) body a m = some (a', some { it with state := s }, m')) ∧
      m.refusals ≤ m'.refusals ∧
      ((∃ zs ∈ A, J zs a' ∧ (m'.refusals = m.refusals → zs = xs)) ∨
        ∃ zs x a₁ m₁, J zs a₁ ∧ body x a₁ m₁ = (false, a', m') ∧ m.refusals ≤ m₁.refusals) := by
  obtain ⟨n, a', s, m', run, grows, outcome⟩ := h.while mono body keep [] a m start
  refine ⟨n, a', s, m', fun fuel le => ?_, grows, ?_⟩
  · simp only [iterWhile, whileNext_le mono run le]
  · cases outcome with
    | inl all => exact .inl (by simpa using all)
    | inr left =>
      obtain ⟨zs, x, a₁, m₁, kept, hb, more, -⟩ := left
      exact .inr ⟨zs, x, a₁, m₁, by simpa using kept, hb, more⟩

/-- If nothing is refused, `iter_collect` returns what the iterator delivers. -/
theorem iterCollect_spec {it : IterT σ β} {E : σ → Prop} {xs : List β} {A : Set (List β)}
    (mono : Mono it.next) (quiet : ∀ s m, (it.destroy s m).refusals = m.refusals)
    (h : Delivers it.next Mem.refusals E it.state xs A) (m : Mem) :
    ∃ n, ∀ fuel, n ≤ fuel → ∃ slice m', iterCollect fuel (some it) m = some (slice, m') ∧
      (m'.refusals = m.refusals → slice.contents = xs) := by
  match hm : memAlloc m (mulSize 16 it.elemSize) with
  | (none, m₁) =>
    have refused := memAlloc_none hm
    refine ⟨0, fun fuel _ => ⟨⟨none, [], it.elemSize⟩, it.destroy it.state m₁, ?_, fun same => ?_⟩⟩
    · simp only [iterCollect, iterElemSize, hm, iterDestroy]
    · rw [quiet] at same
      omega
  | (some buf, m₁) =>
    have granted := (memAlloc_some hm).2.2
    cases scratchAcquire_spec it.elemSize m₁ with
    | inr failed =>
      obtain ⟨m₂, scratch, refused⟩ := failed
      refine ⟨0, fun fuel _ => ⟨⟨none, [], it.elemSize⟩,
        memFree (it.destroy it.state m₂) (some buf) (mulSize 16 it.elemSize), ?_, fun same => ?_⟩⟩
      · simp only [iterCollect, iterElemSize, hm, scratch, iterDestroy]
      · rw [memFree_refusals, quiet] at same
        omega
    | inl ready =>
      obtain ⟨tmp, m₂, scratch, calm⟩ := ready
      obtain ⟨n, c, s, m₃, run, grows, outcome⟩ := iterWhile_spec mono
        (collectBody it.elemSize) (J := fun done c => c.contents = done ∧ c.failed = false)
        (fun done x c m go c' m' kept hb => by
          cases collectBody_spec it.elemSize x c m with
          | inl pushed =>
            obtain ⟨buf, cap, m₁, run, quiet⟩ := pushed
            obtain ⟨rfl, rfl, rfl⟩ := by simpa using run.symm.trans hb
            exact ⟨quiet.ge, fun _ => ⟨by rw [kept.1], kept.2⟩⟩
          | inr failed =>
            obtain ⟨m₁, run, refused⟩ := failed
            obtain ⟨rfl, rfl, rfl⟩ := by simpa using run.symm.trans hb
            exact ⟨by omega, by simp⟩)
        h ⟨buf, 16, [], false⟩ m₂ ⟨rfl, rfl⟩
      refine ⟨n, fun fuel le => ?_⟩
      have later := collectResult_refusals it.elemSize c
        (scratchRelease tmp it.elemSize (it.destroy s m₃))
      have contents := collectResult_contents it.elemSize c
        (scratchRelease tmp it.elemSize (it.destroy s m₃))
      obtain ⟨slice, m₄, result⟩ : ∃ slice m₄, collectResult it.elemSize c
          (scratchRelease tmp it.elemSize (it.destroy s m₃)) = (slice, m₄) := ⟨_, _, rfl⟩
      rw [scratchRelease_refusals, quiet, result] at later
      rw [result] at contents
      simp only at later contents
      refine ⟨slice, m₄, ?_, fun same => ?_⟩
      · simp only [iterCollect, iterElemSize, hm, scratch, run fuel le, iterDestroy, result]
      · rw [contents]
        cases outcome with
        | inl all =>
          obtain ⟨zs, -, kept, whole⟩ := all
          rw [kept.2, kept.1]
          exact whole (by omega)
        | inr left =>
          obtain ⟨zs, x, c₁, m₄, kept, hb, more⟩ := left
          cases collectBody_spec it.elemSize x c₁ m₄ with
          | inl pushed =>
            obtain ⟨_, _, _, run, -⟩ := pushed
            simp [run] at hb
          | inr failed =>
            obtain ⟨m₅, run, refused⟩ := failed
            obtain ⟨-, rfl⟩ := by simpa using run.symm.trans hb
            omega

/-! ### Reading an iterator to its end -/

/-- The values of `iter_next` up to its first false, and then `iter_destroy`. -/
def iterItems (fuel : Nat) (it : Option (IterT σ β)) (m : Mem) : Option (Option (List β) × Mem) :=
  match it with
  | none => some (none, m)
  | some it =>
    match whileNext it.next (fun x xs m => (true, xs ++ [x], m)) fuel it.state [] m with
    | none => none
    | some (xs, s, m) => some (some xs, it.destroy s m)

/-- An iterator that goes over positions and requests nothing. -/
theorem whileNext_cursor {next : Nat → σ → Mem → Option (Option β × σ × Mem)} {xs : List β}
    {state : Nat → σ}
    (item : ∀ i x fuel m, xs[i]? = some x → next fuel (state i) m = some (some x, state (i + 1), m))
    (last : ∀ fuel m, next fuel (state xs.length) m = some (none, state xs.length, m)) (m : Mem) :
    ∀ (left i : Nat), left + i = xs.length →
      whileNext next (fun x xs m => (true, xs ++ [x], m)) (left + 1) (state i) (xs.take i) m =
        some (xs, state xs.length, m) := by
  intro left
  induction left with
  | zero =>
    intro i h
    obtain rfl : i = xs.length := by omega
    rw [whileNext, last, List.take_length]
  | succ left ih =>
    intro i h
    have inside : i < xs.length := by omega
    rw [whileNext, item i xs[i] _ m (List.getElem?_eq_getElem inside)]
    simp only [← List.take_succ_eq_append_getElem inside]
    exact ih (i + 1) (by omega)

theorem iterItems_cursor {it : IterT σ β} {xs : List β} (state : Nat → σ)
    (item : ∀ i x fuel m, xs[i]? = some x →
      it.next fuel (state i) m = some (some x, state (i + 1), m))
    (last : ∀ fuel m, it.next fuel (state xs.length) m = some (none, state xs.length, m))
    (start : it.state = state 0) (m : Mem) :
    iterItems (xs.length + 1) (some it) m =
      some (some xs, it.destroy (state xs.length) m) := by
  have all := whileNext_cursor item last m xs.length 0 rfl
  rw [List.take_zero] at all
  simp only [iterItems, start, all]

/-- An iterator whose one request is the block of its state. -/
theorem iterItems_made {size calls : Nat} {ys : List β} (make : Nat → IterT σ β)
    (yields : ∀ addr m, iterItems calls (some (make addr)) m =
      some (some ys, memFree m (some addr) size)) (m : Mem) :
    (∃ addr m₁ m', memAlloc m size = (some addr, m₁) ∧
        iterItems calls (some (make addr)) m₁ = some (some ys, m') ∧ m'.refusals = m.refusals) ∨
      ∃ m', memAlloc m size = (none, m') ∧ m.refusals < m'.refusals := by
  match hm : memAlloc m size with
  | (none, m₁) =>
    have refused := memAlloc_none hm
    exact .inr ⟨m₁, rfl, by omega⟩
  | (some addr, m₁) =>
    refine .inl ⟨addr, m₁, memFree m₁ (some addr) size, rfl, yields addr m₁, ?_⟩
    rw [memFree_refusals]
    exact (memAlloc_some hm).2.2

end Seqc
