import Seqc.Ringbuf
import Seqc.Lib.Runs
import Mathlib.Data.List.Induction

/-! Runs of the operations of ringbuf.c from `ringbuf_create`, with requests refused at
arbitrary points, against a double-ended list. -/

namespace Seqc
open Circular Runs

variable {α : Type} {r : Ringbuf α} {xs : List α} {k : Nat}

/-- The state of a ring buffer that holds `xs`. The last field says that the buffer has
the bytes of `cap` elements, unless already the first request wraps. -/
structure RingbufInv (r : Ringbuf α) (xs : List α) : Prop where
  holds : Holds r.slots r.cap r.head xs
  len_eq : r.len = xs.length
  shape : (r.cap = 0 ∧ r.head = 0) ∨ ∃ k ≤ 63, r.cap = 2 ^ k ∧ r.head < 2 ^ k
  bytes : ringbufInitialCap * r.elemSize < 2 ^ 64 → r.cap * r.elemSize ≤ ptrdiffMax

theorem mask_eq (hk : k ≤ 63) (a : Nat) : a &&& subSize (2 ^ k) 1 = a % 2 ^ k := by
  have pos := Nat.two_pow_pos k
  have small : 2 ^ k < 2 ^ 64 := Nat.pow_lt_pow_right (by omega) (by omega)
  rw [subSize_of_le pos small]
  exact Nat.and_two_pow_sub_one_eq_mod a k

theorem mask_sum (hk : k ≤ 63) (a b : Nat) :
    addSize a b &&& subSize (2 ^ k) 1 = (a + b) % 2 ^ k := by
  rw [mask_eq hk, addSize]
  exact Nat.mod_mod_of_dvd _ (Nat.pow_dvd_pow 2 (by omega))

theorem RingbufInv.cap_pos (inv : RingbufInv r xs) (h : 0 < r.cap) :
    ∃ k ≤ 63, r.cap = 2 ^ k ∧ r.head < 2 ^ k := by
  cases inv.shape with
  | inl fresh => omega
  | inr table => exact table

theorem RingbufInv.cap_le (inv : RingbufInv r xs) : r.cap ≤ 2 ^ 63 := by
  cases inv.shape with
  | inl fresh => omega
  | inr table =>
    obtain ⟨k, hk, cap_eq, -⟩ := table
    rw [cap_eq]
    exact pow_le_half hk

theorem rbSlot_eq (hk : k ≤ 63) (cap_eq : r.cap = 2 ^ k) (i : Nat) :
    rbSlot r i = (r.head + i) % r.cap := by
  rw [rbSlot, cap_eq, mask_sum hk]

/-! ### Growth -/

theorem memcpySlots_inside (dst src : Nat → Option α) {dstAt srcAt n i : Nat}
    (h : dstAt ≤ i ∧ i < dstAt + n) :
    memcpySlots dst dstAt src srcAt n i = src (srcAt + (i - dstAt)) :=
  if_pos h

theorem memcpySlots_outside (dst src : Nat → Option α) {dstAt srcAt n i : Nat}
    (h : ¬(dstAt ≤ i ∧ i < dstAt + n)) : memcpySlots dst dstAt src srcAt n i = dst i := if_neg h

/-- The contiguous segment, or the two of a wrapped buffer, one behind the other. -/
theorem rbLinearise_item (inv : RingbufInv r xs) (i : Nat) (x : α) (hx : xs[i]? = some x) :
    rbLinearise r i = some x := by
  have inside : i < r.len := by
    rw [inv.len_eq]
    exact (List.getElem?_eq_some_iff.mp hx).1
  have fits := inv.holds.fits
  have len_eq := inv.len_eq
  obtain ⟨k, hk, cap_eq, head_lt⟩ := inv.cap_pos (by omega)
  have cap_le := pow_le_half hk
  have item := inv.holds.item i x hx
  have tail : addSize r.head r.len = r.head + r.len := addSize_of_lt (by omega)
  simp only [rbLinearise, if_pos (by omega : 0 < r.len), tail]
  by_cases contiguous : r.head + r.len ≤ r.cap
  · rw [if_pos contiguous, memcpySlots_inside _ _ (by omega), Nat.sub_zero, ← item,
      Nat.mod_eq_of_lt (by omega)]
  · have first : subSize r.cap r.head = r.cap - r.head := subSize_of_le (by omega) (by omega)
    have second : subSize r.len (r.cap - r.head) = r.len - (r.cap - r.head) :=
      subSize_of_le (by omega) (by omega)
    rw [if_neg contiguous, first, second]
    by_cases before : i < r.cap - r.head
    · rw [memcpySlots_outside _ _ (by omega), memcpySlots_inside _ _ (by omega), Nat.sub_zero,
        ← item, Nat.mod_eq_of_lt (by omega)]
    · rw [memcpySlots_inside _ _ (by omega), ← item, Nat.mod_eq_sub_mod (by omega),
        Nat.mod_eq_of_lt (by omega)]
      congr 1
      omega

theorem rbGrow_spec (inv : RingbufInv r xs) (m : Mem) :
    (∃ r' m', rbGrow r m = (.ok, r', m') ∧ RingbufInv r' xs ∧ r.cap < r'.cap ∧
        m'.refusals = m.refusals) ∨
      ∃ m', rbGrow r m = (.oom, r, m') ∧
        (m.refusals < m'.refusals ∨ m.refusals = m'.refusals ∧ sizeMax / 2 < r.cap) := by
  unfold rbGrow
  by_cases huge : sizeMax / 2 < r.cap
  · rw [if_pos huge]
    exact .inr ⟨m, rfl, .inr ⟨rfl, huge⟩⟩
  · rw [if_neg huge]
    simp only
    match hm : memAlloc m
      (mulSize (if r.cap = 0 then ringbufInitialCap else mulSize r.cap 2) r.elemSize) with
    | (none, m₁) =>
      have refused := memAlloc_none hm
      exact .inr ⟨m₁, rfl, .inl (by omega)⟩
    | (some nd, m₁) =>
      obtain ⟨-, granted, quiet⟩ := memAlloc_some hm
      have shape : r.cap = 0 ∨ ∃ k ≤ 63, r.cap = 2 ^ k := by
        refine inv.shape.imp And.left ?_
        rintro ⟨k, hk, cap_eq, -⟩
        exact ⟨k, hk, cap_eq⟩
      obtain ⟨k, hk, newCap, more⟩ :=
        newCap_eq (show ringbufInitialCap = 2 ^ 3 from rfl) (by omega) shape huge
      refine .inl ⟨_, _, rfl, ?_, newCap ▸ more, ?_⟩
      · constructor
        · have fits := inv.holds.fits
          have fits' : xs.length ≤ 2 ^ k := by omega
          exact holds_linear (newCap ▸ fits') (rbLinearise_item inv)
        · exact inv.len_eq
        · exact .inr ⟨k, hk, newCap, Nat.two_pow_pos k⟩
        · exact fun room => newCap_bytes huge (inv.bytes room) room granted
      · cases r.data with
        | none => exact quiet
        | some data =>
          simp only [memFree_refusals]
          exact quiet

theorem rbRoom_spec (inv : RingbufInv r xs) (m : Mem) :
    (∃ r' m', rbRoom r m = (.ok, r', m') ∧ RingbufInv r' xs ∧ xs.length < r'.cap ∧
        m'.refusals = m.refusals) ∨
      ∃ m', rbRoom r m = (.oom, r, m') ∧
        (m.refusals < m'.refusals ∨ m.refusals = m'.refusals ∧ sizeMax / 2 < xs.length) := by
  have fits := inv.holds.fits
  have len_eq := inv.len_eq
  unfold rbRoom
  by_cases full : r.len = r.cap
  · rw [if_pos full]
    cases rbGrow_spec inv m with
    | inl grown =>
      obtain ⟨r', m', run, inv', more, quiet⟩ := grown
      exact .inl ⟨r', m', run, inv', by omega, quiet⟩
    | inr refused =>
      obtain ⟨m', run, why⟩ := refused
      exact .inr ⟨m', run, by omega⟩
  · rw [if_neg full]
    exact .inl ⟨r, m, rfl, inv, by omega, rfl⟩

/-! ### One operation -/

theorem ringbufPushBack_spec (inv : RingbufInv r xs) (x : α) (m : Mem) :
    (∃ r' m', ringbufPushBack (some r) (some x) m = some (.ok, some r', m') ∧
        RingbufInv r' (xs ++ [x]) ∧ m'.refusals = m.refusals) ∨
      ∃ m', ringbufPushBack (some r) (some x) m = some (.oom, some r, m') ∧
        (m.refusals < m'.refusals ∨ m.refusals = m'.refusals ∧ sizeMax / 2 < xs.length) := by
  cases rbRoom_spec inv m with
  | inr refused =>
    obtain ⟨m', run, why⟩ := refused
    exact .inr ⟨m', by simp [ringbufPushBack, run], why⟩
  | inl roomy =>
    obtain ⟨r', m', run, inv', room, quiet⟩ := roomy
    obtain ⟨k, hk, cap_eq, head_lt⟩ := inv'.cap_pos (by omega)
    have slot := rbSlot_eq hk cap_eq r'.len
    have inside : rbSlot r' r'.len < r'.cap := by
      rw [slot]
      exact Nat.mod_lt _ (by omega)
    have cap_le := inv'.cap_le
    refine .inl ⟨{ r' with
      slots := Function.update r'.slots (rbSlot r' r'.len) (some x)
      len := addSize r'.len 1 }, m', by simp [ringbufPushBack, run, rbWrite, inside], ?_, quiet⟩
    constructor
    · rw [slot, inv'.len_eq]
      exact inv'.holds.snoc room x
    · rw [List.length_append, List.length_singleton, ← inv'.len_eq]
      exact addSize_of_lt (by rw [inv'.len_eq]; omega)
    · exact .inr ⟨k, hk, cap_eq, head_lt⟩
    · exact inv'.bytes

theorem ringbufPushFront_spec (inv : RingbufInv r xs) (x : α) (m : Mem) :
    (∃ r' m', ringbufPushFront (some r) (some x) m = some (.ok, some r', m') ∧
        RingbufInv r' (x :: xs) ∧ m'.refusals = m.refusals) ∨
      ∃ m', ringbufPushFront (some r) (some x) m = some (.oom, some r, m') ∧
        (m.refusals < m'.refusals ∨ m.refusals = m'.refusals ∧ sizeMax / 2 < xs.length) := by
  cases rbRoom_spec inv m with
  | inr refused =>
    obtain ⟨m', run, why⟩ := refused
    exact .inr ⟨m', by simp [ringbufPushFront, run], why⟩
  | inl roomy =>
    obtain ⟨r', m', run, inv', room, quiet⟩ := roomy
    obtain ⟨k, hk, cap_eq, head_lt⟩ := inv'.cap_pos (by omega)
    have cap_le := inv'.cap_le
    have sum : addSize r'.head r'.cap = r'.head + r'.cap := addSize_of_lt (by omega)
    have back : subSize (addSize r'.head r'.cap) 1 &&& subSize r'.cap 1 =
        (r'.head + r'.cap - 1) % r'.cap := by
      rw [sum, subSize_of_le (by omega) (by omega), cap_eq, mask_eq hk]
    have inside : (r'.head + r'.cap - 1) % r'.cap < r'.cap := Nat.mod_lt _ (by omega)
    refine .inl ⟨{ r' with
      slots := Function.update r'.slots ((r'.head + r'.cap - 1) % r'.cap) (some x)
      head := (r'.head + r'.cap - 1) % r'.cap
      len := addSize r'.len 1 }, m',
      by simp [ringbufPushFront, run, rbWrite, back, inside], ?_, quiet⟩
    constructor
    · exact inv'.holds.cons room x
    · rw [List.length_cons, ← inv'.len_eq]
      exact addSize_of_lt (by rw [inv'.len_eq]; omega)
    · exact .inr ⟨k, hk, cap_eq, cap_eq ▸ inside⟩
    · exact inv'.bytes

theorem RingbufInv.front_slot {x : α} (inv : RingbufInv r (x :: xs)) :
    r.slots r.head = some x := by
  have fits := inv.holds.fits
  rw [List.length_cons] at fits
  obtain ⟨k, hk, cap_eq, head_lt⟩ := inv.cap_pos (by omega)
  have first := inv.holds.first
  rwa [Nat.mod_eq_of_lt (by omega)] at first

theorem ringbufPopFront_spec {x : α} (inv : RingbufInv r (x :: xs)) (out : Bool) :
    ∃ r', ringbufPopFront (some r) out = some (seqcCopyOut (some x) out, some r') ∧
      RingbufInv r' xs := by
  have len_eq := inv.len_eq
  have fits := inv.holds.fits
  rw [List.length_cons] at len_eq fits
  obtain ⟨k, hk, cap_eq, head_lt⟩ := inv.cap_pos (by omega)
  have read := copyOutSlot_eq (some r.head) out (congrArg (Option.map some) inv.front_slot)
  refine ⟨{ r with head := addSize r.head 1 &&& subSize r.cap 1, len := r.len - 1 },
    by simp [ringbufPopFront, read, len_eq], ?_⟩
  have head_eq : addSize r.head 1 &&& subSize r.cap 1 = (r.head + 1) % r.cap := by
    rw [cap_eq, mask_sum hk]
  have head_lt' : addSize r.head 1 &&& subSize r.cap 1 < 2 ^ k := by
    rw [head_eq, cap_eq]
    exact Nat.mod_lt _ (Nat.two_pow_pos k)
  constructor
  · simp only [head_eq]
    exact inv.holds.rest
  · simp only [len_eq, Nat.add_sub_cancel]
  · exact .inr ⟨k, hk, cap_eq, head_lt'⟩
  · exact inv.bytes

theorem RingbufInv.slot_item (inv : RingbufInv r xs) {i : Nat} {x : α} (hx : xs[i]? = some x) :
    r.slots (rbSlot r i) = some x := by
  have inside := (List.getElem?_eq_some_iff.mp hx).1
  have fits := inv.holds.fits
  obtain ⟨k, hk, cap_eq, -⟩ := inv.cap_pos (by omega)
  rw [rbSlot_eq hk cap_eq]
  exact inv.holds.item i x hx

theorem ringbufPopBack_spec {x : α} (inv : RingbufInv r (xs ++ [x])) (out : Bool) :
    ∃ r', ringbufPopBack (some r) out = some (seqcCopyOut (some x) out, some r') ∧
      RingbufInv r' xs := by
  have len_eq := inv.len_eq
  rw [List.length_append, List.length_singleton] at len_eq
  have last : r.slots (rbSlot r xs.length) = some x := inv.slot_item (by simp)
  have read := copyOutSlot_eq (some (rbSlot r xs.length)) out
    (congrArg (Option.map some) last)
  refine ⟨{ r with len := xs.length }, by simp [ringbufPopBack, read, len_eq], ?_⟩
  constructor
  · exact inv.holds.init
  · rfl
  · exact inv.shape
  · exact inv.bytes

/-- What the pointer versions point at, and the copying versions copy. -/
theorem ringbufGetPtr_spec (inv : RingbufInv r xs) (i : Nat) :
    readSlot r.slots (ringbufGetPtr (some r) i) = some xs[i]? := by
  have len_eq := inv.len_eq
  by_cases outside : r.len ≤ i
  · simp [ringbufGetPtr, outside, readSlot, List.getElem?_eq_none (by omega : xs.length ≤ i)]
  · have hx : xs[i]? = some xs[i] := List.getElem?_eq_getElem (by omega)
    simp [ringbufGetPtr, outside, readSlot, inv.slot_item hx, hx]

theorem ringbufFrontPtr_spec (inv : RingbufInv r xs) :
    readSlot r.slots (ringbufFrontPtr (some r)) = some xs.head? := by
  rw [ringbufFrontPtr, ringbufGetPtr_spec inv, List.head?_eq_getElem?]

theorem ringbufBackPtr_spec (inv : RingbufInv r xs) :
    readSlot r.slots (ringbufBackPtr (some r)) = some xs.getLast? := by
  have len_eq := inv.len_eq
  have same : ringbufLen (some r) = xs.length := len_eq
  rw [ringbufBackPtr, same]
  by_cases pos : 0 < xs.length
  · rw [if_pos pos, ringbufGetPtr_spec inv, List.getLast?_eq_getElem?]
  · obtain rfl : xs = [] := List.eq_nil_of_length_eq_zero (by omega)
    rw [if_neg pos]
    rfl

theorem ringbufCopy_spec (ptr : Option (Ringbuf α) → Option Nat) {elem : Option α} (out : Bool)
    (h : readSlot r.slots (ptr (some r)) = some elem) :
    ringbufCopy ptr (some r) out = some (seqcCopyOut elem out) := copyOutSlot_eq _ out h

/-- An iterator whose position is `state i` after `i` calls. -/
theorem ringbufIterOf_spec {next : RingbufIterState α → Option (Option α × RingbufIterState α)}
    {start : Ringbuf α → Nat} {ys : List α} (state : Nat → RingbufIterState α)
    (item : ∀ i x, ys[i]? = some x → next (state i) = some (some x, state (i + 1)))
    (last : next (state ys.length) = some (none, state ys.length))
    (starts : ⟨r, start r⟩ = state 0) (m : Mem) :
    (∃ it m₁ m', ringbufIterOf next start (some r) m = (it, m₁) ∧
        iterItems (ys.length + 1) it m₁ = some (some ys, m') ∧ m'.refusals = m.refusals) ∨
      ∃ m', ringbufIterOf next start (some r) m = (none, m') ∧ m.refusals < m'.refusals := by
  have yields (addr : Nat) (m : Mem) : iterItems (ys.length + 1) (some {
      next := fun _ st m => (next st).map fun p => (p.1, p.2, m)
      destroy := fun _ m => memFree m (some addr) sizeofRingbufIterState
      state := (⟨r, start r⟩ : RingbufIterState α)
      elemSize := r.elemSize }) m = some (some ys, memFree m (some addr) sizeofRingbufIterState) := by
    refine iterItems_cursor state (fun i x _ m hx => ?_) (fun _ m => ?_) starts m
    · simp [item i x hx]
    · simp [last]
  rcases iterItems_made _ yields m with ⟨addr, m₁, m', hm, run, quiet⟩ | ⟨m', hm, more⟩
  · exact .inl ⟨_, m₁, m', by simp only [ringbufIterOf, hm], run, quiet⟩
  · exact .inr ⟨m', by simp only [ringbufIterOf, hm], more⟩

/-- A call in front of an element. -/
theorem RingbufInv.next_item (inv : RingbufInv r xs) {i : Nat} {x : α} (hx : xs[i]? = some x) :
    ringbufIterNext ⟨r, i⟩ = some (some x, ⟨r, i + 1⟩) := by
  have inside := (List.getElem?_eq_some_iff.mp hx).1
  have cap_le := inv.cap_le
  have fits := inv.holds.fits
  have len_eq := inv.len_eq
  have step : addSize i 1 = i + 1 := addSize_of_lt (by omega)
  have more : ¬r.len ≤ i := by omega
  simp only [ringbufIterNext, if_neg more, inv.slot_item hx, step]
  rfl

theorem ringbufIter_spec (inv : RingbufInv r xs) (m : Mem) :
    (∃ it m₁ m', ringbufIter (some r) m = (it, m₁) ∧
        iterItems (xs.length + 1) it m₁ = some (some xs, m') ∧ m'.refusals = m.refusals) ∨
      ∃ m', ringbufIter (some r) m = (none, m') ∧ m.refusals < m'.refusals := by
  refine ringbufIterOf_spec (fun pos => ⟨r, pos⟩) (fun i x hx => inv.next_item hx) ?_ rfl m
  simp [ringbufIterNext, inv.len_eq]

theorem ringbufIterRev_spec (inv : RingbufInv r xs) (m : Mem) :
    (∃ it m₁ m', ringbufIterRev (some r) m = (it, m₁) ∧
        iterItems (xs.length + 1) it m₁ = some (some xs.reverse, m') ∧
        m'.refusals = m.refusals) ∨
      ∃ m', ringbufIterRev (some r) m = (none, m') ∧ m.refusals < m'.refusals := by
  rw [← List.length_reverse]
  refine ringbufIterOf_spec (fun pos => ⟨r, xs.length - pos⟩) (fun i x hx => ?_) ?_ ?_ m
  · have inside := (List.getElem?_eq_some_iff.mp hx).1
    rw [List.length_reverse] at inside
    rw [List.getElem?_reverse inside] at hx
    have item := inv.slot_item hx
    have more : ¬xs.length - i = 0 := by omega
    rw [Nat.sub_right_comm] at item
    simp only [ringbufIterRevNext, if_neg more, item]
    rfl
  · simp [ringbufIterRevNext]
  · rw [inv.len_eq, Nat.sub_zero]

/-! ### Runs -/

/-- The state of a ring buffer that refines the list `g.1`. -/
def RingbufState (s : Option (Ringbuf α) × Mem) (g : List α × Nat) : Prop :=
  ∃ r, s.1 = some r ∧ RingbufInv r g.1 ∧ g.2 = s.2.refusals

theorem ringbufStep_refines (op : DequeOp α) (s : Option (Ringbuf α) × Mem) (g : List α × Nat)
    (h : RingbufState s g) :
    ∃ out s' g', ringbufStep op s = some (out, s') ∧ DequeStep g op out g' ∧ RingbufState s' g' := by
  obtain ⟨r', m⟩ := s
  obtain ⟨xs, n⟩ := g
  obtain ⟨r, rfl, inv, rfl⟩ := h
  simp only at inv ⊢
  have state : RingbufState (some r, m) (xs, m.refusals) := ⟨r, rfl, inv, rfl⟩
  cases op with
  | pushBack elem =>
    cases elem with
    | none => exact ⟨_, _, _, rfl, .pushBackInvalid _, state⟩
    | some x =>
      cases ringbufPushBack_spec inv x m with
      | inl pushed =>
        obtain ⟨r', m', run, inv', quiet⟩ := pushed
        exact ⟨_, (some r', m'), _, by simp [ringbufStep, run], .pushBackOk _ _ x, r', rfl, inv',
          quiet.symm⟩
      | inr refused =>
        obtain ⟨m', run, why⟩ := refused
        exact ⟨_, (some r, m'), _, by simp [ringbufStep, run], .pushBackOom _ _ _ x why, r, rfl, inv,
          rfl⟩
  | pushFront elem =>
    cases elem with
    | none => exact ⟨_, _, _, rfl, .pushFrontInvalid _, state⟩
    | some x =>
      cases ringbufPushFront_spec inv x m with
      | inl pushed =>
        obtain ⟨r', m', run, inv', quiet⟩ := pushed
        exact ⟨_, (some r', m'), _, by simp [ringbufStep, run], .pushFrontOk _ _ x, r', rfl, inv',
          quiet.symm⟩
      | inr refused =>
        obtain ⟨m', run, why⟩ := refused
        exact ⟨_, (some r, m'), _, by simp [ringbufStep, run], .pushFrontOom _ _ _ x why, r, rfl,
          inv, rfl⟩
  | popFront out =>
    cases xs with
    | nil =>
      refine ⟨_, (some r, m), _, ?_, .popFrontMiss _ out, state⟩
      simp [ringbufStep, ringbufPopFront, inv.len_eq, DequeAnswer.copied, seqcCopyOut]
    | cons x xs =>
      obtain ⟨r', run, inv'⟩ := ringbufPopFront_spec inv out
      exact ⟨_, (some r', m), _, by simp [ringbufStep, run, DequeAnswer.copied],
        .popFrontHit x xs _ out, r', rfl, inv', rfl⟩
  | popBack out =>
    cases xs using List.reverseRecOn with
    | nil =>
      refine ⟨_, (some r, m), _, ?_, .popBackMiss _ out, state⟩
      simp [ringbufStep, ringbufPopBack, inv.len_eq, DequeAnswer.copied, seqcCopyOut]
    | append_singleton xs x _ =>
      obtain ⟨r', run, inv'⟩ := ringbufPopBack_spec inv out
      exact ⟨_, (some r', m), _, by simp [ringbufStep, run, DequeAnswer.copied],
        .popBackHit xs x _ out, r', rfl, inv', rfl⟩
  | get i out =>
    have read := ringbufCopy_spec (fun r => ringbufGetPtr r i) out (ringbufGetPtr_spec inv i)
    exact ⟨_, (some r, m), _, by simp [ringbufStep, ringbufGet, read, DequeAnswer.copied],
      .get _ _ i out, state⟩
  | getPtr i =>
    have read := ringbufGetPtr_spec inv i
    exact ⟨_, (some r, m), _, by simp [ringbufStep, ringbufSlots, read], .getPtr _ _ i, state⟩
  | front out =>
    have read := ringbufCopy_spec _ out (ringbufFrontPtr_spec inv)
    exact ⟨_, (some r, m), _, by simp [ringbufStep, ringbufFront, read, DequeAnswer.copied],
      .front _ _ out, state⟩
  | frontPtr =>
    have read := ringbufFrontPtr_spec inv
    exact ⟨_, (some r, m), _, by simp [ringbufStep, ringbufSlots, read], .frontPtr _ _, state⟩
  | back out =>
    have read := ringbufCopy_spec _ out (ringbufBackPtr_spec inv)
    exact ⟨_, (some r, m), _, by simp [ringbufStep, ringbufBack, read, DequeAnswer.copied],
      .back _ _ out, state⟩
  | backPtr =>
    have read := ringbufBackPtr_spec inv
    exact ⟨_, (some r, m), _, by simp [ringbufStep, ringbufSlots, read], .backPtr _ _, state⟩
  | len =>
    refine ⟨_, (some r, m), _, rfl, ?_, state⟩
    rw [ringbufLen, inv.len_eq]
    exact .len _ _
  | isEmpty =>
    refine ⟨_, (some r, m), _, rfl, ?_, state⟩
    have same : ringbufIsEmpty (some r) = xs.isEmpty := by
      cases xs <;> simp [ringbufIsEmpty, inv.len_eq]
    rw [same]
    exact .isEmpty _ _
  | clear =>
    refine ⟨_, (ringbufClear (some r), m), _, rfl, .clear _ _, { r with len := 0, head := 0 }, rfl,
      ?_, rfl⟩
    constructor
    · exact holds_nil _ _ _
    · rfl
    · cases inv.shape with
      | inl fresh => exact .inl ⟨fresh.1, rfl⟩
      | inr table =>
        obtain ⟨k, hk, cap_eq, -⟩ := table
        exact .inr ⟨k, hk, cap_eq, Nat.two_pow_pos k⟩
    · exact inv.bytes
  | iter =>
    cases ringbufIter_spec inv m with
    | inl read =>
      obtain ⟨it, m₁, m', made, items, quiet⟩ := read
      exact ⟨_, (some r, m'), _, by simp [ringbufStep, ringbufLen, inv.len_eq, made, items],
        .iter _ _, r, rfl, inv, quiet.symm⟩
    | inr refused =>
      obtain ⟨m', made, more⟩ := refused
      exact ⟨_, (some r, m'), _, by simp [ringbufStep, made, iterItems], .iterOom _ _ _ more, r, rfl,
        inv, rfl⟩
  | iterRev =>
    cases ringbufIterRev_spec inv m with
    | inl read =>
      obtain ⟨it, m₁, m', made, items, quiet⟩ := read
      exact ⟨_, (some r, m'), _, by simp [ringbufStep, ringbufLen, inv.len_eq, made, items],
        .iterRev _ _, r, rfl, inv, quiet.symm⟩
    | inr refused =>
      obtain ⟨m', made, more⟩ := refused
      exact ⟨_, (some r, m'), _, by simp [ringbufStep, made, iterItems], .iterRevOom _ _ _ more, r,
        rfl, inv, rfl⟩

theorem ringbufCreate_spec {elemSize : Nat} {m m' : Mem}
    (h : ringbufCreate α elemSize m = (some r, m')) : RingbufInv r [] := by
  unfold ringbufCreate at h
  match hm : memAlloc m sizeofRingbuf with
  | (none, m₁) => simp [hm] at h
  | (some addr, m₁) =>
    rw [hm] at h
    obtain ⟨made, -⟩ := Prod.mk.inj h
    obtain rfl := Option.some.inj made
    constructor
    · exact holds_nil _ _ _
    · rfl
    · exact .inl ⟨rfl, rfl⟩
    · intro _
      simp

/-- Every run from `ringbuf_create` answers as a double-ended list does, and ends in a ring
buffer that holds that list. -/
theorem ringbuf_run_refines {elemSize : Nat} {m₀ m₁ : Mem} {r₀ : Ringbuf α}
    (created : ringbufCreate α elemSize m₀ = (some r₀, m₁)) (ops : List (DequeOp α)) :
    ∃ outs r m xs, run ringbufStep ops (some r₀, m₁) = some (outs, (some r, m)) ∧
      SpecRun DequeStep ([], m₁.refusals) ops outs (xs, m.refusals) ∧
      (∀ i, readSlot r.slots (ringbufGetPtr (some r) i) = some xs[i]?) ∧
      r.len = xs.length ∧ r.len ≤ r.cap ∧
      ((r.cap = 0 ∧ r.head = 0) ∨ ∃ k, r.cap = 2 ^ k ∧ r.head < r.cap) ∧
      (ringbufInitialCap * r.elemSize < 2 ^ 64 → r.cap * r.elemSize ≤ ptrdiffMax) := by
  obtain ⟨outs, ⟨_, m⟩, ⟨xs, _⟩, ran, spec, r, rfl, inv, rfl⟩ :=
    run_refines ringbufStep DequeStep ringbufStep_refines ops (s := (some r₀, m₁))
      (g := ([], m₁.refusals)) ⟨r₀, rfl, ringbufCreate_spec created, rfl⟩
  refine ⟨outs, r, m, xs, ran, spec, ringbufGetPtr_spec inv, inv.len_eq, ?_, ?_, inv.bytes⟩
  · rw [inv.len_eq]
    exact inv.holds.fits
  · cases inv.shape with
    | inl fresh => exact .inl fresh
    | inr table =>
      obtain ⟨k, -, cap_eq, head_lt⟩ := table
      exact .inr ⟨k, cap_eq, cap_eq ▸ head_lt⟩

/-- A run in which the second growth is refused once. -/
theorem ringbuf_run_refines_wrapped :
    ∃ outs r m xs, run ringbufStep
        ([DequeOp.pushFront (some 1), .pushBack (some 2), .popBack true] ++
          (List.range 9).map (fun i => DequeOp.pushFront (some i)) ++ [DequeOp.iter, .iterRev])
        (some ⟨0, none, fun _ => none, 0, 0, 0, 4⟩, ⟨refusingOnce 2, 1, [.alloc 0 56]⟩) =
          some (outs, (some r, m)) ∧
      SpecRun DequeStep ([], 0)
        ([DequeOp.pushFront (some 1), .pushBack (some 2), .popBack true] ++
          (List.range 9).map (fun i => DequeOp.pushFront (some i)) ++ [DequeOp.iter, .iterRev])
        outs (xs, m.refusals) ∧ r.len = xs.length := by
  have created : ringbufCreate Nat 4 (.start (refusingOnce 2)) =
      (some ⟨0, none, fun _ => none, 0, 0, 0, 4⟩, ⟨refusingOnce 2, 1, [.alloc 0 56]⟩) := rfl
  obtain ⟨outs, r, m, xs, ran, spec, -, len, -⟩ := ringbuf_run_refines created
    ([DequeOp.pushFront (some 1), .pushBack (some 2), .popBack true] ++
      (List.range 9).map (fun i => DequeOp.pushFront (some i)) ++ [DequeOp.iter, .iterRev])
  exact ⟨outs, r, m, xs, ran, spec, len⟩

end Seqc
