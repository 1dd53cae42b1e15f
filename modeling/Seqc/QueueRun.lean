import Seqc.Queue
import Seqc.Lib.Runs

/-! Runs of the operations of queue.c from `queue_create`, with requests refused at
arbitrary points, against a list that grows at its end and shrinks at its front. No run
gets stuck: no index is taken modulo a capacity of zero. -/

namespace Seqc
open Circular Runs

variable {α : Type} {q : Queue α} {xs : List α}

/-- The state of a queue that holds `xs`. -/
structure QueueInv (q : Queue α) (xs : List α) : Prop where
  holds : Holds q.slots q.cap q.head xs
  len_eq : q.len = xs.length
  shape : (q.cap = 0 ∧ q.head = 0) ∨ ∃ k ≤ 63, q.cap = 2 ^ k ∧ q.head < q.cap
  bytes : queueInitialCap * q.elemSize < 2 ^ 64 → q.cap * q.elemSize ≤ ptrdiffMax

theorem modSize_pos {a b : Nat} (h : 0 < b) : modSize a b = some (a % b) := if_neg (by omega)

theorem QueueInv.cap_le (inv : QueueInv q xs) : q.cap ≤ 2 ^ 63 := by
  cases inv.shape with
  | inl fresh => omega
  | inr table =>
    obtain ⟨k, hk, cap_eq, -⟩ := table
    rw [cap_eq]
    exact pow_le_half hk

theorem QueueInv.head_lt (inv : QueueInv q xs) (pos : 0 < q.cap) : q.head < q.cap := by
  cases inv.shape with
  | inl fresh => omega
  | inr table => exact table.choose_spec.2.2

theorem QueueInv.head_mod (inv : QueueInv q xs) : q.head % q.cap = q.head := by
  cases inv.shape with
  | inl fresh => rw [fresh.1, fresh.2]
  | inr table => exact Nat.mod_eq_of_lt table.choose_spec.2.2

/-- The sums of the index computations do not wrap. -/
theorem QueueInv.sum_lt (inv : QueueInv q xs) {i : Nat} (hi : i ≤ q.cap) :
    q.head + i < 2 ^ 64 := by
  have cap_le := inv.cap_le
  cases inv.shape with
  | inl fresh => omega
  | inr table =>
    have := table.choose_spec.2.2
    omega

/-! ### Growth -/

/-- The copying loop, up to `n`. -/
theorem queueCopySlot_loop (inv : QueueInv q xs) (n : Nat) (hn : n ≤ q.len) :
    ∀ i x, i < n → xs[i]? = some x →
      (List.range n).foldl (queueCopySlot q) (fun _ => none) i = some x := by
  induction n with
  | zero =>
    intro i x hi
    omega
  | succ n ih =>
    intro i x hi hx
    rw [List.range_succ, List.foldl_append, List.foldl_cons, List.foldl_nil, queueCopySlot]
    by_cases last : i = n
    · subst last
      have fits := inv.holds.fits
      have len_eq := inv.len_eq
      have sum : addSize q.head i = q.head + i := addSize_of_lt (inv.sum_lt (by omega))
      rw [Function.update_self, sum, if_neg (by omega : ¬q.cap = 0)]
      exact inv.holds.item i x hx
    · rw [Function.update_of_ne last]
      exact ih (by omega) i x (by omega) hx

theorem queueGrow_spec (inv : QueueInv q xs) (m : Mem) :
    (∃ q' m', queueGrow q m = (.ok, q', m') ∧ QueueInv q' xs ∧ q.cap < q'.cap ∧
        m'.refusals = m.refusals) ∨
      ∃ m', queueGrow q m = (.oom, q, m') ∧
        (m.refusals < m'.refusals ∨ m.refusals = m'.refusals ∧ sizeMax / 2 < q.cap) := by
  unfold queueGrow
  by_cases huge : sizeMax / 2 < q.cap
  · rw [if_pos huge]
    exact .inr ⟨m, rfl, .inr ⟨rfl, huge⟩⟩
  · rw [if_neg huge]
    simp only
    match hm : memAlloc m
      (mulSize (if q.cap = 0 then queueInitialCap else mulSize q.cap 2) q.elemSize) with
    | (none, m₁) =>
      have refused := memAlloc_none hm
      exact .inr ⟨m₁, rfl, .inl (by omega)⟩
    | (some newBuf, m₁) =>
      obtain ⟨-, granted, quiet⟩ := memAlloc_some hm
      have shape : q.cap = 0 ∨ ∃ k ≤ 63, q.cap = 2 ^ k := by
        refine inv.shape.imp And.left ?_
        rintro ⟨k, hk, cap_eq, -⟩
        exact ⟨k, hk, cap_eq⟩
      obtain ⟨k, hk, newCap, more⟩ :=
        newCap_eq (show queueInitialCap = 2 ^ 4 from rfl) (by omega) shape huge
      refine .inl ⟨_, _, rfl, ?_, newCap ▸ more, ?_⟩
      · constructor
        · have fits := inv.holds.fits
          have fits' : xs.length ≤ 2 ^ k := by omega
          refine holds_linear (newCap ▸ fits') fun i x hx => ?_
          have inside := (List.getElem?_eq_some_iff.mp hx).1
          rw [← inv.len_eq] at inside
          exact queueCopySlot_loop inv q.len le_rfl i x inside hx
        · exact inv.len_eq
        · exact .inr ⟨k, hk, newCap, newCap ▸ Nat.two_pow_pos k⟩
        · exact fun room => newCap_bytes huge (inv.bytes room) room granted
      · cases q.buf with
        | none => exact quiet
        | some buf =>
          simp only [memFree_refusals]
          exact quiet

theorem queueRoom_spec (inv : QueueInv q xs) (m : Mem) :
    (∃ q' m', queueRoom q m = (.ok, q', m') ∧ QueueInv q' xs ∧ xs.length < q'.cap ∧
        m'.refusals = m.refusals) ∨
      ∃ m', queueRoom q m = (.oom, q, m') ∧
        (m.refusals < m'.refusals ∨ m.refusals = m'.refusals ∧ sizeMax / 2 < xs.length) := by
  have fits := inv.holds.fits
  have len_eq := inv.len_eq
  unfold queueRoom
  by_cases full : q.len = q.cap
  · rw [if_pos full]
    cases queueGrow_spec inv m with
    | inl grown =>
      obtain ⟨q', m', run, inv', more, quiet⟩ := grown
      exact .inl ⟨q', m', run, inv', by omega, quiet⟩
    | inr refused =>
      obtain ⟨m', run, why⟩ := refused
      exact .inr ⟨m', run, by omega⟩
  · rw [if_neg full]
    exact .inl ⟨q, m, rfl, inv, by omega, rfl⟩

/-! ### One operation -/

theorem queuePush_spec (inv : QueueInv q xs) (x : α) (m : Mem) :
    (∃ q' m', queuePush (some q) (some x) m = some (.ok, some q', m') ∧
        QueueInv q' (xs ++ [x]) ∧ m'.refusals = m.refusals) ∨
      ∃ m', queuePush (some q) (some x) m = some (.oom, some q, m') ∧
        (m.refusals < m'.refusals ∨ m.refusals = m'.refusals ∧ sizeMax / 2 < xs.length) := by
  cases queueRoom_spec inv m with
  | inr refused =>
    obtain ⟨m', run, why⟩ := refused
    exact .inr ⟨m', by simp [queuePush, run], why⟩
  | inl roomy =>
    obtain ⟨q', m', run, inv', room, quiet⟩ := roomy
    have cap_le := inv'.cap_le
    have sum : addSize q'.head q'.len = q'.head + xs.length := by
      rw [inv'.len_eq]
      exact addSize_of_lt (inv'.sum_lt (by omega))
    have tail : modSize (addSize q'.head q'.len) q'.cap = some ((q'.head + xs.length) % q'.cap) := by
      rw [sum, modSize_pos (by omega)]
    have inside : (q'.head + xs.length) % q'.cap < q'.cap := Nat.mod_lt _ (by omega)
    refine .inl ⟨{ q' with
      slots := Function.update q'.slots ((q'.head + xs.length) % q'.cap) (some x)
      len := addSize q'.len 1 }, m', by simp [queuePush, run, tail, queueWrite, inside], ?_, quiet⟩
    constructor
    · exact inv'.holds.snoc room x
    · rw [List.length_append, List.length_singleton, ← inv'.len_eq]
      exact addSize_of_lt (by rw [inv'.len_eq]; omega)
    · exact inv'.shape
    · exact inv'.bytes

theorem QueueInv.front_slot {x : α} (inv : QueueInv q (x :: xs)) : q.slots q.head = some x := by
  have first := inv.holds.first
  rwa [inv.head_mod] at first

theorem queuePop_spec {x : α} (inv : QueueInv q (x :: xs)) (out : Bool) :
    ∃ q', queuePop (some q) out = some (seqcCopyOut (some x) out, some q') ∧ QueueInv q' xs := by
  have len_eq := inv.len_eq
  have fits := inv.holds.fits
  rw [List.length_cons] at len_eq fits
  have read := copyOutSlot_eq (some q.head) out (congrArg (Option.map some) inv.front_slot)
  have sum : addSize q.head 1 = q.head + 1 := addSize_of_lt (inv.sum_lt (by omega))
  have head_eq : modSize (addSize q.head 1) q.cap = some ((q.head + 1) % q.cap) := by
    rw [sum, modSize_pos (by omega)]
  refine ⟨{ q with head := (q.head + 1) % q.cap, len := q.len - 1 },
    by simp [queuePop, read, head_eq, len_eq], ?_⟩
  constructor
  · exact inv.holds.rest
  · simp only [len_eq, Nat.add_sub_cancel]
  · cases inv.shape with
    | inl fresh => omega
    | inr table =>
      obtain ⟨k, hk, cap_eq, -⟩ := table
      exact .inr ⟨k, hk, cap_eq, Nat.mod_lt _ (by omega)⟩
  · exact inv.bytes

/-- What the pointer versions point at, and the copying versions copy. -/
theorem queueFrontPtr_spec (inv : QueueInv q xs) :
    ∃ ptr, queueFrontPtr (some q) = some ptr ∧ readSlot q.slots ptr = some xs.head? := by
  cases xs with
  | nil =>
    have len_eq : q.len = 0 := inv.len_eq
    exact ⟨none, by simp [queueFrontPtr, len_eq], rfl⟩
  | cons x xs =>
    have len_eq := inv.len_eq
    rw [List.length_cons] at len_eq
    exact ⟨some q.head, by simp [queueFrontPtr, len_eq], congrArg (Option.map some) inv.front_slot⟩

theorem queueBackPtr_spec (inv : QueueInv q xs) :
    ∃ ptr, queueBackPtr (some q) = some ptr ∧ readSlot q.slots ptr = some xs.getLast? := by
  have len_eq := inv.len_eq
  by_cases empty : q.len = 0
  · obtain rfl : xs = [] := List.eq_nil_of_length_eq_zero (by omega)
    exact ⟨none, by simp [queueBackPtr, empty], rfl⟩
  · have fits := inv.holds.fits
    have sum_lt := inv.sum_lt (len_eq ▸ fits)
    have sum : addSize q.head q.len = q.head + q.len := addSize_of_lt sum_lt
    have back : subSize (q.head + q.len) 1 = q.head + (q.len - 1) := by
      rw [subSize_of_le (by omega) sum_lt]
      omega
    have tail : modSize (subSize (addSize q.head q.len) 1) q.cap =
        some ((q.head + (q.len - 1)) % q.cap) := by
      rw [sum, back, modSize_pos (by omega)]
    have hx : xs[q.len - 1]? = xs.getLast? := by rw [List.getLast?_eq_getElem?, len_eq]
    have last : xs[q.len - 1]? = some xs[q.len - 1] := List.getElem?_eq_getElem (by omega)
    refine ⟨some ((q.head + (q.len - 1)) % q.cap), by simp [queueBackPtr, empty, tail], ?_⟩
    rw [← hx, last, readSlot, inv.holds.item _ _ last]
    rfl

theorem queueCopy_spec {ptr : Option (Queue α) → Option (Option Nat)} {elem : Option α}
    {slot : Option Nat} (out : Bool) (points : ptr (some q) = some slot)
    (h : readSlot q.slots slot = some elem) :
    queueCopy ptr (some q) out = some (seqcCopyOut elem out) := by
  simp only [queueCopy, points, Option.bind_eq_bind, Option.bind_some]
  exact copyOutSlot_eq _ out h

/-! ### Iterators -/

/-- An iterator whose state is `state i` after `i` calls. -/
theorem queueIterOf_spec {next : QueueIterState α → Option (Option α × QueueIterState α)}
    {start : Queue α → Option Nat} {pos : Nat} {ys : List α} (state : Nat → QueueIterState α)
    (item : ∀ i x, ys[i]? = some x → next (state i) = some (some x, state (i + 1)))
    (last : next (state ys.length) = some (none, state ys.length)) (starts : start q = some pos)
    (first : ⟨q.slots, pos, q.cap, q.len⟩ = state 0) (m : Mem) :
    (∃ it m₁ m', queueIterOf next start (some q) m = some (it, m₁) ∧
        iterItems (ys.length + 1) it m₁ = some (some ys, m') ∧ m'.refusals = m.refusals) ∨
      ∃ m', queueIterOf next start (some q) m = some (none, m') ∧ m.refusals < m'.refusals := by
  have yields (addr : Nat) (m : Mem) : iterItems (ys.length + 1) (some {
      next := fun _ s m => (next s).map fun p => (p.1, p.2, m)
      destroy := fun _ m => memFree m (some addr) sizeofQueueIterState
      state := (⟨q.slots, pos, q.cap, q.len⟩ : QueueIterState α)
      elemSize := q.elemSize }) m = some (some ys, memFree m (some addr) sizeofQueueIterState) := by
    refine iterItems_cursor state (fun i x _ m hx => ?_) (fun _ m => ?_) first m
    · simp [item i x hx]
    · simp [last]
  rcases iterItems_made _ yields m with ⟨addr, m₁, m', hm, run, quiet⟩ | ⟨m', hm, more⟩
  · exact .inl ⟨_, m₁, m', by simp [queueIterOf, hm, starts], run, quiet⟩
  · exact .inr ⟨m', by simp only [queueIterOf, hm], more⟩

theorem queueIter_spec (inv : QueueInv q xs) (m : Mem) :
    (∃ it m₁ m', queueIter (some q) m = some (it, m₁) ∧
        iterItems (xs.length + 1) it m₁ = some (some xs, m') ∧ m'.refusals = m.refusals) ∨
      ∃ m', queueIter (some q) m = some (none, m') ∧ m.refusals < m'.refusals := by
  refine queueIterOf_spec (fun i => ⟨q.slots, (q.head + i) % q.cap, q.cap, xs.length - i⟩)
    (fun i x hx => ?_) ?_ rfl ?_ m
  · have inside := (List.getElem?_eq_some_iff.mp hx).1
    have fits := inv.holds.fits
    have cap_le := inv.cap_le
    have more : ¬(xs.length - i = 0 ∨ q.cap = 0) := by omega
    have below : (q.head + i) % q.cap < q.cap := Nat.mod_lt _ (by omega)
    have sum : addSize ((q.head + i) % q.cap) 1 = (q.head + i) % q.cap + 1 :=
      addSize_of_lt (by omega)
    have step : modSize (addSize ((q.head + i) % q.cap) 1) q.cap =
        some ((q.head + (i + 1)) % q.cap) := by
      rw [sum, modSize_pos (by omega), Nat.mod_add_mod, Nat.add_assoc]
    simp only [queueIterNext, if_neg more, inv.holds.item i x hx, step]
    rfl
  · simp [queueIterNext]
  · rw [Nat.add_zero, inv.head_mod, inv.len_eq, Nat.sub_zero]

/-- The slot `queue_iter_rev` reads in call `i` is that of the item `i` from the end. -/
theorem queueIterRev_pos {head len cap i : Nat} (hi : i < len) (fits : len ≤ cap) :
    (head + len + cap - 1 - i) % cap = (head + (len - 1 - i)) % cap := by
  rw [show head + len + cap - 1 - i = head + (len - 1 - i) + cap by omega, Nat.add_mod_right]

theorem queueIterRev_spec (inv : QueueInv q xs) (m : Mem) :
    (∃ it m₁ m', queueIterRev (some q) m = some (it, m₁) ∧
        iterItems (xs.length + 1) it m₁ = some (some xs.reverse, m') ∧
        m'.refusals = m.refusals) ∨
      ∃ m', queueIterRev (some q) m = some (none, m') ∧ m.refusals < m'.refusals := by
  have len_eq := inv.len_eq
  have fits := inv.holds.fits
  have cap_le := inv.cap_le
  rw [← List.length_reverse]
  by_cases empty : q.len = 0
  · obtain rfl : xs = [] := List.eq_nil_of_length_eq_zero (by omega)
    have start : (if 0 < q.len then modSize (subSize (addSize q.head q.len) 1) q.cap
        else some 0) = some 0 := by
      simp [empty]
    refine queueIterOf_spec (fun _ => ⟨q.slots, 0, q.cap, 0⟩) (by simp) ?_ start ?_ m
    · simp [queueIterRevNext]
    · rw [empty]
  · have sum_lt := inv.sum_lt (len_eq ▸ fits)
    have sum : addSize q.head q.len = q.head + q.len := addSize_of_lt sum_lt
    have back : subSize (q.head + q.len) 1 = q.head + q.len - 1 := subSize_of_le (by omega) sum_lt
    have start : modSize (subSize (addSize q.head q.len) 1) q.cap =
        some ((q.head + q.len + q.cap - 1) % q.cap) := by
      rw [sum, back, modSize_pos (by omega),
        show q.head + q.len + q.cap - 1 = q.head + q.len - 1 + q.cap by omega, Nat.add_mod_right]
    refine queueIterOf_spec
      (fun i => ⟨q.slots, (q.head + q.len + q.cap - 1 - i) % q.cap, q.cap, q.len - i⟩)
      (fun i x hx => ?_) ?_ ((if_pos (by omega : 0 < q.len)).trans start) rfl m
    · have inside := (List.getElem?_eq_some_iff.mp hx).1
      rw [List.length_reverse] at inside
      rw [List.getElem?_reverse inside, ← len_eq] at hx
      have more : ¬(q.len - i = 0 ∨ q.cap = 0) := by omega
      have item := inv.holds.item _ x hx
      rw [← queueIterRev_pos (by omega : i < q.len) (by omega)] at item
      have below : (q.head + q.len + q.cap - 1 - i) % q.cap < q.cap := Nat.mod_lt _ (by omega)
      have up : addSize ((q.head + q.len + q.cap - 1 - i) % q.cap) q.cap =
          (q.head + q.len + q.cap - 1 - i) % q.cap + q.cap := addSize_of_lt (by omega)
      have step : modSize (subSize (addSize ((q.head + q.len + q.cap - 1 - i) % q.cap) q.cap) 1)
          q.cap = some ((q.head + q.len + q.cap - 1 - (i + 1)) % q.cap) := by
        rw [up, subSize_of_le (by omega) (by omega), modSize_pos (by omega),
          Nat.add_sub_assoc (by omega), Nat.mod_add_mod,
          show q.head + q.len + q.cap - 1 - i + (q.cap - 1) =
            q.head + q.len + q.cap - 1 - (i + 1) + q.cap by omega, Nat.add_mod_right]
      simp only [queueIterRevNext, if_neg more, item, step]
      rfl
    · simp [queueIterRevNext, len_eq]

/-! ### Runs -/

/-- The state of a queue that refines the list `g.1`. -/
def QueueOf (s : Option (Queue α) × Mem) (g : List α × Nat) : Prop :=
  ∃ q, s.1 = some q ∧ QueueInv q g.1 ∧ g.2 = s.2.refusals

theorem queueStep_refines (op : QueueOp α) (s : Option (Queue α) × Mem) (g : List α × Nat)
    (h : QueueOf s g) :
    ∃ out s' g', queueStep op s = some (out, s') ∧ DequeStep g op.onDeque out g' ∧
      QueueOf s' g' := by
  obtain ⟨q', m⟩ := s
  obtain ⟨xs, n⟩ := g
  obtain ⟨q, rfl, inv, rfl⟩ := h
  simp only at inv ⊢
  have state : QueueOf (some q, m) (xs, m.refusals) := ⟨q, rfl, inv, rfl⟩
  cases op with
  | push elem =>
    cases elem with
    | none => exact ⟨_, _, _, rfl, .pushBackInvalid _, state⟩
    | some x =>
      cases queuePush_spec inv x m with
      | inl pushed =>
        obtain ⟨q', m', run, inv', quiet⟩ := pushed
        exact ⟨_, (some q', m'), _, by simp [queueStep, run], .pushBackOk _ _ x, q', rfl, inv',
          quiet.symm⟩
      | inr refused =>
        obtain ⟨m', run, why⟩ := refused
        exact ⟨_, (some q, m'), _, by simp [queueStep, run], .pushBackOom _ _ _ x why, q, rfl, inv,
          rfl⟩
  | pop out =>
    cases xs with
    | nil =>
      refine ⟨_, (some q, m), _, ?_, .popFrontMiss _ out, state⟩
      simp [queueStep, queuePop, inv.len_eq, DequeAnswer.copied, seqcCopyOut]
    | cons x xs =>
      obtain ⟨q', run, inv'⟩ := queuePop_spec inv out
      exact ⟨_, (some q', m), _, by simp [queueStep, run, DequeAnswer.copied],
        .popFrontHit x xs _ out, q', rfl, inv', rfl⟩
  | front out =>
    obtain ⟨ptr, points, elem⟩ := queueFrontPtr_spec inv
    have read := queueCopy_spec out points elem
    exact ⟨_, (some q, m), _, by simp [queueStep, queueFront, read, DequeAnswer.copied],
      .front _ _ out, state⟩
  | frontPtr =>
    obtain ⟨ptr, points, elem⟩ := queueFrontPtr_spec inv
    exact ⟨_, (some q, m), _, by simp [queueStep, queueSlots, points, elem], .frontPtr _ _, state⟩
  | back out =>
    obtain ⟨ptr, points, elem⟩ := queueBackPtr_spec inv
    have read := queueCopy_spec out points elem
    exact ⟨_, (some q, m), _, by simp [queueStep, queueBack, read, DequeAnswer.copied],
      .back _ _ out, state⟩
  | backPtr =>
    obtain ⟨ptr, points, elem⟩ := queueBackPtr_spec inv
    exact ⟨_, (some q, m), _, by simp [queueStep, queueSlots, points, elem], .backPtr _ _, state⟩
  | len =>
    refine ⟨_, (some q, m), _, rfl, ?_, state⟩
    rw [queueLen, inv.len_eq]
    exact .len _ _
  | isEmpty =>
    refine ⟨_, (some q, m), _, rfl, ?_, state⟩
    have same : queueIsEmpty (some q) = xs.isEmpty := by
      cases xs <;> simp [queueIsEmpty, inv.len_eq]
    rw [same]
    exact .isEmpty _ _
  | clear =>
    refine ⟨_, (queueClear (some q), m), _, rfl, .clear _ _, { q with len := 0, head := 0 }, rfl,
      ?_, rfl⟩
    constructor
    · exact holds_nil _ _ _
    · rfl
    · cases inv.shape with
      | inl fresh => exact .inl ⟨fresh.1, rfl⟩
      | inr table =>
        obtain ⟨k, hk, cap_eq, head_lt⟩ := table
        exact .inr ⟨k, hk, cap_eq, Nat.zero_lt_of_lt head_lt⟩
    · exact inv.bytes
  | iter =>
    cases queueIter_spec inv m with
    | inl read =>
      obtain ⟨it, m₁, m', made, items, quiet⟩ := read
      exact ⟨_, (some q, m'), _, by simp [queueStep, queueLen, inv.len_eq, made, items],
        .iter _ _, q, rfl, inv, quiet.symm⟩
    | inr refused =>
      obtain ⟨m', made, more⟩ := refused
      exact ⟨_, (some q, m'), _, by simp [queueStep, made, iterItems], .iterOom _ _ _ more, q, rfl,
        inv, rfl⟩
  | iterRev =>
    cases queueIterRev_spec inv m with
    | inl read =>
      obtain ⟨it, m₁, m', made, items, quiet⟩ := read
      exact ⟨_, (some q, m'), _, by simp [queueStep, queueLen, inv.len_eq, made, items],
        .iterRev _ _, q, rfl, inv, quiet.symm⟩
    | inr refused =>
      obtain ⟨m', made, more⟩ := refused
      exact ⟨_, (some q, m'), _, by simp [queueStep, made, iterItems], .iterRevOom _ _ _ more, q,
        rfl, inv, rfl⟩

theorem queueCreate_spec {elemSize : Nat} {m m' : Mem}
    (h : queueCreate α elemSize m = (some q, m')) : QueueInv q [] := by
  unfold queueCreate at h
  match hm : memAlloc m sizeofQueue with
  | (none, m₁) => simp [hm] at h
  | (some addr, m₁) =>
    rw [hm] at h
    obtain ⟨made, -⟩ := Prod.mk.inj h
    obtain rfl := Option.some.inj made
    constructor
    · exact holds_nil _ _ _
    · rfl
    · exact .inl ⟨rfl, rfl⟩
    · intro _
      simp

/-- Every run from `queue_create` answers as a first-in first-out list does, and ends in a
queue that holds that list. -/
theorem queue_run_refines {elemSize : Nat} {m₀ m₁ : Mem} {q₀ : Queue α}
    (created : queueCreate α elemSize m₀ = (some q₀, m₁)) (ops : List (QueueOp α)) :
    ∃ outs q m xs, run queueStep ops (some q₀, m₁) = some (outs, (some q, m)) ∧
      SpecRun (fun g op => DequeStep g (QueueOp.onDeque op)) ([], m₁.refusals) ops outs
        (xs, m.refusals) ∧
      (∀ i x, xs[i]? = some x → q.slots ((q.head + i) % q.cap) = some x) ∧
      q.len = xs.length ∧ q.len ≤ q.cap ∧ ((q.cap = 0 ∧ q.head = 0) ∨ q.head < q.cap) ∧
      (queueInitialCap * q.elemSize < 2 ^ 64 → q.cap * q.elemSize ≤ ptrdiffMax) := by
  obtain ⟨outs, ⟨_, m⟩, ⟨xs, _⟩, ran, spec, q, rfl, inv, rfl⟩ :=
    run_refines queueStep (fun g op => DequeStep g (QueueOp.onDeque op)) queueStep_refines ops
      (s := (some q₀, m₁)) (g := ([], m₁.refusals)) ⟨q₀, rfl, queueCreate_spec created, rfl⟩
  refine ⟨outs, q, m, xs, ran, spec, inv.holds.item, inv.len_eq, ?_, ?_, inv.bytes⟩
  · rw [inv.len_eq]
    exact inv.holds.fits
  · cases inv.shape with
    | inl fresh => exact .inl fresh
    | inr table => exact .inr table.choose_spec.2.2

/-- A run with a refused growth, a wrapped buffer and both iterators. -/
theorem queue_run_refines_wrapped :
    ∃ outs q m xs, run queueStep
        ([QueueOp.push (some 100), .pop true] ++
          (List.range 17).map (fun i => QueueOp.push (some i)) ++
          [QueueOp.pop true, .push (some 17), .iter, .iterRev])
        (some ⟨0, none, fun _ => none, 0, 0, 0, 4⟩, ⟨refusingOnce 2, 1, [.alloc 0 56]⟩) =
          some (outs, (some q, m)) ∧
      SpecRun (fun g op => DequeStep g (QueueOp.onDeque op)) ([], 0)
        ([QueueOp.push (some 100), .pop true] ++
          (List.range 17).map (fun i => QueueOp.push (some i)) ++
          [QueueOp.pop true, .push (some 17), .iter, .iterRev]) outs (xs, m.refusals) ∧
      q.len = xs.length := by
  have created : queueCreate Nat 4 (.start (refusingOnce 2)) =
      (some ⟨0, none, fun _ => none, 0, 0, 0, 4⟩, ⟨refusingOnce 2, 1, [.alloc 0 56]⟩) := rfl
  obtain ⟨outs, q, m, xs, ran, spec, -, len, -⟩ := queue_run_refines created
    ([QueueOp.push (some 100), .pop true] ++ (List.range 17).map (fun i => QueueOp.push (some i)) ++
      [QueueOp.pop true, .push (some 17), .iter, .iterRev])
  exact ⟨outs, q, m, xs, ran, spec, len⟩

end Seqc
