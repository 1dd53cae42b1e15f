import Seqc.Extends
import Seqc.List
import Seqc.Dlist
import Seqc.RingbufRun

/-! A list, a dlist or a ring buffer extended by an iterator over itself. The calls of the
iterator read the links, or the length, that the loop changes. -/

namespace Seqc
open Chain Circular Iteration

variable {σ γ β ν α : Type} {m m' : Mem}

/-- The calls of an iterator that reads the collection as it is. -/
def nextOver (next : γ → σ → Option (Option β × σ)) (_ : Nat) (s : σ) (world : γ × Mem) :
    Option (Option β × σ × γ × Mem) :=
  match next world.1 s with
  | none => none
  | some (x, s) => some (x, s, world)

/-- An iterator over a collection, with a state block only. -/
def iterOver (next : γ → σ → Option (Option β × σ)) (size elemSize : Nat) (start : σ) (m : Mem) :
    Option (LiveIter σ γ β) × Mem :=
  match memAlloc m size with
  | (none, m) => (none, m)
  | (some addr, m) =>
    (some {
      next := nextOver next
      destroy := fun _ m => memFree m (some addr) size
      state := start
      elemSize := elemSize }, m)

/-- What the calls of an iterator over a list read. -/
def nodeNext (elem : ν → α) (succ : ν → Option Nat) (s : ListState ν) (current : Option Nat) :
    Option (Option α × Option Nat) := nodeIterNext elem succ s.nodes current

/-- `list_iter` and `dlist_iter`; see `nodeIter` for one that is not over the list it is used
with. -/
def nodeIterOver (elem : ν → α) (succ : ν → Option Nat) (s : ListState ν) (m : Mem) :
    Option (LiveIter (Option Nat) (ListState ν) α) × Mem :=
  iterOver (nodeNext elem succ) sizeofListIterState s.elemSize s.head m

/-- `add_push_back` of list.c and dlist.c, with the allocator as it is then. -/
def nodeAdd (pushBack : ListState ν → Option α → Option (Status × ListState ν)) :
    AddFn (ListState ν) α := fun s x m =>
  (pushBack { s with mem := m } (some x)).map fun r => (r.1, r.2, r.2.mem)

def listExtend (fuel : Nat) (s : Option (ListT α)) (it : Option (LiveIter σ (ListT α) α))
    (m : Mem) : Option (Status × Option (ListT α) × Mem) :=
  seqcExtendBy (nodeAdd listPushBack) ListState.elemSize fuel s it m

def dlistExtend (fuel : Nat) (s : Option (DlistT α)) (it : Option (LiveIter σ (DlistT α) α))
    (m : Mem) : Option (Status × Option (DlistT α) × Mem) :=
  seqcExtendBy (nodeAdd dlistPushBack) ListState.elemSize fuel s it m

/-- `add_push_back` of ringbuf.c. -/
def ringbufAdd : AddFn (Ringbuf α) α := fun r x m =>
  match ringbufPushBack (some r) (some x) m with
  | some (st, some r, m) => some (st, r, m)
  | _ => none

def ringbufExtend (fuel : Nat) (r : Option (Ringbuf α)) (it : Option (LiveIter σ (Ringbuf α) α))
    (m : Mem) : Option (Status × Option (Ringbuf α) × Mem) :=
  seqcExtendBy ringbufAdd Ringbuf.elemSize fuel r it m

/-- What the calls of an iterator over a ring buffer read. -/
def ringbufNext (r : Ringbuf α) (pos : Nat) : Option (Option α × Nat) :=
  (ringbufIterNext ⟨r, pos⟩).map fun n => (n.1, n.2.pos)

/-- `ringbuf_iter`. -/
def ringbufIterOver (r : Ringbuf α) (m : Mem) : Option (LiveIter Nat (Ringbuf α) α) × Mem :=
  iterOver ringbufNext sizeofRingbufIterState r.elemSize 0 m

/-- `list_extend(l, list_iter(l))`. -/
def listExtendSelf (fuel : Nat) (s : ListT α) : Option (Status × Option (ListT α) × Mem) :=
  match nodeIterOver ListNode.elem ListNode.next s s.mem with
  | (it, m) => listExtend fuel (some s) it m

/-- `dlist_extend(l, dlist_iter(l))`. -/
def dlistExtendSelf (fuel : Nat) (s : DlistT α) : Option (Status × Option (DlistT α) × Mem) :=
  match nodeIterOver DlistNode.elem DlistNode.next s s.mem with
  | (it, m) => dlistExtend fuel (some s) it m

/-- `ringbuf_extend(r, ringbuf_iter(r))`. -/
def ringbufExtendSelf (fuel : Nat) (r : Ringbuf α) (m : Mem) :
    Option (Status × Option (Ringbuf α) × Mem) :=
  match ringbufIterOver r m with
  | (it, m) => ringbufExtend fuel (some r) it m

/-! ### The requests -/

/-- Requests of these sizes, one after the other, are granted. -/
def Mem.Grants (m : Mem) : List Nat → Prop
  | [] => True
  | size :: sizes => (memAlloc m size).1.isSome ∧ (memAlloc m size).2.Grants sizes

/-- The memory after them. -/
def Mem.asked (m : Mem) : List Nat → Mem
  | [] => m
  | size :: sizes => (memAlloc m size).2.asked sizes

theorem Mem.grants_append (m : Mem) (xs ys : List Nat) :
    m.Grants (xs ++ ys) ↔ m.Grants xs ∧ (m.asked xs).Grants ys := by
  induction xs generalizing m with
  | nil => simp [Grants, asked]
  | cons size xs ih => simp only [List.cons_append, Grants, asked, ih, and_assoc]

theorem Mem.grants_generous (m : Mem) (generous : m.allocator = .generous) {sizes : List Nat}
    (fit : ∀ size ∈ sizes, size ≤ ptrdiffMax) : m.Grants sizes := by
  induction sizes generalizing m with
  | nil => trivial
  | cons size sizes ih =>
    obtain ⟨fits, rest⟩ := List.forall_mem_cons.mp fit
    refine ⟨?_, ih _ ((memAlloc_allocator rfl).trans generous) rest⟩
    rw [memAlloc_isSome, generous]
    simpa [Allocator.generous] using fits

theorem Mem.asked_later (m : Mem) (sizes : List Nat) : m.Later (m.asked sizes) := by
  induction sizes generalizing m with
  | nil => exact .refl
  | cons size sizes ih => exact (Later.refl.alloc size).trans (ih _)

/-- The loop of an extend function over the collection itself. -/
def loopOver (add : AddFn γ β) (next : γ → σ → Option (Option β × σ)) (fuel : Nat) (start : σ)
    (c : γ) (m : Mem) : Option (Option Status × σ × γ × Mem) :=
  whileNext (nextOver next) (extendTurn add seqcReaction) fuel start (some .ok) (c, m)

/-- A turn whose add returns. -/
theorem extendTurn_of_add {add : AddFn γ β} {react : Reaction} {x : β} {c c' : γ} {st : Status}
    (added : add c x m = some (st, c', m')) :
    extendTurn add react x (some .ok) (c, m) =
      ((react .ok st).1, some (react .ok st).2, c', m') := by
  simp only [extendTurn, added]

/-- An extend over the collection itself succeeds just if the iterator and the element can be
had and its loop succeeds. -/
theorem extendOver_ok {add : AddFn γ β} {next : γ → σ → Option (Option β × σ)} {size : Nat}
    {elemSize : γ → Nat} {start : σ} {c c' : γ} (fuel : Nat) :
    (∃ m', seqcExtendBy add elemSize fuel (some c) (iterOver next size (elemSize c) start m).1
      (iterOver next size (elemSize c) start m).2 = some (.ok, some c', m')) ↔
      m.Grants [size, elemSize c] ∧ ∃ s' m', loopOver add next fuel start c
        (m.asked [size, elemSize c]) = some (some .ok, s', c', m') := by
  simp only [Mem.Grants, Mem.asked, and_true, seqcExtendBy, extendWith, iterOver]
  rcases memAlloc m size with ⟨_ | addr, m₁⟩
  · simp [liveDestroy]
  · simp only [ne_eq, not_true_eq_false, if_false, elemAcquire, if_true, Option.isSome_some,
      true_and]
    rcases memAlloc m₁ (elemSize c) with ⟨_ | elem, m₂⟩
    · simp
    · simp only [Option.isSome_some, true_and, loopOver]
      rcases whileNext (nextOver next) (extendTurn add seqcReaction) fuel start (some .ok) (c, m₂)
        with _ | ⟨_ | st, s', c₁, m₃⟩
      · simp
      · simp
      · simp [and_comm]

theorem extendOver_none {add : AddFn γ β} {next : γ → σ → Option (Option β × σ)} {size : Nat}
    {elemSize : γ → Nat} {start : σ} {c : γ} {fuel : Nat} (grants : m.Grants [size, elemSize c])
    (endless : loopOver add next fuel start c (m.asked [size, elemSize c]) = none) :
    seqcExtendBy add elemSize fuel (some c) (iterOver next size (elemSize c) start m).1
      (iterOver next size (elemSize c) start m).2 = none := by
  revert grants endless
  simp only [Mem.Grants, Mem.asked, and_true, loopOver, seqcExtendBy, extendWith, iterOver]
  rcases memAlloc m size with ⟨_ | addr, m₁⟩
  · simp
  · simp only [ne_eq, not_true_eq_false, if_false, elemAcquire, if_true]
    rcases memAlloc m₁ (elemSize c) with ⟨_ | elem, m₂⟩
    · simp
    · intro _ endless
      simp only [endless]

/-! ### Lists -/

/-- A push at the back of a list of nodes that look like `mk`. -/
structure BackPush (mk : Option Nat → Option Nat → α → ν) (elem : ν → α) (succ : ν → Option Nat)
    (pushBack : ListState ν → Option α → Option (Status × ListState ν)) : Prop where
  elem_eq : ∀ p q x, elem (mk p q x) = x
  succ_eq : ∀ p q x, succ (mk p q x) = q
  spec : ∀ {s items}, LinkedInv mk s items → ∀ x, ∃ st s' items',
    pushBack s (some x) = some (st, s') ∧
      LinkedTo mk (.pushBack (some x)) s items (.status st) s' items'
  granted : ∀ {s x st s'}, pushBack s (some x) = some (st, s') →
    (st = .ok ↔ (memAlloc s.mem (nodeAllocSize s.elemSize)).1.isSome)

theorem listPushBack_back :
    BackPush ListNode.linked ListNode.elem ListNode.next (listPushBack (α := α)) where
  elem_eq _ _ _ := rfl
  succ_eq _ _ _ := rfl
  spec inv x := listPushBack_spec inv x
  granted {s x st s'} push := by
    simp only [listPushBack, listMakeNode, makeNode] at push
    rcases hm : memAlloc s.mem (nodeAllocSize s.elemSize) with ⟨_ | a, m₁⟩
    · simp only [hm] at push
      cases push
      simp
    · simp only [hm] at push
      obtain ⟨_, -, done⟩ := Option.bind_eq_some_iff.mp push
      cases done
      simp

theorem dlistPushBack_back :
    BackPush DlistNode.mk DlistNode.elem DlistNode.next (dlistPushBack (α := α)) where
  elem_eq _ _ _ := rfl
  succ_eq _ _ _ := rfl
  spec inv x := dlistPushBack_spec inv x
  granted {s x st s'} push := by
    simp only [dlistPushBack, dlistMakeNode, makeNode] at push
    rcases hm : memAlloc s.mem (nodeAllocSize s.elemSize) with ⟨_ | a, m₁⟩
    · simp only [hm] at push
      cases push
      simp
    · simp only [hm] at push
      obtain ⟨_, -, linked⟩ := Option.bind_eq_some_iff.mp push
      obtain ⟨_, -, done⟩ := Option.bind_eq_some_iff.mp linked
      cases done
      simp

section Linked
variable {mk : Option Nat → Option Nat → α → ν} {elem : ν → α} {succ : ν → Option Nat}
  {pushBack : ListState ν → Option α → Option (Status × ListState ν)} {s s' : ListState ν}
  {items : List (Nat × α)} {x : α}

/-- An add appends a node, or is refused one and changes nothing. -/
theorem BackPush.add (back : BackPush mk elem succ pushBack)
    (inv : LinkedInv mk { s with mem := m } items) (x : α) :
    ∃ st s', nodeAdd pushBack s x m = some (st, s', s'.mem) ∧ s'.elemSize = s.elemSize ∧
      m.Later s'.mem ∧ ((st = .ok ∧ (memAlloc m (nodeAllocSize s.elemSize)).1.isSome ∧
          ∃ a, LinkedInv mk s' (items ++ [(a, x)])) ∨
        st = .oom ∧ ¬(memAlloc m (nodeAllocSize s.elemSize)).1.isSome) := by
  obtain ⟨st, s', items', push, linked⟩ := back.spec inv x
  have granted := back.granted push
  refine ⟨st, s', by simp only [nodeAdd, push, Option.map_some], linked.elemSize,
    linked.trades.later, ?_⟩
  have inv' := linked.inv
  have step := linked.step
  generalize s'.mem.refusals = n at step
  cases step with
  | pushBackOk _ _ a _ new => exact .inl ⟨rfl, granted.mp rfl, a, inv'⟩
  | pushBackOom _ _ _ _ refused => exact .inr ⟨rfl, by simpa using granted⟩

/-- A call that has a node in front of it. -/
theorem BackPush.next_item (back : BackPush mk elem succ pushBack) {pre post : List (Nat × α)}
    {a : Nat} (inv : LinkedInv mk { s with mem := m } (pre ++ (a, x) :: post)) :
    nodeIterNext elem succ s.nodes (some a) = some (some x, firstAddr post none) := by
  have here : s.nodes a = some (mk (lastAddr none pre) (firstAddr post none) x) := inv.laid.node
  simp only [nodeIterNext, here, Option.map_some, back.elem_eq, back.succ_eq]

theorem BackPush.loop_empty (inv : LinkedInv mk { s with mem := m } []) (fuel : Nat) :
    loopOver (nodeAdd pushBack) (nodeNext elem succ) (fuel + 1) s.head s m =
      some (some .ok, none, s, m) := by
  have head : s.head = none := inv.head
  simp only [loopOver, whileNext, nextOver, nodeNext, head, nodeIterNext]

/-- A single node is copied once: the cursor is behind it when its copy is linked to it. -/
theorem BackPush.loop_single (back : BackPush mk elem succ pushBack) {a : Nat}
    (inv : LinkedInv mk { s with mem := m } [(a, x)]) (fuel : Nat) :
    ∃ st s', loopOver (nodeAdd pushBack) (nodeNext elem succ) (fuel + 2) s.head s m =
        some (some st, none, s', s'.mem) ∧
      (st = .ok ↔ (memAlloc m (nodeAllocSize s.elemSize)).1.isSome) ∧
      (st = .ok → ∃ b, LinkedInv mk s' [(a, x), (b, x)]) := by
  have head : s.head = some a := inv.head
  have single : LinkedInv mk { s with mem := m } ([] ++ (a, x) :: []) := inv
  have item := back.next_item single
  obtain ⟨st, s', add, -, -, ⟨rfl, granted, b, longer⟩ | ⟨rfl, refused⟩⟩ := back.add inv x
  · refine ⟨.ok, s', ?_, iff_of_true rfl granted, fun _ => ⟨b, longer⟩⟩
    simp only [loopOver, whileNext, nextOver, nodeNext, head, item, extendTurn_of_add add]
    rfl
  · refine ⟨.oom, s', ?_, iff_of_false (by simp) refused, by simp⟩
    simp only [loopOver, whileNext, nextOver, nodeNext, head, item, extendTurn_of_add add]
    rfl

/-- The cursor is at a node that has another behind it. -/
def Ahead (mk : Option Nat → Option Nat → α → ν) (current : Option Nat)
    (world : ListState ν × Mem) : Prop :=
  ∃ pre a x post, LinkedInv mk { world.1 with mem := world.2 } (pre ++ (a, x) :: post) ∧
    post ≠ [] ∧ current = some a

/-- With two nodes or more the cursor has always another in front of it, so that the loop only
ends with a node it is refused. -/
theorem BackPush.loop_longer (back : BackPush mk elem succ pushBack)
    (inv : LinkedInv mk { s with mem := m } items) (two : 2 ≤ items.length) {fuel : Nat}
    {st : Option Status} {r : Option Nat × ListState ν × Mem}
    (run : loopOver (nodeAdd pushBack) (nodeNext elem succ) fuel s.head s m = some (st, r)) :
    st = some .oom ∧ ∃ m₁, m.Later m₁ ∧ ¬(memAlloc m₁ (nodeAllocSize s.elemSize)).1.isSome := by
  have start : Ahead mk s.head (s, m) := by
    match items, two with
    | (a, x) :: i :: post, _ => exact ⟨[], a, x, i :: post, inv, by simp, inv.head⟩
  refine whileNext_endless (I := fun current st world => st = some .ok ∧ m.Later world.2 ∧
      world.1.elemSize = s.elemSize ∧ Ahead mk current world)
    (L := fun st => st = some .oom ∧
      ∃ m₁, m.Later m₁ ∧ ¬(memAlloc m₁ (nodeAllocSize s.elemSize)).1.isSome) ?_ fuel
    ⟨rfl, .refl, rfl, start⟩ run
  rintro n _ _ ⟨s₁, m₁⟩ y current' world' ⟨rfl, later, size, pre, a, x, post, inv₁, more, rfl⟩ call
  obtain ⟨i, post, rfl⟩ := List.exists_cons_of_ne_nil more
  have item := back.next_item inv₁
  simp only [nextOver, nodeNext, item] at call
  obtain ⟨rfl, rfl, rfl⟩ : some x = y ∧ some i.1 = current' ∧ (s₁, m₁) = world' := by
    simpa [firstAddr] using call
  obtain ⟨st', s₂, add, size', later', ⟨rfl, -, b, longer⟩ | ⟨rfl, refused⟩⟩ := back.add inv₁ x
  · have moved : pre ++ (a, x) :: i :: post ++ [(b, x)] =
        (pre ++ [(a, x)]) ++ i :: (post ++ [(b, x)]) := by simp
    exact ⟨x, some .ok, (s₂, s₂.mem), rfl, .inl ⟨extendTurn_of_add add, rfl, later.trans later',
      size'.trans size, pre ++ [(a, x)], i.1, i.2, post ++ [(b, x)], moved ▸ longer, by simp, rfl⟩⟩
  · exact ⟨x, some .oom, (s₂, s₂.mem), rfl,
      .inr ⟨extendTurn_of_add add, rfl, m₁, later, size ▸ refused⟩⟩

theorem nextOver_mono (next : γ → σ → Option (Option β × σ)) : Mono (nextOver next) :=
  fun _ _ _ _ call => call

/-- The requests of the call: the state of the iterator, the element, and a node for each
element there is. -/
def selfRequests (s : ListState ν) (items : List (Nat × α)) : List Nat :=
  [sizeofListIterState, s.elemSize] ++ List.replicate items.length (nodeAllocSize s.elemSize)

/-- A list is doubled just if it has one element at most, and no request is refused. -/
theorem BackPush.doubles_iff (back : BackPush mk elem succ pushBack) (inv : LinkedInv mk s items) :
    (∃ fuel s' m' copy, seqcExtendBy (nodeAdd pushBack) ListState.elemSize fuel (some s)
        (nodeIterOver elem succ s s.mem).1 (nodeIterOver elem succ s s.mem).2 =
          some (.ok, some s', m') ∧ LinkedInv mk s' copy ∧
        copy.map Prod.snd = items.map Prod.snd ++ items.map Prod.snd) ↔
      items.length ≤ 1 ∧ s.mem.Grants (selfRequests s items) := by
  have later := s.mem.asked_later [sizeofListIterState, s.elemSize]
  have inv₁ := inv.atMem later.requests_le
  rw [selfRequests, Mem.grants_append]
  constructor
  · rintro ⟨fuel, s', m', copy, run, -, -⟩
    obtain ⟨grants, s'', m'', loop⟩ := (extendOver_ok fuel).mp ⟨m', run⟩
    match items with
    | [] => exact ⟨by simp, grants, trivial⟩
    | [(a, x)] =>
      obtain ⟨st, s₁, loop', granted, -⟩ := back.loop_single inv₁ fuel
      have longer := whileNext_le (nextOver_mono _) loop (Nat.le_add_right fuel 2)
      have same := longer.symm.trans loop'
      obtain rfl : Status.ok = st := by simpa using congrArg (Option.map Prod.fst) same
      exact ⟨le_rfl, grants, granted.mp rfl, trivial⟩
    | _ :: _ :: _ =>
      have left := (back.loop_longer inv₁ (by simp) loop).1
      simp at left
  · rintro ⟨short, grants, nodes⟩
    match items with
    | [] =>
      obtain ⟨m', run⟩ := (extendOver_ok 1).mpr ⟨grants, none, _, BackPush.loop_empty inv₁ 0⟩
      exact ⟨1, s, m', [], run, inv, rfl⟩
    | [(a, x)] =>
      obtain ⟨st, s₁, loop, granted, doubled⟩ := back.loop_single inv₁ 0
      obtain rfl := granted.mpr nodes.1
      obtain ⟨b, inv₂⟩ := doubled rfl
      obtain ⟨m', run⟩ := (extendOver_ok 2).mpr ⟨grants, none, _, loop⟩
      exact ⟨2, s₁, m', [(a, x), (b, x)], run, inv₂, rfl⟩
    | _ :: _ :: _ => simp at short

/-- With every request granted that an object can have, a list of two elements or more is
extended without end. -/
theorem BackPush.endless (back : BackPush mk elem succ pushBack) (inv : LinkedInv mk s items)
    (two : 2 ≤ items.length) (generous : s.mem.allocator = .generous)
    (fits : s.elemSize ≤ ptrdiffMax) (node : nodeAllocSize s.elemSize ≤ ptrdiffMax) (fuel : Nat) :
    seqcExtendBy (nodeAdd pushBack) ListState.elemSize fuel (some s)
      (nodeIterOver elem succ s s.mem).1 (nodeIterOver elem succ s s.mem).2 = none := by
  have later := s.mem.asked_later [sizeofListIterState, s.elemSize]
  have inv₁ := inv.atMem later.requests_le
  have grants : s.mem.Grants [sizeofListIterState, s.elemSize] :=
    s.mem.grants_generous generous (by simpa using ⟨by decide, fits⟩)
  apply extendOver_none grants
  match loop : loopOver (nodeAdd pushBack) (nodeNext elem succ) fuel s.head s
    (s.mem.asked [sizeofListIterState, s.elemSize]) with
  | none => rfl
  | some (st, t) =>
    obtain ⟨-, m₁, later₁, refused⟩ := back.loop_longer inv₁ two loop
    have same := (later.trans later₁).allocator_eq.trans generous
    have granted : m₁.Grants [nodeAllocSize s.elemSize] :=
      m₁.grants_generous same (by simpa using node)
    exact absurd granted.1 refused

end Linked

/-! ### Ring buffers -/

section Ring
variable {r : Ringbuf α} {xs : List α}

theorem ringbufAdd_spec (inv : RingbufInv r xs) (x : α) (m : Mem) :
    (∃ r' m', ringbufAdd r x m = some (.ok, r', m') ∧ RingbufInv r' (xs ++ [x])) ∨
      ∃ m', ringbufAdd r x m = some (.oom, r, m') := by
  rcases ringbufPushBack_spec inv x m with ⟨r', m', push, inv', -⟩ | ⟨m', push, -⟩
  · exact .inl ⟨r', m', by simp only [ringbufAdd, push], inv'⟩
  · exact .inr ⟨m', by simp only [ringbufAdd, push]⟩

/-- The length grows with the position, so that the loop only ends with a failed add. -/
theorem ringbuf_loop_some (inv : RingbufInv r xs) (one : xs ≠ []) {fuel : Nat}
    {st : Option Status} {t : Nat × Ringbuf α × Mem}
    (run : loopOver ringbufAdd ringbufNext fuel 0 r m = some (st, t)) : st = some .oom := by
  refine whileNext_endless (I := fun pos st world => st = some .ok ∧
      ∃ ys, RingbufInv world.1 ys ∧ pos < ys.length)
    (L := fun st => st = some .oom) ?_ fuel ⟨rfl, xs, inv, List.length_pos_of_ne_nil one⟩ run
  rintro n pos _ ⟨r₁, m₁⟩ y pos' world' ⟨rfl, ys, inv₁, inside⟩ call
  have item := inv₁.next_item (List.getElem?_eq_getElem inside)
  simp only [nextOver, ringbufNext, item] at call
  obtain ⟨rfl, rfl, rfl⟩ : some ys[pos] = y ∧ pos + 1 = pos' ∧ (r₁, m₁) = world' := by
    simpa using call
  rcases ringbufAdd_spec inv₁ ys[pos] m₁ with ⟨r₂, m₂, add, longer⟩ | ⟨m₂, add⟩
  · exact ⟨ys[pos], some .ok, (r₂, m₂), rfl,
      .inl ⟨extendTurn_of_add add, rfl, _, longer, by simpa using inside⟩⟩
  · exact ⟨ys[pos], some .oom, (r₁, m₂), rfl, .inr ⟨extendTurn_of_add add, rfl⟩⟩

/-- A ring buffer is doubled just if it is empty, and no request is refused. -/
theorem ringbufExtendSelf_iff (inv : RingbufInv r xs) (m : Mem) :
    (∃ fuel r' m', ringbufExtendSelf fuel r m = some (.ok, some r', m') ∧
        RingbufInv r' (xs ++ xs)) ↔
      xs = [] ∧ m.Grants [sizeofRingbufIterState, r.elemSize] := by
  constructor
  · rintro ⟨fuel, r', m', run, -⟩
    obtain ⟨grants, _, _, loop⟩ := (extendOver_ok fuel).mp ⟨m', run⟩
    refine ⟨?_, grants⟩
    by_contra one
    have left := ringbuf_loop_some inv one loop
    simp at left
  · rintro ⟨rfl, grants⟩
    have stops : ringbufNext r 0 = some (none, 0) := by
      simp [ringbufNext, ringbufIterNext, inv.len_eq]
    have loop : loopOver ringbufAdd ringbufNext 1 0 r
        (m.asked [sizeofRingbufIterState, r.elemSize]) =
          some (some .ok, 0, r, m.asked [sizeofRingbufIterState, r.elemSize]) := by
      simp only [loopOver, whileNext, nextOver, stops]
    obtain ⟨m', run⟩ := (extendOver_ok 1).mpr ⟨grants, _, _, loop⟩
    exact ⟨1, r, m', run, inv⟩

end Ring

/-- A list or a dlist extended by itself ends with its contents twice just if it has one
element at most, and a ring buffer just if it is empty, if no request is refused. -/
theorem extendSelf_doubles_iff {s : ListT α} {d : DlistT α} {r : Ringbuf α}
    {items ditems : List (Nat × α)} {xs : List α} (list : ListInv s items)
    (dlist : DlistInv d ditems) (ring : RingbufInv r xs) (m : Mem) :
    ((∃ fuel s' m' copy, listExtendSelf fuel s = some (.ok, some s', m') ∧ ListInv s' copy ∧
        copy.map Prod.snd = items.map Prod.snd ++ items.map Prod.snd) ↔
      items.length ≤ 1 ∧ s.mem.Grants (selfRequests s items)) ∧
    ((∃ fuel d' m' copy, dlistExtendSelf fuel d = some (.ok, some d', m') ∧ DlistInv d' copy ∧
        copy.map Prod.snd = ditems.map Prod.snd ++ ditems.map Prod.snd) ↔
      ditems.length ≤ 1 ∧ d.mem.Grants (selfRequests d ditems)) ∧
    ((∃ fuel r' m', ringbufExtendSelf fuel r m = some (.ok, some r', m') ∧
        RingbufInv r' (xs ++ xs)) ↔
      xs = [] ∧ m.Grants [sizeofRingbufIterState, r.elemSize]) :=
  ⟨listPushBack_back.doubles_iff list, dlistPushBack_back.doubles_iff dlist,
    ringbufExtendSelf_iff ring m⟩

/-- A list of one element. -/
def singleList : ListT Nat :=
  ⟨0, some 1, some 1, 1, 4, fun a => if a = 1 then some ⟨none, 7⟩ else none, ⟨.generous, 2, []⟩⟩

theorem singleList_inv : ListInv singleList [(1, 7)] where
  laid := ⟨rfl, trivial⟩
  head := rfl
  tail := rfl
  len := rfl
  distinct := by decide
  below := by decide
  only a there := by
    by_contra other
    simp_all [singleList]

/-- A doubly linked list of one element. -/
def singleDlist : DlistT Nat :=
  ⟨0, some 1, some 1, 1, 4, fun a => if a = 1 then some ⟨none, none, 7⟩ else none,
    ⟨.generous, 2, []⟩⟩

theorem singleDlist_inv : DlistInv singleDlist [(1, 7)] where
  laid := ⟨rfl, trivial⟩
  head := rfl
  tail := rfl
  len := rfl
  distinct := by decide
  below := by decide
  only a there := by
    by_contra other
    simp_all [singleDlist]

/-- A list of two elements. -/
def pairList : ListT Nat :=
  ⟨0, some 1, some 2, 2, 4,
    fun a => if a = 1 then some ⟨some 2, 7⟩ else if a = 2 then some ⟨none, 8⟩ else none,
    ⟨.generous, 3, []⟩⟩

theorem pairList_inv : ListInv pairList [(1, 7), (2, 8)] where
  laid := ⟨rfl, rfl, trivial⟩
  head := rfl
  tail := rfl
  len := rfl
  distinct := by decide
  below := by decide
  only a there := by
    by_contra other
    simp_all [pairList]

/-- A list of one element becomes one of two, in either direction, and an empty ring buffer
stays empty. -/
theorem extendSelf_doubles_iff_single :
    (∃ fuel s' m' copy, listExtendSelf fuel singleList = some (.ok, some s', m') ∧
        ListInv s' copy ∧ copy.map Prod.snd = [7, 7]) ∧
      (∃ fuel d' m' copy, dlistExtendSelf fuel singleDlist = some (.ok, some d', m') ∧
        DlistInv d' copy ∧ copy.map Prod.snd = [7, 7]) ∧
      ∃ fuel r' m', ringbufExtendSelf fuel (⟨0, none, fun _ => none, 0, 0, 0, 4⟩ : Ringbuf Nat)
        (.start .generous) = some (.ok, some r', m') ∧ RingbufInv r' [] := by
  have ring : RingbufInv (⟨0, none, fun _ => none, 0, 0, 0, 4⟩ : Ringbuf Nat) [] :=
    ⟨holds_nil _ _ _, rfl, .inl ⟨rfl, rfl⟩, by simp⟩
  obtain ⟨list, dlist, empty⟩ :=
    extendSelf_doubles_iff singleList_inv singleDlist_inv ring (.start .generous)
  exact ⟨list.mpr ⟨by decide, rfl, rfl, rfl, trivial⟩, dlist.mpr ⟨by decide, rfl, rfl, rfl, trivial⟩,
    empty.mpr ⟨rfl, rfl, rfl, trivial⟩⟩

/-- With every request granted the list of two never gets to the end of itself. -/
theorem pairList_endless : ¬∃ fuel r, listExtendSelf fuel pairList = some r := by
  rintro ⟨fuel, r, run⟩
  have endless : listExtendSelf fuel pairList = none :=
    listPushBack_back.endless pairList_inv (by decide) rfl (by decide) (by decide) fuel
  simp [endless] at run

end Seqc
