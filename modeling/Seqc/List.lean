import Seqc.Nodes

/-! list.c. A node is linked to the one behind it, and the list to its first and its last. -/

namespace Seqc
open Chain Runs

variable {α : Type}

/-- `list_node_t`, with the element that lies behind it. -/
structure ListNode (α : Type) where
  next : Option Nat
  elem : α

def ListNode.setNext (next : Option Nat) (node : ListNode α) : ListNode α :=
  { node with next := next }

/-- The node of an element between others. -/
def ListNode.linked (_ next : Option Nat) (elem : α) : ListNode α := ⟨next, elem⟩

abbrev ListT (α : Type) := ListState (ListNode α)

def listCreate (α : Type) (elemSize : Nat) (m : Mem) : Option (ListT α) × Mem :=
  linkedCreate (ListNode α) elemSize m

def listMakeNode (s : ListT α) (elem : α) : Option Nat × ListT α := makeNode s ⟨none, elem⟩

def listPushFront (s : ListT α) (elem : Option α) : Option (Status × ListT α) :=
  match elem with
  | none => some (.invalid, s)
  | some x =>
    match listMakeNode s x with
    | (none, s) => some (.oom, s)
    | (some a, s) => do
      let nodes ← edit s.nodes a (ListNode.setNext s.head)
      let tail := if s.tail.isNone then some a else s.tail
      pure (.ok, { s with nodes := nodes, head := some a, tail := tail, len := s.len + 1 })

def listPushBack (s : ListT α) (elem : Option α) : Option (Status × ListT α) :=
  match elem with
  | none => some (.invalid, s)
  | some x =>
    match listMakeNode s x with
    | (none, s) => some (.oom, s)
    | (some a, s) => do
      let s ← linkNext ListNode.setNext s s.tail (some a)
      pure (.ok, { s with tail := some a, len := s.len + 1 })

def listPopFront (s : ListT α) (out : Bool) : Option (Answer α × ListT α) :=
  match s.head with
  | none => some (copied none out, s)
  | some a => do
    let node ← s.nodes a
    let tail := if node.next.isNone then none else s.tail
    let s ← freeNode { s with head := node.next, tail := tail } a
    pure (copied (some node.elem) out, { s with len := s.len - 1 })

/-- The loop of `list_pop_back`, which goes on to the node before `tail` and follows NULL if
there is none; `fuel` bounds its passes. -/
def listBefore (nodes : Nodes (ListNode α)) (tail : Option Nat) :
    (fuel : Nat) → (prev : Option Nat) → Option Nat
  | 0, _ => none
  | fuel + 1, prev => do
    let a ← prev
    let node ← nodes a
    if node.next = tail then pure a else listBefore nodes tail fuel node.next

def listPopBack (s : ListT α) (out : Bool) : Option (Answer α × ListT α) :=
  match s.head with
  | none => some (copied none out, s)
  | some head =>
    if some head = s.tail then listPopFront s out
    else do
      let prev ← listBefore s.nodes s.tail s.len (some head)
      let tail ← s.tail
      let node ← s.nodes tail
      let s ← freeNode s tail
      let nodes ← edit s.nodes prev (ListNode.setNext none)
      pure (copied (some node.elem) out,
        { s with nodes := nodes, tail := some prev, len := s.len - 1 })

def listFrontPtr (s : ListT α) : Option (Option α) := nodeData ListNode.elem s.nodes s.head
def listBackPtr (s : ListT α) : Option (Option α) := nodeData ListNode.elem s.nodes s.tail

def listFront (s : ListT α) (out : Bool) : Option (Answer α) :=
  (listFrontPtr s).map fun elem => copied elem out

def listBack (s : ListT α) (out : Bool) : Option (Answer α) :=
  (listBackPtr s).map fun elem => copied elem out

def listLen (s : ListT α) : Nat := s.len

def listClear (s : ListT α) : Option (ListT α) := linkedClear ListNode.next s

def listDestroy (s : ListT α) : Option Mem := linkedDestroy ListNode.next s

/-- `list_iter` over the nodes. -/
def listIterIn (s : Option (ListT α)) (m : Mem) : Option (OwnedIterT (Option Nat) α) × Mem :=
  nodeIter ListNode.elem ListNode.next ListState.head s m

def listStep : LinkedOp α → ListT α → Option (Answer α × ListT α)
  | .pushFront elem, s => (listPushFront s elem).map fun r => (.status r.1, r.2)
  | .pushBack elem, s => (listPushBack s elem).map fun r => (.status r.1, r.2)
  | .popFront out, s => listPopFront s out
  | .popBack out, s => listPopBack s out
  | .front out, s => (listFront s out).map fun answer => (answer, s)
  | .back out, s => (listBack s out).map fun answer => (answer, s)
  | .clear, s => (listClear s).map fun s => (.nothing, s)

/-! ### Single operations -/

abbrev ListInv (s : ListT α) (items : List (Nat × α)) : Prop := LinkedInv ListNode.linked s items

abbrev ListTo (op : LinkedOp α) (s : ListT α) (items : List (Nat × α)) (out : Answer α)
    (s' : ListT α) (items' : List (Nat × α)) : Prop :=
  LinkedTo ListNode.linked op s items out s' items'

section Ops
variable {s : ListT α} {items : List (Nat × α)}

theorem listPushFront_spec (inv : ListInv s items) (x : α) :
    ∃ st s' items', listPushFront s (some x) = some (st, s') ∧
      ListTo (.pushFront (some x)) s items (.status st) s' items' := by
  rcases makeNode_spec inv ⟨none, x⟩ with ⟨m', made, refused, more, quiet⟩ |
    ⟨a, m', made, granted, more, below, new, trades⟩
  · refine ⟨.oom, { s with mem := m' }, items, ?_,
      .refused inv more quiet (.pushFrontOom items _ _ x refused)⟩
    simp only [listPushFront, listMakeNode, made]
  · have apart : ∀ b ∈ addrs items, b ≠ a := fun b mem same => new (same ▸ mem)
    have laid : Laid ListNode.linked (put (put s.nodes a ⟨none, x⟩) a ⟨firstAddr items none, x⟩)
        none ((a, x) :: items) none := by
      refine ⟨put_same .., ?_⟩
      refine (inv.laid.forget (fun _ _ _ _ => rfl) (some a)).frame fun b mem => ?_
      rw [put_other _ _ (apart b mem), put_other _ _ (apart b mem)]
    have spec : LinkedStep (items, s.mem.refusals) (.pushFront (some x)) (.status .ok)
        ((a, x) :: items, m'.refusals) := by
      rw [granted]
      exact .pushFrontOk items _ a x new
    have step := LinkedTo.added [] items inv new below more trades laid
      (fun b other there => by rwa [put_other _ _ other, put_other _ _ other] at there) spec
    refine ⟨.ok, _, _, ?_, step⟩
    -- The tail is the new node if there was none.
    have last : (if s.tail.isNone then some a else s.tail) = lastAddr none ((a, x) :: items) := by
      rw [inv.tail]
      rcases List.eq_nil_or_concat' items with rfl | ⟨before, i, rfl⟩
      · rfl
      · rw [lastAddr, lastAddr_concat, lastAddr_concat]
        rfl
    simp only [listPushFront, listMakeNode, made, edit_eq (put_same ..), inv.head, last]
    rfl

theorem listPushBack_spec (inv : ListInv s items) (x : α) :
    ∃ st s' items', listPushBack s (some x) = some (st, s') ∧
      ListTo (.pushBack (some x)) s items (.status st) s' items' := by
  rcases makeNode_spec inv ⟨none, x⟩ with ⟨m', made, refused, more, quiet⟩ |
    ⟨a, m', made, granted, more, below, new, trades⟩
  · refine ⟨.oom, { s with mem := m' }, items, ?_,
      .refused inv more quiet (.pushBackOom items _ _ x refused)⟩
    simp only [listPushBack, listMakeNode, made]
  · have here : put s.nodes a ⟨none, x⟩ a = some (ListNode.linked s.tail none x) := put_same ..
    obtain ⟨nodes, linked, step⟩ := LinkedTo.pushedBack ListNode.setNext (fun _ _ _ _ => rfl) inv
      new below more granted trades here fun b other => put_other _ _ other
    refine ⟨.ok, _, _, ?_, step⟩
    simp only [listPushBack, listMakeNode, made, linked, Option.bind_eq_bind, Option.bind_some,
      Option.pure_def]

theorem listPopFront_spec (inv : ListInv s items) (out : Bool) :
    ∃ answer s' items', listPopFront s out = some (answer, s') ∧
      ListTo (.popFront out) s items answer s' items' := by
  cases items with
  | nil =>
    refine ⟨copied none out, s, [], ?_, .same inv (.popFrontMiss _ out)⟩
    simp only [listPopFront, inv.head, firstAddr]
  | cons i items =>
    obtain ⟨a, x⟩ := i
    have here : s.nodes a = some ⟨firstAddr items none, x⟩ := inv.laid.1
    have apart := (List.nodup_cons.mp inv.distinct).1
    have laid : Laid ListNode.linked (free s.nodes a) none items none := by
      refine (inv.laid.2.forget (fun _ _ _ _ => rfl) none).frame fun b mem => ?_
      exact free_other _ fun same => apart (same ▸ mem)
    have step := LinkedTo.dropped [] items inv laid
      (fun b there => by
        have other : b ≠ a := fun same => there (by simp [same])
        exact ⟨other, free_other s.nodes other ▸ there⟩)
      (.popFrontHit a x items _ out)
    refine ⟨_, _, _, ?_, step⟩
    -- The tail is reset if the node was the only one.
    have last : (if (firstAddr items none).isNone then none else s.tail) = lastAddr none items := by
      rw [inv.tail]
      rcases List.eq_nil_or_concat' items with rfl | ⟨before, j, rfl⟩
      · rfl
      · rw [lastAddr, lastAddr_concat, lastAddr_concat, firstAddr_append]
        cases before <;> rfl
    have head : s.head = some a := inv.head
    simp only [listPopFront, head, here, freeNode, Option.bind_eq_bind, Option.bind_some,
      Option.map_some, Option.pure_def, last, List.nil_append]

/-- The search stops at the node before the last one, and follows no NULL. -/
theorem listBefore_spec {nodes : Nodes (ListNode α)} {a b : Nat} {x y : α}
    (pre : List (Nat × α)) : ∀ (p : Option Nat) (fuel : Nat),
      Laid ListNode.linked nodes p (pre ++ [(a, x)] ++ [(b, y)]) none →
      b ∉ addrs (pre ++ [(a, x)]) → pre.length < fuel →
      listBefore nodes (some b) fuel (firstAddr (pre ++ [(a, x)] ++ [(b, y)]) none) = some a := by
  induction pre with
  | nil =>
    intro p fuel laid _ enough
    cases fuel with
    | zero => simp at enough
    | succ fuel =>
      have here : nodes a = some ⟨some b, x⟩ := laid.1
      simp [listBefore, firstAddr, here]
  | cons i pre ih =>
    obtain ⟨c, z⟩ := i
    intro p fuel laid apart enough
    cases fuel with
    | zero => simp at enough
    | succ fuel =>
      have here : nodes c = some ⟨firstAddr (pre ++ [(a, x)] ++ [(b, y)]) none, z⟩ := laid.1
      have later : b ∉ addrs (pre ++ [(a, x)]) := fun mem => apart (List.mem_cons_of_mem _ mem)
      have on : firstAddr (pre ++ [(a, x)] ++ [(b, y)]) none ≠ some b := by
        obtain ⟨d, mem, first⟩ := firstAddr_mem (List.append_ne_nil_of_right_ne_nil pre
          (List.cons_ne_nil (a, x) []))
        rw [firstAddr_append, first]
        exact fun same => later (Option.some.inj same ▸ mem)
      have first : firstAddr ((c, z) :: pre ++ [(a, x)] ++ [(b, y)]) none = some c := rfl
      simp only [first, listBefore, Option.bind_eq_bind, Option.bind_some, here, if_neg on]
      exact ih (some c) fuel laid.2 later (Nat.lt_of_succ_lt_succ enough)

theorem listPopBack_spec (inv : ListInv s items) (out : Bool) :
    ∃ answer s' items', listPopBack s out = some (answer, s') ∧
      ListTo (.popBack out) s items answer s' items' := by
  rcases List.eq_nil_or_concat' items with rfl | ⟨before, ⟨b, y⟩, rfl⟩
  · refine ⟨copied none out, s, [], ?_, .same inv (.popBackMiss _ out)⟩
    simp only [listPopBack, inv.head, firstAddr]
  · have last : s.tail = some b := inv.tail.trans (lastAddr_concat ..)
    rcases List.eq_nil_or_concat' before with rfl | ⟨pre, ⟨a, x⟩, rfl⟩
    · have first : s.head = some b := inv.head
      obtain ⟨answer, s', items', popped, same⟩ := listPopFront_spec inv out
      refine ⟨answer, s', items', ?_, same.single⟩
      simp only [listPopBack, first, last, if_true]
      exact popped
    · have distinct := inv.distinct
      rw [addrs_append, List.nodup_append] at distinct
      have apart : ∀ c ∈ addrs (pre ++ [(a, x)]), c ≠ b :=
        fun c mem => distinct.2.2 c mem b List.mem_cons_self
      obtain ⟨laid, last_node, -⟩ := (laid_append none none _ [(b, y)]).mp inv.laid
      have kept : Laid ListNode.linked (free s.nodes b) none (pre ++ [(a, x)]) (some b) :=
        laid.frame fun c mem => free_other _ (apart c mem)
      have at_prev : free s.nodes b a = some ⟨some b, x⟩ := kept.node
      have cut := kept.setNext distinct.1 none
      have spec : LinkedStep (pre ++ [(a, x)] ++ [(b, y)], s.mem.refusals) (.popBack out)
          (copied (some y) out) (pre ++ [(a, x)] ++ [], s.mem.refusals) := by
        rw [List.append_nil]
        exact .popBackHit (pre ++ [(a, x)]) b y _ out
      have step := LinkedTo.dropped (pre ++ [(a, x)]) [] inv (by rw [List.append_nil]; exact cut)
        (fun c there => by
          have before : free s.nodes b c ≠ none := by
            by_cases same : c = a
            · simp [same, at_prev]
            · rwa [put_other _ _ same] at there
          have other : c ≠ b := fun same => before (by simp [same])
          exact ⟨other, free_other s.nodes other ▸ before⟩) spec
      rw [List.append_nil] at step
      refine ⟨_, _, _, ?_, step⟩
      have room : pre.length < s.len := by
        rw [inv.len]
        simp only [List.length_append, List.length_cons, List.length_nil]
        omega
      have searched : listBefore s.nodes s.tail s.len s.head = some a := by
        rw [last, inv.head]
        exact listBefore_spec pre none s.len inv.laid (fun mem => apart b mem rfl) room
      obtain ⟨h, mem, first⟩ := firstAddr_mem (List.append_ne_nil_of_right_ne_nil pre
        (List.cons_ne_nil (a, x) []))
      have head : s.head = some h := by
        rw [inv.head, firstAddr_append, first]
      have two : ¬some h = some b := fun same => apart h mem (Option.some.inj same)
      rw [head, last] at searched
      simp only [listPopBack, head, last, if_neg two, searched, last_node, freeNode,
        edit_eq at_prev, Option.bind_eq_bind, Option.bind_some, Option.map_some, first,
        lastAddr_concat, Option.pure_def]
      rfl

end Ops

/-! ### Runs -/

theorem listStep_spec {s : ListT α} {items : List (Nat × α)} (op : LinkedOp α)
    (inv : ListInv s items) :
    ∃ out s' items', listStep op s = some (out, s') ∧ ListTo op s items out s' items' := by
  cases op with
  | pushFront elem =>
    cases elem with
    | none => exact ⟨_, s, items, rfl, .same inv (.pushFrontInvalid _)⟩
    | some x =>
      obtain ⟨st, s', items', call, step⟩ := listPushFront_spec inv x
      exact ⟨_, s', items', by rw [listStep, call]; rfl, step⟩
  | pushBack elem =>
    cases elem with
    | none => exact ⟨_, s, items, rfl, .same inv (.pushBackInvalid _)⟩
    | some x =>
      obtain ⟨st, s', items', call, step⟩ := listPushBack_spec inv x
      exact ⟨_, s', items', by rw [listStep, call]; rfl, step⟩
  | popFront out => exact listPopFront_spec inv out
  | popBack out => exact listPopBack_spec inv out
  | front out =>
    refine ⟨_, s, items, ?_, .same inv (.front items _ out)⟩
    rw [listStep, listFront, listFrontPtr, nodeData_first (fun _ _ _ => rfl) inv]
    rfl
  | back out =>
    refine ⟨_, s, items, ?_, .same inv (.back items _ out)⟩
    rw [listStep, listBack, listBackPtr, nodeData_last (fun _ _ _ => rfl) inv]
    rfl
  | clear =>
    obtain ⟨s', call, step⟩ := linkedClear_spec ListNode.next (fun _ _ _ => rfl) inv
    exact ⟨_, s', [], by rw [listStep, listClear, call]; rfl, step⟩

theorem listStep_refines (op : LinkedOp α) (s : ListT α) (g : List (Nat × α) × Nat)
    (h : ListInv s g.1 ∧ g.2 = s.mem.refusals) :
    ∃ out s' g', listStep op s = some (out, s') ∧ LinkedStep g op out g' ∧
      ListInv s' g'.1 ∧ g'.2 = s'.mem.refusals := by
  obtain ⟨items, n⟩ := g
  obtain ⟨inv, rfl⟩ := h
  obtain ⟨out, s', items', call, step⟩ := listStep_spec op inv
  exact ⟨out, s', (items', _), call, step.step, step.inv, rfl⟩

/-- Every run from `list_create` is one of a sequence whose elements stay where they are
stored. It follows no NULL, and ends with the nodes linked from `head` to `tail`, behind which
there is nothing. -/
theorem list_run_refines {elemSize : Nat} {m₀ m₁ : Mem} {s₀ : ListT α}
    (created : listCreate α elemSize m₀ = (some s₀, m₁)) (ops : List (LinkedOp α)) :
    ∃ outs s items, run listStep ops s₀ = some (outs, s) ∧
      SpecRun LinkedStep ([], m₁.refusals) ops outs (items, s.mem.refusals) ∧
      LinkedShape ListNode.elem ListNode.next s items ∧ (s.tail = none ↔ s.head = none) ∧
      ∀ a, s.tail = some a → ∃ node, s.nodes a = some node ∧ node.next = none := by
  obtain ⟨inv₀, rfl, -, -⟩ := linkedCreate_inv ListNode.linked created
  obtain ⟨outs, s, ⟨items, n⟩, ran, spec, inv, rfl⟩ := run_refines listStep LinkedStep
    listStep_refines ops (s := s₀) (g := ([], s₀.mem.refusals)) ⟨inv₀, rfl⟩
  have shape := inv.shape ListNode.elem ListNode.next (fun _ _ _ => rfl) (fun _ _ _ => rfl)
  refine ⟨outs, s, items, ran, spec, shape, shape.tail_empty.trans shape.head_empty.symm, ?_⟩
  intro a last
  rw [inv.tail] at last
  rcases List.eq_nil_or_concat' items with rfl | ⟨before, ⟨b, y⟩, rfl⟩
  · simp [lastAddr] at last
  · obtain rfl := Option.some.inj ((lastAddr_concat ..).symm.trans last)
    exact ⟨_, inv.laid.node, rfl⟩

/-- A run whose second node cannot be allocated, and that searches the node before the last. -/
theorem list_run_refines_ints :
    ∃ outs s items, run listStep
        [.pushBack (some 5), .pushFront (some 3), .pushFront (some 7), .pushBack (some 9),
          .popBack true, .popFront true]
        (⟨0, none, none, 0, 8, fun _ => none, ⟨refusingOnce 2, 1, [.alloc 0 48]⟩⟩ : ListT Int) =
          some (outs, s) ∧
      LinkedShape ListNode.elem ListNode.next s items := by
  have created : listCreate Int 8 (.start (refusingOnce 2)) =
      (some ⟨0, none, none, 0, 8, fun _ => none, ⟨refusingOnce 2, 1, [.alloc 0 48]⟩⟩,
        ⟨refusingOnce 2, 1, [.alloc 0 48]⟩) := rfl
  obtain ⟨outs, s, items, ran, -, shape, -⟩ := list_run_refines created
    [.pushBack (some 5), .pushFront (some 3), .pushFront (some 7), .pushBack (some 9),
      .popBack true, .popFront true]
  exact ⟨outs, s, items, ran, shape⟩

end Seqc
