import Seqc.Nodes

/-! dlist.c. A node is linked to both of its neighbours, and the list to its first and its
last. -/

namespace Seqc
open Chain Iteration Runs

variable {α : Type}

/-- `dlist_node_t`, with the element that lies behind it. -/
structure DlistNode (α : Type) where
  prev : Option Nat
  next : Option Nat
  elem : α

def DlistNode.setPrev (prev : Option Nat) (node : DlistNode α) : DlistNode α :=
  { node with prev := prev }

def DlistNode.setNext (next : Option Nat) (node : DlistNode α) : DlistNode α :=
  { node with next := next }

abbrev DlistT (α : Type) := ListState (DlistNode α)

def dlistCreate (α : Type) (elemSize : Nat) (m : Mem) : Option (DlistT α) × Mem :=
  linkedCreate (DlistNode α) elemSize m

def dlistMakeNode (s : DlistT α) (elem : α) : Option Nat × DlistT α :=
  makeNode s ⟨none, none, elem⟩

/-- `unlink_and_free`. -/
def unlinkAndFree (s : DlistT α) (a : Nat) : Option (DlistT α) := do
  let node ← s.nodes a
  let s ← linkNext DlistNode.setNext s node.prev node.next
  let node ← s.nodes a
  let s ← linkPrev DlistNode.setPrev s node.next node.prev
  let s ← freeNode s a
  pure { s with len := s.len - 1 }

def dlistPushFront (s : DlistT α) (elem : Option α) : Option (Status × DlistT α) :=
  match elem with
  | none => some (.invalid, s)
  | some x =>
    match dlistMakeNode s x with
    | (none, s) => some (.oom, s)
    | (some a, s) => do
      let nodes ← edit s.nodes a (DlistNode.setNext s.head)
      let s ← linkPrev DlistNode.setPrev { s with nodes := nodes } s.head (some a)
      pure (.ok, { s with head := some a, len := s.len + 1 })

def dlistPushBack (s : DlistT α) (elem : Option α) : Option (Status × DlistT α) :=
  match elem with
  | none => some (.invalid, s)
  | some x =>
    match dlistMakeNode s x with
    | (none, s) => some (.oom, s)
    | (some a, s) => do
      let nodes ← edit s.nodes a (DlistNode.setPrev s.tail)
      let s ← linkNext DlistNode.setNext { s with nodes := nodes } s.tail (some a)
      pure (.ok, { s with tail := some a, len := s.len + 1 })

def dlistPopFront (s : DlistT α) (out : Bool) : Option (Answer α × DlistT α) :=
  match s.head with
  | none => some (copied none out, s)
  | some a => do
    let node ← s.nodes a
    let s ← unlinkAndFree s a
    pure (copied (some node.elem) out, s)

def dlistPopBack (s : DlistT α) (out : Bool) : Option (Answer α × DlistT α) :=
  match s.tail with
  | none => some (copied none out, s)
  | some a => do
    let node ← s.nodes a
    let s ← unlinkAndFree s a
    pure (copied (some node.elem) out, s)

def dlistFrontPtr (s : DlistT α) : Option (Option α) := nodeData DlistNode.elem s.nodes s.head
def dlistBackPtr (s : DlistT α) : Option (Option α) := nodeData DlistNode.elem s.nodes s.tail

def dlistFront (s : DlistT α) (out : Bool) : Option (Answer α) :=
  (dlistFrontPtr s).map fun elem => copied elem out

def dlistBack (s : DlistT α) (out : Bool) : Option (Answer α) :=
  (dlistBackPtr s).map fun elem => copied elem out

def dlistLen (s : DlistT α) : Nat := s.len

def dlistClear (s : DlistT α) : Option (DlistT α) := linkedClear DlistNode.next s

def dlistDestroy (s : DlistT α) : Option Mem := linkedDestroy DlistNode.next s

/-- `dlist_iter` over the nodes. -/
def dlistIterIn (s : Option (DlistT α)) (m : Mem) : Option (OwnedIterT (Option Nat) α) × Mem :=
  nodeIter DlistNode.elem DlistNode.next ListState.head s m

/-- `dlist_iter_rev` over the nodes. -/
def dlistIterRevIn (s : Option (DlistT α)) (m : Mem) :
    Option (OwnedIterT (Option Nat) α) × Mem :=
  nodeIter DlistNode.elem DlistNode.prev ListState.tail s m

def dlistStep : LinkedOp α → DlistT α → Option (Answer α × DlistT α)
  | .pushFront elem, s => (dlistPushFront s elem).map fun r => (.status r.1, r.2)
  | .pushBack elem, s => (dlistPushBack s elem).map fun r => (.status r.1, r.2)
  | .popFront out, s => dlistPopFront s out
  | .popBack out, s => dlistPopBack s out
  | .front out, s => (dlistFront s out).map fun answer => (answer, s)
  | .back out, s => (dlistBack s out).map fun answer => (answer, s)
  | .clear, s => (dlistClear s).map fun s => (.nothing, s)

/-! ### Single operations -/

abbrev DlistInv (s : DlistT α) (items : List (Nat × α)) : Prop := LinkedInv DlistNode.mk s items

abbrev DlistTo (op : LinkedOp α) (s : DlistT α) (items : List (Nat × α)) (out : Answer α)
    (s' : DlistT α) (items' : List (Nat × α)) : Prop :=
  LinkedTo DlistNode.mk op s items out s' items'

section Ops
variable {s : DlistT α} {items : List (Nat × α)} {a : Nat} {x : α}

theorem dlistPushFront_spec (inv : DlistInv s items) (x : α) :
    ∃ st s' items', dlistPushFront s (some x) = some (st, s') ∧
      DlistTo (.pushFront (some x)) s items (.status st) s' items' := by
  rcases makeNode_spec inv ⟨none, none, x⟩ with ⟨m', made, refused, more, quiet⟩ |
    ⟨a, m', made, granted, more, below, new, trades⟩
  · refine ⟨.oom, { s with mem := m' }, items, ?_,
      .refused inv more quiet (.pushFrontOom items _ _ x refused)⟩
    simp only [dlistPushFront, dlistMakeNode, made]
  · have apart : ∀ b ∈ addrs items, b ≠ a := fun b mem same => new (same ▸ mem)
    obtain ⟨nodes, linked, laid, others, only⟩ := linkPrev_spec
      (s := { s with
        nodes := put (put s.nodes a ⟨none, none, x⟩) a ⟨none, s.head, x⟩
        mem := m' })
      DlistNode.setPrev (fun _ _ _ _ => rfl)
      (inv.laid.frame fun b mem =>
        (put_other _ _ (apart b mem)).trans (put_other _ _ (apart b mem)))
      inv.tail inv.distinct (some a)
    have all : Laid DlistNode.mk nodes none ((a, x) :: items) none := by
      refine ⟨?_, laid⟩
      rw [others a new, ← inv.head]
      exact put_same ..
    have spec : LinkedStep (items, s.mem.refusals) (.pushFront (some x)) (.status .ok)
        ((a, x) :: items, m'.refusals) := by
      rw [granted]
      exact .pushFrontOk items _ a x new
    have step := LinkedTo.added [] items inv new below more trades all
      (fun b other there => by
        have before : put (put s.nodes a ⟨none, none, x⟩) a ⟨none, s.head, x⟩ b ≠ none :=
          only b there
        rwa [put_other _ _ other, put_other _ _ other] at before) spec
    refine ⟨.ok, _, _, ?_, step⟩
    rw [← inv.head] at linked
    simp only [dlistPushFront, dlistMakeNode, made, edit_eq (put_same ..), DlistNode.setNext,
      linked, Option.bind_eq_bind, Option.bind_some, Option.pure_def]
    rfl

theorem dlistPushBack_spec (inv : DlistInv s items) (x : α) :
    ∃ st s' items', dlistPushBack s (some x) = some (st, s') ∧
      DlistTo (.pushBack (some x)) s items (.status st) s' items' := by
  rcases makeNode_spec inv ⟨none, none, x⟩ with ⟨m', made, refused, more, quiet⟩ |
    ⟨a, m', made, granted, more, below, new, trades⟩
  · refine ⟨.oom, { s with mem := m' }, items, ?_,
      .refused inv more quiet (.pushBackOom items _ _ x refused)⟩
    simp only [dlistPushBack, dlistMakeNode, made]
  · have here : put (put s.nodes a ⟨none, none, x⟩) a ⟨s.tail, none, x⟩ a =
        some (DlistNode.mk s.tail none x) := put_same ..
    obtain ⟨nodes, linked, step⟩ := LinkedTo.pushedBack DlistNode.setNext (fun _ _ _ _ => rfl) inv
      new below more granted trades here
      fun b other => (put_other _ _ other).trans (put_other _ _ other)
    refine ⟨.ok, _, _, ?_, step⟩
    simp only [dlistPushBack, dlistMakeNode, made, edit_eq (put_same ..), DlistNode.setPrev,
      linked, Option.bind_eq_bind, Option.bind_some, Option.pure_def]

/-- Wherever the node is, its neighbours are linked to each other, or `head` and `tail` to
them. -/
theorem unlinkAndFree_spec (pre post : List (Nat × α))
    (inv : DlistInv s (pre ++ (a, x) :: post)) {op : LinkedOp α} {out : Answer α}
    (spec : LinkedStep (pre ++ (a, x) :: post, s.mem.refusals) op out
      (pre ++ post, s.mem.refusals)) :
    ∃ s', unlinkAndFree s a = some s' ∧
      DlistTo op s (pre ++ (a, x) :: post) out s' (pre ++ post) := by
  have distinct := inv.distinct
  rw [addrs_append, addrs_cons, List.nodup_append] at distinct
  obtain ⟨pre_distinct, rest_distinct, apart⟩ := distinct
  obtain ⟨outside_post, post_distinct⟩ := List.nodup_cons.mp rest_distinct
  have outside_pre : a ∉ addrs pre := fun mem => apart a mem a List.mem_cons_self rfl
  obtain ⟨before, here, after⟩ := (laid_append none none pre ((a, x) :: post)).mp inv.laid
  -- The node before it, or the list, is linked to what is behind it.
  obtain ⟨nodes₁, linked₁, laid₁, others₁, only₁⟩ := linkNext_spec DlistNode.setNext
    (fun _ _ _ _ => rfl) before (inv.head.trans (firstAddr_append ..)) pre_distinct
    (firstAddr post none)
  have here₁ : nodes₁ a = some ⟨lastAddr none pre, firstAddr post none, x⟩ :=
    (others₁ a outside_pre).trans here
  have after₁ : Laid DlistNode.mk nodes₁ (some a) post none :=
    after.frame fun b mem => others₁ b fun mem' => apart b mem' b (List.mem_cons_of_mem _ mem) rfl
  -- What is behind it is linked to what is before it.
  obtain ⟨nodes₂, linked₂, laid₂, others₂, only₂⟩ := linkPrev_spec
    (s := { s with nodes := nodes₁, head := firstAddr pre (firstAddr post none) })
    DlistNode.setPrev (fun _ _ _ _ => rfl) after₁ (inv.tail.trans (lastAddr_append ..))
    post_distinct (lastAddr none pre)
  have here₂ : nodes₂ a = some ⟨lastAddr none pre, firstAddr post none, x⟩ :=
    (others₂ a outside_post).trans here₁
  have laid : Laid DlistNode.mk (free nodes₂ a) none (pre ++ post) none := by
    refine (laid_append none none pre post).mpr ⟨laid₁.frame fun b mem => ?_,
      laid₂.frame fun b mem => free_other _ fun same => outside_post (same ▸ mem)⟩
    have other : b ≠ a := fun same => outside_pre (same ▸ mem)
    rw [free_other _ other]
    exact others₂ b fun mem' => apart b mem b (List.mem_cons_of_mem _ mem') rfl
  have step := LinkedTo.dropped pre post inv laid (fun b there => by
    have other : b ≠ a := fun same => there (by simp [same])
    rw [free_other _ other] at there
    exact ⟨other, only₁ b (only₂ b there)⟩) spec
  refine ⟨_, ?_, step⟩
  simp only [unlinkAndFree, here, linked₁, here₁, linked₂, here₂, freeNode, firstAddr_append,
    lastAddr_append, Option.bind_eq_bind, Option.bind_some, Option.map_some, Option.pure_def]

theorem dlistPopFront_spec (inv : DlistInv s items) (out : Bool) :
    ∃ answer s' items', dlistPopFront s out = some (answer, s') ∧
      DlistTo (.popFront out) s items answer s' items' := by
  cases items with
  | nil =>
    have head : s.head = none := inv.head
    refine ⟨copied none out, s, [], ?_, .same inv (.popFrontMiss _ out)⟩
    simp only [dlistPopFront, head]
  | cons i items =>
    obtain ⟨a, x⟩ := i
    have head : s.head = some a := inv.head
    obtain ⟨s', unlinked, step⟩ := unlinkAndFree_spec [] items inv
      (.popFrontHit a x items _ out)
    refine ⟨copied (some x) out, s', items, ?_, step⟩
    have here : s.nodes a = some ⟨none, firstAddr items none, x⟩ := inv.laid.1
    simp only [dlistPopFront, head, here, unlinked, Option.bind_eq_bind, Option.bind_some,
      Option.pure_def]

theorem dlistPopBack_spec (inv : DlistInv s items) (out : Bool) :
    ∃ answer s' items', dlistPopBack s out = some (answer, s') ∧
      DlistTo (.popBack out) s items answer s' items' := by
  rcases List.eq_nil_or_concat' items with rfl | ⟨before, ⟨a, x⟩, rfl⟩
  · have tail : s.tail = none := inv.tail
    refine ⟨copied none out, s, [], ?_, .same inv (.popBackMiss _ out)⟩
    simp only [dlistPopBack, tail]
  · have tail : s.tail = some a := inv.tail.trans (lastAddr_concat ..)
    have spec : LinkedStep (before ++ [(a, x)], s.mem.refusals) (.popBack out)
        (copied (some x) out) (before ++ [], s.mem.refusals) := by
      rw [List.append_nil]
      exact .popBackHit before a x _ out
    obtain ⟨s', unlinked, step⟩ := unlinkAndFree_spec before [] inv spec
    rw [List.append_nil] at step
    refine ⟨copied (some x) out, s', before, ?_, step⟩
    have here : s.nodes a = some ⟨lastAddr none before, none, x⟩ := inv.laid.node
    simp only [dlistPopBack, tail, here, unlinked, Option.bind_eq_bind, Option.bind_some,
      Option.pure_def]

end Ops

/-! ### Runs -/

theorem dlistStep_spec {s : DlistT α} {items : List (Nat × α)} (op : LinkedOp α)
    (inv : DlistInv s items) :
    ∃ out s' items', dlistStep op s = some (out, s') ∧ DlistTo op s items out s' items' := by
  cases op with
  | pushFront elem =>
    cases elem with
    | none => exact ⟨_, s, items, rfl, .same inv (.pushFrontInvalid _)⟩
    | some x =>
      obtain ⟨st, s', items', call, step⟩ := dlistPushFront_spec inv x
      exact ⟨_, s', items', by rw [dlistStep, call]; rfl, step⟩
  | pushBack elem =>
    cases elem with
    | none => exact ⟨_, s, items, rfl, .same inv (.pushBackInvalid _)⟩
    | some x =>
      obtain ⟨st, s', items', call, step⟩ := dlistPushBack_spec inv x
      exact ⟨_, s', items', by rw [dlistStep, call]; rfl, step⟩
  | popFront out => exact dlistPopFront_spec inv out
  | popBack out => exact dlistPopBack_spec inv out
  | front out =>
    refine ⟨_, s, items, ?_, .same inv (.front items _ out)⟩
    rw [dlistStep, dlistFront, dlistFrontPtr, nodeData_first (fun _ _ _ => rfl) inv]
    rfl
  | back out =>
    refine ⟨_, s, items, ?_, .same inv (.back items _ out)⟩
    rw [dlistStep, dlistBack, dlistBackPtr, nodeData_last (fun _ _ _ => rfl) inv]
    rfl
  | clear =>
    obtain ⟨s', call, step⟩ := linkedClear_spec DlistNode.next (fun _ _ _ => rfl) inv
    exact ⟨_, s', [], by rw [dlistStep, dlistClear, call]; rfl, step⟩

theorem dlistStep_refines (op : LinkedOp α) (s : DlistT α) (g : List (Nat × α) × Nat)
    (h : DlistInv s g.1 ∧ g.2 = s.mem.refusals) :
    ∃ out s' g', dlistStep op s = some (out, s') ∧ LinkedStep g op out g' ∧
      DlistInv s' g'.1 ∧ g'.2 = s'.mem.refusals := by
  obtain ⟨items, n⟩ := g
  obtain ⟨inv, rfl⟩ := h
  obtain ⟨out, s', items', call, step⟩ := dlistStep_spec op inv
  exact ⟨out, s', (items', _), call, step.step, step.inv, rfl⟩

/-- Every run from `dlist_create` is one of a sequence, and ends with the nodes linked from
`head` to `tail` and, in the other order, from `tail` to `head`. The iterators that can be had
go over the elements in these orders. -/
theorem dlist_run_refines {elemSize : Nat} {m₀ m₁ : Mem} {s₀ : DlistT α}
    (created : dlistCreate α elemSize m₀ = (some s₀, m₁)) (ops : List (LinkedOp α)) :
    ∃ outs s items, run dlistStep ops s₀ = some (outs, s) ∧
      SpecRun LinkedStep ([], m₁.refusals) ops outs (items, s.mem.refusals) ∧
      LinkedShape DlistNode.elem DlistNode.next s items ∧
      Walk DlistNode.prev s.nodes s.tail (addrs items).reverse ∧
      (∀ m it m', dlistIterIn (some s) m = (some it, m') → ∀ m₂, ∃ st,
        Yields it.next it.state m₂ (items.map Prod.snd) st m₂) ∧
      ∀ m it m', dlistIterRevIn (some s) m = (some it, m') → ∀ m₂, ∃ st,
        Yields it.next it.state m₂ (items.map Prod.snd).reverse st m₂ := by
  obtain ⟨inv₀, rfl, -, -⟩ := linkedCreate_inv DlistNode.mk created
  obtain ⟨outs, s, ⟨items, n⟩, ran, spec, inv, rfl⟩ := run_refines dlistStep LinkedStep
    dlistStep_refines ops (s := s₀) (g := ([], s₀.mem.refusals)) ⟨inv₀, rfl⟩
  have shape := inv.shape DlistNode.elem DlistNode.next (fun _ _ _ => rfl) (fun _ _ _ => rfl)
  have back : Walk DlistNode.prev s.nodes s.tail (addrs items).reverse :=
    inv.tail ▸ inv.laid.walk_prev fun _ _ _ => rfl
  refine ⟨outs, s, items, ran, spec, shape, back, fun m it m' made m₂ => ?_,
    fun m it m' made m₂ => ?_⟩
  · exact nodeIter_yields shape.chain shape.elems made m₂
  · rw [← List.map_reverse]
    rw [addrs, ← List.map_reverse] at back
    exact nodeIter_yields back (fun i mem => shape.elems i (List.mem_reverse.mp mem)) made m₂

/-- A run whose second node cannot be allocated, and that pops from both ends. -/
theorem dlist_run_refines_ints :
    ∃ outs s items, run dlistStep
        [.pushBack (some 5), .pushFront (some 3), .pushFront (some 7), .pushBack (some 9),
          .popBack true, .popFront true]
        (⟨0, none, none, 0, 8, fun _ => none, ⟨refusingOnce 2, 1, [.alloc 0 48]⟩⟩ : DlistT Int) =
          some (outs, s) ∧
      LinkedShape DlistNode.elem DlistNode.next s items ∧
      Walk DlistNode.prev s.nodes s.tail (addrs items).reverse := by
  have created : dlistCreate Int 8 (.start (refusingOnce 2)) =
      (some ⟨0, none, none, 0, 8, fun _ => none, ⟨refusingOnce 2, 1, [.alloc 0 48]⟩⟩,
        ⟨refusingOnce 2, 1, [.alloc 0 48]⟩) := rfl
  obtain ⟨outs, s, items, ran, -, shape, back, -⟩ := dlist_run_refines created
    [.pushBack (some 5), .pushFront (some 3), .pushFront (some 7), .pushBack (some 9),
      .popBack true, .popFront true]
  exact ⟨outs, s, items, ran, shape, back⟩

end Seqc
