import Seqc.Cursors
import Seqc.Lib.Chain

/-! What list.c and dlist.c share: the struct, a heap of nodes, the operations and what they
answer. A load, a store or a free through NULL, or through a pointer to a node that is not
there, is undefined: `none`. -/

namespace Seqc
open Chain Iteration

variable {ν α : Type}

/-- `list_t` or `dlist_t`, which have the same fields, with the nodes and the allocator. `len`
counts nodes with blocks of their own, of which the address space has fewer than 2^64, so it is
a plain number. -/
structure ListState (ν : Type) where
  addr : Nat
  head : Option Nat
  tail : Option Nat
  len : Nat
  elemSize : Nat
  nodes : Nodes ν
  mem : Mem

def sizeofList : Nat := 48

/-- The header, which is rounded up to the largest alignment, then the element. -/
def nodeAllocSize (elemSize : Nat) : Nat := addSize 16 elemSize

/-- `list_create` and `dlist_create`; the struct, if it can be had. -/
def linkedCreate (ν : Type) (elemSize : Nat) (m : Mem) : Option (ListState ν) × Mem :=
  match memAlloc m sizeofList with
  | (none, m) => (none, m)
  | (some addr, m) => (some ⟨addr, none, none, 0, elemSize, fun _ => none, m⟩, m)

def makeNode (s : ListState ν) (node : ν) : Option Nat × ListState ν :=
  match memAlloc s.mem (nodeAllocSize s.elemSize) with
  | (none, m) => (none, { s with mem := m })
  | (some addr, m) => (some addr, { s with nodes := put s.nodes addr node, mem := m })

def freeNode (s : ListState ν) (a : Nat) : Option (ListState ν) :=
  (s.nodes a).map fun _ =>
    { s with
      nodes := free s.nodes a
      mem := memFree s.mem (some a) (nodeAllocSize s.elemSize) }

/-- `if (p) p->next = q; else l->head = q;` -/
def linkNext (setNext : Option Nat → ν → ν) (s : ListState ν) (p q : Option Nat) :
    Option (ListState ν) :=
  match p with
  | none => some { s with head := q }
  | some p => (edit s.nodes p (setNext q)).map fun nodes => { s with nodes := nodes }

/-- `if (q) q->prev = p; else l->tail = p;` -/
def linkPrev (setPrev : Option Nat → ν → ν) (s : ListState ν) (q p : Option Nat) :
    Option (ListState ν) :=
  match q with
  | none => some { s with tail := p }
  | some q => (edit s.nodes q (setPrev p)).map fun nodes => { s with nodes := nodes }

/-- The loop of `list_clear` and `dlist_clear` from `cur` on; `fuel` bounds its passes. -/
def freeFrom (next : ν → Option Nat) :
    (fuel : Nat) → (cur : Option Nat) → ListState ν → Option (ListState ν)
  | _, none, s => some s
  | 0, some _, _ => none
  | fuel + 1, some cur, s => do
    let n ← s.nodes cur
    let s ← freeNode s cur
    freeFrom next fuel (next n) s

/-- A list has at most `len` nodes to free. -/
def linkedClear (next : ν → Option Nat) (s : ListState ν) : Option (ListState ν) := do
  let s ← freeFrom next s.len s.head s
  pure { s with head := none, tail := none, len := 0 }

def linkedDestroy (next : ν → Option Nat) (s : ListState ν) : Option Mem := do
  let s ← linkedClear next s
  pure (memFree s.mem (some s.addr) sizeofList)

/-- What a pointer to a node's data points at; NULL is `none`. -/
def nodeData (elem : ν → α) (nodes : Nodes ν) (p : Option Nat) : Option (Option α) :=
  match p with
  | none => some none
  | some a => (nodes a).map fun n => some (elem n)

/-- The `next` of the iterators: a copy of the element, and the pointer behind it. -/
def nodeIterNext (elem : ν → α) (succ : ν → Option Nat) (nodes : Nodes ν) (current : Option Nat) :
    Option (Option α × Option Nat) :=
  match current with
  | none => some (none, none)
  | some a => (nodes a).map fun n => (some (elem n), succ n)

/-- An iterator that starts at a node and follows `succ`. -/
def nodeIter (elem : ν → α) (succ : ν → Option Nat) (start : ListState ν → Option Nat)
    (s : Option (ListState ν)) (m : Mem) : Option (OwnedIterT (Option Nat) α) × Mem :=
  match s with
  | none => (none, m)
  | some s =>
    cursorIter (nodeIterNext elem succ s.nodes) sizeofListIterState s.elemSize (some (start s)) m

/-! ### Operations and what a sequence answers -/

inductive LinkedOp (α : Type) where
  | pushFront (elem : Option α)
  | pushBack (elem : Option α)
  | popFront (out : Bool)
  | popBack (out : Bool)
  | front (out : Bool)
  | back (out : Bool)
  | clear

/-- `seqc_copy_out` as the answer of a call. -/
def copied (elem : Option α) (out : Bool) : Answer α :=
  .read (seqcCopyOut elem out).1 (seqcCopyOut elem out).2

/-- What a sequence answers whose elements stay at the addresses they are stored at. The
number counts the requests refused so far; only a push fails, after one. -/
inductive LinkedStep :
    List (Nat × α) × Nat → LinkedOp α → Answer α → List (Nat × α) × Nat → Prop
  | pushFrontOk (items n a x) (new : a ∉ addrs items) :
      LinkedStep (items, n) (.pushFront (some x)) (.status .ok) ((a, x) :: items, n)
  | pushFrontOom (items n n' x) (refused : n < n') :
      LinkedStep (items, n) (.pushFront (some x)) (.status .oom) (items, n')
  | pushFrontInvalid (g) : LinkedStep g (.pushFront none) (.status .invalid) g
  | pushBackOk (items n a x) (new : a ∉ addrs items) :
      LinkedStep (items, n) (.pushBack (some x)) (.status .ok) (items ++ [(a, x)], n)
  | pushBackOom (items n n' x) (refused : n < n') :
      LinkedStep (items, n) (.pushBack (some x)) (.status .oom) (items, n')
  | pushBackInvalid (g) : LinkedStep g (.pushBack none) (.status .invalid) g
  | popFrontHit (a x items n out) :
      LinkedStep ((a, x) :: items, n) (.popFront out) (copied (some x) out) (items, n)
  | popFrontMiss (n out) : LinkedStep ([], n) (.popFront out) (copied none out) ([], n)
  | popBackHit (items a x n out) :
      LinkedStep (items ++ [(a, x)], n) (.popBack out) (copied (some x) out) (items, n)
  | popBackMiss (n out) : LinkedStep ([], n) (.popBack out) (copied none out) ([], n)
  | front (items n out) :
      LinkedStep (items, n) (.front out) (copied (items.head?.map Prod.snd) out) (items, n)
  | back (items n out) :
      LinkedStep (items, n) (.back out) (copied (items.getLast?.map Prod.snd) out) (items, n)
  | clear (items n) : LinkedStep (items, n) .clear .nothing ([], n)

/-! ### The invariant -/

/-- The nodes that are there are those of the items, linked in their order, with `head`, `tail`
and `len` to match. -/
structure LinkedInv (mk : Option Nat → Option Nat → α → ν) (s : ListState ν)
    (items : List (Nat × α)) : Prop where
  laid : Laid mk s.nodes none items none
  head : s.head = firstAddr items none
  tail : s.tail = lastAddr none items
  len : s.len = items.length
  distinct : (addrs items).Nodup
  below : ∀ a ∈ addrs items, a < s.mem.requests
  only : ∀ a, s.nodes a ≠ none → a ∈ addrs items

/-- What the heap looks like from outside: `next` leads from `head` through the nodes of the
items, which are all there are, and `tail` points to the last. -/
structure LinkedShape (elem : ν → α) (next : ν → Option Nat) (s : ListState ν)
    (items : List (Nat × α)) : Prop where
  chain : Walk next s.nodes s.head (addrs items)
  distinct : (addrs items).Nodup
  len : s.len = items.length
  tail : s.tail = (addrs items).getLast?
  head_empty : s.head = none ↔ s.len = 0
  tail_empty : s.tail = none ↔ s.len = 0
  live : ∀ a, s.nodes a ≠ none ↔ a ∈ addrs items
  elems : ∀ i ∈ items, ∃ n, s.nodes i.1 = some n ∧ elem n = i.2

/-- The blocks of the nodes. -/
def nodeBlocks (elemSize : Nat) (items : List (Nat × α)) : Blocks :=
  ((addrs items).map fun a => (a, nodeAllocSize elemSize) : List (Nat × Nat))

/-- An operation took the items to others, as a sequence does, and traded their blocks. -/
structure LinkedTo (mk : Option Nat → Option Nat → α → ν) (op : LinkedOp α) (s : ListState ν)
    (items : List (Nat × α)) (out : Answer α) (s' : ListState ν) (items' : List (Nat × α)) :
    Prop where
  inv : LinkedInv mk s' items'
  step : LinkedStep (items, s.mem.refusals) op out (items', s'.mem.refusals)
  trades : s.mem.Trades (nodeBlocks s.elemSize items) s'.mem (nodeBlocks s'.elemSize items')
  elemSize : s'.elemSize = s.elemSize
  addr : s'.addr = s.addr

section Shared
variable {mk : Option Nat → Option Nat → α → ν} {s s' : ListState ν}
  {items pre post : List (Nat × α)} {a : Nat} {x : α} {p q : Option Nat}

theorem linkedCreate_inv (mk : Option Nat → Option Nat → α → ν) {elemSize : Nat} {m m₁ : Mem}
    (created : linkedCreate ν elemSize m = (some s, m₁)) :
    LinkedInv mk s [] ∧ s.mem = m₁ ∧ m.Trades 0 m₁ {(s.addr, sizeofList)} ∧
      s.elemSize = elemSize := by
  unfold linkedCreate at created
  split at created
  · simp at created
  · rename_i addr m₂ hm
    obtain ⟨here, rfl⟩ := Prod.mk.inj created
    obtain rfl := Option.some.inj here
    exact ⟨⟨trivial, rfl, rfl, rfl, List.nodup_nil, by simp, by simp⟩, rfl, memAlloc_trades hm, rfl⟩

/-- A granted node is a new one. -/
theorem makeNode_spec (inv : LinkedInv mk s items) (node : ν) :
    (∃ m', makeNode s node = (none, { s with mem := m' }) ∧ s.mem.refusals < m'.refusals ∧
        s.mem.requests ≤ m'.requests ∧ s.mem.Trades 0 m' 0) ∨
      ∃ a m', makeNode s node = (some a, { s with nodes := put s.nodes a node, mem := m' }) ∧
        m'.refusals = s.mem.refusals ∧ s.mem.requests ≤ m'.requests ∧ a < m'.requests ∧
        a ∉ addrs items ∧ s.mem.Trades 0 m' {(a, nodeAllocSize s.elemSize)} := by
  unfold makeNode
  match hm : memAlloc s.mem (nodeAllocSize s.elemSize) with
  | (none, m') =>
    have refused := memAlloc_none hm
    exact .inl ⟨m', rfl, by omega, (memAlloc_later hm).requests_le, memAlloc_refused hm⟩
  | (some a, m') =>
    obtain ⟨more, here⟩ := memAlloc_requests hm
    have same := here a rfl
    refine .inr ⟨a, m', rfl, (memAlloc_some hm).2.2, by omega, by omega, fun mem => ?_,
      memAlloc_trades hm⟩
    have less := inv.below a mem
    omega

theorem nodeBlocks_cons (elemSize : Nat) (i : Nat × α) (items : List (Nat × α)) :
    nodeBlocks elemSize (i :: items) =
      {(i.1, nodeAllocSize elemSize)} + nodeBlocks elemSize items := rfl

theorem nodeBlocks_append (elemSize : Nat) (pre post : List (Nat × α)) :
    nodeBlocks elemSize (pre ++ post) = nodeBlocks elemSize pre + nodeBlocks elemSize post := by
  simp only [nodeBlocks, addrs_append, List.map_append, Multiset.coe_add]

/-- The list up to a node, with another pointer behind it. -/
theorem linkNext_spec (setNext : Option Nat → ν → ν)
    (fits : ∀ p q q' x, setNext q' (mk p q x) = mk p q' x)
    (laid : Laid mk s.nodes none pre p) (head : s.head = firstAddr pre p)
    (distinct : (addrs pre).Nodup) (q : Option Nat) :
    ∃ nodes, linkNext setNext s (lastAddr none pre) q =
        some { s with nodes := nodes, head := firstAddr pre q } ∧
      Laid mk nodes none pre q ∧ (∀ a ∉ addrs pre, nodes a = s.nodes a) ∧
      ∀ a, nodes a ≠ none → s.nodes a ≠ none := by
  rcases List.eq_nil_or_concat' pre with rfl | ⟨before, ⟨b, y⟩, rfl⟩
  · exact ⟨s.nodes, rfl, trivial, fun _ _ => rfl, fun _ h => h⟩
  · have here : s.nodes b = some (mk (lastAddr none before) p y) :=
      ((laid_append none p before [(b, y)]).mp laid).2.1
    have same : firstAddr (before ++ [(b, y)]) q = s.head := by
      rw [head, firstAddr_append, firstAddr_append]
      rfl
    refine ⟨put s.nodes b (mk (lastAddr none before) q y), ?_, laid.setNext distinct q,
      fun a outside => put_other _ _ fun same => outside (by simp [same]), fun a there => ?_⟩
    · rw [lastAddr_concat, same, linkNext, edit_eq here, fits]
      rfl
    · by_cases at_b : a = b
      · simp [at_b, here]
      · rwa [put_other _ _ at_b] at there

/-- The list from a node on, with another pointer before it. -/
theorem linkPrev_spec (setPrev : Option Nat → ν → ν)
    (fits : ∀ p q p' x, setPrev p' (mk p q x) = mk p' q x)
    (laid : Laid mk s.nodes q post none) (tail : s.tail = lastAddr q post)
    (distinct : (addrs post).Nodup) (p : Option Nat) :
    ∃ nodes, linkPrev setPrev s (firstAddr post none) p =
        some { s with nodes := nodes, tail := lastAddr p post } ∧
      Laid mk nodes p post none ∧ (∀ a ∉ addrs post, nodes a = s.nodes a) ∧
      ∀ a, nodes a ≠ none → s.nodes a ≠ none := by
  cases post with
  | nil => exact ⟨s.nodes, rfl, trivial, fun _ _ => rfl, fun _ h => h⟩
  | cons i post =>
    obtain ⟨b, y⟩ := i
    have here : s.nodes b = some (mk q (firstAddr post none) y) := laid.1
    have same : lastAddr p ((b, y) :: post) = s.tail := tail.symm
    refine ⟨put s.nodes b (mk p (firstAddr post none) y), ?_, laid.setPrev distinct p,
      fun a outside => put_other _ _ fun same => outside (by simp [same]), fun a there => ?_⟩
    · rw [firstAddr, same, linkPrev, edit_eq here, fits]
      rfl
    · by_cases at_b : a = b
      · simp [at_b, here]
      · rwa [put_other _ _ at_b] at there

/-- The loop frees the items from the first on, and nothing else. -/
theorem freeFrom_spec {next : ν → Option Nat} (fits : ∀ p q x, next (mk p q x) = q)
    (items : List (Nat × α)) :
    ∀ (s : ListState ν) (p : Option Nat) (fuel : Nat), Laid mk s.nodes p items none →
      (addrs items).Nodup → items.length ≤ fuel →
      ∃ nodes m', freeFrom next fuel (firstAddr items none) s =
          some { s with nodes := nodes, mem := m' } ∧
        (∀ a, nodes a ≠ none → s.nodes a ≠ none ∧ a ∉ addrs items) ∧
        m'.refusals = s.mem.refusals ∧ s.mem.Trades (nodeBlocks s.elemSize items) m' 0 := by
  induction items with
  | nil =>
    intro s p fuel _ _ _
    refine ⟨s.nodes, s.mem, ?_, fun a there => ⟨there, by simp⟩, rfl, .refl _ _⟩
    cases fuel <;> rfl
  | cons i items ih =>
    obtain ⟨b, y⟩ := i
    intro s p fuel laid distinct enough
    obtain ⟨apart, distinct⟩ := List.nodup_cons.mp distinct
    cases fuel with
    | zero => simp at enough
    | succ fuel =>
      have here : s.nodes b = some (mk p (firstAddr items none) y) := laid.1
      have others : Laid mk (free s.nodes b) (some b) items none :=
        laid.2.frame fun a mem => free_other _ fun same => apart (same ▸ mem)
      have freed := memFree_trades s.mem b (nodeAllocSize s.elemSize)
      obtain ⟨nodes, m', run, only, quiet, trades⟩ := ih
        { s with
          nodes := free s.nodes b
          mem := memFree s.mem (some b) (nodeAllocSize s.elemSize) }
        (some b) fuel others distinct (Nat.le_of_succ_le_succ enough)
      refine ⟨nodes, m', ?_, fun a there => ?_, by rw [quiet, memFree_refusals], ?_⟩
      · simp only [freeFrom, firstAddr, here, freeNode, Option.bind_eq_bind, Option.bind_some,
          Option.map_some, fits]
        exact run
      · obtain ⟨before, outside⟩ := only a there
        have apart : a ≠ b := fun same => before (by simp [same])
        have same : free s.nodes b a = s.nodes a := free_other _ apart
        exact ⟨same ▸ before, by simp [apart, outside]⟩
      · rw [nodeBlocks_cons]
        exact (freed.within _ rfl (zero_add _).symm).trans trades

theorem linkedClear_spec (next : ν → Option Nat) (fits : ∀ p q x, next (mk p q x) = q)
    (inv : LinkedInv mk s items) :
    ∃ s', linkedClear next s = some s' ∧ LinkedTo mk .clear s items .nothing s' [] := by
  obtain ⟨nodes, m', run, only, quiet, trades⟩ :=
    freeFrom_spec fits items s none s.len inv.laid inv.distinct inv.len.ge
  refine ⟨{ s with head := none, tail := none, len := 0, nodes := nodes, mem := m' },
    by rw [linkedClear, inv.head, run]; rfl, ⟨trivial, rfl, rfl, rfl, List.nodup_nil,
    by simp, fun a there => ?_⟩, ?_, trades, rfl, rfl⟩
  · obtain ⟨before, outside⟩ := only a there
    exact absurd (inv.only a before) outside
  · simp only [quiet]
    exact .clear items _

/-- `list_front` and `dlist_front`. -/
theorem nodeData_first {elem : ν → α} (fits : ∀ p q x, elem (mk p q x) = x)
    (inv : LinkedInv mk s items) :
    nodeData elem s.nodes s.head = some (items.head?.map Prod.snd) := by
  rw [inv.head]
  cases items with
  | nil => rfl
  | cons i items =>
    have here := inv.laid.1
    simp [nodeData, firstAddr, here, fits]

theorem nodeData_last {elem : ν → α} (fits : ∀ p q x, elem (mk p q x) = x)
    (inv : LinkedInv mk s items) :
    nodeData elem s.nodes s.tail = some (items.getLast?.map Prod.snd) := by
  rw [inv.tail]
  rcases List.eq_nil_or_concat' items with rfl | ⟨before, ⟨b, y⟩, rfl⟩
  · rfl
  · have here := ((laid_append none none before [(b, y)]).mp inv.laid).2.1
    rw [lastAddr_concat]
    simp [nodeData, here, fits]

theorem LinkedInv.shape (elem : ν → α) (next : ν → Option Nat)
    (elem_fits : ∀ p q x, elem (mk p q x) = x) (next_fits : ∀ p q x, next (mk p q x) = q)
    (inv : LinkedInv mk s items) : LinkedShape elem next s items where
  chain := inv.head ▸ inv.laid.walk_next next_fits
  distinct := inv.distinct
  len := inv.len
  tail := by rw [inv.tail, lastAddr_eq]
  head_empty := by rw [inv.head, inv.len, firstAddr_eq_none, List.length_eq_zero_iff]
  tail_empty := by rw [inv.tail, inv.len, lastAddr_eq_none, List.length_eq_zero_iff]
  live a := ⟨inv.only a, inv.laid.there a⟩
  elems := inv.laid.elems elem_fits

/-- A call from the first of the items on does what it does on the list of their elements. -/
theorem nodeIterNext_refines {elem : ν → α} {succ : ν → Option Nat} {nodes : Nodes ν}
    (walk : Walk succ nodes p (addrs items))
    (elems : ∀ i ∈ items, ∃ n, nodes i.1 = some n ∧ elem n = i.2) :
    ∃ x p', nodeIterNext elem succ nodes p = some (x, p') ∧
      listIterNext (items.map Prod.snd) = some (x, items.tail.map Prod.snd) ∧
      Walk succ nodes p' (addrs items.tail) := by
  cases items with
  | nil =>
    obtain rfl : p = none := walk
    exact ⟨none, none, rfl, rfl, rfl⟩
  | cons i items =>
    obtain ⟨rfl, n, here, rest⟩ := walk
    obtain ⟨n', here', same⟩ := elems i List.mem_cons_self
    obtain rfl := Option.some.inj (here.symm.trans here')
    exact ⟨some i.2, succ n, by simp [nodeIterNext, here, same], rfl, rest⟩

theorem nodeIterNext_yields {elem : ν → α} {succ : ν → Option Nat} {nodes : Nodes ν} (m : Mem)
    (walk : Walk succ nodes p (addrs items))
    (elems : ∀ i ∈ items, ∃ n, nodes i.1 = some n ∧ elem n = i.2) :
    ∃ p', Yields (fun _ => cursorNext (nodeIterNext elem succ nodes)) p m
      (items.map Prod.snd) p' m := by
  induction items generalizing p with
  | nil =>
    obtain ⟨x, p', call, same, -⟩ := nodeIterNext_refines walk elems
    obtain ⟨rfl, -⟩ := Prod.mk.inj (Option.some.inj same)
    exact ⟨p', .ended ⟨0, by simp [cursorNext, call]⟩⟩
  | cons i items ih =>
    obtain ⟨x, p₁, call, same, rest⟩ := nodeIterNext_refines walk elems
    obtain ⟨rfl, -⟩ := Prod.mk.inj (Option.some.inj same)
    obtain ⟨p', later⟩ := ih rest fun j mem => elems j (List.mem_cons_of_mem _ mem)
    exact ⟨p', .item ⟨0, by simp [cursorNext, call]⟩ later⟩

/-- The iterator, if it can be had, yields the elements in the order of the walk. -/
theorem nodeIter_yields {elem : ν → α} {succ : ν → Option Nat} {start : ListState ν → Option Nat}
    (walk : Walk succ s.nodes (start s) (addrs items))
    (elems : ∀ i ∈ items, ∃ n, s.nodes i.1 = some n ∧ elem n = i.2) {m m' : Mem}
    {it : OwnedIterT (Option Nat) α} (made : nodeIter elem succ start (some s) m = (some it, m'))
    (m₁ : Mem) : ∃ p', Yields it.next it.state m₁ (items.map Prod.snd) p' m₁ := by
  rw [nodeIter, cursorIter] at made
  split at made
  · simp at made
  · obtain ⟨same, -⟩ := Prod.mk.inj made
    obtain rfl := Option.some.inj same
    exact nodeIterNext_yields m₁ walk elems

/-! ### Operations -/

/-- A request does not touch the list. -/
theorem LinkedInv.atMem (inv : LinkedInv mk s items) {m' : Mem}
    (more : s.mem.requests ≤ m'.requests) : LinkedInv mk { s with mem := m' } items :=
  { inv with below := fun a mem => (inv.below a mem).trans_le more }

/-- A new node between the items. -/
theorem LinkedTo.added (pre post : List (Nat × α)) {op : LinkedOp α} {out : Answer α}
    {nodes : Nodes ν} {m' : Mem} (inv : LinkedInv mk s (pre ++ post))
    (new : a ∉ addrs (pre ++ post)) (below : a < m'.requests)
    (more : s.mem.requests ≤ m'.requests)
    (granted : s.mem.Trades 0 m' {(a, nodeAllocSize s.elemSize)})
    (laid : Laid mk nodes none (pre ++ (a, x) :: post) none)
    (only : ∀ b, b ≠ a → nodes b ≠ none → s.nodes b ≠ none)
    (step : LinkedStep (pre ++ post, s.mem.refusals) op out
      (pre ++ (a, x) :: post, m'.refusals)) :
    LinkedTo mk op s (pre ++ post) out
      { s with
        nodes := nodes
        head := firstAddr (pre ++ (a, x) :: post) none
        tail := lastAddr none (pre ++ (a, x) :: post)
        len := s.len + 1
        mem := m' } (pre ++ (a, x) :: post) := by
  have distinct := inv.distinct
  have older := inv.below
  have len := inv.len
  rw [addrs_append] at new distinct older
  rw [List.length_append] at len
  have split : (addrs (pre ++ (a, x) :: post)).Perm (a :: (addrs pre ++ addrs post)) := by
    rw [addrs_append, addrs_cons]
    exact List.perm_middle
  refine ⟨⟨laid, rfl, rfl, ?_, split.nodup_iff.mpr (List.nodup_cons.mpr ⟨new, distinct⟩), ?_, ?_⟩,
    step, ?_, rfl, rfl⟩
  · simp only [len, List.length_append, List.length_cons]
    omega
  · intro b mem
    cases split.mem_iff.mp mem with
    | head => exact below
    | tail _ mem => exact (older b mem).trans_le more
  · intro b there
    refine split.mem_iff.mpr ?_
    by_cases same : b = a
    · exact same ▸ List.mem_cons_self
    · have mem := inv.only b (only b same there)
      rw [addrs_append] at mem
      exact List.mem_cons_of_mem _ mem
  · refine granted.within (nodeBlocks s.elemSize (pre ++ post)) (zero_add _).symm ?_
    rw [nodeBlocks_append, nodeBlocks_append, nodeBlocks_cons]
    abel

/-- A new node behind the items, once the last one, or the list, is linked to it. -/
theorem LinkedTo.pushedBack (setNext : Option Nat → ν → ν)
    (fits : ∀ p q q' x, setNext q' (mk p q x) = mk p q' x) (inv : LinkedInv mk s items)
    {start : Nodes ν} {m' : Mem} (new : a ∉ addrs items) (below : a < m'.requests)
    (more : s.mem.requests ≤ m'.requests) (granted : m'.refusals = s.mem.refusals)
    (trades : s.mem.Trades 0 m' {(a, nodeAllocSize s.elemSize)})
    (here : start a = some (mk s.tail none x)) (others : ∀ b, b ≠ a → start b = s.nodes b) :
    ∃ nodes, linkNext setNext { s with nodes := start, mem := m' } s.tail (some a) =
        some { s with
          nodes := nodes
          head := firstAddr (items ++ [(a, x)]) none
          mem := m' } ∧
      LinkedTo mk (.pushBack (some x)) s items (.status .ok)
        { s with
          nodes := nodes
          head := firstAddr (items ++ [(a, x)]) none
          tail := some a
          len := s.len + 1
          mem := m' } (items ++ [(a, x)]) := by
  have apart : ∀ b ∈ addrs items, b ≠ a := fun b mem same => new (same ▸ mem)
  obtain ⟨nodes, linked, laid, kept, only⟩ := linkNext_spec
    (s := { s with nodes := start, mem := m' }) setNext fits
    (inv.laid.frame fun b mem => others b (apart b mem)) inv.head inv.distinct (some a)
  have all : Laid mk nodes none (items ++ [(a, x)]) none := by
    refine (laid_append none none items [(a, x)]).mpr ⟨laid, ?_, trivial⟩
    rw [kept a new, ← inv.tail]
    exact here
  have inv' : LinkedInv mk s (items ++ []) := (List.append_nil items).symm ▸ inv
  have new' : a ∉ addrs (items ++ []) := (List.append_nil items).symm ▸ new
  have spec : LinkedStep (items ++ [], s.mem.refusals) (.pushBack (some x)) (.status .ok)
      (items ++ [(a, x)], m'.refusals) := by
    rw [List.append_nil, granted]
    exact .pushBackOk items _ a x new
  have step := LinkedTo.added items [] inv' new' below more trades all
    (fun b other there => others b other ▸ only b there) spec
  rw [List.append_nil, lastAddr_concat] at step
  have first : firstAddr items (some a) = firstAddr (items ++ [(a, x)]) none := by
    rw [firstAddr_append]
    rfl
  rw [← inv.tail, first] at linked
  exact ⟨nodes, linked, step⟩

/-- A node is taken from between the items and freed. -/
theorem LinkedTo.dropped (pre post : List (Nat × α)) {op : LinkedOp α} {out : Answer α}
    {nodes : Nodes ν} (inv : LinkedInv mk s (pre ++ (a, x) :: post))
    (laid : Laid mk nodes none (pre ++ post) none)
    (only : ∀ b, nodes b ≠ none → b ≠ a ∧ s.nodes b ≠ none)
    (step : LinkedStep (pre ++ (a, x) :: post, s.mem.refusals) op out
      (pre ++ post, s.mem.refusals)) :
    LinkedTo mk op s (pre ++ (a, x) :: post) out
      { s with
        nodes := nodes
        head := firstAddr (pre ++ post) none
        tail := lastAddr none (pre ++ post)
        len := s.len - 1
        mem := memFree s.mem (some a) (nodeAllocSize s.elemSize) } (pre ++ post) := by
  have len := inv.len
  rw [List.length_append, List.length_cons] at len
  have split : (addrs (pre ++ (a, x) :: post)).Perm (a :: addrs (pre ++ post)) := by
    rw [addrs_append, addrs_append, addrs_cons]
    exact List.perm_middle
  refine ⟨⟨laid, rfl, rfl, ?_, (List.nodup_cons.mp (split.nodup_iff.mp inv.distinct)).2, ?_, ?_⟩,
    ?_, ?_, rfl, rfl⟩
  · simp only [len, List.length_append]
    omega
  · intro b mem
    exact inv.below b (split.mem_iff.mpr (List.mem_cons_of_mem _ mem))
  · intro b there
    obtain ⟨other, before⟩ := only b there
    exact List.mem_of_ne_of_mem other (split.mem_iff.mp (inv.only b before))
  · rw [memFree_refusals]
    exact step
  · refine (memFree_trades s.mem a _).within (nodeBlocks s.elemSize (pre ++ post)) ?_
      (zero_add _).symm
    rw [nodeBlocks_append, nodeBlocks_append, nodeBlocks_cons]
    abel

/-- A push whose node is refused. -/
theorem LinkedTo.refused {op : LinkedOp α} {out : Answer α} {m' : Mem} (inv : LinkedInv mk s items)
    (more : s.mem.requests ≤ m'.requests) (quiet : s.mem.Trades 0 m' 0)
    (step : LinkedStep (items, s.mem.refusals) op out (items, m'.refusals)) :
    LinkedTo mk op s items out { s with mem := m' } items :=
  ⟨inv.atMem more, step, quiet.within _ (zero_add _).symm (zero_add _).symm, rfl, rfl⟩

/-- Taking the only item from the front is taking it from the back. -/
theorem LinkedTo.single {out : Bool} {answer : Answer α} {items' : List (Nat × α)}
    (h : LinkedTo mk (.popFront out) s [(a, x)] answer s' items') :
    LinkedTo mk (.popBack out) s [(a, x)] answer s' items' := by
  refine { h with step := ?_ }
  have step := h.step
  generalize s.mem.refusals = n, s'.mem.refusals = n', only : [(a, x)] = items at step
  cases step with
  | popFrontHit =>
    obtain ⟨first, rfl⟩ := List.cons.inj only
    obtain ⟨rfl, rfl⟩ := Prod.mk.inj first
    exact .popBackHit [] a x n out
  | popFrontMiss => simp at only

/-- A call that changes nothing. -/
theorem LinkedTo.same {op : LinkedOp α} {out : Answer α} (inv : LinkedInv mk s items)
    (step : LinkedStep (items, s.mem.refusals) op out (items, s.mem.refusals)) :
    LinkedTo mk op s items out s items :=
  ⟨inv, step, .refl _ _, rfl, rfl⟩

end Shared

end Seqc
