import Seqc.InOrder

/-! `X_push_lo` under refusals. The search for the first element of a range pushes the
elements that are not below `lo` on one path, from the top down; a growth of the stack that is
refused ends it, and `X_iter_range` returns what was pushed. Its iterator then begins behind
the least element of the range. -/

namespace Seqc
open Comparator Iteration Runs

variable {ι δ κ ν : Type} {before beyond : δ → Bool} {st st' : TreeIterState ι δ}
  {m m' : Mem} {a : Allocator} {first k : Nat} {done : Bool}

/-- The elements that the search pushes, in this order. -/
def loPath (before : δ → Bool) : Tree ι δ → List δ
  | .nil => []
  | .node _ _ l d r => if before d then loPath before r else d :: loPath before l

/-- The capacity of the stack after `k` growths. -/
def stackRoom (k : Nat) : Nat := roomAfter treeIterStackInitCap k

/-- Growth number `k` of the stack is granted, number 0 being request number `first`. -/
def Allocator.growthGranted (a : Allocator) (first k : Nat) : Bool :=
  a.grants (first + k) (stackRoom (k + 1) * sizeofNodePointer)

/-- The number of the first request that the stack makes. -/
def firstGrowth (hi : Option κ) (m : Mem) : Nat := m.requests + 1 + (if hi.isSome then 1 else 0)

/-- If a growth of the stack is refused that the search needs, all elements pushed until then
lie above `hi`, so that the iterator has nothing to yield. -/
def PrimesWhole (cmp : κ → κ → Int) (key : δ → κ) (root : Tree ι δ) (lo hi : Option κ) (m : Mem) :
    Prop :=
  let path := lo.elim [] fun lo => loPath (fun d => decide (cmp (key d) lo < 0)) root
  ∀ k, (∀ i < k, m.allocator.growthGranted (firstGrowth hi m) i = true) →
    m.allocator.growthGranted (firstGrowth hi m) k = false → stackRoom k < path.length →
      ∀ d ∈ path.take (stackRoom k), hi.any (fun hi => decide (0 < cmp (key d) hi)) = true

/-- If the state and the copy of `hi` are granted, so are the growths of the stack that the
search for `lo` needs. -/
def PrimesGranted (cmp : κ → κ → Int) (key : δ → κ) (hiSize : Nat) (root : Tree ι δ)
    (lo hi : Option κ) (m : Mem) : Prop :=
  let path := lo.elim [] fun lo => loPath (fun d => decide (cmp (key d) lo < 0)) root
  m.allocator.grants m.requests sizeofTreeRangeIterState = true →
    (hi.isSome = true → m.allocator.grants (m.requests + 1) hiSize = true) →
      ∀ k, stackRoom k < path.length → m.allocator.growthGranted (firstGrowth hi m) k = true

/-! ### The growths of the stack -/

/-- The stack after `k` growths, the requests of `first, .., first + k - 1`. -/
structure Grown (a : Allocator) (first k : Nat) (st : TreeIterState ι δ) (m : Mem) : Prop where
  allocator : m.allocator = a
  requests : m.requests = first + k
  cap : st.cap = stackRoom k
  room : st.InRoom
  granted : ∀ i < k, a.growthGranted first i = true

/-- The growths that made room for what is on the stack. -/
theorem Grown.made (g : Grown a first k st m) {i : Nat} (needed : stackRoom i < st.nodes.length) :
    a.growthGranted first i = true := by
  refine g.granted i ?_
  by_contra late
  have room := g.room.1
  have := roomAfter_mono treeIterStackInitCap (Nat.not_lt.mp late)
  rw [g.cap] at room
  simp only [stackRoom] at needed room
  omega

/-- A push finds room, or its growth is granted or refused. -/
theorem Grown.push (g : Grown a first k st m) {node : Tree ι δ}
    (push : treeStackPush st node m = (done, st', m')) :
    (done = true ∧ ∃ k', Grown a first k' st' m') ∨
      (done = false ∧ st.nodes.length = stackRoom k ∧ a.growthGranted first k = false) := by
  have room := treeStackPush_inRoom g.room push
  obtain ⟨-, rfl, rfl, rfl⟩ | ⟨full, r, hm, rfl, rfl⟩ := treeStackPush_cases push
  · exact .inl ⟨rfl, k, g.allocator, g.requests, g.cap, room, g.granted⟩
  · have small := g.room.2
    simp only [sizeofNodePointer, ptrdiffMax, g.cap] at small
    have double : (if st.cap = 0 then treeIterStackInitCap else mulSize st.cap 2) =
        stackRoom (k + 1) := by
      rw [g.cap]
      exact roomAfter_next (by decide) (by simp only [stackRoom] at small; omega)
    have exact_size : mulSize (stackRoom (k + 1)) sizeofNodePointer =
        stackRoom (k + 1) * sizeofNodePointer := by
      refine mulSize_of_lt ?_
      cases k with
      | zero => decide
      | succ k =>
        simp only [stackRoom, roomAfter_double, sizeofNodePointer] at small ⊢
        omega
    rw [double, exact_size] at hm
    have count := (memRealloc_requests hm).1
    have outcome := memRealloc_isSome m st.stack
      (mulSize st.cap sizeofNodePointer) (stackRoom (k + 1) * sizeofNodePointer)
    rw [hm, g.allocator, g.requests] at outcome
    cases r with
    | none => exact .inr ⟨rfl, full.trans g.cap, outcome.symm⟩
    | some grown =>
      refine .inl ⟨rfl, k + 1, (memRealloc_allocator hm).trans g.allocator,
        by rw [count, g.requests]; rfl, double, room, ?_⟩
      intro i hi
      rcases Nat.lt_succ_iff_lt_or_eq.mp hi with hi | rfl
      · exact g.granted i hi
      · exact outcome.symm

/-- The data of the nodes on the stack. -/
def heads (nodes : List (Tree ι δ)) : List δ :=
  nodes.filterMap fun
    | .nil => none
    | .node _ _ _ d _ => some d

/-- The search pushes its path, or as much of it as there is room for before the first growth
that is refused. -/
theorem treePushLo_path (t : Tree ι δ) (good : st.Stacked) (g : Grown a first k st m)
    (push : treePushLo before t st m = (st', m')) :
    (∃ k', Grown a first k' st' m' ∧ m'.refusals = m.refusals ∧
        st'.nodes.length = st.nodes.length + (loPath before t).length) ∨
      m.refusals < m'.refusals ∧ ∃ k', (∀ i < k', a.growthGranted first i = true) ∧
        a.growthGranted first k' = false ∧ st.nodes.length ≤ stackRoom k' ∧
        stackRoom k' < st.nodes.length + (loPath before t).length ∧
        heads st'.nodes =
          ((loPath before t).take (stackRoom k' - st.nodes.length)).reverse ++ heads st.nodes := by
  induction t generalizing st m k with
  | nil =>
    obtain ⟨rfl, rfl⟩ : st = st' ∧ m = m' := by simpa [treePushLo] using push
    exact .inl ⟨k, g, rfl, rfl⟩
  | node addr i l d r ihl ihr =>
    cases hb : before d with
    | true =>
      rw [loPath, if_pos hb]
      exact ihr good g (by simpa [treePushLo, hb] using push)
    | false =>
      rw [loPath, if_neg (by simp [hb]), List.length_cons]
      rcases step : treeStackPush st (.node addr i l d r) m with ⟨pushed, st₁, m₁⟩
      obtain ⟨rfl, k₁, g₁⟩ | ⟨rfl, full, refused⟩ := g.push step
      · obtain ⟨-, nodes, -, calm⟩ | ⟨absurd, -, -⟩ := treeStackPush_spec step
        · have deeper : treePushLo before l st₁ m₁ = (st', m') := by
            simpa [treePushLo, hb, step] using push
          have lengths : st₁.nodes.length = st.nodes.length + 1 := by simp [nodes]
          obtain ⟨k', g', still, all⟩ | ⟨grows, k', earlier, last, far, short, here⟩ :=
            ihl (good.push rfl nodes) g₁ deeper
          · exact .inl ⟨k', g', still.trans calm, by omega⟩
          · refine .inr ⟨by omega, k', earlier, last, by omega, by omega, ?_⟩
            obtain ⟨n, hn⟩ : ∃ n, stackRoom k' - st.nodes.length = n + 1 :=
              ⟨stackRoom k' - st.nodes.length - 1, by omega⟩
            rw [here, hn, show stackRoom k' - st₁.nodes.length = n by omega, nodes,
              List.take_succ_cons, List.reverse_cons, List.append_assoc]
            rfl
        · simp at absurd
      · obtain ⟨rfl, rfl⟩ : st₁ = st' ∧ m₁ = m' := by
          simpa [treePushLo, hb, step] using push
        obtain ⟨absurd, -⟩ | ⟨-, rfl, grows⟩ := treeStackPush_spec step
        · simp at absurd
        · refine .inr ⟨grows, k, g.granted, refused, full.le, by omega, ?_⟩
          rw [full, Nat.sub_self]
          rfl

/-- What `X_iter_range` requests before it primes the stack. -/
theorem treeIterRange_isSome {cmp : κ → κ → Int} {key : δ → κ} {hiSize elemSize : Nat}
    {root : Tree ι δ} {lo hi : Option κ} :
    (treeIterRange cmp key hiSize elemSize root lo hi m).1.isSome = true ↔
      m.allocator.grants m.requests sizeofTreeRangeIterState = true ∧
        (hi.isSome = true → m.allocator.grants (m.requests + 1) hiSize = true) := by
  have state := memAlloc_isSome m sizeofTreeRangeIterState
  rcases hm : memAlloc m sizeofTreeRangeIterState with ⟨_ | addr, m₁⟩
  · rw [hm] at state
    simp [treeIterRange, hm, ← state]
  rw [hm] at state
  cases hi with
  | none => simp [treeIterRange, hm, ← state]
  | some hi =>
    have copy := memAlloc_isSome m₁ hiSize
    rw [memAlloc_allocator hm, (memAlloc_requests hm).1] at copy
    rcases hm₁ : memAlloc m₁ hiSize with ⟨_ | hiCopy, m₂⟩
    · rw [hm₁] at copy
      simp [treeIterRange, hm, hm₁, ← copy]
    · rw [hm₁] at copy
      simp [treeIterRange, hm, hm₁, ← state, ← copy]

/-- A range iterator that was refused a request has failed, if and only if its priming is
refused none. -/
theorem treeIterRange_granted_iff (cmp : κ → κ → Int) (key : δ → κ) (hiSize elemSize : Nat)
    (root : Tree ι δ) (lo hi : Option κ) (m : Mem) :
    ((treeIterRange cmp key hiSize elemSize root lo hi m).1.isSome = true →
        (treeIterRange cmp key hiSize elemSize root lo hi m).2.refusals = m.refusals) ↔
      PrimesGranted cmp key hiSize root lo hi m := by
  rw [treeIterRange_isSome]
  by_cases granted : m.allocator.grants m.requests sizeofTreeRangeIterState = true ∧
      (hi.isSome = true → m.allocator.grants (m.requests + 1) hiSize = true)
  swap
  · exact ⟨fun _ state copy => absurd ⟨state, copy⟩ granted, fun _ works => absurd works granted⟩
  have works : (treeIterRange cmp key hiSize elemSize root lo hi m).1.isSome = true :=
    treeIterRange_isSome.mpr granted
  rcases made : treeIterRange cmp key hiSize elemSize root lo hi m with ⟨_ | it, m₁⟩
  · simp [made] at works
  obtain ⟨st, addr, hiCopy, m₂, start, -, same, count, calm⟩ := treeIterRange_made made
  have iff_primed : m₁.refusals = m.refusals ↔ PrimesGranted cmp key hiSize root lo hi m := by
    cases lo with
    | none =>
      obtain ⟨-, rfl⟩ := Prod.mk.inj start
      exact ⟨fun _ _ _ k needed => absurd needed (Nat.not_lt_zero _), fun _ => calm⟩
    | some lo =>
      have grown : Grown m.allocator (firstGrowth hi m) 0
          (⟨addr, none, [], 0, .nil, hiCopy, fun _ => rfl⟩ : TreeIterState ι δ) m₂ :=
        ⟨same, count, rfl, inRoom_empty addr .nil hiCopy, fun _ lt => absurd lt (Nat.not_lt_zero _)⟩
      obtain ⟨k', grown', still, all⟩ | ⟨grows, k', -, last, -, short, -⟩ :=
        treePushLo_path root (by simp [TreeIterState.Stacked]) grown start
      · refine ⟨fun _ _ _ k needed => grown'.made ?_, fun _ => still.trans calm⟩
        rw [all]
        simpa using needed
      · refine ⟨fun quiet => by omega, fun primed => ?_⟩
        have needed := primed granted.1 granted.2 k' (by simpa using short)
        simp [last] at needed
  exact ⟨fun quiet => iff_primed.mp (quiet granted), fun primed _ => iff_primed.mpr primed⟩

/-! ### What is left of the range -/

section Range
variable {cmp : κ → κ → Int} {key : δ → κ}

/-- Nothing is left if and only if all that was pushed lies above the bound. -/
theorem left_eq_nil_iff (laws : Laws cmp) {hi : Option κ} (good : st.Stacked)
    (none : st.current = .nil) (asc : Ascending cmp key (st.nodes.flatMap (stacked false))) :
    st.left false (fun d => hi.any fun hi => decide (0 < cmp (key d) hi)) = [] ↔
      ∀ d ∈ heads st.nodes, hi.any (fun hi => decide (0 < cmp (key d) hi)) = true := by
  simp only [TreeIterState.left, none, Tree.walk_nil, List.nil_append]
  rcases top : st.nodes with _ | ⟨_ | ⟨addr, i, l, d, r⟩, nodes⟩
  · simp [heads]
  · simpa [top, Tree.isNull] using good .nil
  · rw [top] at asc
    obtain ⟨above, -⟩ := List.pairwise_cons.mp asc
    constructor
    · intro nothing e he
      have past : hi.any (fun hi => decide (0 < cmp (key d) hi)) = true := by
        by_contra inside
        simp [stacked, inside] at nothing
      rcases List.mem_cons.mp he with rfl | he
      · exact past
      · obtain ⟨n, hn, hd⟩ := List.mem_filterMap.mp he
        have behind : e ∈ nodes.flatMap (stacked false) := by
          refine List.mem_flatMap.mpr ⟨n, hn, ?_⟩
          cases n with
          | nil => simp at hd
          | node _ _ _ e' _ =>
            obtain rfl : e' = e := by simpa using hd
            exact List.mem_cons_self
        have more := above e (List.mem_append_right _ behind)
        cases hi with
        | none => simp at past
        | some hi =>
          simp only [Option.any_some, decide_eq_true_eq] at past ⊢
          have back := laws.lt_of_lt_of_le ((laws.flip hi (key d)).mpr past) more.le
          exact (laws.flip hi (key e)).mp back
    · intro all
      have past := all d List.mem_cons_self
      rw [List.flatMap_cons, stacked, List.cons_append, List.takeWhile_cons_of_neg (by simp [past])]

/-- A state without a current node needs no request for its next element. -/
theorem treeIterNext_ready (good : st.Stacked) (none : st.current = .nil)
    (some : st.left false beyond ≠ []) (m : Mem) :
    ∃ d st', treeIterNext false beyond st m = Option.some (Option.some d, st', m) := by
  obtain ⟨addr, stack, nodes, cap, current, hi, null⟩ := st
  obtain rfl : current = .nil := none
  match nodes with
  | [] => simp [TreeIterState.left] at some
  | .nil :: nodes => simpa [Tree.isNull] using good .nil
  | .node a i l d r :: nodes =>
    cases hb : beyond d with
    | true => simp [TreeIterState.left, stacked, hb] at some
    | false =>
      exact ⟨d, ⟨addr, stack, nodes, cap, r, hi, null⟩, by simp [treeIterNext, pushSpine, hb]⟩

/-- What a range iterator yields is a prefix of the range if and only if it was primed whole. -/
theorem treeIterRange_prefix (laws : Laws cmp) {hiSize elemSize : Nat} {root : Tree ι δ}
    (asc : Ascending cmp key root.toList) {lo hi : Option κ} {m m₁ : Mem}
    {it : OwnedIterT (TreeIterState ι δ) δ}
    (made : treeIterRange cmp key hiSize elemSize root lo hi m = (some it, m₁)) (m₂ : Mem) :
    ∃ zs st' m', Yields it.next it.state m₂ zs st' m' ∧
      (zs <+: (TreeWalk.iterRange lo hi).elems cmp key root ↔
        PrimesWhole cmp key root lo hi m) := by
  obtain ⟨st, addr, hiCopy, m₃, start, rfl, same, count, -⟩ := treeIterRange_made made
  obtain ⟨good, lost, found, outcome⟩ := treeRangeStart_spec laws asc start
  obtain ⟨out, whole, none_lost, some_lost⟩ := range_split laws asc hi found
  obtain ⟨zs, st', m', run, initial, -, -⟩ := (treeIter_falters (ι := ι) false
    fun d => hi.any fun hi => decide (0 < cmp (key d) hi)).yields good m₂
  refine ⟨zs, st', m', run, ?_⟩
  have prefix_of_whole (none : lost = []) :
      zs <+: (TreeWalk.iterRange lo hi).elems cmp key root := by
    rw [TreeWalk.elems, whole, none_lost none]
    exact initial
  cases lo with
  | none =>
    obtain ⟨rfl, rfl⟩ := Prod.mk.inj start
    have calm : lost = [] := by
      rcases outcome with ⟨-, none⟩ | ⟨grows, -⟩
      · exact none
      · omega
    exact ⟨fun _ => by simp [PrimesWhole], fun _ => prefix_of_whole calm⟩
  | some lo =>
    have grown : Grown m.allocator (firstGrowth hi m) 0
        (⟨addr, none, [], 0, .nil, hiCopy, fun _ => rfl⟩ : TreeIterState ι δ) m₃ :=
      ⟨same, count, rfl, inRoom_empty addr .nil hiCopy, fun _ lt => absurd lt (Nat.not_lt_zero _)⟩
    obtain ⟨-, current, -⟩ := treePushLo_spec laws lo root asc (by simp [TreeIterState.Stacked])
      start
    obtain ⟨k', grown', calm, all⟩ | ⟨grows, k', earlier, last, -, short, pushed⟩ :=
      treePushLo_path root (by simp [TreeIterState.Stacked]) grown start
    · have none : lost = [] := by
        rcases outcome with ⟨-, none⟩ | ⟨grows, -⟩
        · exact none
        · omega
      refine ⟨fun _ k before refused short => ?_, fun _ => prefix_of_whole none⟩
      -- A growth that is refused comes too late to matter.
      have needed : stackRoom k < st.nodes.length := by
        rw [all]
        simpa using short
      simp [grown'.made needed] at refused
    · obtain ⟨calm, -⟩ | ⟨-, some⟩ := outcome
      · omega
      have kept : Ascending cmp key (lost ++ st.nodes.flatMap (stacked false)) := by
        rw [current] at found
        exact asc.sublist (found ▸ List.dropWhile_sublist _)
      have rest : st.left false (fun d => hi.any fun hi => decide (0 < cmp (key d) hi)) = [] ↔
          PrimesWhole cmp key root (Option.some lo) hi m := by
        rw [left_eq_nil_iff laws good current (List.pairwise_append.mp kept).2.1, pushed]
        constructor
        · intro past k before refused _ d hd
          obtain rfl : k' = k := by
            rcases Nat.lt_trichotomy k' k with less | same | more
            · simp [before k' less] at last
            · exact same
            · simp [earlier k more] at refused
          exact past d (by simpa [heads] using hd)
        · intro primed d hd
          exact primed k' earlier last (by simpa using short) d
            (by simpa [heads] using hd)
      rw [← rest]
      constructor
      · intro all
        by_contra more
        -- The first call returns an element; the range begins with one that was lost.
        obtain ⟨d, st₁, next⟩ := treeIterNext_ready good current more m₂
        have mono := (treeRangeT cmp key hiSize elemSize hi st).mono
        have call : Returns (treeRangeT cmp key hiSize elemSize hi st).next st m₂
            (Option.some d) st₁ m₂ := ⟨0, next⟩
        have inside : Ascending cmp key
            ((TreeWalk.iterRange (Option.some lo) hi).elems cmp key root) :=
          asc.sublist List.filter_sublist
        rw [TreeWalk.elems, whole] at all inside
        cases run with
        | ended returns =>
          exact absurd (returns.unique mono call).1 (by simp)
        | item returns rest =>
          obtain ⟨same, -, -⟩ := returns.unique mono call
          obtain rfl := Option.some.inj same
          obtain ⟨x, out', rfl⟩ :=
            List.exists_cons_of_ne_nil fun empty => more (some_lost some empty)
          obtain ⟨rfl, -⟩ := List.cons_prefix_cons.mp all
          have less := (List.pairwise_append.mp inside).2.2 _ List.mem_cons_self _
            (initial.subset List.mem_cons_self)
          rw [laws.self] at less
          exact absurd less (lt_irrefl 0)
      · intro nothing
        rw [nothing, List.prefix_nil] at initial
        rw [initial]
        exact List.nil_prefix

end Range

/-! ### The three files -/

/-- For every valid iterator of a range that `make` makes: from any memory, what it yields up
to its first `false` is a prefix of the range if and only if it was primed whole. -/
def PrefixIff (cmp : κ → κ → Int) (key : δ → κ) (root : Tree ι δ)
    (make : Option κ → Option κ → Mem → Option (OwnedIterT (TreeIterState ι δ) δ) × Mem) : Prop :=
  ∀ (lo hi : Option κ) (m m₁ : Mem) (it : OwnedIterT (TreeIterState ι δ) δ),
    make lo hi m = (some it, m₁) → ∀ m₂ : Mem,
      ∃ zs st' m', Yields it.next it.state m₂ zs st' m' ∧
        (zs <+: (TreeWalk.iterRange lo hi).elems cmp key root ↔ PrimesWhole cmp key root lo hi m)

/-- A range iterator yields a prefix of its range, whatever is refused to its calls, if and
only if no refused growth of the stack cut its priming short behind an element of the range. -/
theorem ranges_begin_whole {cmp : κ → κ → Int} (laws : Laws cmp) :
    (∀ t : Bstree κ, Ascending cmp id t.root.toList →
      PrefixIff cmp id t.root (bstreeIterRange cmp (some t))) ∧
    (∀ t : AvlT κ, Ascending cmp id t.root.toList →
      PrefixIff cmp id t.root (avlIterRange cmp (some t))) ∧
    ∀ map : Omap κ ν, Ascending cmp Prod.fst map.root.toList →
      PrefixIff cmp Prod.fst map.root (omapIterRange cmp (some map)) := by
  refine ⟨fun t asc => ?_, fun t asc => ?_, fun map asc => ?_⟩
  · exact fun lo hi m m₁ it made m₂ => treeIterRange_prefix laws asc made m₂
  · exact fun lo hi m m₁ it made m₂ => treeIterRange_prefix laws asc made m₂
  · exact fun lo hi m m₁ it made m₂ => treeIterRange_prefix laws asc made m₂

theorem ranges_begin_whole_ints :
    PrefixIff intCmp id (.node 1 () .nil 3 (.node 2 () .nil 5 .nil))
      (bstreeIterRange intCmp
        (some ⟨0, .node 1 () .nil 3 (.node 2 () .nil 5 .nil), 2, 8⟩)) :=
  (ranges_begin_whole (ν := Unit) intCmp_laws).1
    ⟨0, .node 1 () .nil 3 (.node 2 () .nil 5 .nil), 2, 8⟩
    (List.pairwise_pair.mpr (by decide))

/-- A spine of 17 nodes that falls to the left. -/
def fallingAdds : List (AvlOp Int) := (List.range 17).map fun i => .add (some (17 - i))

/-- The push of the node 1 is refused room: of the range from 1 on, the valid iterator yields
2 first and never 1. -/
theorem range_begins_late : ∃ outs t m it m₁ zs st' m',
    run (bstreeStep intCmp) fallingAdds
      (⟨0, .nil, 0, 4⟩, ⟨refusingOnce 20, 1, [.alloc 0 48]⟩) = some (outs, (t, m)) ∧
    bstreeIterRange intCmp (some t) (some 1) none m = (some it, m₁) ∧
    (TreeWalk.iterRange (some 1) none).elems intCmp id t.root =
      (List.range 17).map (fun i => (i : Int) + 1) ∧
    Yields it.next it.state m₁ zs st' m' ∧ zs = (List.range 16).map (fun i => (i : Int) + 2) :=
  ⟨_, _, _, _, _, _, _, _, rfl, rfl, rfl, yields_of_readUpTo 0 17 rfl (by decide), rfl⟩

end Seqc
