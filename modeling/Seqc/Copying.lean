import Seqc.Filling
import Seqc.HashmapRun
import Seqc.Truncation

/-! What the iterators of all collections give to whoever calls them, and what a collection
becomes that is filled from another. -/

namespace Seqc
open Iteration ClassMap Comparator Heap Chain

variable {σ τ α β γ κ ν : Type} {ι δ : Type} {m m' m₁ : Mem}

/-! ### Cursors -/

/-- A cursor gives from any memory what it gave from one. -/
theorem cursor_delivers {next : σ → Option (Option β × σ)} {s s' : σ} {xs : List β}
    (yields : Yields (fun _ => cursorNext next) s m xs s' m') :
    Delivers (fun _ => cursorNext next) Mem.refusals (fun _ => True) s xs {xs} := by
  have anywhere {s s₁ : σ} {x : Option β} {m m₁ : Mem}
      (returns : Returns (fun _ => cursorNext next) s m x s₁ m₁) (m₂ : Mem) :
      Returns (fun _ => cursorNext next) s m₂ x s₁ m₂ := by
    obtain ⟨_, call⟩ := returns
    obtain ⟨⟨_, _⟩, read, same⟩ := Option.map_eq_some_iff.mp call
    cases same
    exact ⟨0, Option.map_eq_some_iff.mpr ⟨_, read, rfl⟩⟩
  induction yields with
  | ended returns => exact .nil (anywhere returns) trivial
  | item returns rest ih => exact .cons (anywhere returns) ih

theorem yields_of_while {next : Nat → σ → Mem → Option (Option β × σ × Mem)} {fuel : Nat}
    {s s' : σ} {done ys : List β}
    (run : whileNext next (fun x ys m => (true, ys ++ [x], m)) fuel s done m = some (ys, s', m')) :
    ∃ xs, ys = done ++ xs ∧ Yields next s m xs s' m' := by
  induction fuel generalizing s done m with
  | zero => simp [whileNext] at run
  | succ fuel ih =>
    rw [whileNext] at run
    split at run
    · simp at run
    · rename_i call
      cases run
      exact ⟨[], by simp, .ended ⟨_, call⟩⟩
    · rename_i x s₁ m₁ call
      obtain ⟨xs, rfl, rest⟩ := ih run
      exact ⟨x :: xs, by simp, .item ⟨_, call⟩ rest⟩

/-! ### What an iterator gives -/

/-- Unless a request is refused on the way, there are `xs` to be had of what was made. -/
def Served (m : Mem) (made : Option (IterT σ β) × Mem) (size : Nat) (xs : List β) : Prop :=
  made.2.refusals = m.refusals → ∀ i ∈ made.1, ∃ it : OwnedIterT σ β,
    it.toIterT = i ∧ it.elemSize = size ∧ it.Gives xs

/-- The iterator without its custody. -/
def plain (made : Option (OwnedIterT σ β) × Mem) : Option (IterT σ β) × Mem :=
  (made.1.map OwnedIterT.toIterT, made.2)

theorem gives_of_only {it : OwnedIterT σ β} {xs : List β}
    (h : Delivers it.next Mem.refusals (fun _ => True) it.state xs {xs}) : it.Gives xs :=
  h.weaken (fun _ => id) fun _ same => same ▸ List.prefix_rfl

theorem served_of_yields {next : σ → Option (Option β × σ)} {size elemSize : Nat}
    {start : Option σ} {xs : List β}
    (yields : ∀ s ∈ start, ∃ m s' m', Yields (fun _ => cursorNext next) s m xs s' m') (m : Mem) :
    Served m (plain (cursorIter next size elemSize start m)) elemSize xs := by
  intro _ i made
  cases start with
  | none => simp [plain, cursorIter] at made
  | some s =>
    obtain ⟨_, _, _, yields⟩ := yields s rfl
    rcases hm : memAlloc m size with ⟨_ | addr, m₁⟩
    · simp [plain, cursorIter, hm] at made
    · obtain rfl : (cursorIterT next size elemSize addr s).toIterT = i := by
        simpa [plain, cursorIter, hm] using made
      exact ⟨_, rfl, rfl, gives_of_only (cursor_delivers yields)⟩

/-- What was read from a cursor once is what it gives. -/
theorem served_of_items {next : σ → Option (Option β × σ)} {size elemSize fuel : Nat}
    {start : Option σ} {xs : List β} {it : Option (IterT σ β)}
    (made : plain (cursorIter next size elemSize start m) = (it, m₁))
    (read : iterItems fuel it m₁ = some (some xs, m')) :
    Served m (plain (cursorIter next size elemSize start m)) elemSize xs := by
  refine served_of_yields (fun s hs => ?_) m
  obtain rfl := hs
  rcases hm : memAlloc m size with ⟨_ | addr, m₂⟩
  · obtain ⟨rfl, rfl⟩ : none = it ∧ m₂ = m₁ := by simpa [plain, cursorIter, hm] using made
    simp [iterItems] at read
  · obtain ⟨rfl, rfl⟩ : _ = it ∧ m₂ = m₁ := by simpa [plain, cursorIter, hm] using made
    simp only [iterItems] at read
    split at read
    · simp at read
    · rename_i ys s' m₃ run
      cases read
      obtain ⟨xs, rfl, yields⟩ := yields_of_while run
      exact ⟨_, _, _, yields⟩

theorem Served.gives {made : Option (OwnedIterT σ β) × Mem} {size : Nat} {xs : List β}
    (served : Served m (plain made) size xs) {it : OwnedIterT σ β} (here : made = (some it, m₁))
    (calm : m₁.refusals = m.refusals) : it.elemSize = size ∧ it.Gives xs := by
  subst here
  obtain ⟨it', same, size, gives⟩ := served calm it.toIterT rfl
  rw [OwnedIterT.Gives, same] at gives
  exact ⟨same ▸ size, gives⟩

theorem served_none (m : Mem) {m' : Mem} (size : Nat) (xs : List β) :
    Served (σ := σ) m (none, m') size xs := by
  rintro - i made
  simp at made

/-! ### The sources -/

theorem slice_served (s : Slice α) (m : Mem) :
    Served m (plain (sliceIter s m)) s.elemSize s.contents ∧
      Served m (plain (sliceIterRev s m)) s.elemSize s.contents.reverse := by
  constructor
  · rcases sliceIter_items s m with ⟨it, m₁, m', made, read, -⟩ | ⟨m', made, -⟩
    · exact served_of_items (congrArg plain made) read
    · rw [made]
      exact served_none m _ _
  · rcases sliceIterRev_items s m with ⟨it, m₁, m', made, read, -⟩ | ⟨m', made, -⟩
    · exact served_of_items (congrArg plain made) read
    · rw [made]
      exact served_none m _ _

/-- The vector of a stack or of a queue of priorities may be missing. -/
theorem vec_served (v : Option (Vec α)) (m : Mem) :
    Served m (plain (vecIter v m)) (vecElemSize v) (vecContents v) ∧
      Served m (plain (vecIterRev v m)) (vecElemSize v) (vecContents v).reverse := by
  cases v with
  | none => exact ⟨served_none m _ _, served_none m _ _⟩
  | some v => exact slice_served _ m

theorem queueIterOf_served {next : QueueIterState α → Option (Option α × QueueIterState α)}
    {start : Queue α → Option Nat} {q : Queue α} {fuel : Nat} {xs : List α}
    (spec : (∃ it m₁ m', queueIterOf next start (some q) m = some (it, m₁) ∧
        iterItems fuel it m₁ = some (some xs, m') ∧ m'.refusals = m.refusals) ∨
      ∃ m', queueIterOf next start (some q) m = some (none, m') ∧ m.refusals < m'.refusals) :
    ∃ made, queueIterOf next start (some q) m = some made ∧ Served m made q.elemSize xs := by
  rcases spec with ⟨it, m₁, m', made, read, -⟩ | ⟨m', made, -⟩
  · cases there : start q with
    | none =>
      rcases hm : memAlloc m sizeofQueueIterState with ⟨_ | addr, m₂⟩
      · obtain ⟨rfl, rfl⟩ : none = it ∧ m₂ = m₁ := by simpa [queueIterOf, hm] using made
        simp [iterItems] at read
      · simp [queueIterOf, hm, there] at made
    | some pos =>
      have cursor := queueIterOf_cursor next start q there m
      exact ⟨_, cursor, served_of_items (Option.some.inj (cursor.symm.trans made)) read⟩
  · exact ⟨_, made, served_none m _ _⟩

theorem queue_served {q : Queue α} {xs : List α} (inv : QueueInv q xs) (m : Mem) :
    (∃ made, queueIter (some q) m = some made ∧ Served m made q.elemSize xs) ∧
      ∃ made, queueIterRev (some q) m = some made ∧ Served m made q.elemSize xs.reverse :=
  ⟨queueIterOf_served (queueIter_spec inv m), queueIterOf_served (queueIterRev_spec inv m)⟩

theorem ringbufIterOf_served {next : RingbufIterState α → Option (Option α × RingbufIterState α)}
    {start : Ringbuf α → Nat} {r : Ringbuf α} {fuel : Nat} {xs : List α}
    (spec : (∃ it m₁ m', ringbufIterOf next start (some r) m = (it, m₁) ∧
        iterItems fuel it m₁ = some (some xs, m') ∧ m'.refusals = m.refusals) ∨
      ∃ m', ringbufIterOf next start (some r) m = (none, m') ∧ m.refusals < m'.refusals) :
    Served m (ringbufIterOf next start (some r) m) r.elemSize xs := by
  rcases spec with ⟨it, m₁, m', made, read, -⟩ | ⟨m', made, -⟩
  · rw [ringbufIterOf_cursor] at made ⊢
    exact served_of_items made read
  · rw [made]
    exact served_none m _ _

theorem ringbuf_served {r : Ringbuf α} {xs : List α} (inv : RingbufInv r xs) (m : Mem) :
    Served m (ringbufIter (some r) m) r.elemSize xs ∧
      Served m (ringbufIterRev (some r) m) r.elemSize xs.reverse :=
  ⟨ringbufIterOf_served (ringbufIter_spec inv m), ringbufIterOf_served (ringbufIterRev_spec inv m)⟩

theorem setIterOf_served {next : SetIterState κ → Option κ × SetIterState κ}
    {start : SetT κ → Nat} {s : SetT κ} {fuel : Nat} {xs : List κ}
    (spec : (∃ it m₁ m', setIterOf next start s m = (it, m₁) ∧
        iterItems fuel it m₁ = some (some xs, m') ∧ m'.refusals = m.refusals) ∨
      ∃ m', setIterOf next start s m = (none, m') ∧ m.refusals < m'.refusals) :
    Served m (setIterOf next start s m) s.elemSize xs := by
  rcases spec with ⟨it, m₁, m', made, read, -⟩ | ⟨m', made, -⟩
  · rw [setIterOf_cursor] at made ⊢
    exact served_of_items made read
  · rw [made]
    exact served_none m _ _

theorem set_served (s : SetT κ) (m : Mem) :
    Served m (setIter s m) s.elemSize s.members ∧
      Served m (setIterRev s m) s.elemSize s.members.reverse :=
  ⟨setIterOf_served (setIter_spec s m), setIterOf_served (setIterRev_spec s m)⟩

theorem list_served {s : ListT α} {m₀ : Mem} {xs : List α}
    (holds : ListHolds ListNode.linked s m₀ xs) (m : Mem) :
    Served m (plain (listIterIn (some s) m)) s.elemSize xs := by
  obtain ⟨items, inv, rfl⟩ := holds
  have shape := inv.shape ListNode.elem ListNode.next (fun _ _ _ => rfl) (fun _ _ _ => rfl)
  refine served_of_yields (fun _ start => ?_) m
  cases start
  obtain ⟨p, yields⟩ := nodeIterNext_yields m shape.chain shape.elems
  exact ⟨m, p, m, yields⟩

theorem dlist_served {s : DlistT α} {m₀ : Mem} {xs : List α}
    (holds : ListHolds DlistNode.mk s m₀ xs) (m : Mem) :
    Served m (plain (dlistIterIn (some s) m)) s.elemSize xs ∧
      Served m (plain (dlistIterRevIn (some s) m)) s.elemSize xs.reverse := by
  obtain ⟨items, inv, rfl⟩ := holds
  have shape := inv.shape DlistNode.elem DlistNode.next (fun _ _ _ => rfl) (fun _ _ _ => rfl)
  have back : Walk DlistNode.prev s.nodes s.tail (addrs items).reverse :=
    inv.tail ▸ inv.laid.walk_prev fun _ _ _ => rfl
  constructor
  · refine served_of_yields (fun _ start => ?_) m
    cases start
    obtain ⟨p, yields⟩ := nodeIterNext_yields m shape.chain shape.elems
    exact ⟨m, p, m, yields⟩
  · rw [← List.map_reverse]
    rw [addrs, ← List.map_reverse] at back
    refine served_of_yields (fun _ start => ?_) m
    cases start
    obtain ⟨p, yields⟩ := nodeIterNext_yields m back
      fun i mem => shape.elems i (List.mem_reverse.mp mem)
    exact ⟨m, p, m, yields⟩

/-- The calls of a cursor are those of a scan. -/
theorem yields_of_drain {next : σ → Option α × σ} {call : τ → Option (Option β × τ)} (wrap : σ → τ)
    (f : α → β) (calls : ∀ s, call (wrap s) = some ((next s).1.map f, wrap (next s).2))
    {count : Nat} {s : σ} {xs : List α} (all : drain next count s = some xs) (m : Mem) :
    ∃ s', Yields (fun _ => cursorNext call) (wrap s) m (xs.map f) s' m := by
  induction count generalizing s xs with
  | zero => simp [drain] at all
  | succ count ih =>
    rw [drain] at all
    split at all
    · rename_i s₁ last
      cases all
      exact ⟨wrap s₁, .ended ⟨0, by simp [cursorNext, calls, last]⟩⟩
    · rename_i x s₁ item
      obtain ⟨ys, rest, rfl⟩ := Option.map_eq_some_iff.mp all
      obtain ⟨s', later⟩ := ih rest
      exact ⟨s', .item ⟨0, by simp [cursorNext, calls, item]⟩ later⟩

theorem hashmap_served (map : Hashmap κ ν) (m : Mem) :
    Served m (plain (hashmapIter (some map) m)) sizeofHashmapEntry map.contents ∧
      Served m (plain (hashmapIterRev (some map) m)) sizeofHashmapEntry map.contents.reverse := by
  constructor
  · refine served_of_yields (fun _ start => ?_) m
    cases start
    have calls (slot : Nat) : hashmapIterCall hashmapIterNext ⟨map, slot⟩ =
        some ((hashmapIterNext map slot).1.map Entry.pair,
          ⟨map, (hashmapIterNext map slot).2⟩) := rfl
    obtain ⟨s', yields⟩ := yields_of_drain (HashmapIterState.mk map) _ calls
      (hashmapIterAll_eq map) m
    exact ⟨m, s', m, yields⟩
  · rw [Hashmap.contents, ← List.map_reverse]
    refine served_of_yields (fun _ start => ?_) m
    cases start
    have calls (slot : Nat) : hashmapIterCall hashmapIterRevNext ⟨map, slot⟩ =
        some ((hashmapIterRevNext map slot).1.map Entry.pair,
          ⟨map, (hashmapIterRevNext map slot).2⟩) := rfl
    obtain ⟨s', yields⟩ := yields_of_drain (HashmapIterState.mk map) _ calls
      (hashmapIterRevAll_eq map) m
    exact ⟨m, s', m, yields⟩

theorem treeWalk_elemSize {cmp : κ → κ → Int} {key : δ → κ} {root : Tree ι δ}
    {hiSize elemSize : Nat} {w : TreeWalk κ} {it : OwnedIterT (TreeIterState ι δ) δ}
    (made : treeWalk cmp key hiSize elemSize root w m = (some it, m')) :
    it.elemSize = elemSize := by
  cases w with
  | iter =>
    rcases hm : memAlloc m sizeofTreeIterState with ⟨_ | addr, m₂⟩
    · simp [treeWalk, treeIter, hm] at made
    · obtain ⟨rfl, -⟩ : _ = it ∧ m₂ = m' := by simpa [treeWalk, treeIter, hm] using made
      rfl
  | iterRev =>
    rcases hm : memAlloc m sizeofTreeIterState with ⟨_ | addr, m₂⟩
    · simp [treeWalk, treeIter, hm] at made
    · obtain ⟨rfl, -⟩ : _ = it ∧ m₂ = m' := by simpa [treeWalk, treeIter, hm] using made
      rfl
  | iterRange lo hi =>
    obtain ⟨st, addr, hiCopy, m₂, -, rfl, -⟩ := treeIterRange_made made
    rfl

theorem treeWalk_served {cmp : κ → κ → Int} {key : δ → κ} (laws : Laws cmp) {root : Tree ι δ}
    (asc : Ascending cmp key root.toList) (hiSize elemSize : Nat) (w : TreeWalk κ) (m : Mem) :
    Served m (plain (treeWalk cmp key hiSize elemSize root w m)) elemSize
      (w.elems cmp key root) := by
  intro calm i made
  obtain ⟨it, walked, rfl⟩ := Option.map_eq_some_iff.mp made
  obtain ⟨m₁, walked⟩ : ∃ m₁, treeWalk cmp key hiSize elemSize root w m = (some it, m₁) :=
    ⟨_, Prod.ext walked rfl⟩
  obtain ⟨falters, good, out, whole, outcome⟩ := treeWalk_spec laws asc walked
  rw [plain, walked] at calm
  obtain ⟨-, rfl⟩ := outcome.resolve_right fun refused => refused.1.ne' calm
  exact ⟨it, rfl, treeWalk_elemSize walked, whole ▸ falters.delivers good⟩

/-- What the iterators of all collections give: the elements in their order or in the opposite
one, from `lo` to `hi` if asked for, and those of a table by their slots. Other calls may come
between theirs. Only the iterators over trees request anything, and may give less if a
request is refused. -/
theorem iters_serve {cmp : κ → κ → Int} (laws : Laws cmp) (ν : Type) (m : Mem) :
    (∀ s : Slice κ, Served m (plain (sliceIter s m)) s.elemSize s.contents ∧
      Served m (plain (sliceIterRev s m)) s.elemSize s.contents.reverse) ∧
    (∀ v : Vec κ, Served m (plain (vecIter (some v) m)) v.elemSize v.contents ∧
      Served m (plain (vecIterRev (some v) m)) v.elemSize v.contents.reverse) ∧
    (∀ s : Stack κ, Served m (plain (stackIter (some s) m)) (vecElemSize s.vec) s.contents ∧
      Served m (plain (stackIterRev (some s) m)) (vecElemSize s.vec) s.contents.reverse) ∧
    (∀ q : Pqueue κ, Served m (plain (pqueueIter (some q) m)) (vecElemSize q.data) q.contents ∧
      Served m (plain (pqueueIterRev (some q) m)) (vecElemSize q.data) q.contents.reverse) ∧
    (∀ (q : Queue κ) xs, QueueInv q xs →
      (∃ made, queueIter (some q) m = some made ∧ Served m made q.elemSize xs) ∧
        ∃ made, queueIterRev (some q) m = some made ∧ Served m made q.elemSize xs.reverse) ∧
    (∀ (r : Ringbuf κ) xs, RingbufInv r xs → Served m (ringbufIter (some r) m) r.elemSize xs ∧
      Served m (ringbufIterRev (some r) m) r.elemSize xs.reverse) ∧
    (∀ (s : ListT κ) m₀ xs, ListHolds ListNode.linked s m₀ xs →
      Served m (plain (listIterIn (some s) m)) s.elemSize xs) ∧
    (∀ (s : DlistT κ) m₀ xs, ListHolds DlistNode.mk s m₀ xs →
      Served m (plain (dlistIterIn (some s) m)) s.elemSize xs ∧
        Served m (plain (dlistIterRevIn (some s) m)) s.elemSize xs.reverse) ∧
    (∀ s : SetT κ, Served m (setIter s m) s.elemSize s.members ∧
      Served m (setIterRev s m) s.elemSize s.members.reverse) ∧
    (∀ map : Hashmap κ ν,
      Served m (plain (hashmapIter (some map) m)) sizeofHashmapEntry map.contents ∧
        Served m (plain (hashmapIterRev (some map) m)) sizeofHashmapEntry map.contents.reverse) ∧
    (∀ t : Bstree κ, Ascending cmp id t.root.toList → ∀ w,
      Served m (plain (bstreeWalk cmp t w m)) t.elemSize (w.elems cmp id t.root)) ∧
    (∀ t : AvlT κ, Ascending cmp id t.root.toList → ∀ w,
      Served m (plain (avlWalk cmp t w m)) t.elemSize (w.elems cmp id t.root)) ∧
    ∀ map : Omap κ ν, Ascending cmp Prod.fst map.root.toList → ∀ w,
      Served m (plain (omapWalk cmp map w m)) sizeofOmapEntry (w.elems cmp Prod.fst map.root) := by
  refine ⟨fun s => slice_served s m, fun v => vec_served (some v) m, fun s => vec_served s.vec m,
    fun q => vec_served q.data m, fun q xs inv => queue_served inv m,
    fun r xs inv => ringbuf_served inv m, fun s m₀ xs holds => list_served holds m,
    fun s m₀ xs holds => dlist_served holds m, fun s => set_served s m,
    fun map => hashmap_served map m, fun t asc w => ?_, fun t asc w => ?_, fun map asc w => ?_⟩
  · have served := treeWalk_served laws asc t.elemSize t.elemSize w m
    cases w <;> exact served
  · have served := treeWalk_served laws asc t.elemSize t.elemSize w m
    cases w <;> exact served
  · have served := treeWalk_served laws asc map.keySize sizeofOmapEntry w m
    cases w <;> exact served

/-- The range from 2 of a tree. -/
theorem iters_serve_ints :
    Served (.start (refusingOnce 9))
      (plain (avlWalk intCmp ⟨9, .node 1 2 .nil 1 (.node 2 1 .nil 3 .nil), 2, 4⟩
        (.iterRange (some 2) none) (.start (refusingOnce 9)))) 4 [3] :=
  (iters_serve intCmp_laws Unit (.start (refusingOnce 9))).2.2.2.2.2.2.2.2.2.2.2.1
    ⟨9, .node 1 2 .nil 1 (.node 2 1 .nil 3 .nil), 2, 4⟩ (List.pairwise_pair.mpr (by decide))
    (.iterRange (some 2) none)

/-! ### Maps -/

/-- The iterator of a map, whose entries are pairs of pointers. -/
def OwnedIterT.entries (it : OwnedIterT σ (κ × ν)) : OwnedIterT σ (MapEntry κ ν) where
  next fuel s m := (it.next fuel s m).map fun r => (r.1.map fun e => (some e.1, some e.2), r.2)
  destroy := it.destroy
  state := it.state
  elemSize := it.elemSize
  owned := it.owned
  custody := {
    next := fun call => by
      obtain ⟨⟨x, s', m'⟩, given, same⟩ := Option.map_eq_some_iff.mp call
      cases same
      exact it.custody.next given
    destroy := it.custody.destroy }
  mono fuel s m r call := by
    obtain ⟨r, given, same⟩ := Option.map_eq_some_iff.mp call
    exact Option.map_eq_some_iff.mpr ⟨r, it.mono fuel s m r given, same⟩
  quiet := it.quiet

theorem OwnedIterT.Gives.entries {it : OwnedIterT σ (κ × ν)} {xs : List (κ × ν)}
    (gives : it.Gives xs) : it.entries.Gives (xs.map fun e => (some e.1, some e.2)) := by
  have called {s s' : σ} {m m' : Mem} {x : Option (κ × ν)}
      (returns : Returns it.next s m x s' m') :
      Returns it.entries.next s m (x.map fun e => (some e.1, some e.2)) s' m' := by
    obtain ⟨fuel, call⟩ := returns
    exact ⟨fuel, Option.map_eq_some_iff.mpr ⟨_, call, rfl⟩⟩
  have mapped {s : σ} {xs : List (κ × ν)} {A : Set (List (κ × ν))}
      (h : Delivers it.next Mem.refusals (fun _ => True) s xs A) :
      Delivers it.entries.next Mem.refusals (fun _ => True) s
        (xs.map fun e => (some e.1, some e.2))
        {zs | ∃ ys ∈ A, zs = ys.map fun e => (some e.1, some e.2)} := by
    induction h using Delivers.induct with
    | step s xs A _ ih =>
      refine .mk fun m => ?_
      cases ih m with
      | ended returns grows closes last calm =>
        exact .ended (called returns) grows ⟨[], closes, rfl⟩ last
          fun same => congrArg (List.map _) (calm same)
      | item returns grows rest family calm =>
        obtain ⟨-, rest⟩ := rest
        refine .item (called returns) grows rest ?_ fun same => congrArg (List.map _) (calm same)
        rintro _ ⟨ys, mem, rfl⟩
        exact ⟨_, family ys mem, rfl⟩
  refine (mapped gives).weaken (fun _ => id) ?_
  rintro _ ⟨ys, part, rfl⟩
  exact part.map _

/-- An entry of `h'` is the one of `h` or of `g`. -/
def Mixes (g h h' : κ → Option ν) : Prop := ∀ x, h' x = h x ∨ (g x).isSome ∧ h' x = g x

theorem foldl_entered (eq : κ → κ → Bool) (h : κ → Option ν) (es : List (κ × ν)) :
    (es.map fun e => (some e.1, some e.2)).foldl (entered eq) h =
      es.foldl (fun h e => insert eq h e.1 e.2) h := by
  rw [List.foldl_map]
  rfl

/-- What a map becomes that takes in the entries of another. -/
theorem Filled.mixes {eq : κ → κ → Bool} (laws : EqLaws eq) {es : List (κ × ν)}
    {g h h' : κ → Option ν} (rep : Represents eq es g) {st : Status}
    (filled : Filled (entered eq) (fun _ => False) (es.map fun e => (some e.1, some e.2)) h m st h'
      m') :
    (st = .ok ∨ st = .oom) ∧ Mixes g h h' ∧
      (m'.refusals = m.refusals → st = .ok ∧ h' = fun x => (g x).or (h x)) := by
  obtain ⟨-, status, ys, rest, whole, rfl, calm⟩ := filled
  obtain ⟨es₁, es₂, rfl, rfl, rfl⟩ := List.map_eq_append_iff.mp whole
  rw [foldl_entered]
  refine ⟨status, rep.foldl_part (List.prefix_append es₁ es₂) h, fun same => ?_⟩
  obtain ⟨ok, none⟩ | ⟨-, never⟩ := calm same
  · rw [List.map_eq_nil_iff.mp none, List.append_nil] at rep
    exact ⟨ok, rep.foldl_insert laws h⟩
  · exact never.elim

theorem Filled.map_copied {extend : ∀ {σ : Type}, Nat → Option γ → Option (IterT σ (MapEntry κ ν)) →
      Mem → Option (Status × Option γ × Mem)} {eq : κ → κ → Bool} (laws : EqLaws eq)
    {Holds : γ → Mem → (κ → Option ν) → Prop}
    (fills : Fills extend (fun _ => sizeofMapEntry) Holds (entered eq) (fun _ => False) Whole)
    {it : OwnedIterT σ (κ × ν)} {es : List (κ × ν)} (gives : it.Gives es)
    (fits : it.elemSize = sizeofMapEntry) {g h : κ → Option ν} (rep : Represents eq es g) {c : γ}
    (holds : Holds c m h) :
    ∃ fuel st c' m' h', extend fuel (some c) (some it.entries.toIterT) m = some (st, some c', m') ∧
      Holds c' m' h' ∧ (st = .ok ∨ st = .oom) ∧ Mixes g h h' ∧
      (m'.refusals = m.refusals → st = .ok ∧ h' = fun x => (g x).or (h x)) := by
  have whole : ∀ e ∈ es.map fun e => (some e.1, some e.2), Whole (e : MapEntry κ ν) := by
    intro _ mem
    obtain ⟨e, -, rfl⟩ := List.mem_map.mp mem
    exact ⟨rfl, rfl⟩
  obtain ⟨fuel, st, c', m', h', run, holds', filled⟩ :=
    fills σ c m h it.entries _ holds fits gives.entries whole
  exact ⟨fuel, st, c', m', h', run, holds', filled.mixes laws rep⟩

theorem treeIter_calm {rev : Bool} {elemSize : Nat} {root : Tree ι δ}
    {it : OwnedIterT (TreeIterState ι δ) δ} (made : treeIter rev elemSize root m = (some it, m₁)) :
    m₁.refusals = m.refusals := by
  rcases hm : memAlloc m sizeofTreeIterState with ⟨_ | addr, m₂⟩
  · simp [treeIter, hm] at made
  · obtain ⟨-, rfl⟩ : _ = it ∧ m₂ = m₁ := by simpa [treeIter, hm] using made
    exact (memAlloc_some hm).2.2

theorem cursorIter_calm {next : σ → Option (Option β × σ)} {size elemSize : Nat} {start : Option σ}
    {it : OwnedIterT σ β} (made : cursorIter next size elemSize start m = (some it, m₁)) :
    m₁.refusals = m.refusals := by
  have calm : (cursorIter next size elemSize start m).1.isSome = true →
      (cursorIter next size elemSize start m).2.refusals = m.refusals := cursorIter_refusals start m
  rw [made] at calm
  exact calm rfl

/-- A hash map is copied into an ordered map and an ordered map into a hash map: the entries
copied replace those of their keys, and if no request is refused that are all. -/
theorem maps_copy {cmp : κ → κ → Int} (laws : Laws cmp) {f : KeyFns κ} (law : f.Lawful)
    (same : f.eq = sameKey cmp) (ndebug : Bool) {k : Nat} {map : Hashmap κ ν}
    (inv : HashmapInv f k map) {g : κ → Option ν} (rep : Represents f.eq map.contents g)
    {omap : Omap κ ν} {h : κ → Option ν} (holds : OmapInv cmp omap h) (m : Mem) :
    (∀ it m₁, hashmapIter (some map) m = (some it, m₁) → ∀ m₂, ∃ fuel st omap' m' h',
      omapExtend cmp fuel (some omap) (some (it.entries.toIterT.apart _)) m₂ =
        some (st, some omap', m') ∧ OmapInv cmp omap' h' ∧ (st = .ok ∨ st = .oom) ∧
      Mixes g h h' ∧ (m'.refusals = m₂.refusals → st = .ok ∧ h' = fun x => (g x).or (h x))) ∧
    ∀ it m₁, omapIter (some omap) m = (some it, m₁) → ∀ m₂, ∃ fuel st map' m' g' k',
      hashmapExtend ndebug f fuel (some map) (some (it.entries.toIterT.apart _)) m₂ =
        some (st, some map', m') ∧ HashmapInv f k' map' ∧ Represents f.eq map'.contents g' ∧
      (st = .ok ∨ st = .oom) ∧ Mixes h g g' ∧
      (m'.refusals = m₂.refusals → st = .ok ∧ g' = fun x => (h x).or (g x)) := by
  constructor
  · intro it m₁ made m₂
    obtain ⟨fits, gives⟩ := (hashmap_served map m).1.gives made (cursorIter_calm made)
    exact Filled.map_copied laws.eqLaws ((omapSet_takes laws).fills
      (plainReaction_fits fun _ _ _ _ _ => omapSet_distinct) false fun _ => sizeofMapEntry) gives
      fits (same ▸ rep) holds
  · intro it m₁ made m₂
    obtain ⟨fits, gives⟩ := (treeWalk_served laws holds.ascending omap.keySize sizeofOmapEntry
      .iter m).gives made (treeIter_calm made)
    obtain ⟨fuel, st, map', m', g', run, ⟨k', inv', rep'⟩, rest⟩ :=
      Filled.map_copied law.toEqLaws ((hashmapSet_takes law ndebug).fills
        (plainReaction_fits fun _ _ _ _ _ => hashmapSet_distinct) false fun _ => sizeofMapEntry)
        gives fits (same ▸ holds.contents) ⟨k, inv, rep⟩
    exact ⟨fuel, st, map', m', g', k', run, inv', rep', rest⟩

/-- An ordered map with one entry is copied into an empty hash map. -/
theorem maps_copy_ints :
    ∃ fuel st map' m' g' k', hashmapExtend false (hashedBy Int.toNat intCmp) fuel
        (some ⟨0, 1, fun _ => none, 16, 0, 8, 8, 0⟩)
        (some ((treeIterT false (fun _ => false) sizeofTreeIterState 0 sizeofOmapEntry
          ⟨0, none, [], 0, .node 1 (1 : Int) .nil (5, 50) .nil, none,
            fun _ => rfl⟩).entries.toIterT.apart _))
        (.start (refusingOnce 9)) = some (st, some map', m') ∧
      HashmapInv (hashedBy Int.toNat intCmp) k' map' ∧
      Represents (sameKey intCmp) map'.contents g' ∧
      (m'.refusals = 0 → st = .ok ∧ g' 5 = some 50) := by
  have created : hashmapCreate Int Nat 8 8 (.start (refusingOnce 9)) =
      (some ⟨0, 1, fun _ => none, 16, 0, 8, 8, 0⟩,
        ⟨refusingOnce 9, 2, [.alloc 0 80, .alloc 1 384]⟩) := rfl
  obtain ⟨⟨k, inv⟩, rep⟩ := hashmapCreate_state (f := hashedBy Int.toNat intCmp) created
  have holds : OmapInv intCmp (⟨0, .node 1 1 .nil (5, 50) .nil, 1, 8, 8⟩ : Omap Int Nat)
      (insert (sameKey intCmp) empty 5 50) :=
    ⟨List.pairwise_singleton _ _, ⟨trivial, trivial, rfl, by decide, by decide⟩, rfl,
      represents_nil.cons intCmp_laws.eqLaws rfl 50⟩
  obtain ⟨fuel, st, map', m', g', k', run, inv', rep', -, -, calm⟩ :=
    (maps_copy intCmp_laws (hashedBy_intCmp Int.toNat) rfl false inv rep holds
      (.start (refusingOnce 9))).2 _ _ rfl (.start (refusingOnce 9))
  refine ⟨fuel, st, map', m', g', k', run, inv', rep', fun same => ?_⟩
  obtain ⟨ok, rfl⟩ := calm same
  exact ⟨ok, rfl⟩

/-! ### Sets -/

theorem foldl_joined {eq : α → α → Bool} {xs : List α}
    (apart : xs.Pairwise fun x y => eq x y = false) (S : Multiset α) :
    xs.foldl (joined eq) S = S + (xs.filter fun x => S.countP (fun y => eq y x) = 0 : List α) := by
  induction xs generalizing S with
  | nil => simp
  | cons x xs ih =>
    obtain ⟨first, apart⟩ := List.pairwise_cons.mp apart
    rw [List.foldl_cons, ih apart]
    by_cases absent : S.countP (fun y => eq y x) = 0
    · have same : xs.filter (fun z => (x ::ₘ S).countP (fun y => eq y z) = 0) =
          xs.filter fun z => S.countP (fun y => eq y z) = 0 := by
        refine List.filter_congr fun z hz => ?_
        rw [Multiset.countP_cons_of_neg _ (by simp [first z hz])]
      rw [joined, if_pos absent, same, List.filter_cons_of_pos (by simpa using absent),
        ← Multiset.cons_coe, Multiset.add_cons, Multiset.cons_add]
    · rw [joined, if_neg absent, List.filter_cons_of_neg (by simpa using absent)]

/-- Copied to a set that holds `S`, what was made adds those of `xs` that are not there: all of
them unless a request is refused. -/
def Unites (extend : ∀ {σ : Type}, Nat → Option γ → Option (IterT σ α) → Mem →
      Option (Status × Option γ × Mem)) (elemSize : γ → Nat) (Holds : γ → Multiset α → Prop)
    (eq : α → α → Bool) (made : Option (IterT σ α) × Mem) (xs : List α) : Prop :=
  ∀ (c : γ) (S : Multiset α), Holds c S → ∀ i ∈ made.1, i.elemSize = elemSize c → ∀ m,
    ∃ fuel st c' m' S', extend fuel (some c) (some i) m = some (st, some c', m') ∧ Holds c' S' ∧
      (st = .ok ∨ st = .oom) ∧ S ≤ S' ∧
      S' ≤ S + (xs.filter fun x => S.countP (fun y => eq y x) = 0 : List α) ∧
      (m'.refusals = m.refusals → st = .ok ∧
        S' = S + (xs.filter fun x => S.countP (fun y => eq y x) = 0 : List α))

theorem Fills.unites {extend : ∀ {σ : Type}, Nat → Option γ → Option (IterT σ α) → Mem →
      Option (Status × Option γ × Mem)} {elemSize : γ → Nat} {Holds : γ → Multiset α → Prop}
    {eq : α → α → Bool} (fills : Fills extend elemSize (fun c _ S => Holds c S) (joined eq)
      (fun _ => False) fun _ => True) {made : Option (IterT σ α) × Mem} {size : Nat} {xs : List α}
    (served : Served m made size xs) (calm : made.2.refusals = m.refusals)
    (apart : xs.Pairwise fun x y => eq x y = false) :
    Unites extend elemSize Holds eq made xs := by
  intro c S holds i here fits m₁
  obtain ⟨it, rfl, -, gives⟩ := served calm i here
  obtain ⟨fuel, st, c', m', S', run, holds', -, status, ys, rest, rfl, rfl, whole⟩ :=
    fills σ c m₁ S it xs holds fits gives fun _ _ => trivial
  refine ⟨fuel, st, c', m', _, run, holds', status, ?_⟩
  rw [foldl_joined (List.pairwise_append.mp apart).1]
  refine ⟨Multiset.le_add_right _ _, ?_, fun same => ?_⟩
  · refine add_le_add_right (Multiset.coe_le.mpr ?_) S
    exact ((List.sublist_append_left ys rest).filter _).subperm
  · obtain ⟨ok, rfl⟩ | ⟨-, never⟩ := whole same
    · exact ⟨ok, by rw [List.append_nil]⟩
    · exact never.elim

/-- The three kinds of sets take in what was made. -/
def UnitesAll (ndebug : Bool) (f : KeyFns κ) (cmp : κ → κ → Int)
    (made : Option (IterT σ κ) × Mem) (xs : List κ) : Prop :=
  Unites (fun fuel s it m => setExtend ndebug f fuel s (it.map (IterT.apart (SetT κ))) m)
    SetT.elemSize (fun s S => SetState f s ∧ SetDistinct f s ∧ (s.members : Multiset κ) = S) f.eq
    made xs ∧
  Unites (fun fuel t it m => avlExtend cmp fuel t (it.map (IterT.apart (AvlT κ))) m) AvlT.elemSize
    (fun t S => AvlInv cmp t ∧ (t.root.toList : Multiset κ) = S) (sameKey cmp) made xs ∧
  Unites (fun fuel t it m => bstreeExtend cmp fuel t (it.map (IterT.apart (Bstree κ))) m)
    Bstree.elemSize (fun t S => BstreeInv cmp t ∧ (t.root.toList : Multiset κ) = S) (sameKey cmp)
    made xs

theorem Served.unites_all {cmp : κ → κ → Int} (laws : Laws cmp) {f : KeyFns κ} (law : f.Lawful)
    (same : f.eq = sameKey cmp) (ndebug : Bool) {made : Option (IterT σ κ) × Mem} {size : Nat}
    {xs : List κ} (served : Served m made size xs) (calm : made.2.refusals = m.refusals)
    (apart : xs.Pairwise fun x y => sameKey cmp x y = false) :
    UnitesAll ndebug f cmp made xs :=
  ⟨((setAdd_takes law ndebug).fills (setReaction_fits _) true _).unites served calm (same ▸ apart),
    ((avlAddAdd_takes laws).fills (seqcReaction_fits _) true _).unites served calm apart,
    ((bstreeAddAdd_takes laws).fills (seqcReaction_fits _) true _).unites served calm apart⟩

theorem UnitesAll.nothing {cmp : κ → κ → Int} {f : KeyFns κ} {ndebug : Bool}
    {made : Option (IterT σ κ) × Mem} {xs : List κ} (none : made.1 = none) :
    UnitesAll ndebug f cmp made xs := by
  refine ⟨?_, ?_, ?_⟩ <;>
  · intro c S _ i here
    simp [none] at here

theorem setIter_calm {s : SetT κ} (made : (setIter s m).1.isSome) :
    (setIter s m).2.refusals = m.refusals := by
  rw [setIter, setIterOf_cursor] at made ⊢
  exact cursorIter_refusals _ m (by simpa using made)

theorem TreeWalk.elems_apart {cmp : κ → κ → Int} (laws : Laws cmp) {root : Tree ι κ}
    (asc : Ascending cmp id root.toList) (w : TreeWalk κ) :
    (w.elems cmp id root).Pairwise fun x y => sameKey cmp x y = false := by
  have apart : root.toList.Pairwise fun x y => sameKey cmp x y = false :=
    asc.imp fun less => by simpa [sameKey] using less.ne
  cases w with
  | iter => exact apart
  | iterRev => exact List.pairwise_reverse.mpr (apart.imp laws.eqLaws.symm_false)
  | iterRange lo hi => exact apart.filter _

/-- Copying one set to another unites them, and keeps of equal elements the one that was there:
from a hash set, or from a tree in any order or range, to a hash set or to a tree. -/
theorem sets_copy {cmp : κ → κ → Int} (laws : Laws cmp) {f : KeyFns κ} (law : f.Lawful)
    (same : f.eq = sameKey cmp) (ndebug : Bool) (m : Mem) :
    (∀ s : SetT κ, SetDistinct f s → UnitesAll ndebug f cmp (setIter s m) s.members) ∧
    (∀ t : AvlT κ, AvlInv cmp t → ∀ w, (avlWalk cmp t w m).2.refusals = m.refusals →
      UnitesAll ndebug f cmp (plain (avlWalk cmp t w m)) (w.elems cmp id t.root)) ∧
    ∀ t : Bstree κ, BstreeInv cmp t → ∀ w, (bstreeWalk cmp t w m).2.refusals = m.refusals →
      UnitesAll ndebug f cmp (plain (bstreeWalk cmp t w m)) (w.elems cmp id t.root) := by
  refine ⟨fun s distinct => ?_, fun t inv w calm => ?_, fun t inv w calm => ?_⟩
  · have apart : s.members.Pairwise fun x y => sameKey cmp x y = false :=
      List.pairwise_map.mpr (distinct.apart.imp fun h => same ▸ h.1)
    cases made : (setIter s m).1 with
    | none => exact .nothing made
    | some i =>
      exact (set_served s m).1.unites_all laws law same ndebug (setIter_calm (by simp [made])) apart
  · have served := treeWalk_served laws inv.ascending t.elemSize t.elemSize w m
    cases w <;>
      exact served.unites_all laws law same ndebug calm (TreeWalk.elems_apart laws inv.ascending _)
  · have served := treeWalk_served laws inv.ascending t.elemSize t.elemSize w m
    cases w <;>
      exact served.unites_all laws law same ndebug calm (TreeWalk.elems_apart laws inv.ascending _)

theorem sets_copy_ints :
    UnitesAll false (hashedBy Int.toNat intCmp) intCmp
      (plain (avlWalk intCmp ⟨9, .node 1 2 .nil 1 (.node 2 1 .nil 3 .nil), 2, 4⟩ .iterRev
        (.start (refusingOnce 9)))) [3, 1] :=
  (sets_copy intCmp_laws (hashedBy_intCmp Int.toNat) rfl false (.start (refusingOnce 9))).2.1
    ⟨9, .node 1 2 .nil 1 (.node 2 1 .nil 3 .nil), 2, 4⟩
    ⟨List.pairwise_pair.mpr (by decide), by simp [Avl, Tree.height], rfl⟩ .iterRev rfl

end Seqc
