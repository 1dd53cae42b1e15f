import Seqc.PqueueRun

/-! The two loops of pqueue.c from any position of an array. A loop returns when fuel
for its longest path is enough, and what it returns shows that no position it read
was outside the array. -/

namespace Seqc
open Comparator Heap

variable {α : Type} {cmp : α → α → Int} {xs ys : List α} {i : Nat}

theorem swapElems_eq {j : Nat} (h : swapElems xs i j = some ys) :
    ∃ a b, xs[i]? = some a ∧ xs[j]? = some b ∧ ys = exchange xs i j a b := by
  simp only [swapElems, Option.bind_eq_bind, Option.bind_eq_some_iff, Option.pure_def] at h
  obtain ⟨a, ha, b, hb, same⟩ := h
  exact ⟨a, b, ha, hb, (Option.some.inj same).symm⟩

/-- A swap changes no third position. -/
theorem swapElems_frame {j k : Nat} (h : swapElems xs i j = some ys) (hi : k ≠ i) (hj : k ≠ j) :
    ys[k]? = xs[k]? := by
  obtain ⟨a, b, ha, hb, rfl⟩ := swapElems_eq h
  rw [exchange_getElem? ha hb, if_neg hj, if_neg hi]

/-- One test of `sift_down` keeps what it has or takes the child. -/
theorem smallerOf_cases {child s r : Nat} (h : smallerOf cmp xs child s = some r) :
    r = s ∨ r = child := by
  unfold smallerOf at h
  split at h
  · simp only [Option.bind_eq_bind, Option.bind_eq_some_iff, Option.pure_def] at h
    obtain ⟨a, -, b, -, same⟩ := h
    split at same
    · exact .inr (Option.some.inj same).symm
    · exact .inl (Option.some.inj same).symm
  · exact .inl (Option.some.inj h).symm

/-- `sift_up` changes only positions on the path from `i` to the root. -/
theorem siftUp_frame (fuel : Nat) :
    ∀ (xs : List α) (i : Nat), siftUp cmp fuel xs i = some ys →
      ∀ k, ¬Under k i → ys[k]? = xs[k]? := by
  induction fuel with
  | zero => simp [siftUp]
  | succ fuel ih =>
    intro xs i run k off
    have ne : k ≠ i := fun same => off (same ▸ .root)
    rw [siftUp] at run
    by_cases root : i = 0
    · rw [if_pos root] at run
      rw [Option.some.inj run]
    have up : Under (parent i) i := .parent (Nat.pos_of_ne_zero root)
    rw [if_neg root] at run
    simp only [Option.bind_eq_bind, Option.bind_eq_some_iff, Option.pure_def] at run
    obtain ⟨a, -, b, -, run⟩ := run
    split at run
    · obtain ⟨zs, swap, run⟩ := Option.bind_eq_some_iff.mp run
      have above : ¬Under k (parent i) := fun h => off (h.trans up)
      rw [ih zs _ run k above]
      exact swapElems_frame swap ne fun same => above (same ▸ .root)
    · rw [Option.some.inj run]

/-- `sift_down` changes only positions in the subtree rooted at `i`. -/
theorem siftDown_frame (fuel : Nat) :
    ∀ (xs : List α) (i : Nat), siftDown cmp fuel xs i = some ys →
      ∀ k, ¬Under i k → ys[k]? = xs[k]? := by
  induction fuel with
  | zero => simp [siftDown]
  | succ fuel ih =>
    intro xs i run k off
    have ne : k ≠ i := fun same => off (same ▸ .root)
    simp only [siftDown, Option.bind_eq_bind, Option.bind_eq_some_iff, Option.pure_def] at run
    obtain ⟨l, first, s, second, run⟩ := run
    split at run
    · rw [Option.some.inj run]
    · rename_i moved
      have child : s = 2 * i + 1 ∨ s = 2 * i + 2 := by
        have := smallerOf_cases first
        have := smallerOf_cases second
        omega
      have down : Under i s := (parent_eq_iff (by omega)).mpr child ▸ .parent (by omega)
      obtain ⟨zs, swap, run⟩ := Option.bind_eq_some_iff.mp run
      have below : ¬Under s k := fun h => off (down.trans h)
      rw [ih zs s run k below]
      exact swapElems_frame swap ne fun same => below (same ▸ .root)

/-- Where the children's subtrees are heaps, only the root of the subtree can be out
of order. -/
theorem DownHole.of_children
    (heaps : ∀ c, 0 < c → parent c = i → OrderedOn cmp (Under c) xs) :
    DownHole cmp (Under i) xs i where
  others c pos under ne := by
    obtain ⟨d, hd, here, below⟩ := under.through ne
    exact heaps d hd here c pos below
  across c _ _ pos up := by
    have := up.le
    have := parent_lt pos
    omega

/-- From a position whose children are the roots of heaps `sift_down` makes a heap of
the subtree, of the elements that are there. From one whose only disorder is with its
parent `sift_up` makes a heap of the array, along the path to the root. -/
theorem sifts_repair (laws : Laws cmp) (xs : List α) (i : Nat) (inside : i < xs.length) :
    ((∀ c, 0 < c → parent c = i → OrderedOn cmp (Under c) xs) →
      ∀ fuel, xs.length ≤ fuel + i → ∃ ys, siftDown cmp fuel xs i = some ys ∧
        OrderedOn cmp (Under i) ys ∧
        (entriesAt (Under i) 0 ys).Perm (entriesAt (Under i) 0 xs) ∧ ys.length = xs.length ∧
        ∀ k, ¬Under i k → ys[k]? = xs[k]?) ∧
    ((∀ c, 0 < c → c ≠ i → Le cmp xs (parent c) c) →
      (∀ c, 0 < c → parent c = i → 0 < i → Le cmp xs (parent i) c) →
      ∀ fuel, i < fuel → ∃ ys, siftUp cmp fuel xs i = some ys ∧ Ordered cmp ys ∧ ys.Perm xs ∧
        ∀ k, ¬Under k i → ys[k]? = xs[k]?) := by
  constructor
  · intro heaps fuel enough
    obtain ⟨ys, run, ordered, perm⟩ := siftDown_spec laws (fun c pos up => .child pos up) fuel xs i
      inside enough .root (DownHole.of_children heaps)
    have frame := siftDown_frame fuel xs i run
    exact ⟨ys, run, ordered, entriesAt_perm perm frame, perm.length_eq, frame⟩
  · intro others across fuel enough
    obtain ⟨ys, run, ordered, perm⟩ := siftUp_spec laws fuel xs i enough inside ⟨others, across⟩
    exact ⟨ys, run, ordered, perm, siftUp_frame fuel xs i run⟩

theorem sifts_repair_ints :
    (∃ ys, siftDown intCmp 3 [3, 1, 2] 0 = some ys ∧ OrderedOn intCmp (Under 0) ys) ∧
      ∃ ys, siftUp intCmp 3 [1, 4, 0, 5] 2 = some ys ∧ Ordered intCmp ys ∧ ys[3]? = some 5 := by
  constructor
  · have leaf (c : Nat) (pos : 0 < c) (_ : parent c = 0) :
        OrderedOn intCmp (Under c) [3, 1, 2] := by
      intro d _ under a b _ hb
      have below := under.le
      obtain ⟨inside, -⟩ := List.getElem?_eq_some_iff.mp hb
      simp only [parent, List.length_cons, List.length_nil] at below inside
      omega
    obtain ⟨ys, run, ordered, -⟩ :=
      (sifts_repair intCmp_laws [3, 1, 2] 0 (by decide)).1 leaf 3 le_rfl
    exact ⟨ys, run, ordered⟩
  · have others (c : Nat) (pos : 0 < c) (ne : c ≠ 2) : Le intCmp [1, 4, 0, 5] (parent c) c := by
      intro a b ha hb
      obtain ⟨inside, -⟩ := List.getElem?_eq_some_iff.mp hb
      simp only [List.length_cons, List.length_nil] at inside
      obtain rfl | rfl : c = 1 ∨ c = 3 := by omega
      · rw [← Option.some.inj ha, ← Option.some.inj hb]
        decide
      · rw [← Option.some.inj ha, ← Option.some.inj hb]
        decide
    have childless (c : Nat) (_ : 0 < c) (hc : parent c = 2) (_ : 0 < 2) :
        Le intCmp [1, 4, 0, 5] (parent 2) c := by
      intro a b _ hb
      obtain ⟨inside, -⟩ := List.getElem?_eq_some_iff.mp hb
      simp only [parent, List.length_cons, List.length_nil] at hc inside
      omega
    obtain ⟨ys, run, ordered, -, frame⟩ := (sifts_repair intCmp_laws [1, 4, 0, 5] 2 (by decide)).2
      others childless 3 (by decide)
    exact ⟨ys, run, ordered, frame 3 (by decide)⟩

end Seqc
