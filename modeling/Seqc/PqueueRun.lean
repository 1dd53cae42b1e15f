import Seqc.Pqueue
import Seqc.Lib.Runs
import Mathlib.Data.Multiset.AddSub

/-! What the loops of pqueue.c do to the heap order and to the multiset of the
elements, and the runs of its operations against a multiset from which least
elements are taken. -/

namespace Seqc
open Comparator Heap Runs

variable {α : Type}

/-! ### The loops -/

section Sift
variable {cmp : α → α → Int} {xs : List α} {i s : Nat} {P : Nat → Prop}

theorem swapElems_some {a b : α} (ha : xs[i]? = some a) (hb : xs[s]? = some b) :
    swapElems xs i s = some (exchange xs i s a b) := by simp [swapElems, ha, hb]

theorem siftUp_spec (laws : Laws cmp) (fuel : Nat) :
    ∀ (xs : List α) (i : Nat), i < fuel → i < xs.length → UpHole cmp xs i →
      ∃ ys, siftUp cmp fuel xs i = some ys ∧ Ordered cmp ys ∧ ys.Perm xs := by
  induction fuel with
  | zero =>
    intro xs i hi
    omega
  | succ fuel ih =>
    intro xs i hf hi h
    rw [siftUp]
    by_cases root : i = 0
    · rw [if_pos root]
      exact ⟨xs, rfl, h.finish fun pos => by omega, .refl _⟩
    have pos : 0 < i := Nat.pos_of_ne_zero root
    have below : (i - 1) / 2 < i := parent_lt pos
    have ha : xs[i]? = some xs[i] := List.getElem?_eq_getElem hi
    have hb : xs[(i - 1) / 2]? = some xs[(i - 1) / 2] := List.getElem?_eq_getElem (by omega)
    rw [if_neg root, ha, hb]
    simp only [Option.bind_eq_bind, Option.bind_some]
    by_cases less : cmp xs[i] xs[(i - 1) / 2] < 0
    · rw [if_pos less, swapElems_some ha hb]
      obtain ⟨ys, run, ordered, perm⟩ := ih _ ((i - 1) / 2) (by omega)
        (by simp only [exchange, List.length_set]; omega) (h.ascend laws pos ha hb less)
      exact ⟨ys, run, ordered, perm.trans (exchange_perm ha hb)⟩
    · rw [if_neg less]
      refine ⟨xs, rfl, h.finish fun _ a b hp hc => ?_, .refl _⟩
      rw [show parent i = (i - 1) / 2 from rfl, hb] at hp
      rw [ha] at hc
      rw [← Option.some.inj hp, ← Option.some.inj hc, laws.le_iff]
      omega

/-- One test keeps the smaller of the two entries. -/
theorem smallerOf_spec (laws : Laws cmp) (hs : s < xs.length) (child : Nat) :
    ∃ r, smallerOf cmp xs child s = some r ∧ r < xs.length ∧ (r = s ∨ r = child) ∧
      Le cmp xs r s ∧ Le cmp xs r child ∧
      (r ≠ s → ∀ a b, xs[s]? = some a → xs[r]? = some b → cmp b a < 0) := by
  have refl (j : Nat) : Le cmp xs j j := fun a b ha hb => by
    obtain rfl := Option.some.inj (ha.symm.trans hb)
    exact (laws.self a).le
  have hb : xs[s]? = some xs[s] := List.getElem?_eq_getElem hs
  rw [smallerOf]
  by_cases inside : child < xs.length
  · have ha : xs[child]? = some xs[child] := List.getElem?_eq_getElem inside
    rw [if_pos inside, ha, hb]
    simp only [Option.bind_eq_bind, Option.bind_some, Option.pure_def]
    by_cases less : cmp xs[child] xs[s] < 0
    · rw [if_pos less]
      refine ⟨child, rfl, inside, .inr rfl, fun a b hca hsb => ?_, refl child,
        fun _ a b hsa hcb => ?_⟩
      · rw [← Option.some.inj (ha.symm.trans hca), ← Option.some.inj (hb.symm.trans hsb)]
        exact less.le
      · rw [← Option.some.inj (ha.symm.trans hcb), ← Option.some.inj hsa]
        exact less
    · rw [if_neg less]
      refine ⟨s, rfl, hs, .inl rfl, refl s, fun a b hsa hcb => ?_, fun ne => absurd rfl ne⟩
      rw [← Option.some.inj (ha.symm.trans hcb), ← Option.some.inj (hb.symm.trans hsa), laws.le_iff]
      omega
  · rw [if_neg inside]
    refine ⟨s, rfl, hs, .inl rfl, refl s, fun a b _ hb => ?_, fun ne => absurd rfl ne⟩
    simp [List.getElem?_eq_none (by omega : xs.length ≤ child)] at hb

/-- The two tests find the least of `i` and its children. -/
theorem smallest_spec (laws : Laws cmp) (hi : i < xs.length) :
    ∃ l s, smallerOf cmp xs (2 * i + 1) i = some l ∧ smallerOf cmp xs (2 * i + 2) l = some s ∧
      s < xs.length ∧ (s = i ∨ 0 < s ∧ parent s = i) ∧
      (s ≠ i → ∀ a b, xs[i]? = some a → xs[s]? = some b → cmp b a < 0) ∧
      ∀ c, 0 < c → parent c = i → Le cmp xs s c := by
  obtain ⟨l, first, hl, from_l, li, ll, lless⟩ := smallerOf_spec laws hi (2 * i + 1)
  obtain ⟨s, second, hs, from_s, sl, sr, sless⟩ := smallerOf_spec laws hl (2 * i + 2)
  have hl' : xs[l]? = some xs[l] := List.getElem?_eq_getElem hl
  refine ⟨l, s, first, second, hs, ?_, fun ne a b ha hb => ?_, fun c pos hc a b ha hb => ?_⟩
  · rw [parent]
    omega
  · by_cases same : s = l
    · subst same
      exact lless ne a b ha hb
    · exact laws.lt_of_lt_of_le (sless same _ b hl' hb) (li _ a hl' ha)
  · rcases (parent_eq_iff pos).mp hc with rfl | rfl
    · exact laws.trans _ _ _ (sl a _ ha hl') (ll _ b hl' hb)
    · exact sr a b ha hb

theorem siftDown_spec (laws : Laws cmp) (down : ∀ c, 0 < c → P (parent c) → P c) (fuel : Nat) :
    ∀ (xs : List α) (i : Nat), i < xs.length → xs.length ≤ fuel + i → P i →
      DownHole cmp P xs i →
      ∃ ys, siftDown cmp fuel xs i = some ys ∧ OrderedOn cmp P ys ∧ ys.Perm xs := by
  induction fuel with
  | zero =>
    intro xs i hi hf
    omega
  | succ fuel ih =>
    intro xs i hi hf hp h
    obtain ⟨l, s, first, second, hs, child, less, least⟩ := smallest_spec laws hi
    simp only [siftDown, first, second, Option.bind_eq_bind, Option.bind_some]
    by_cases stay : s = i
    · rw [if_pos stay]
      subst stay
      exact ⟨xs, rfl, h.finish least, .refl _⟩
    · obtain ⟨pos, up⟩ : 0 < s ∧ parent s = i := child.resolve_left stay
      have ha : xs[i]? = some xs[i] := List.getElem?_eq_getElem hi
      have hb : xs[s]? = some xs[s] := List.getElem?_eq_getElem hs
      have below := parent_lt pos
      rw [if_neg stay, swapElems_some ha hb]
      have len : (exchange xs i s xs[i] xs[s]).length = xs.length := by
        simp only [exchange, List.length_set]
      obtain ⟨ys, run, ordered, perm⟩ := ih (exchange xs i s xs[i] xs[s]) s (by omega) (by omega)
        (down s pos (up ▸ hp))
        (h.descend down hp pos up ha hb (less stay _ _ ha hb) least)
      exact ⟨ys, run, ordered, perm.trans (exchange_perm ha hb)⟩

/-- A position past the end has no children to sift down to. -/
theorem siftDown_outside (fuel : Nat) (hi : xs.length ≤ i) :
    siftDown cmp (fuel + 1) xs i = some xs := by
  have left : ¬2 * i + 1 < xs.length := by omega
  have right : ¬2 * i + 2 < xs.length := by omega
  simp [siftDown, smallerOf, left, right]

theorem heapify_spec (laws : Laws cmp) (i : Nat) :
    ∀ xs : List α, OrderedOn cmp (fun j => i ≤ j) xs →
      ∃ ys, heapify cmp i xs = some ys ∧ Ordered cmp ys ∧ ys.Perm xs := by
  induction i with
  | zero =>
    intro xs h
    exact ⟨xs, rfl, fun c pos => h c pos (Nat.zero_le _), .refl _⟩
  | succ i ih =>
    intro xs h
    obtain ⟨ys, run, ordered, perm⟩ : ∃ ys, siftDown cmp (xs.length + 1) xs i = some ys ∧
        OrderedOn cmp (fun j => i ≤ j) ys ∧ ys.Perm xs := by
      rcases Nat.lt_or_ge i xs.length with inside | outside
      · exact siftDown_spec laws (fun c pos hp => hp.trans (parent_lt pos).le) _ xs i inside
          (by omega) le_rfl h.hole
      · refine ⟨xs, siftDown_outside _ outside, h.hole.finish fun c pos hc a b _ hb => ?_, .refl _⟩
        have := parent_lt pos
        simp [List.getElem?_eq_none (by omega : xs.length ≤ c)] at hb
    obtain ⟨zs, run', ordered', perm'⟩ := ih ys ordered
    exact ⟨zs, by simp [heapify, run, run'], ordered', perm'.trans perm⟩

end Sift

/-! ### The operations -/

section Operations
variable {cmp : α → α → Int} {q : Pqueue α} {v : Vec α}

theorem contents_store (h : q.data = some v) (xs : List α) :
    (q.store xs).data = some { v with contents := xs } ∧ (q.store xs).contents = xs := by
  simp [Pqueue.store, Pqueue.contents, vecContents, h]

/-- The same elements in another order, whether or not there is a vector. -/
theorem store_of_perm {xs : List α} (h : xs.Perm q.contents) : (q.store xs).contents = xs := by
  cases hd : q.data with
  | none =>
    rw [Pqueue.contents, hd] at h
    simp [Pqueue.store, Pqueue.contents, hd, vecContents, h.eq_nil]
  | some v => exact (contents_store hd xs).2

theorem pqueuePush_spec (laws : Laws cmp) (hv : q.data = some v) (h : Ordered cmp q.contents)
    (x : α) (m : Mem) :
    (∃ q' m', pqueuePush cmp q (some x) m = some (.ok, q', m') ∧ (∃ v', q'.data = some v') ∧
        Ordered cmp q'.contents ∧ q'.contents.Perm (x :: q.contents) ∧ m'.refusals = m.refusals) ∨
      ∃ m', pqueuePush cmp q (some x) m = some (.oom, q, m') ∧ m.refusals ≤ m'.refusals ∧
        (m.refusals < m'.refusals ∨ sizeMax / 2 < q.contents.length) := by
  obtain ⟨addr, data⟩ := q
  obtain rfl := hv
  rcases vecPush_spec v x m with ⟨v', m', push, appended, -, quiet⟩ | ⟨m', push, failed⟩
  · have grown : (⟨addr, some v'⟩ : Pqueue α).contents = v.contents ++ [x] := appended
    obtain ⟨ys, run, ordered, perm⟩ := siftUp_spec laws (v.contents.length + 1)
      (v.contents ++ [x]) v.contents.length (by omega) (by simp) (Ordered.append h x)
    obtain ⟨data, contents⟩ := contents_store (q := ⟨addr, some v'⟩) rfl ys
    refine .inl ⟨_, m', ?_, ⟨_, data⟩, contents ▸ ordered, ?_, quiet⟩
    · simp only [pqueuePush, push, grown, List.length_append, List.length_singleton,
        Nat.add_sub_cancel, run, Option.bind_eq_bind, Option.bind_some, Option.pure_def]
    · rw [contents]
      exact perm.trans (List.perm_append_singleton x v.contents)
  · exact .inr ⟨m', by simp only [pqueuePush, push], failed⟩

/-- A pop takes a least element away. -/
theorem pqueuePop_spec (laws : Laws cmp) (h : Ordered cmp q.contents) (out : Bool) :
    (q.contents = [] ∧ pqueuePop cmp q out = some (.notFound, none, q)) ∨
      ∃ x q', pqueuePop cmp q out = some (.ok, if out then some x else none, q') ∧
        q'.data.isSome = q.data.isSome ∧ Ordered cmp q'.contents ∧
        (x :: q'.contents).Perm q.contents ∧ ∀ y ∈ q.contents, cmp x y ≤ 0 := by
  obtain ⟨addr, _ | v⟩ := q
  · exact .inl ⟨rfl, rfl⟩
  have here : (⟨addr, some v⟩ : Pqueue α).contents = v.contents := rfl
  rw [here] at h ⊢
  cases hc : v.contents with
  | nil => exact .inl ⟨rfl, by simp [pqueuePop, here, hc]⟩
  | cons x rest =>
    rw [hc] at h
    have least (y : α) (hy : y ∈ x :: rest) : cmp x y ≤ 0 := h.least laws rfl y hy
    rcases List.eq_nil_or_concat rest with rfl | ⟨mid, y, rfl⟩
    · obtain ⟨data, contents⟩ := contents_store (q := ⟨addr, some v⟩) rfl []
      refine .inr ⟨x, _, by simp [pqueuePop, here, hc]; rfl, by rw [data]; rfl, ?_, ?_, least⟩
      · rw [contents]
        exact fun c _ a b ha => by simp at ha
      · rw [contents]
    · rw [List.concat_eq_append] at h least hc ⊢
      have cut : ((x :: (mid ++ [y])).set 0 y).dropLast = y :: mid := by
        rw [List.set_cons_zero, ← List.cons_append, List.dropLast_concat]
      have hole : DownHole cmp (fun _ => True) (y :: mid) 0 :=
        h.replace_root fun n z pos hz => by
          obtain ⟨hn, -⟩ := List.getElem?_eq_some_iff.mp hz
          obtain ⟨n, rfl⟩ : ∃ j, n = j + 1 := ⟨n - 1, by omega⟩
          rw [List.getElem?_cons_succ] at hz ⊢
          rwa [List.getElem?_append_left (by simpa using hn)]
      obtain ⟨ys, run, ordered, perm⟩ := siftDown_spec laws (fun _ _ _ => trivial)
        ((y :: mid).length + 1) (y :: mid) 0 (by simp) (by omega) trivial hole
      obtain ⟨data, contents⟩ := contents_store (q := ⟨addr, some v⟩) rfl ys
      refine .inr ⟨x, _, ?_, by rw [data]; rfl, ?_, ?_, least⟩
      · have len : (x :: (mid ++ [y])).length = mid.length + 2 := by simp
        have last : (x :: (mid ++ [y]))[mid.length + 1]? = some y := by simp
        have run' : siftDown cmp (mid.length + 1 + 1) (y :: mid) 0 = some ys := run
        simp only [pqueuePop, here, hc, len, Nat.add_one_ne_zero, if_false, List.getElem?_cons_zero,
          Option.bind_eq_bind, Option.bind_some, Nat.reduceSubDiff, last, cut, Nat.succ_pos,
          if_true, Option.pure_def, List.length_cons, run']
      · rw [contents]
        exact fun c pos => ordered c pos trivial
      · rw [contents]
        exact (perm.trans (List.perm_append_singleton y mid).symm).cons x

theorem drainPops_spec (laws : Laws cmp) (n : Nat) :
    ∀ q : Pqueue α, q.contents.length = n → Ordered cmp q.contents →
      ∃ xs q', drainPops cmp n q = some (xs, q') ∧ q'.data.isSome = q.data.isSome ∧
        q'.contents = [] ∧ xs.Perm q.contents ∧ xs.Pairwise fun a b => cmp a b ≤ 0 := by
  induction n with
  | zero =>
    intro q len _
    have none_left := List.length_eq_zero_iff.mp len
    exact ⟨[], q, rfl, rfl, none_left, by rw [none_left], .nil⟩
  | succ n ih =>
    intro q len h
    rcases pqueuePop_spec laws h true with ⟨none_left, -⟩ | ⟨x, q', pop, same, h', perm, least⟩
    · simp [none_left] at len
    have len' := perm.length_eq
    rw [List.length_cons] at len'
    obtain ⟨xs, q'', run, same', last, perm', sorted⟩ := ih q' (by omega) h'
    refine ⟨x :: xs, q'', by simp [drainPops, pop, run], same'.trans same, last,
      (perm'.cons x).trans perm, List.pairwise_cons.mpr ⟨fun y hy => ?_, sorted⟩⟩
    exact least y (perm.subset (List.mem_cons_of_mem x (perm'.subset hy)))

theorem ordered_nil : Ordered cmp ([] : List α) := fun _ _ a _ ha => by simp at ha

/-- A drain returns everything in order, or fails to allocate and empties the queue. -/
theorem pqueueDrain_spec (laws : Laws cmp) (h : Ordered cmp q.contents) (m : Mem) :
    ∃ s q' m', pqueueDrain cmp q m = some (s, q', m') ∧ q'.data.isSome = q.data.isSome ∧
      q'.contents = [] ∧
      ((s.contents.Perm q.contents ∧ (s.contents.Pairwise fun a b => cmp a b ≤ 0) ∧
          m'.refusals = m.refusals) ∨
        (s.contents = [] ∧ m.refusals < m'.refusals)) := by
  have len : pqueueLen q = q.contents.length := rfl
  simp only [pqueueDrain, len]
  by_cases none_left : q.contents.length = 0
  · have empty := List.length_eq_zero_iff.mp none_left
    rw [if_pos none_left]
    exact ⟨_, q, m, rfl, rfl, empty, .inl ⟨by rw [empty], .nil, rfl⟩⟩
  rw [if_neg none_left]
  rcases hm : memAlloc m (mulSize q.contents.length (vecElemSize q.data)) with ⟨_ | addr, m₁⟩
  · have more := memAlloc_none hm
    refine ⟨_, _, m₁, rfl, ?_, ?_, .inr ⟨rfl, by omega⟩⟩
    · cases hd : q.data <;> simp [pqueueClear, vecClear, hd]
    · cases hd : q.data <;> simp [pqueueClear, vecClear, Pqueue.contents, vecContents, hd]
  · obtain ⟨xs, q', run, same, last, perm, sorted⟩ := drainPops_spec laws _ q rfl h
    simp only [run, Option.bind_eq_bind, Option.bind_some]
    exact ⟨_, q', m₁, rfl, same, last, .inl ⟨perm, sorted, (memAlloc_some hm).2.2⟩⟩

/-- Without a failure the whole list is appended. -/
theorem pushAll_spec (xs : List α) :
    ∀ (data : Option (Vec α)) (m : Mem), ∃ data' m', pushAll data m xs = (data', m') ∧
      data'.isSome = data.isSome ∧ m.refusals ≤ m'.refusals ∧
      (vecContents data').length ≤ (vecContents data).length + xs.length ∧
      (data.isSome → m'.refusals = m.refusals →
        (vecContents data).length + xs.length ≤ sizeMax / 2 + 1 →
        vecContents data' = vecContents data ++ xs) := by
  induction xs with
  | nil =>
    intro data m
    exact ⟨data, m, rfl, rfl, le_rfl, le_rfl, fun _ _ _ => (List.append_nil _).symm⟩
  | cons x xs ih =>
    intro data m
    cases data with
    | none =>
      obtain ⟨data', m', run, same, more, len, -⟩ := ih none m
      refine ⟨data', m', by simp only [pushAll, vecPush, run], same, more, ?_, by simp⟩
      rw [List.length_cons]
      omega
    | some v =>
      rcases vecPush_spec v x m with ⟨v', m', push, appended, -, quiet⟩ | ⟨m', push, le, failed⟩
      · obtain ⟨data', m'', run, same, more, len, all⟩ := ih (some v') m'
        refine ⟨data', m'', by simp only [pushAll, push, run], same, quiet ▸ more, ?_,
          fun _ still room => ?_⟩
        · simp only [vecContents, appended, List.length_append, List.length_cons,
            List.length_nil] at len ⊢
          omega
        simp only [vecContents, List.length_cons] at room all ⊢
        rw [all rfl (still.trans quiet.symm) (by
          rw [appended, List.length_append, List.length_singleton]
          omega), appended, List.append_assoc, List.singleton_append]
      · obtain ⟨data', m'', run, same, more, len, -⟩ := ih (some v) m'
        refine ⟨data', m'', by simp only [pushAll, push, run], same, by omega,
          len.trans (by rw [List.length_cons]; omega), fun _ still room => ?_⟩
        simp only [vecContents, List.length_cons] at room
        omega

theorem pqueueCreate_spec {elemSize : Nat} {m m' : Mem}
    (h : pqueueCreate α elemSize m = (some q, m')) :
    q.contents = [] ∧ m.refusals ≤ m'.refusals ∧
      (m'.refusals = m.refusals → elemSize ≠ 0 → q.data.isSome) := by
  unfold pqueueCreate at h
  rcases hm : memAlloc m sizeofPqueue with ⟨_ | addr, m₁⟩
  · simp [hm] at h
  obtain ⟨data, m₂, created, empty, more, some⟩ := vecCreate_spec (α := α) elemSize m₁
  have quiet := (memAlloc_some hm).2.2
  simp only [hm, created, Prod.mk.injEq, Option.some.injEq] at h
  obtain ⟨rfl, rfl⟩ := h
  exact ⟨empty, quiet ▸ more, fun same => some (same.trans quiet.symm)⟩

theorem vecAsSlice_contents (v : Option (Vec α)) : (vecAsSlice v).contents = vecContents v := by
  cases v <;> rfl

/-- The queue built from a vector is a heap of what was copied. -/
theorem pqueueCreateFromVec_heap (laws : Laws cmp) (v : Option (Vec α)) {m m₁ m₂ : Mem}
    {data : Option (Vec α)} (created : pqueueCreate α (vecAsSlice v).elemSize m = (some q, m₁))
    (copied : pushAll q.data m₁ (vecContents v) = (data, m₂)) :
    ∃ q', pqueueCreateFromVec cmp v m = some (some q', m₂) ∧ Ordered cmp q'.contents ∧
      q'.contents.Perm (vecContents data) := by
  obtain ⟨empty, -, -⟩ := pqueueCreate_spec created
  obtain ⟨data', m', run, -, -, len, -⟩ := pushAll_spec (vecContents v) q.data m₁
  obtain ⟨rfl, rfl⟩ := Prod.mk.inj (run.symm.trans copied)
  rw [show vecContents q.data = [] from empty] at len
  simp only [pqueueCreateFromVec, vecAsSlice_contents, created, run, Option.bind_eq_bind,
    Option.pure_def, Option.bind_some]
  rw [show (⟨q.addr, data'⟩ : Pqueue α).contents = vecContents data' from rfl]
  -- Positions from the middle of the vector on have no children in the queue either.
  obtain ⟨xs, ordering, ordered, perm⟩ : ∃ xs,
      (if 1 < (vecContents v).length then
          (heapify cmp ((vecContents v).length / 2) (vecContents data')).bind fun xs =>
            some (some ((⟨q.addr, data'⟩ : Pqueue α).store xs), m')
        else some (some ((⟨q.addr, data'⟩ : Pqueue α).store (vecContents data')), m')) =
          some (some ((⟨q.addr, data'⟩ : Pqueue α).store xs), m') ∧
        Ordered cmp xs ∧ xs.Perm (vecContents data') := by
    simp only [List.length_nil, Nat.zero_add] at len
    by_cases several : 1 < (vecContents v).length
    · obtain ⟨xs, heap, ordered, perm⟩ := heapify_spec laws ((vecContents v).length / 2)
        (vecContents data') fun c pos leaf =>
          orderedOn_leaves _ c pos ((Nat.div_le_div_right len).trans leaf)
      exact ⟨xs, by rw [if_pos several, heap, Option.bind_some], ordered, perm⟩
    · refine ⟨_, by rw [if_neg several], fun c pos a b _ hb => ?_, .refl _⟩
      simp [List.getElem?_eq_none (by omega : (vecContents data').length ≤ c)] at hb
  have stored := store_of_perm (q := ⟨q.addr, data'⟩) perm
  rw [ordering]
  refine ⟨_, rfl, ?_⟩
  rw [stored]
  exact ⟨ordered, perm⟩

/-- If nothing was refused, the queue built from a vector holds its elements. -/
theorem pqueueCreateFromVec_spec (laws : Laws cmp) (v : Option (Vec α)) (m : Mem) :
    ∃ r m', pqueueCreateFromVec cmp v m = some (r, m') ∧ ∀ q, r = some q →
      Ordered cmp q.contents ∧ (m'.refusals = m.refusals →
        (vecContents v).length ≤ sizeMax / 2 + 1 → q.contents.Perm (vecContents v)) := by
  have size (h : vecContents v ≠ []) : (vecAsSlice v).elemSize ≠ 0 := by
    cases v with
    | none => simp [vecContents] at h
    | some v => exact v.elem_pos.ne'
  rcases hc : pqueueCreate α (vecAsSlice v).elemSize m with ⟨_ | q, m₁⟩
  · exact ⟨none, m₁, by simp only [pqueueCreateFromVec, hc], by simp⟩
  obtain ⟨empty, more, real⟩ := pqueueCreate_spec hc
  obtain ⟨data, m₂, run, same, more', len, all⟩ := pushAll_spec (vecContents v) q.data m₁
  obtain ⟨q', made, ordered, perm⟩ := pqueueCreateFromVec_heap laws v hc run
  rw [show vecContents q.data = [] from empty] at len all
  refine ⟨some q', m₂, made, fun q'' hq => ?_⟩
  obtain rfl := Option.some.inj hq
  refine ⟨ordered, fun same room => perm.trans ?_⟩
  by_cases none_there : vecContents v = []
  · rw [none_there] at len ⊢
    rw [List.length_eq_zero_iff.mp (Nat.le_zero.mp len)]
  · rw [all (real (by omega) (size none_there)) (by omega) (by simpa using room)]
    exact .refl _

end Operations

/-! ### Runs -/

inductive PqueueOp (α : Type) where
  | push (elem : Option α)
  | pop (out : Bool)
  | peek (out : Bool)
  | clear
  | drain

/-- The answer about elements, or the contents of a slice. -/
inductive PqueueAnswer (α : Type) where
  | of (a : Answer α)
  | slice (contents : List α)

def pqueueStep (cmp : α → α → Int) (op : PqueueOp α) (s : Pqueue α × Mem) :
    Option (PqueueAnswer α × Pqueue α × Mem) :=
  match op with
  | .push elem => do
    let (st, q, m) ← pqueuePush cmp s.1 elem s.2
    pure (.of (.status st), q, m)
  | .pop out => do
    let (st, x, q) ← pqueuePop cmp s.1 out
    pure (.of (.read st x), q, s.2)
  | .peek out => some (.of (.read (pqueuePeek s.1 out).1 (pqueuePeek s.1 out).2), s)
  | .clear => some (.of .nothing, pqueueClear s.1, s.2)
  | .drain => do
    let (slice, q, m) ← pqueueDrain cmp s.1 s.2
    pure (.slice slice.contents, q, m)

/-- What a multiset answers from which least elements are taken. Its state is the
multiset and the number of requests refused so far; `live` says whether the queue has
a vector. An allocation that fails is one that is refused, or that would be beyond
2^63 elements. -/
inductive QueueStep (cmp : α → α → Int) (live : Bool) :
    Multiset α × Nat → PqueueOp α → PqueueAnswer α → Multiset α × Nat → Prop
  | pushOk (s n x) :
      QueueStep cmp live (s, n) (.push (some x)) (.of (.status .ok)) (x ::ₘ s, n)
  | pushOom (s n n' x) (failed : n < n' ∨ sizeMax / 2 < s.card) :
      QueueStep cmp live (s, n) (.push (some x)) (.of (.status .oom)) (s, n')
  | pushInvalid (s elem) (h : elem = none ∨ live = false) :
      QueueStep cmp live s (.push elem) (.of (.status .invalid)) s
  | popHit (s n x out) (least : ∀ y ∈ x ::ₘ s, cmp x y ≤ 0) :
      QueueStep cmp live (x ::ₘ s, n) (.pop out)
        (.of (.read .ok (if out then some x else none))) (s, n)
  | popMiss (n out) : QueueStep cmp live (0, n) (.pop out) (.of (.read .notFound none)) (0, n)
  | peekHit (s n x out) (mem : x ∈ s) (least : ∀ y ∈ s, cmp x y ≤ 0) :
      QueueStep cmp live (s, n) (.peek out) (.of (.read .ok (if out then some x else none))) (s, n)
  | peekMiss (n out) : QueueStep cmp live (0, n) (.peek out) (.of (.read .notFound none)) (0, n)
  | clear (s n) : QueueStep cmp live (s, n) .clear (.of .nothing) (0, n)
  | drain (xs : List α) (n) (sorted : xs.Pairwise fun a b => cmp a b ≤ 0) :
      QueueStep cmp live ((xs : Multiset α), n) .drain (.slice xs) (0, n)
  | drainOom (s n n') (failed : n < n') : QueueStep cmp live (s, n) .drain (.slice []) (0, n')

/-- The state of a queue that holds the multiset `g.1`. -/
def QueueState (cmp : α → α → Int) (live : Bool) (s : Pqueue α × Mem) (g : Multiset α × Nat) :
    Prop :=
  s.1.data.isSome = live ∧ Ordered cmp s.1.contents ∧ g = ((s.1.contents : Multiset α), s.2.refusals)

variable {cmp : α → α → Int}

theorem pqueueStep_refines (laws : Laws cmp) (live : Bool) (op : PqueueOp α) (s : Pqueue α × Mem)
    (g : Multiset α × Nat) (h : QueueState cmp live s g) :
    ∃ out s' g', pqueueStep cmp op s = some (out, s') ∧ QueueStep cmp live g op out g' ∧
      QueueState cmp live s' g' := by
  obtain ⟨q, m⟩ := s
  obtain ⟨real, ordered, rfl⟩ := h
  simp only at real ordered ⊢
  have state : QueueState cmp live (q, m) ((q.contents : Multiset α), m.refusals) :=
    ⟨real, ordered, rfl⟩
  cases op with
  | push elem =>
    cases elem with
    | none => exact ⟨_, (q, m), _, rfl, .pushInvalid _ none (.inl rfl), state⟩
    | some x =>
      cases hd : q.data with
      | none =>
        refine ⟨_, (q, m), _, ?_, .pushInvalid _ (some x) (.inr (by simp [← real, hd])), state⟩
        obtain ⟨addr, data⟩ := q
        obtain rfl := hd
        rfl
      | some v =>
        rcases pqueuePush_spec laws hd ordered x m with ⟨q', m', run, ⟨v', hv'⟩, ordered', perm,
          quiet⟩ | ⟨m', run, -, failed⟩
        · refine ⟨_, (q', m'), _, by simp [pqueueStep, run], .pushOk _ _ x, ?_, ordered', ?_⟩
          · rw [← real, hd, hv']
            rfl
          · rw [Multiset.cons_coe, ← Multiset.coe_eq_coe.mpr perm, quiet]
        · exact ⟨_, (q, m'), _, by simp [pqueueStep, run], .pushOom _ _ _ x (by simpa using failed),
            real, ordered, rfl⟩
  | pop out =>
    rcases pqueuePop_spec laws ordered out with ⟨empty, run⟩ | ⟨x, q', run, same, ordered', perm,
      least⟩
    · refine ⟨.of (.read .notFound none), (q, m), _, by simp [pqueueStep, run], ?_, state⟩
      rw [empty]
      exact .popMiss _ out
    · refine ⟨.of (.read .ok (if out then some x else none)), (q', m), _,
        by simp [pqueueStep, run], ?_, same.trans real, ordered', rfl⟩
      rw [← Multiset.coe_eq_coe.mpr perm, ← Multiset.cons_coe]
      exact .popHit _ _ x out fun y hy => least y (perm.subset (by simpa using hy))
  | peek out =>
    refine ⟨_, (q, m), _, rfl, ?_, state⟩
    rw [pqueuePeek, pqueuePeekPtr, vecGetPtr]
    cases hc : q.contents with
    | nil =>
      rw [show vecContents q.data = [] from hc]
      exact .peekMiss _ out
    | cons x rest =>
      rw [show vecContents q.data = x :: rest from hc]
      rw [hc] at ordered
      exact .peekHit _ _ x out (by simp) fun y hy => ordered.least laws rfl y (by simpa using hy)
  | clear =>
    refine ⟨_, (pqueueClear q, m), _, rfl, .clear _ _, ?_⟩
    cases hd : q.data with
    | none => exact ⟨by simp [pqueueClear, vecClear, hd, ← real],
        by simpa [pqueueClear, vecClear, Pqueue.contents, hd, vecContents] using ordered_nil,
        by simp [pqueueClear, vecClear, Pqueue.contents, hd, vecContents]⟩
    | some v => exact ⟨by simp [pqueueClear, vecClear, hd, ← real],
        by simpa [pqueueClear, vecClear, Pqueue.contents, hd, vecContents] using ordered_nil,
        by simp [pqueueClear, vecClear, Pqueue.contents, hd, vecContents]⟩
  | drain =>
    obtain ⟨slice, q', m', run, same, empty, outcome⟩ := pqueueDrain_spec laws ordered m
    refine ⟨.slice slice.contents, (q', m'), (0, m'.refusals), by simp [pqueueStep, run], ?_,
      same.trans real,
      empty ▸ ordered_nil, by simp [empty]⟩
    rcases outcome with ⟨perm, sorted, quiet⟩ | ⟨nothing, failed⟩
    · rw [← Multiset.coe_eq_coe.mpr perm, quiet]
      exact .drain _ _ sorted
    · rw [nothing]
      exact .drainOom _ _ _ failed

/-- Every run from `pqueue_create`, or from a queue built from a vector without a
refusal, is one of a multiset that starts empty, or as the elements of the vector; after
it each element of the backing vector compares not greater than its children. -/
theorem pqueue_run_refines (laws : Laws cmp) :
    (∀ elemSize m₀ (q₀ : Pqueue α) m₁ ops, pqueueCreate α elemSize m₀ = (some q₀, m₁) →
      ∃ outs q m, run (pqueueStep cmp) ops (q₀, m₁) = some (outs, (q, m)) ∧
        SpecRun (QueueStep cmp q₀.data.isSome) (0, m₁.refusals) ops outs
          ((q.contents : Multiset α), m.refusals) ∧ Ordered cmp q.contents) ∧
    ∀ (v : Option (Vec α)) m₀, (vecContents v).length ≤ sizeMax / 2 + 1 →
      ∃ r m₁, pqueueCreateFromVec cmp v m₀ = some (r, m₁) ∧
        ∀ q₀ ops, r = some q₀ → m₁.refusals = m₀.refusals →
          ∃ outs q m, run (pqueueStep cmp) ops (q₀, m₁) = some (outs, (q, m)) ∧
            SpecRun (QueueStep cmp q₀.data.isSome) ((vecContents v : Multiset α), m₁.refusals) ops
              outs ((q.contents : Multiset α), m.refusals) ∧ Ordered cmp q.contents := by
  have go (q₀ : Pqueue α) (m₁ : Mem) (s : Multiset α) (ops : List (PqueueOp α))
      (ordered : Ordered cmp q₀.contents) (start : s = (q₀.contents : Multiset α)) :
      ∃ outs q m, run (pqueueStep cmp) ops (q₀, m₁) = some (outs, (q, m)) ∧
        SpecRun (QueueStep cmp q₀.data.isSome) (s, m₁.refusals) ops outs
          ((q.contents : Multiset α), m.refusals) ∧ Ordered cmp q.contents := by
    obtain ⟨outs, ⟨q, m⟩, g, ran, spec, -, ordered', rfl⟩ :=
      run_refines (pqueueStep cmp) (QueueStep cmp q₀.data.isSome)
        (pqueueStep_refines laws q₀.data.isSome) ops (s := (q₀, m₁)) (g := (s, m₁.refusals))
        ⟨rfl, ordered, by rw [start]⟩
    exact ⟨outs, q, m, ran, spec, ordered'⟩
  constructor
  · intro elemSize m₀ q₀ m₁ ops created
    obtain ⟨empty, -⟩ := pqueueCreate_spec created
    exact go q₀ m₁ 0 ops (empty ▸ ordered_nil) (by simp [empty])
  · intro v m₀ room
    obtain ⟨r, m₁, created, built⟩ := pqueueCreateFromVec_spec laws v m₀
    refine ⟨r, m₁, created, fun q₀ ops hr quiet => ?_⟩
    obtain ⟨ordered, copied⟩ := built q₀ hr
    exact go q₀ m₁ _ ops ordered (Multiset.coe_eq_coe.mpr (copied quiet room)).symm

/-- A run from an empty queue, and one from a copied vector. -/
theorem pqueue_run_refines_ints :
    (∃ outs q m, run (pqueueStep intCmp) [.push (some 3), .push (some 1), .pop true]
        (⟨0, some ⟨1, none, [], 0, 4, by decide⟩⟩,
          ⟨refusingOnce 5, 2, [.alloc 0 32, .alloc 1 48]⟩) = some (outs, (q, m)) ∧
      Ordered intCmp q.contents) ∧
    ∃ outs q m, run (pqueueStep intCmp) [.pop true, .push (some 0), .drain]
        (⟨0, some ⟨1, some 2, [1, 3, 2], 16, 4, by decide⟩⟩,
          ⟨refusingOnce 5, 3, [.alloc 0 32, .alloc 1 48, .realloc none 0 2 64]⟩) =
        some (outs, (q, m)) ∧ Ordered intCmp q.contents := by
  obtain ⟨fromEmpty, fromVec⟩ := pqueue_run_refines intCmp_laws
  constructor
  · have created : pqueueCreate Int 4 (.start (refusingOnce 5)) =
        (some ⟨0, some ⟨1, none, [], 0, 4, by decide⟩⟩,
          ⟨refusingOnce 5, 2, [.alloc 0 32, .alloc 1 48]⟩) := rfl
    obtain ⟨outs, q, m, ran, -, ordered⟩ := fromEmpty _ _ _ _
      [.push (some 3), .push (some 1), .pop true] created
    exact ⟨outs, q, m, ran, ordered⟩
  · have created : pqueueCreateFromVec intCmp (some ⟨7, some 8, [3, 1, 2], 16, 4, by decide⟩)
        (.start (refusingOnce 5)) =
        some (some ⟨0, some ⟨1, some 2, [1, 3, 2], 16, 4, by decide⟩⟩,
          ⟨refusingOnce 5, 3, [.alloc 0 32, .alloc 1 48, .realloc none 0 2 64]⟩) := rfl
    obtain ⟨r, m₁, created', runs⟩ := fromVec (some ⟨7, some 8, [3, 1, 2], 16, 4, by decide⟩)
      (.start (refusingOnce 5)) (by decide)
    rw [created] at created'
    obtain ⟨rfl, rfl⟩ := Prod.mk.inj (Option.some.inj created')
    obtain ⟨outs, q, m, ran, -, ordered⟩ := runs _ [.pop true, .push (some 0), .drain] rfl rfl
    exact ⟨outs, q, m, ran, ordered⟩

end Seqc
