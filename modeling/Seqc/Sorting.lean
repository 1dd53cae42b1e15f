import Seqc.Copying

/-! The ways to sort what an iterator gives: `iter_sort`, a queue of priorities that is drained,
a vector and `vec_sort`, and a tree. -/

namespace Seqc
open Iteration ClassMap Comparator Heap

variable {σ α : Type} {cmp : α → α → Int} {xs ys zs : List α} {m m' : Mem}

/-- The elements of `xs` in an order of `cmp`. -/
def SortOf (cmp : α → α → Int) (xs ys : List α) : Prop :=
  ys.Perm xs ∧ ys.Pairwise fun a b => cmp a b ≤ 0

theorem SortOf.matching (laws : Laws cmp) (h : SortOf cmp xs ys) (h' : SortOf cmp xs zs) :
    List.Forall₂ (fun a b => cmp a b = 0) ys zs :=
  matching_of_sorted laws (h.1.trans h'.1.symm) h.2 h'.2

/-- Unless elements are equal there is one order. -/
theorem SortOf.unique (laws : Laws cmp) (unequal : Unequal cmp xs) (h : SortOf cmp xs ys)
    (h' : SortOf cmp xs zs) : zs = ys := by
  refine (h.1.trans h'.1.symm).symm.eq_of_pairwise (fun a b ha hb less more => ?_) h'.2 h.2
  have equal : cmp a b = 0 := by
    have := laws.flip a b
    omega
  exact unequal.same laws (h'.1.subset ha) (h.1.subset hb) equal

theorem sortOf_short (short : xs.length < 2) : SortOf cmp xs xs := by
  refine ⟨.refl _, ?_⟩
  match xs, short with
  | [], _ => exact .nil
  | [_], _ => exact List.pairwise_singleton _ _

section Ways
variable {qsort : (α → α → Int) → List α → List α} {it : OwnedIterT σ α}

theorem iterSort_sorts (sorts : ∀ xs, SortOf cmp xs (qsort cmp xs)) (gives : it.Gives xs)
    (m : Mem) :
    ∃ fuel s m', iterSort qsort fuel (some it.toIterT) cmp m = some (s, m') ∧
      (m'.refusals = m.refusals → SortOf cmp xs s.contents) := by
  obtain ⟨fuel, run⟩ := iterCollect_spec it.mono it.quiet gives m
  obtain ⟨s, m', collected, whole⟩ := run fuel le_rfl
  refine ⟨fuel, if 1 < s.contents.length then { s with contents := qsort cmp s.contents } else s,
    m', by simp only [iterSort, collected], fun calm => ?_⟩
  by_cases several : 1 < s.contents.length
  · rw [if_pos several]
    have sorted := sorts s.contents
    rwa [whole calm] at sorted ⊢
  · rw [if_neg several]
    have short : SortOf cmp s.contents s.contents := sortOf_short (by omega)
    rwa [whole calm] at short ⊢

theorem pqueue_sorts (laws : Laws cmp) (gives : it.Gives xs) {q : Pqueue α}
    (fits : it.elemSize = vecElemSize q.data) (there : q.data ≠ none) (empty : q.contents = [])
    (room : xs.length ≤ sizeMax / 2) (m : Mem) :
    ∃ fuel st q₁ m₁ s q₂ m₂, pqueueExtend cmp fuel (some q) (some (it.toIterT.apart _)) m =
        some (st, some q₁, m₁) ∧ pqueueDrain cmp q₁ m₁ = some (s, q₂, m₂) ∧ q₂.contents = [] ∧
      (m₂.refusals = m.refusals → st = .ok ∧ SortOf cmp xs s.contents) := by
  obtain ⟨fuel, st, q₁, m₁, _, run, ⟨-, ordered, rfl⟩, grows, -, ys, rest, rfl, filled, calm⟩ :=
    (pqueueAdd_takes laws).fills (seqcReaction_fits _) true (fun q => vecElemSize q.data) σ q m 0
      it xs ⟨there, by rw [empty]; exact ordered_nil, by rw [empty]; rfl⟩ fits gives
      fun _ _ => trivial
  obtain ⟨s, q₂, m₂, drained, -, none_left, outcome⟩ := pqueueDrain_spec laws ordered m₁
  refine ⟨fuel, st, q₁, m₁, s, q₂, m₂, run, drained, none_left, fun same => ?_⟩
  rw [foldl_cons, zero_add] at filled
  have perm : q₁.contents.Perm ys := Multiset.coe_eq_coe.mp filled
  obtain ⟨drains, sorted, quiet⟩ | ⟨-, refused⟩ := outcome
  · obtain ⟨ok, rfl⟩ | ⟨-, full⟩ := calm (by omega)
    · exact ⟨ok, by simpa using drains.trans perm, sorted⟩
    · rw [Multiset.coe_card, perm.length_eq] at full
      rw [List.length_append] at room
      omega
  · omega

theorem vecSort_sorts (sorts : ∀ xs, SortOf cmp xs (qsort cmp xs)) (gives : it.Gives xs)
    {v : Vec α} (fits : it.elemSize = v.elemSize) (empty : v.contents = [])
    (room : xs.length ≤ sizeMax / 2) (m : Mem) :
    ∃ fuel st v₁ m₁ v₂, vecExtend fuel (some v) (some it.toIterT) m = some (st, some v₁, m₁) ∧
      vecSort qsort (some v₁) (some cmp) = some v₂ ∧
      (m₁.refusals = m.refusals → st = .ok ∧ SortOf cmp xs v₂.contents) := by
  obtain ⟨fuel, st, v₁, m₁, _, run, rfl, -, -, ys, rest, rfl, filled, calm⟩ :=
    vecAdd_takes.fills (plainReaction_fits fun _ _ _ _ _ => vecAdd_distinct) true _ σ v m [] it xs
      empty fits gives fun _ _ => trivial
  have run := (vecExtend_eq fuel (some v) (some it.toIterT) m).trans run
  rw [foldl_appended, List.nil_append] at filled
  refine ⟨fuel, st, v₁, m₁, _, run, rfl, fun same => ?_⟩
  obtain ⟨ok, rfl⟩ | ⟨-, full⟩ := calm same
  · rw [List.append_nil]
    refine ⟨ok, ?_⟩
    by_cases short : v₁.contents.length < 2
    · rw [if_pos short, filled]
      exact sortOf_short (filled ▸ short)
    · rw [if_neg short, filled]
      exact sorts ys
  · rw [filled] at full
    rw [List.length_append] at room
    omega

/-- Elements are left out only where an equal one is there. -/
theorem foldl_joined_covers {eq : α → α → Bool} (laws : EqLaws eq) (xs : List α)
    (S : Multiset α) :
    xs.foldl (joined eq) S ≤ S + (xs : Multiset α) ∧ S ≤ xs.foldl (joined eq) S ∧
      ∀ x ∈ xs, ∃ y ∈ xs.foldl (joined eq) S, eq y x = true := by
  induction xs generalizing S with
  | nil => simp
  | cons x xs ih =>
    obtain ⟨below, above, covers⟩ := ih (joined eq S x)
    have step : joined eq S x ≤ x ::ₘ S ∧ S ≤ joined eq S x ∧
        ∃ y ∈ joined eq S x, eq y x = true := by
      by_cases absent : S.countP (fun y => eq y x) = 0
      · rw [joined, if_pos absent]
        exact ⟨le_rfl, Multiset.le_cons_self S x, x, Multiset.mem_cons_self x S, laws.refl x⟩
      · rw [joined, if_neg absent]
        exact ⟨Multiset.le_cons_self S x, le_rfl,
          by simpa [Multiset.countP_eq_zero] using absent⟩
    obtain ⟨grows, keeps, y, hy, equal⟩ := step
    refine ⟨below.trans ?_, keeps.trans above, fun z hz => ?_⟩
    · rw [← Multiset.cons_coe, Multiset.add_cons, ← Multiset.cons_add]
      exact add_le_add_left grows _
    · rcases List.mem_cons.mp hz with rfl | hz
      · exact ⟨y, Multiset.mem_of_le above hy, equal⟩
      · exact covers z hz

theorem avl_sorts (laws : Laws cmp) (gives : it.Gives xs) {t : AvlT α} (inv : AvlInv cmp t)
    (fits : it.elemSize = t.elemSize) (empty : t.root.toList = []) (m : Mem) :
    ∃ fuel st t₁ m₁, avlExtend cmp fuel (some t) (some (it.toIterT.apart _)) m =
        some (st, some t₁, m₁) ∧ Ascending cmp id t₁.root.toList ∧
      (m₁.refusals = m.refusals → st = .ok ∧ (t₁.root.toList : Multiset α) ≤ xs ∧
        (∀ x ∈ xs, ∃ y ∈ t₁.root.toList, cmp y x = 0) ∧
        (Unequal cmp xs → SortOf cmp xs t₁.root.toList)) := by
  obtain ⟨fuel, st, t₁, m₁, _, run, ⟨inv', rfl⟩, -, -, ys, rest, rfl, filled, calm⟩ :=
    (avlAddAdd_takes laws).fills (seqcReaction_fits _) true AvlT.elemSize σ t m 0 it xs
      ⟨inv, by rw [empty]; rfl⟩ fits gives fun _ _ => trivial
  refine ⟨fuel, st, t₁, m₁, run, inv'.ascending, fun same => ?_⟩
  obtain ⟨ok, rfl⟩ := (calm same).resolve_right And.right
  rw [List.append_nil]
  obtain ⟨below, -, covers⟩ := foldl_joined_covers laws.eqLaws ys 0
  rw [← filled, zero_add] at below
  rw [← filled] at covers
  refine ⟨ok, below, fun x hx => ?_, fun unequal => ⟨?_, inv'.ascending.imp fun less => less.le⟩⟩
  · obtain ⟨y, hy, equal⟩ := covers x hx
    exact ⟨y, hy, of_decide_eq_true equal⟩
  · have apart : ys.Pairwise fun x y => sameKey cmp x y = false :=
      unequal.imp fun h => by simpa [sameKey] using h
    rw [foldl_joined apart, zero_add] at filled
    simpa using filled

end Ways

/-- Sorted by `iter_sort`, through a queue of priorities or by `vec_sort`, the elements that an
iterator gives come in orders that differ at equal elements only; a tree keeps one of those
that are equal. Unless there are equal ones, all four are the same. -/
theorem sorts_agree (laws : Laws cmp) {qsort : (α → α → Int) → List α → List α}
    (sorts : ∀ xs, SortOf cmp xs (qsort cmp xs)) {it : OwnedIterT σ α} (gives : it.Gives xs)
    (room : xs.length ≤ sizeMax / 2) {q : Pqueue α} (queues : q.data ≠ none)
    (noneQueued : q.contents = []) (fitsQueue : it.elemSize = vecElemSize q.data) {v : Vec α}
    (nonePushed : v.contents = []) (fitsVec : it.elemSize = v.elemSize) {t : AvlT α}
    (inv : AvlInv cmp t) (noneAdded : t.root.toList = []) (fitsTree : it.elemSize = t.elemSize)
    (m : Mem) :
    ∃ fuel₁ s m₁ fuel₂ st₂ q₂ m₂ s₂ q₂' m₂' fuel₃ st₃ v₃ m₃ w₃ fuel₄ st₄ t₄ m₄,
      iterSort qsort fuel₁ (some it.toIterT) cmp m = some (s, m₁) ∧
      pqueueExtend cmp fuel₂ (some q) (some (it.toIterT.apart _)) m = some (st₂, some q₂, m₂) ∧
      pqueueDrain cmp q₂ m₂ = some (s₂, q₂', m₂') ∧
      vecExtend fuel₃ (some v) (some it.toIterT) m = some (st₃, some v₃, m₃) ∧
      vecSort qsort (some v₃) (some cmp) = some w₃ ∧
      avlExtend cmp fuel₄ (some t) (some (it.toIterT.apart _)) m = some (st₄, some t₄, m₄) ∧
      (m₁.refusals = m.refusals → SortOf cmp xs s.contents ∧
        (m₂'.refusals = m.refusals →
          List.Forall₂ (fun a b => cmp a b = 0) s.contents s₂.contents ∧
          (Unequal cmp xs → s₂.contents = s.contents)) ∧
        (m₃.refusals = m.refusals →
          List.Forall₂ (fun a b => cmp a b = 0) s.contents w₃.contents ∧
          (Unequal cmp xs → w₃.contents = s.contents)) ∧
        (m₄.refusals = m.refusals → Ascending cmp id t₄.root.toList ∧
          (t₄.root.toList : Multiset α) ≤ s.contents ∧
          (∀ x ∈ s.contents, ∃ y ∈ t₄.root.toList, cmp y x = 0) ∧
          (Unequal cmp xs → t₄.root.toList = s.contents))) := by
  obtain ⟨fuel₁, s, m₁, run₁, sorted₁⟩ := iterSort_sorts sorts gives m
  obtain ⟨fuel₂, st₂, q₂, m₂, s₂, q₂', m₂', run₂, drain₂, -, sorted₂⟩ :=
    pqueue_sorts laws gives fitsQueue queues noneQueued room m
  obtain ⟨fuel₃, st₃, v₃, m₃, w₃, run₃, sort₃, sorted₃⟩ :=
    vecSort_sorts sorts gives fitsVec nonePushed room m
  obtain ⟨fuel₄, st₄, t₄, m₄, run₄, asc, sorted₄⟩ := avl_sorts laws gives inv fitsTree noneAdded m
  refine ⟨fuel₁, s, m₁, fuel₂, st₂, q₂, m₂, s₂, q₂', m₂', fuel₃, st₃, v₃, m₃, w₃, fuel₄, st₄, t₄,
    m₄, run₁, run₂, drain₂, run₃, sort₃, run₄, fun calm => ?_⟩
  have sorted := sorted₁ calm
  refine ⟨sorted, fun calm => ?_, fun calm => ?_, fun calm => ?_⟩
  · obtain ⟨-, drained⟩ := sorted₂ calm
    exact ⟨sorted.matching laws drained, fun unequal => sorted.unique laws unequal drained⟩
  · obtain ⟨-, pushed⟩ := sorted₃ calm
    exact ⟨sorted.matching laws pushed, fun unequal => sorted.unique laws unequal pushed⟩
  · obtain ⟨-, below, covers, added⟩ := sorted₄ calm
    have same : (s.contents : Multiset α) = xs := Multiset.coe_eq_coe.mpr sorted.1
    exact ⟨asc, same ▸ below, fun x hx => covers x (sorted.1.subset hx),
      fun unequal => sorted.unique laws unequal (added unequal)⟩

/-- `qsort` as it may be. -/
def insertionQsort (cmp : α → α → Int) (xs : List α) : List α :=
  xs.insertionSort fun a b => cmp a b ≤ 0

theorem insertionQsort_sorts (laws : Laws cmp) (xs : List α) :
    SortOf cmp xs (insertionQsort cmp xs) := by
  have total : Std.Total fun a b : α => cmp a b ≤ 0 := ⟨fun a b => by
    have := laws.flip a b
    omega⟩
  have trans : IsTrans α fun a b => cmp a b ≤ 0 := ⟨laws.trans⟩
  exact ⟨List.perm_insertionSort _ xs, List.pairwise_insertionSort _ xs⟩

theorem sorts_agree_ints :
    ∃ fuel₁ s m₁ fuel₂ st₂ q₂ m₂ s₂ q₂' m₂',
      iterSort insertionQsort fuel₁
        (some (cursorIterT sliceNext Iter.sizeofSliceState 4 0 ⟨[3, 1, 2], 0⟩).toIterT) intCmp
        (.start (refusingOnce 90)) = some (s, m₁) ∧
      pqueueExtend intCmp fuel₂ (some ⟨7, some ⟨8, none, [], 0, 4, by decide⟩⟩)
        (some ((cursorIterT sliceNext Iter.sizeofSliceState 4 0 ⟨[3, 1, 2], 0⟩).toIterT.apart _))
        (.start (refusingOnce 90)) = some (st₂, some q₂, m₂) ∧
      pqueueDrain intCmp q₂ m₂ = some (s₂, q₂', m₂') ∧
      (m₁.refusals = 0 → m₂'.refusals = 0 → s₂.contents = s.contents) := by
  have made : sliceIter ⟨some 1, ([3, 1, 2] : List Int), 4⟩ (.start (refusingOnce 90)) =
      (some (cursorIterT sliceNext Iter.sizeofSliceState 4 0 ⟨[3, 1, 2], 0⟩),
        ⟨refusingOnce 90, 1, [.alloc 0 Iter.sizeofSliceState]⟩) := rfl
  obtain ⟨-, gives⟩ := (slice_served _ _).1.gives made rfl
  have queue : (⟨7, some ⟨8, none, [], 0, 4, by decide⟩⟩ : Pqueue Int).data ≠ none := by simp
  have vec : (⟨8, none, [], 0, 4, by decide⟩ : Vec Int).contents = [] := rfl
  have tree : AvlInv intCmp ⟨9, .nil, 0, 4⟩ := ⟨.nil, trivial, rfl⟩
  obtain ⟨fuel₁, s, m₁, fuel₂, st₂, q₂, m₂, s₂, q₂', m₂', _, _, _, _, _, _, _, _, _, run₁, run₂,
    drain₂, _, _, _, agree⟩ := sorts_agree intCmp_laws (insertionQsort_sorts intCmp_laws) gives
      (by decide) queue rfl rfl vec rfl tree rfl rfl (.start (refusingOnce 90))
  refine ⟨fuel₁, s, m₁, fuel₂, st₂, q₂, m₂, s₂, q₂', m₂', run₁, run₂, drain₂, fun calm₁ calm₂ => ?_⟩
  exact ((agree calm₁).2.1 calm₂).2 (by simp [Unequal, intCmp])

end Seqc
