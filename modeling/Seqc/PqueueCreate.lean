import Seqc.Ledger
import Seqc.PqueueRun

/-! `pqueue_create` and `pqueue_create_from_vec` under refusals. Neither looks at the outcome
of what it calls: a queue may be without its vector, and a copied queue without some of the
elements. -/

namespace Seqc
open Comparator Heap Runs

variable {α : Type} {cmp : α → α → Int} {v w : Vec α} {st : Status} {m m' : Mem}
  {a : Allocator} {first k : Nat}

/-- Growth number `k` of a vector is granted, number 0 being request number `first`. -/
def Allocator.vecGrowthGranted (a : Allocator) (elemSize first k : Nat) : Bool :=
  a.grants (first + k) (mulSize (roomAfter vecInitialCap (k + 1)) elemSize)

/-- The `vec_t` of a copy of `n` elements is granted, and every growth that they need. -/
def CopyGranted (elemSize n : Nat) (m : Mem) : Prop :=
  m.allocator.grants (m.requests + 1) sizeofVec = true ∧
    ∀ k, roomAfter vecInitialCap k < n →
      m.allocator.vecGrowthGranted elemSize (m.requests + 2) k = true

/-- A vector that grew by pushes only, `k` times from request `first` on. -/
structure Vec.Grown (a : Allocator) (first k : Nat) (v : Vec α) (m : Mem) : Prop where
  allocator : m.allocator = a
  requests : m.requests = first + k
  cap : v.cap = roomAfter vecInitialCap k
  len_le : v.contents.length ≤ v.cap
  few : k ≤ 60
  granted : ∀ i < k, a.vecGrowthGranted v.elemSize first i = true

/-- From a capacity of 2^63 on a doubling is given up. -/
theorem roomAfter_le_iff : roomAfter vecInitialCap k ≤ sizeMax / 2 ↔ k < 60 := by
  constructor
  · intro small
    by_contra many
    have := (roomAfter_mono vecInitialCap (Nat.le_of_not_lt many)).trans small
    simp [roomAfter, vecInitialCap, sizeMax] at this
  · intro few
    have := roomAfter_mono vecInitialCap (Nat.le_of_lt_succ few : k ≤ 59)
    refine this.trans ?_
    decide

/-- A push makes the vector longer, or its growth is refused or given up before it wraps. -/
theorem Vec.Grown.push (g : v.Grown a first k m) {x : α}
    (push : vecPush (some v) (some x) m = (st, some w, m')) :
    (w.contents = v.contents ++ [x] ∧ w.elemSize = v.elemSize ∧ ∃ k', w.Grown a first k' m') ∨
      (w = v ∧ v.contents.length = roomAfter vecInitialCap k ∧
        (60 ≤ k ∨ a.vecGrowthGranted v.elemSize first k = false)) := by
  simp only [vecPush, vecGrow] at push
  by_cases full : v.contents.length = v.cap
  · rw [if_pos full] at push
    by_cases huge : sizeMax / 2 < v.cap
    · rw [if_pos huge] at push
      obtain ⟨-, rfl, rfl⟩ : .oom = st ∧ v = w ∧ m = m' := by simpa using push
      refine .inr ⟨rfl, full.trans g.cap, .inl ?_⟩
      rw [g.cap] at huge
      by_contra few
      exact absurd (roomAfter_le_iff.mpr (Nat.lt_of_not_le few)) (Nat.not_le_of_lt huge)
    · rw [if_neg huge] at push
      have few : k < 60 := roomAfter_le_iff.mp (g.cap ▸ Nat.le_of_not_lt huge)
      have next : (if v.cap = 0 then vecInitialCap else mulSize v.cap 2) =
          roomAfter vecInitialCap (k + 1) := by
        rw [g.cap] at huge ⊢
        exact roomAfter_next (by decide) (by simp only [sizeMax] at huge; omega)
      rw [next] at push
      have outcome := memRealloc_isSome m v.dataAddr (mulSize v.contents.length v.elemSize)
        (mulSize (roomAfter vecInitialCap (k + 1)) v.elemSize)
      rw [g.allocator, g.requests] at outcome
      rcases hm : memRealloc m v.dataAddr (mulSize v.contents.length v.elemSize)
        (mulSize (roomAfter vecInitialCap (k + 1)) v.elemSize) with ⟨_ | addr, m₁⟩
      · obtain ⟨-, rfl, rfl⟩ : .oom = st ∧ v = w ∧ m₁ = m' := by simpa [hm] using push
        rw [hm] at outcome
        exact .inr ⟨rfl, full.trans g.cap, .inr outcome.symm⟩
      · obtain ⟨-, rfl, rfl⟩ : .ok = st ∧ _ = w ∧ m₁ = m' := by simpa [hm] using push
        rw [hm] at outcome
        have count := (memRealloc_requests hm).1
        have room : roomAfter vecInitialCap k < roomAfter vecInitialCap (k + 1) := by
          cases k with
          | zero => decide
          | succ k =>
            have := Nat.two_pow_pos k
            simp only [roomAfter, vecInitialCap]
            omega
        refine .inl ⟨rfl, rfl, k + 1, (memRealloc_allocator hm).trans g.allocator,
          by rw [count, g.requests]; rfl, rfl, ?_, few, fun i hi => ?_⟩
        · simp only [List.length_append, List.length_singleton, full, g.cap]
          omega
        · rcases Nat.lt_succ_iff_lt_or_eq.mp hi with hi | rfl
          · exact g.granted i hi
          · exact outcome.symm
  · rw [if_neg full] at push
    obtain ⟨-, rfl, rfl⟩ : .ok = st ∧ _ = w ∧ m = m' := by simpa using push
    have := g.len_le
    refine .inl ⟨rfl, rfl, k, g.allocator, g.requests, g.cap, ?_, g.few, g.granted⟩
    simp only [List.length_append, List.length_singleton]
    omega

/-- A copy is whole, or a growth that it needs is refused or given up. -/
theorem Vec.Grown.pushAll (xs : List α) :
    ∀ {k : Nat} {v : Vec α} {m m' : Mem} {data : Option (Vec α)},
      v.Grown a first k m → Seqc.pushAll (some v) m xs = (data, m') →
        (∃ k' w, data = some w ∧ w.Grown a first k' m' ∧ w.elemSize = v.elemSize ∧
          w.contents = v.contents ++ xs) ∨
        (vecContents data).length < v.contents.length + xs.length ∧
          ∃ k', roomAfter vecInitialCap k' < v.contents.length + xs.length ∧
            (60 ≤ k' ∨ a.vecGrowthGranted v.elemSize first k' = false) := by
  induction xs with
  | nil =>
    intro k v m m' data g run
    obtain ⟨rfl, rfl⟩ : some v = data ∧ m = m' := by simpa [Seqc.pushAll] using run
    exact .inl ⟨k, v, rfl, g, rfl, (List.append_nil _).symm⟩
  | cons x xs ih =>
    intro k v m m' data g run
    obtain ⟨st, w, m₁, push⟩ : ∃ st w m₁, vecPush (some v) (some x) m = (st, some w, m₁) := by
      rcases vecPush_spec v x m with ⟨w, m₁, push, -⟩ | ⟨m₁, push, -⟩
      · exact ⟨_, w, m₁, push⟩
      · exact ⟨_, v, m₁, push⟩
    have rest : Seqc.pushAll (some w) m₁ xs = (data, m') := by
      simpa [Seqc.pushAll, push] using run
    rw [List.length_cons]
    obtain ⟨appended, width, k₁, g₁⟩ | ⟨rfl, full, refused⟩ := g.push push
    · have longer : w.contents.length = v.contents.length + 1 := by simp [appended]
      obtain ⟨k', w', rfl, g', width', whole⟩ | ⟨short, k', needed, refused⟩ := ih g₁ rest
      · refine .inl ⟨k', w', rfl, g', width'.trans width, ?_⟩
        rw [whole, appended, List.append_assoc, List.singleton_append]
      · exact .inr ⟨by omega, k', by omega, width ▸ refused⟩
    · obtain ⟨data', m'', run', -, -, len, -⟩ := pushAll_spec xs (some w) m₁
      obtain ⟨rfl, rfl⟩ := Prod.mk.inj (run'.symm.trans rest)
      simp only [vecContents] at len
      exact .inr ⟨by simp only [vecContents]; omega, k, by omega, refused⟩

/-- A new queue has a vector if and only if its second request was made and granted. -/
theorem pqueueCreate_data {q : Pqueue α} {elemSize : Nat}
    (created : pqueueCreate α elemSize m = (some q, m')) :
    (q.data.isSome ↔ elemSize ≠ 0 ∧ m.allocator.grants (m.requests + 1) sizeofVec = true) ∧
      ∀ v, q.data = some v → v.Grown m.allocator (m.requests + 2) 0 m' ∧
        v.contents = [] ∧ v.elemSize = elemSize := by
  unfold pqueueCreate at created
  rcases hm : memAlloc m sizeofPqueue with ⟨_ | addr, m₁⟩
  · simp [hm] at created
  have count := (memAlloc_requests hm).1
  have same := memAlloc_allocator hm
  by_cases zero : elemSize = 0
  · obtain ⟨rfl, rfl⟩ : (⟨addr, none⟩ : Pqueue α) = q ∧ m₁ = m' := by
      simpa [hm, vecCreate, zero] using created
    simp [zero]
  · have outcome := memAlloc_isSome m₁ sizeofVec
    rw [same, count] at outcome
    rcases hv : memAlloc m₁ sizeofVec with ⟨_ | vec, m₂⟩
    · obtain ⟨rfl, rfl⟩ : (⟨addr, none⟩ : Pqueue α) = q ∧ m₂ = m' := by
        simpa [hm, vecCreate, zero, hv] using created
      rw [hv] at outcome
      simp [← outcome]
    · obtain ⟨rfl, rfl⟩ : (⟨addr, some ⟨vec, none, [], 0, elemSize, Nat.pos_of_ne_zero zero⟩⟩ :
          Pqueue α) = q ∧ m₂ = m' := by simpa [hm, vecCreate, zero, hv] using created
      rw [hv] at outcome
      refine ⟨by simp [zero, ← outcome], fun v hv' => ?_⟩
      obtain rfl := Option.some.inj hv'
      have count' := (memAlloc_requests hv).1
      exact ⟨⟨(memAlloc_allocator hv).trans same, by rw [count', count], rfl, le_rfl, by decide,
        fun i hi => absurd hi (Nat.not_lt_zero i)⟩, rfl, rfl⟩

theorem pqueueCreate_isSome (α : Type) (elemSize : Nat) (m : Mem) :
    (pqueueCreate α elemSize m).1.isSome = m.allocator.grants m.requests sizeofPqueue := by
  rw [← memAlloc_isSome]
  rcases hm : memAlloc m sizeofPqueue with ⟨_ | addr, m₁⟩ <;> simp [pqueueCreate, hm]

/-- A copied queue holds the elements of the vector if and only if there are none, or the
requests that they need are granted and there are not more than any vector can hold. -/
theorem pqueueCreateFromVec_iff (laws : Laws cmp) (v : Option (Vec α)) (m : Mem) :
    ∃ r m', pqueueCreateFromVec cmp v m = some (r, m') ∧
      ((∀ q, r = some q → q.contents.Perm (vecContents v) ∧ Ordered cmp q.contents) ↔
        m.allocator.grants m.requests sizeofPqueue = false ∨ vecContents v = [] ∨
          (CopyGranted (vecElemSize v) (vecContents v).length m ∧
            (vecContents v).length ≤ sizeMax / 2 + 1)) := by
  have width : (vecAsSlice v).elemSize = vecElemSize v := by cases v <;> rfl
  have first := pqueueCreate_isSome α (vecAsSlice v).elemSize m
  rcases created : pqueueCreate α (vecAsSlice v).elemSize m with ⟨_ | q, m₁⟩
  · rw [created] at first
    exact ⟨none, m₁, by simp only [pqueueCreateFromVec, created], fun _ => .inl first.symm,
      fun _ q hq => absurd hq (by simp)⟩
  · have granted : m.allocator.grants m.requests sizeofPqueue = true := by
      rw [← first, created]
      rfl
    obtain ⟨alive, fresh⟩ := pqueueCreate_data created
    rw [width] at alive fresh
    rcases copied : pushAll q.data m₁ (vecContents v) with ⟨data, m₂⟩
    obtain ⟨q', made, ordered, perm⟩ := pqueueCreateFromVec_heap laws v created copied
    refine ⟨some q', m₂, made, ?_⟩
    have holds : (∀ q'', some q' = some q'' → q''.contents.Perm (vecContents v) ∧
        Ordered cmp q''.contents) ↔ (vecContents data).Perm (vecContents v) := by
      constructor
      · intro all
        exact perm.symm.trans (all q' rfl).1
      · intro same q'' hq
        obtain rfl := Option.some.inj hq
        exact ⟨perm.trans same, ordered⟩
    rw [holds]
    simp only [granted, Bool.true_eq_false, false_or]
    cases hd : q.data with
    | none =>
      -- Without a vector nothing is copied.
      obtain ⟨data', m', run, gone, -, -, -⟩ := pushAll_spec (vecContents v) q.data m₁
      obtain ⟨rfl, rfl⟩ := Prod.mk.inj (run.symm.trans copied)
      obtain rfl : data' = none := by simpa [hd] using gone
      have refused (some : vecContents v ≠ []) :
          m.allocator.grants (m.requests + 1) sizeofVec = false := by
        have size : vecElemSize v ≠ 0 := by
          cases v with
          | none => simp [vecContents] at some
          | some v => exact v.elem_pos.ne'
        simpa [hd, size] using alive
      constructor
      · intro same
        exact .inl (List.nil_perm.mp same)
      · rintro (none | ⟨⟨vec, -⟩, -⟩)
        · rw [none]
          exact .nil
        · by_contra some
          simp [refused fun none => some (by rw [none]; exact .nil)] at vec
    | some u =>
      obtain ⟨g, empty, wide⟩ := fresh u hd
      have vec := (alive.mp (by simp [hd])).2
      rw [hd] at copied
      have outcome := g.pushAll _ copied
      rw [empty, List.length_nil, Nat.zero_add, wide] at outcome
      constructor
      · intro same
        obtain ⟨k', w, rfl, g', wide', -⟩ | ⟨short, -⟩ := outcome
        · have lengths : w.contents.length = (vecContents v).length := same.length_eq
          have fits := g'.len_le
          have most := roomAfter_mono vecInitialCap g'.few
          rw [g'.cap, lengths] at fits
          refine .inr ⟨⟨vec, fun k needed => ?_⟩, fits.trans (most.trans (by decide))⟩
          have within : k < k' := by
            by_contra late
            have := roomAfter_mono vecInitialCap (Nat.le_of_not_lt late)
            omega
          exact wide' ▸ g'.granted k within
        · exact absurd same.length_eq short.ne
      · rintro (none | ⟨⟨-, granted⟩, room⟩)
        · obtain ⟨k', w, rfl, -, -, whole⟩ | ⟨short, -⟩ := outcome
          · rw [vecContents, whole, List.nil_append]
          · simp [none] at short
        · obtain ⟨k', w, rfl, -, -, whole⟩ | ⟨-, k', needed, many | refused⟩ := outcome
          · rw [vecContents, whole, List.nil_append]
          · have := roomAfter_mono vecInitialCap many
            simp only [roomAfter, vecInitialCap, sizeMax] at this needed room
            omega
          · simp [granted k' needed] at refused

/-! ### Every later push -/

/-- `pqueue_create_from_vec` gives NULL or a heap of exactly the elements of the vector, if and
only if it is NULL, or there are no elements, or the requests that they need are granted; and a
queue from `pqueue_create` never answers `SEQC_INVALID` to the push of an element, after any
operations, if and only if the request for its vector was granted. -/
theorem pqueue_creations (laws : Laws cmp) :
    (∀ (v : Option (Vec α)) (m : Mem), ∃ r m', pqueueCreateFromVec cmp v m = some (r, m') ∧
      ((∀ q, r = some q → q.contents.Perm (vecContents v) ∧ Ordered cmp q.contents) ↔
        m.allocator.grants m.requests sizeofPqueue = false ∨ vecContents v = [] ∨
          (CopyGranted (vecElemSize v) (vecContents v).length m ∧
            (vecContents v).length ≤ sizeMax / 2 + 1))) ∧
    ∀ (elemSize : Nat) (m m₁ : Mem) (q : Pqueue α) (x : α),
      pqueueCreate α elemSize m = (some q, m₁) →
        ((∀ ops outs q' m', run (pqueueStep cmp) ops (q, m₁) = some (outs, (q', m')) →
          ∃ st q'' m'', pqueuePush cmp q' (some x) m' = some (st, q'', m'') ∧
            (st = .ok ∨ st = .oom)) ↔
          elemSize ≠ 0 ∧ m.allocator.grants (m.requests + 1) sizeofVec = true) := by
  refine ⟨pqueueCreateFromVec_iff laws, fun elemSize m m₁ q x created => ?_⟩
  obtain ⟨alive, -⟩ := pqueueCreate_data created
  obtain ⟨empty, -⟩ := pqueueCreate_spec created
  rw [← alive]
  constructor
  · intro always
    obtain ⟨st, q', m', push, good⟩ := always [] [] q m₁ rfl
    by_contra dead
    have gone : q.data = none := by simpa using dead
    obtain ⟨addr, data⟩ := q
    obtain rfl : data = none := gone
    obtain ⟨rfl, -, -⟩ : .invalid = st ∧ _ = q' ∧ m₁ = m' := by
      simpa [pqueuePush, vecPush] using push
    simp at good
  · intro real ops outs q' m' ran
    obtain ⟨outs', ⟨q'', m''⟩, g, ran', -, ⟨real', ordered, -⟩⟩ :=
      run_refines (pqueueStep cmp) (QueueStep cmp q.data.isSome)
        (pqueueStep_refines laws q.data.isSome) ops (s := (q, m₁)) (g := (0, m₁.refusals))
        ⟨rfl, empty ▸ ordered_nil, by simp [empty]⟩
    obtain ⟨rfl, rfl, rfl⟩ : outs' = outs ∧ q'' = q' ∧ m'' = m' := by
      simpa using ran'.symm.trans ran
    obtain ⟨v, hv⟩ := Option.isSome_iff_exists.mp (real'.trans real)
    rcases pqueuePush_spec laws hv ordered x m'' with ⟨q₁, m₁', push, -⟩ | ⟨m₁', push, -⟩
    · exact ⟨.ok, q₁, m₁', push, .inl rfl⟩
    · exact ⟨.oom, q'', m₁', push, .inr rfl⟩

theorem pqueue_creations_ints :
    ∃ r m', pqueueCreateFromVec intCmp (some ⟨7, some 8, [3, 1, 2], 16, 4, by decide⟩)
        (.start (refusingOnce 5)) = some (r, m') ∧
      ∀ q, r = some q → q.contents.Perm [3, 1, 2] ∧ Ordered intCmp q.contents := by
  obtain ⟨r, m', made, whole⟩ := (pqueue_creations intCmp_laws).1
    (some ⟨7, some 8, [3, 1, 2], 16, 4, by decide⟩) (.start (refusingOnce 5))
  refine ⟨r, m', made, whole.mpr (.inr (.inr ⟨⟨rfl, fun k needed => ?_⟩, by decide⟩))⟩
  cases k with
  | zero => rfl
  | succ k =>
    have := Nat.two_pow_pos k
    simp only [roomAfter, vecInitialCap, vecContents, List.length_cons, List.length_nil] at needed
    omega

/-- A queue copied from a vector of one element, without it; and a queue without a vector,
which answers `SEQC_INVALID` to every push. -/
theorem pqueue_creations_refused :
    (∃ q m', pqueueCreateFromVec intCmp (some ⟨7, some 8, [3], 16, 4, by decide⟩)
        (.start (refusingOnce 2)) = some (some q, m') ∧ ¬q.contents.Perm [3]) ∧
    ∃ q m', pqueueCreate Int 4 (.start (refusingOnce 1)) = (some q, m') ∧
      pqueuePush intCmp q (some 3) m' = some (.invalid, q, m') :=
  ⟨⟨_, _, rfl, by decide⟩, _, _, rfl, rfl⟩

end Seqc
