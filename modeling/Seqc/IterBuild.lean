import Seqc.IterSpec

/-! What the functions that make iterators return: a failed iterator after a refused
request, or one that delivers what its sources and arguments say. -/

namespace Seqc
open Iteration Windows

variable {s t : ElemType} {m : Mem}

/-- What `iter_enumerate` makes of a list; the index is a `size_t`. -/
def enumerated {β : Type} (xs : List β) : List (Nat × β) :=
  xs.zipIdx.map fun p => (p.2 % 2 ^ 64, p.1)

/-- What `iter_dedup` makes of a list: neighbours that compare equal are merged to the
first. -/
def deduped {β : Type} (cmp : β → β → Int) (xs : List β) : List β :=
  xs.destutter fun x y => cmp y x ≠ 0

/-- A request was refused and the iterator failed, or nothing was refused and it is as `P`
says. -/
def Makes (m : Mem) (r : Iter t × Mem) (P : Iter t → Prop) : Prop :=
  (r.1 = .failed ∧ m.refusals < r.2.refusals) ∨
    (P r.1 ∧ r.1.isValid = true ∧ r.2.refusals = m.refusals)

theorem withState_makes {size : Nat} {drop : Mem → Mem} {make : Nat → Iter t}
    {P : Iter t → Prop} (free : ∀ m, (drop m).refusals = m.refusals)
    (makes : ∀ addr, P (make addr) ∧ (make addr).isValid = true) (m : Mem) :
    Makes m (withState m size drop make) P := by
  unfold withState
  match hm : memAlloc m size with
  | (none, m₁) =>
    have refused := memAlloc_none hm
    refine .inl ⟨rfl, ?_⟩
    rw [free]
    omega
  | (some addr, m₁) => exact .inr ⟨(makes addr).1, (makes addr).2, (memAlloc_some hm).2.2⟩

theorem withBuffer_makes {size bufSize : Nat} {drop : Mem → Mem} {make : Nat → Nat → Iter t}
    {P : Iter t → Prop} (free : ∀ m, (drop m).refusals = m.refusals)
    (makes : ∀ addr buf, P (make addr buf) ∧ (make addr buf).isValid = true) (m : Mem) :
    Makes m (withBuffer m size bufSize drop make) P := by
  unfold withBuffer
  match hm : memAlloc m size with
  | (none, m₁) =>
    have refused := memAlloc_none hm
    match hm' : memAlloc m₁ bufSize with
    | (none, m₂) =>
      have refused' := memAlloc_none hm'
      refine .inl ⟨rfl, ?_⟩
      simp only [hm', free, freeIf_refusals]
      omega
    | (some buf, m₂) =>
      have granted := (memAlloc_some hm').2.2
      refine .inl ⟨rfl, ?_⟩
      simp only [hm', free, freeIf_refusals]
      omega
  | (some addr, m₁) =>
    have granted := (memAlloc_some hm).2.2
    match hm' : memAlloc m₁ bufSize with
    | (none, m₂) =>
      have refused' := memAlloc_none hm'
      refine .inl ⟨by simp only [hm'], ?_⟩
      simp only [hm', free, freeIf_refusals]
      omega
    | (some buf, m₂) =>
      have granted' := (memAlloc_some hm').2.2
      refine .inr ⟨?_, ?_, ?_⟩ <;> simp only [hm']
      · exact (makes addr buf).1
      · exact (makes addr buf).2
      · omega

theorem Makes.imp {r : Iter t × Mem} {P Q : Iter t → Prop} (h : Makes m r P)
    (weaker : ∀ it, P it → Q it) : Makes m r Q :=
  Or.imp_right (fun made => ⟨weaker r.1 made.1, made.2⟩) h

/-- An adaptor fails with its source and works on a valid one. -/
theorem Makes.adapt {r : Iter s × Mem} {P : Iter s → Prop} {Q : Iter t → Prop}
    {f : Iter s → Mem → Iter t × Mem} (h : Makes m r P) (fails : ∀ m, f .failed m = (.failed, m))
    (works : ∀ src, src.isValid = true → P src → ∀ m, Makes m (f src m) Q) :
    Makes m (f r.1 r.2) Q := by
  obtain ⟨src, m₁⟩ := r
  cases h with
  | inl failed =>
    obtain ⟨rfl, refused⟩ := failed
    rw [fails]
    exact .inl ⟨rfl, refused⟩
  | inr made =>
    obtain ⟨good, valid, quiet⟩ := made
    simp only at quiet
    have made := works src valid good m₁
    rw [Makes, quiet] at made
    exact made

/-- An adaptor of two sources fails if one of them has. -/
theorem Makes.adapt₂ {u : ElemType} {ra : Iter s × Mem} {rb : Iter t × Mem} {P : Iter s → Prop}
    {Q : Iter t → Prop} {R : Iter u → Prop} {f : Iter s → Iter t → Mem → Iter u × Mem}
    (ha : Makes m ra P) (hb : Makes ra.2 rb Q)
    (fails : ∀ a b m, ¬(a.isValid = true ∧ b.isValid = true) →
      (f a b m).1 = .failed ∧ (f a b m).2.refusals = m.refusals)
    (works : ∀ a b, a.isValid = true → b.isValid = true → P a → Q b → ∀ m, Makes m (f a b m) R) :
    Makes m (f ra.1 rb.1 rb.2) R := by
  cases ha with
  | inl failed =>
    obtain ⟨none, refused⟩ := failed
    obtain ⟨same, quiet⟩ := fails ra.1 rb.1 rb.2 (by simp [none, Iter.isValid])
    refine .inl ⟨same, ?_⟩
    cases hb with
    | inl h => omega
    | inr h => omega
  | inr made =>
    obtain ⟨good, valid, calm⟩ := made
    cases hb with
    | inl failed =>
      obtain ⟨none, refused⟩ := failed
      obtain ⟨same, quiet⟩ := fails ra.1 rb.1 rb.2 (by simp [none, Iter.isValid])
      exact .inl ⟨same, by omega⟩
    | inr made =>
      obtain ⟨good', valid', calm'⟩ := made
      have made := works ra.1 rb.1 valid valid' good good' rb.2
      rw [Makes, calm', calm] at made
      exact made

/-! ### The adaptors -/

section Adaptors
variable {Es : Iter s → Prop} {E F : Iter t → Prop} {rs : Iter s × Mem} {r r' : Iter t × Mem}
  {ys : List s.Val} {B : Set (List s.Val)} {xs zs : List t.Val} {A C : Set (List t.Val)}

theorem iterFilter_makes (pred : t.Val → Bool)
    (ends : ∀ addr src, E src → F (.filter addr src pred))
    (h : Makes m r fun src => src.Delivers E xs A) :
    Makes m (iterFilter r.1 pred r.2)
      fun it => it.Delivers F (xs.filter pred) (List.filter pred '' A) := by
  refine h.adapt (f := fun src => iterFilter src pred) (fun _ => rfl) fun src valid h m => ?_
  rw [iterFilter, if_pos valid]
  refine withState_makes (destroy_refusals src) (fun addr => ⟨?_, rfl⟩) m
  exact (filter_transduces addr pred).computes (transduce_filter pred) (fun _ => ends addr) h

theorem iterMap_makes (fn : s.Val → t.Val)
    (ends : ∀ addr buf src, Es src → F (.map addr buf src fn))
    (h : Makes m rs fun src => src.Delivers Es ys B) :
    Makes m (iterMap rs.1 fn rs.2)
      fun it => it.Delivers F (ys.map fn) (List.map fn '' B) := by
  refine h.adapt (f := fun src => iterMap src fn) (fun _ => rfl) fun src valid h m => ?_
  rw [iterMap, if_pos valid]
  match hm : memAlloc m Iter.sizeofMapState with
  | (none, m₁) =>
    have refused := memAlloc_none hm
    exact .inl ⟨rfl, by rw [destroy_refusals]; omega⟩
  | (some addr, m₁) =>
    have granted := (memAlloc_some hm).2.2
    match hm' : memAlloc m₁ s.size with
    | (none, m₂) =>
      have refused := memAlloc_none hm'
      refine .inl ⟨by simp only [hm'], ?_⟩
      simp only [hm', destroy_refusals, memFree_refusals]
      omega
    | (some buf, m₂) =>
      have granted' := (memAlloc_some hm').2.2
      refine .inr ⟨?_, ?_, ?_⟩ <;> simp only [hm']
      · exact (map_transduces addr buf fn).computes (transduce_map fn) (fun _ => ends addr buf) h
      · rfl
      · omega

theorem iterTake_makes (n : Nat) {G : Nat → List t.Val → Prop}
    (keep : ∀ n x zs, G (n + 1) (x :: zs) → G n zs)
    (ends : ∀ addr src n, E src → G (n + 1) [] → F (.take addr src (n + 1)))
    (full : ∀ addr src, F (.take addr src 0)) (good : ∀ zs ∈ A, G n zs)
    (h : Makes m r fun src => src.Delivers E xs A) :
    Makes m (iterTake r.1 n r.2) fun it => it.Delivers F (xs.take n) (List.take n '' A) := by
  refine h.adapt (f := fun src => iterTake src n) (fun _ => rfl) fun src valid h m => ?_
  rw [iterTake, if_pos valid]
  refine withState_makes (destroy_refusals src) (fun addr => ⟨?_, rfl⟩) m
  exact take_delivers addr keep (ends addr) (full addr) h n _ good
    fun zs hz => Set.mem_image_of_mem _ hz

theorem iterTakeWhile_makes (pred : t.Val → Bool) {G : List t.Val → Prop}
    (ends : ∀ addr src, E src → G [] → F (.takeWhile addr src pred))
    (keep : ∀ x zs, pred x = true → G (x :: zs) → G zs)
    (stops : ∀ addr src ys B x, pred x = false → src.Delivers E ys B →
      (∀ zs ∈ B, G (x :: zs)) → F (.takeWhile addr src pred))
    (good : ∀ zs ∈ A, G zs) (h : Makes m r fun src => src.Delivers E xs A) :
    Makes m (iterTakeWhile r.1 pred r.2)
      fun it => it.Delivers F (xs.takeWhile pred) (List.takeWhile pred '' A) := by
  refine h.adapt (f := fun src => iterTakeWhile src pred) (fun _ => rfl) fun src valid h m => ?_
  rw [iterTakeWhile, if_pos valid]
  refine withState_makes (destroy_refusals src) (fun addr => ⟨?_, rfl⟩) m
  exact takeWhile_delivers addr pred (ends addr) keep (stops addr) h _ good
    fun zs hz => Set.mem_image_of_mem _ hz

theorem iterSkip_makes (n : Nat) (ends : ∀ addr src n, E src → F (.skip addr src n))
    (h : Makes m r fun src => src.Delivers E xs A) :
    Makes m (iterSkip r.1 n r.2) fun it => it.Delivers F (xs.drop n) (List.drop n '' A) := by
  refine h.adapt (f := fun src => iterSkip src n) (fun _ => rfl) fun src valid h m => ?_
  rw [iterSkip, if_pos valid]
  refine withState_makes (destroy_refusals src) (fun addr => ⟨?_, rfl⟩) m
  exact (skip_transduces addr).computes (transduce_skip n) (fun n src => ends addr src n) h

theorem iterSkipWhile_makes (pred : t.Val → Bool)
    (ends : ∀ addr src done, E src → F (.skipWhile addr src pred done))
    (h : Makes m r fun src => src.Delivers E xs A) :
    Makes m (iterSkipWhile r.1 pred r.2)
      fun it => it.Delivers F (xs.dropWhile pred) (List.dropWhile pred '' A) := by
  refine h.adapt (f := fun src => iterSkipWhile src pred) (fun _ => rfl) fun src valid h m => ?_
  rw [iterSkipWhile, if_pos valid]
  refine withState_makes (destroy_refusals src) (fun addr => ⟨?_, rfl⟩) m
  exact (skipWhile_transduces addr pred).computes (transduce_skipWhile pred)
    (fun done src => ends addr src done) h

theorem iterChain_makes (ends : ∀ addr a b, E b → F (.chain addr a b true)) {E₁ : Iter t → Prop}
    (ha : Makes m r fun a => a.Delivers E₁ xs A) (hb : Makes r.2 r' fun b => b.Delivers E zs C) :
    Makes m (iterChain r.1 r'.1 r'.2)
      fun it => it.Delivers F (xs ++ zs) (Set.image2 (· ++ ·) A C) := by
  refine ha.adapt₂ hb (fun a b m bad => ?_) fun a b valid valid' h h' m => ?_
  · rw [iterChain, if_neg bad]
    exact ⟨rfl, by simp only [destroy_refusals]⟩
  · rw [iterChain, if_pos ⟨valid, valid'⟩]
    refine withState_makes (fun m => by simp only [destroy_refusals]) (fun addr => ⟨?_, rfl⟩) m
    exact chain_delivers addr (ends addr) h h' _ fun zs hz ws hw => Set.mem_image2_of_mem hz hw

theorem iterZip_makes {F : Iter (.pair s t) → Prop} {G : List s.Val → List t.Val → Prop}
    (keep : ∀ x zs y ws, G (x :: zs) (y :: ws) → G zs ws)
    (endsA : ∀ addr buf a b ws, Es a → G [] ws → F (.zip addr buf a b))
    (endsB : ∀ addr buf a b xs A x, a.Delivers Es xs A → E b → (∀ zs ∈ A, G (x :: zs) []) →
      F (.zip addr buf a b))
    (good : ∀ zs ∈ B, ∀ ws ∈ A, G zs ws)
    (ha : Makes m rs fun a => a.Delivers Es ys B) (hb : Makes rs.2 r fun b => b.Delivers E xs A) :
    Makes m (iterZip rs.1 r.1 r.2)
      fun it => it.Delivers F (ys.zip xs) (Set.image2 List.zip B A) := by
  refine ha.adapt₂ hb (fun a b m bad => ?_) fun a b valid valid' h h' m => ?_
  · rw [iterZip, if_neg bad]
    exact ⟨rfl, by simp only [destroy_refusals]⟩
  · rw [iterZip, if_pos ⟨valid, valid'⟩]
    refine withBuffer_makes (fun m => by simp only [destroy_refusals])
      (fun addr buf => ⟨?_, rfl⟩) m
    exact zip_delivers addr buf keep (endsA addr buf) (endsB addr buf) h b xs A h' _ good
      fun zs hz ws hw => Set.mem_image2_of_mem hz hw

theorem iterEnumerate_makes {F : Iter (.entry t) → Prop}
    (ends : ∀ addr buf src index, E src → F (.enumerate addr buf src index))
    (h : Makes m r fun src => src.Delivers E xs A) :
    Makes m (iterEnumerate r.1 r.2) fun it => it.Delivers F (enumerated xs) (enumerated '' A) := by
  refine h.adapt (f := iterEnumerate) (fun _ => rfl) fun src valid h m => ?_
  rw [iterEnumerate, if_pos valid]
  refine withBuffer_makes (destroy_refusals src) (fun addr buf => ⟨?_, rfl⟩) m
  exact (enumerate_transduces addr buf).computes (fun zs => transduce_enumerate zs 0)
    (fun index src => ends addr buf src index) h

theorem iterWindow_makes (n : Nat) {F : Iter (.slice t) → Prop}
    (empty : ∀ addr buf src, n = 0 → F (.window addr buf src n [] false))
    (ends : ∀ addr buf src contents primed, E src → F (.window addr buf src n contents primed))
    (h : Makes m r fun src => src.Delivers E xs A) :
    Makes m (iterWindow r.1 n r.2) fun it => it.Delivers F (windows n xs) (windows n '' A) := by
  refine h.adapt (f := fun src => iterWindow src n) (fun _ => rfl) fun src valid h m => ?_
  have delivers (addr : Nat) (buf : Option Nat) :
      (Iter.window addr buf src n [] false).Delivers F (windows n xs) (windows n '' A) :=
    window_delivers addr buf n (empty addr buf) (ends addr buf) h _
      fun zs hz => Set.mem_image_of_mem _ hz
  simp only [iterWindow, if_pos valid]
  by_cases zero : n = 0
  · rw [if_pos zero]
    exact withState_makes (destroy_refusals src) (fun addr => ⟨delivers addr none, rfl⟩) m
  · rw [if_neg zero]
    exact withBuffer_makes (destroy_refusals src) (fun addr buf => ⟨delivers addr buf, rfl⟩) m

theorem iterChunks_makes (n : Nat) {F : Iter (.slice t) → Prop} {G : List t.Val → Prop}
    (keep : ∀ zs ws, zs.length = n → G (zs ++ ws) → G ws)
    (empty : ∀ addr buf src, n = 0 → F (.chunks addr buf src n false))
    (done : ∀ addr buf src, F (.chunks addr buf src n true))
    (ends : ∀ addr buf src, E src → G [] → F (.chunks addr buf src n false))
    (good : ∀ zs ∈ A, G zs) (h : Makes m r fun src => src.Delivers E xs A) :
    Makes m (iterChunks r.1 n r.2)
      fun it => it.Delivers F (chunksOf n xs) (chunksOf n '' A) := by
  refine h.adapt (f := fun src => iterChunks src n) (fun _ => rfl) fun src valid h m => ?_
  have delivers (addr : Nat) (buf : Option Nat) :
      (Iter.chunks addr buf src n false).Delivers F (chunksOf n xs) (chunksOf n '' A) :=
    chunks_delivers addr buf n keep (empty addr buf) (done addr buf) (ends addr buf) h _ good
      fun zs hz => Set.mem_image_of_mem _ hz
  simp only [iterChunks, if_pos valid]
  by_cases zero : n = 0
  · rw [if_pos zero]
    exact withState_makes (destroy_refusals src) (fun addr => ⟨delivers addr none, rfl⟩) m
  · rw [if_neg zero]
    exact withBuffer_makes (destroy_refusals src) (fun addr buf => ⟨delivers addr buf, rfl⟩) m

theorem iterPeekable_makes (ends : ∀ addr buf src, E src → F (.peekable addr buf src none false))
    (h : Makes m r fun src => src.Delivers E xs A) :
    Makes m (iterPeekable r.1 r.2) fun it => it.Delivers F xs A := by
  refine h.adapt (f := iterPeekable) (fun _ => rfl) fun src valid h m => ?_
  rw [iterPeekable, if_pos valid]
  refine withBuffer_makes (destroy_refusals src) (fun addr buf => ⟨?_, rfl⟩) m
  have same := (peekable_transduces addr buf).computes (f := id) transduce_id
    (fun _ => ends addr buf) h
  rwa [Set.image_id, id] at same

theorem iterDedup_makes (cmp : t.Val → t.Val → Int)
    (ends : ∀ addr buf src last, E src → F (.dedup addr buf src cmp last))
    (h : Makes m r fun src => src.Delivers E xs A) :
    Makes m (iterDedup r.1 cmp r.2)
      fun it => it.Delivers F (deduped cmp xs) (deduped cmp '' A) := by
  refine h.adapt (f := fun src => iterDedup src cmp) (fun _ => rfl) fun src valid h m => ?_
  rw [iterDedup, if_pos valid]
  refine withBuffer_makes (destroy_refusals src) (fun addr buf => ⟨?_, rfl⟩) m
  exact (dedup_transduces addr buf cmp).computes (transduce_dedup cmp)
    (fun last src => ends addr buf src last) h

theorem iterFlatMap_makes (fn : s.Val → Mem → Iter t × Mem) {part : s.Val → Set (List t.Val)}
    {den : s.Val → List t.Val}
    (subs : ∀ x m, Makes m (fn x m) fun sub => sub.Delivers (fun _ => True) (den x) (part x))
    (ends : ∀ addr buf src sub, Es src →
      F (.flatMap addr buf src (fun x m => (fn x m).1) (fun x m => (fn x m).2) sub false))
    (h : Makes m rs fun src => src.Delivers Es ys B) :
    Makes m (iterFlatMap rs.1 fn rs.2) fun it => it.Delivers F (ys.flatMap den)
      {zs | ∃ ys ∈ B, ∃ parts, List.Forall₂ (fun x p => p = [] ∨ p ∈ part x) ys parts ∧
        zs = parts.flatten} := by
  refine h.adapt (f := fun src => iterFlatMap src fn) (fun _ => rfl) fun src valid h m => ?_
  rw [iterFlatMap, if_pos valid]
  refine withBuffer_makes (destroy_refusals src) (fun addr buf => ⟨?_, rfl⟩) m
  refine flatMap_delivers addr buf _ _ (fun x => {p | p = [] ∨ p ∈ part x})
    (fun x m => ?_) (ends addr buf) h .failed _ fun zs hz parts all => ⟨zs, hz, parts, all, rfl⟩
  cases subs x m with
  | inl failed =>
    obtain ⟨none, refused⟩ := failed
    refine ⟨[], {[]}, ?_, refused.le, fun zs hz => .inl hz, fun same => by omega⟩
    rw [none]
    exact failed_delivers trivial
  | inr made =>
    obtain ⟨delivers, -, quiet⟩ := made
    exact ⟨den x, part x, delivers, quiet.ge, fun zs hz => .inr hz, fun _ => rfl⟩

end Adaptors

end Seqc
