import Seqc.IterSpec

/-! Which iterators of iter.c stay at their end when they are called again, each in terms of
its sources. -/

namespace Seqc
open Iteration

variable {s t : ElemType}

/-- On the way to an end that lasts, or there. -/
def Iter.OnCourse (it : Iter t) : Prop := (∃ xs A, it.Delivers Iter.Ended xs A) ∨ it.Ended

theorem Iter.OnCourse.call {it : Iter t} (h : it.OnCourse) (m : Mem) :
    ∃ out it' m', Returns (Iter.call t) it m out it' m' ∧ it'.OnCourse ∧
      (out = none → it'.Ended) := by
  cases h with
  | inl delivers =>
    obtain ⟨xs, A, delivers⟩ := delivers
    cases delivers.call m with
    | ended returns _ _ last _ => exact ⟨none, _, _, returns, .inr last, fun _ => last⟩
    | @item x _ _ ys B returns _ rest _ _ =>
      exact ⟨some x, _, _, returns, .inl ⟨ys, B, rest⟩, by simp⟩
  | inr ended =>
    obtain ⟨it', m', returns, after⟩ := ended.call m
    exact ⟨none, it', m', returns, .inr after, fun _ => after⟩

theorem Iter.ended_of_same {it : Iter t} (returns : ∀ m, it.next 1 m = some (none, it, m)) :
    it.Ended := by
  refine ⟨fun r => r = it, rfl, ?_⟩
  rintro _ rfl m
  exact ⟨_, m, ⟨1, returns m⟩, rfl⟩

/-! ### Sources -/

theorem failed_ended : (.failed : Iter t).Ended :=
  Iter.ended_of_same fun m => by simp

theorem fromSlice_ended (addr : Nat) (contents : List t.Val) :
    (Iter.fromSlice addr contents contents.length).Ended :=
  Iter.ended_of_same fun m => by simp

theorem fromSliceRev_ended (addr : Nat) (contents : List t.Val) :
    (Iter.fromSliceRev addr contents 0).Ended :=
  Iter.ended_of_same fun m => by simp

/-- The function returns false `n` more times. -/
def FiniteGenerator.Lasts {β : Type} (g : FiniteGenerator β) (n : Nat) : Prop :=
  ∀ i < n, (g.fn ((fun c => (g.fn c).2)^[i] g.last)).1 = none

theorem generate_silent (addr : Nat) {σ : Type} {fn : σ → Option t.Val × σ} (n : Nat) :
    ∀ {ctx : σ}, (∀ i < n, (fn ((fun c => (fn c).2)^[i] ctx)).1 = none) →
      (Iter.generate addr fn ctx).Silent n := by
  induction n with
  | zero =>
    intros
    trivial
  | succ n ih =>
    intro ctx lasts m
    have none : (fn ctx).1 = none := lasts 0 n.succ_pos
    exact ⟨.generate addr fn (fn ctx).2, m, ⟨1, by simp [none]⟩,
      ih fun i less => lasts (i + 1) (Nat.succ_lt_succ less)⟩

/-- The last state was returned with nothing. -/
theorem listWithin_last {σ β : Type} {call : σ → Option (Option β × σ)} (n : Nat) :
    ∀ {s last : σ} {xs : List β}, listWithin call n s = some (xs, last) →
      ∃ s, call s = some (none, last) := by
  induction n with
  | zero =>
    intro s last xs h
    simp [listWithin] at h
  | succ n ih =>
    intro s last xs h
    rw [listWithin] at h
    rcases hc : call s with _ | ⟨_ | x, s'⟩
    · simp [hc] at h
    · obtain ⟨-, rfl⟩ : [] = xs ∧ s' = last := by simpa [hc] using h
      exact ⟨s, hc⟩
    · obtain ⟨zs, rest, -⟩ : ∃ zs, listWithin call n s' = some (zs, last) ∧ x :: zs = xs := by
        simpa [hc] using h
      exact ih rest

theorem rangeNext_none {st st' : RangeState} (h : rangeNext st = some (none, st')) : st' = st := by
  unfold rangeNext at h
  split at h
  · simpa using h.symm
  · split at h
    · simpa using h.symm
    · split at h <;> simp at h

theorem rangeIter_ended (addr : Nat) (r : DefinedRange) : (Iter.range addr r.last).Ended := by
  obtain ⟨st, last⟩ := listWithin_last r.calls r.ends
  have same := rangeNext_none last
  subst same
  exact Iter.ended_of_same fun m => by simp [last]

theorem splitIter_ended (addr : Nat) {st : SplitState} (past : st.src.len < st.pos) :
    (Iter.split addr st).Ended :=
  Iter.ended_of_same fun m => by simp [splitNext_past past]

/-! ### Adaptors -/

section Adaptors
variable {src : Iter t} {k : Nat} (addr : Nat)

theorem take_silent (n : Nat) (h : src.Silent k) : (Iter.take addr src (n + 1)).Silent k := by
  refine h.lift (fun (_ : Unit) src => Iter.take addr src (n + 1)) ?_ ()
  intro q src m src' m' returns
  obtain ⟨j, returns⟩ := Iter.returns_from returns
  exact ⟨q, j + 1, by simp [returns j le_rfl]⟩

theorem take_full (src : Iter t) : (Iter.take addr src 0).Ended :=
  Iter.ended_of_same fun m => by simp

theorem takeWhile_silent (pred : t.Val → Bool) (h : src.Silent k) :
    (Iter.takeWhile addr src pred).Silent k := by
  refine h.lift (fun (_ : Unit) src => Iter.takeWhile addr src pred) ?_ ()
  intro q src m src' m' returns
  obtain ⟨j, returns⟩ := Iter.returns_from returns
  exact ⟨q, j + 1, by simp [returns j le_rfl]⟩

/-- `iter_take_while` has no flag: each call after its end takes an element of the source, and
what keeps it at its end is that none of them passes. -/
theorem takeWhile_stopped (pred : t.Val → Bool) {E : Iter t → Prop} {ys : List t.Val}
    {B : Set (List t.Val)} (h : src.Delivers E ys B)
    (fail : ∀ zs ∈ B, (∀ x ∈ zs.take k, pred x = false) ∧
      ∀ src, E src → src.Silent (k - (zs.length + 1))) :
    (Iter.takeWhile addr src pred).Silent k := by
  induction k generalizing src ys B with
  | zero => trivial
  | succ k ih =>
    intro m
    cases h.call m with
    | @ended src' m' returns _ closes last _ =>
      obtain ⟨j, returns⟩ := Iter.returns_from returns
      exact ⟨_, m', ⟨j + 1, by simp [returns j le_rfl]⟩,
        takeWhile_silent addr pred ((fail [] closes).2 src' last)⟩
    | @item x src' m' ys' B' returns _ rest family _ =>
      obtain ⟨j, returns⟩ := Iter.returns_from returns
      obtain ⟨zs, hz⟩ := rest.exists_mem
      have stop : pred x = false := (fail _ (family zs hz)).1 x List.mem_cons_self
      refine ⟨_, m', ⟨j + 1, by simp [returns j le_rfl, stop]⟩, ih rest fun zs hz => ?_⟩
      obtain ⟨later, lasts⟩ := fail _ (family zs hz)
      refine ⟨fun y hy => later y (List.mem_cons_of_mem x hy), fun src ends => ?_⟩
      simpa using lasts src ends

theorem zip_silentFirst (buf : Nat) {a : Iter s} (b : Iter t) (h : a.Silent k) :
    (Iter.zip addr buf a b).Silent k := by
  refine h.lift (fun b a => Iter.zip addr buf a b) ?_ b
  intro b a m a' m' returns
  obtain ⟨j, returns⟩ := Iter.returns_from returns
  exact ⟨b, j + 1, by simp [returns j le_rfl]⟩

/-- The second source has ended and is asked again for each element that the first one has
left. -/
theorem zip_silentSecond (buf : Nat) {E : Iter s → Prop} {a : Iter s} {b : Iter t}
    {xs : List s.Val} {A : Set (List s.Val)} (h : a.Delivers E xs A)
    (lasts : ∀ zs ∈ A, (∀ a, E a → a.Silent (k - (zs.length + 1))) ∧
      b.Silent (min k zs.length)) : (Iter.zip addr buf a b).Silent k := by
  induction k generalizing a b xs A with
  | zero => trivial
  | succ k ih =>
    intro m
    cases h.call m with
    | @ended a' m' returns _ closes last _ =>
      obtain ⟨j, returns⟩ := Iter.returns_from returns
      exact ⟨_, m', ⟨j + 1, by simp [returns j le_rfl]⟩,
        zip_silentFirst addr buf b ((lasts [] closes).1 a' last)⟩
    | @item x a' m' xs' A' returns _ rest family _ =>
      obtain ⟨n, returns⟩ := Iter.returns_from returns
      have asked (zs : List s.Val) (hz : zs ∈ A') : b.Silent (min k zs.length + 1) := by
        have silent := (lasts _ (family zs hz)).2
        rwa [List.length_cons, Nat.succ_min_succ] at silent
      obtain ⟨zs, hz⟩ := rest.exists_mem
      obtain ⟨b', m'', returns', -⟩ := asked zs hz m'
      obtain ⟨j, returns''⟩ := Iter.returns_from returns'
      refine ⟨.zip addr buf a' b', m'', ⟨max n j + 1, by simp [returns _ (le_max_left n j),
        returns'' _ (le_max_right n j)]⟩, ih rest fun zs hz => ⟨fun a ends => ?_, ?_⟩⟩
      · simpa using (lasts _ (family zs hz)).1 a ends
      · obtain ⟨b₁, m₁, again, silent⟩ := asked zs hz m'
        obtain ⟨-, rfl, -⟩ := returns'.unique Iter.call_mono again
        exact silent

theorem window_empty (buf : Option Nat) (src : Iter t) (contents : List t.Val) (primed : Bool) :
    (Iter.window addr buf src 0 contents primed).Ended :=
  Iter.ended_of_same fun m => by simp

theorem window_silent (buf : Option Nat) (n : Nat) (contents : List t.Val) (primed : Bool)
    (h : src.Silent k) : (Iter.window addr buf src n contents primed).Silent k := by
  cases n with
  | zero => exact (window_empty addr buf src contents primed).silent k
  | succ n =>
    refine h.lift (fun q src => Iter.window addr buf src (n + 1) q.1 q.2) ?_
      (contents, primed)
    intro q src m src' m' returns
    obtain ⟨contents, primed⟩ := q
    obtain ⟨j, returns⟩ := Iter.returns_from returns
    cases primed with
    | true => exact ⟨(contents.tail, true), j + 1, by simp [returns j le_rfl]⟩
    | false => exact ⟨([], false), j + 1, by simp [readUpTo, returns j le_rfl]⟩

theorem chunks_empty (buf : Option Nat) (src : Iter t) :
    (Iter.chunks addr buf src 0 false).Ended :=
  Iter.ended_of_same fun m => by simp [readUpTo]

theorem chunks_done (buf : Option Nat) (src : Iter t) (n : Nat) :
    (Iter.chunks addr buf src n true).Ended :=
  Iter.ended_of_same fun m => by simp

theorem chunks_silent (buf : Option Nat) (n : Nat) (h : src.Silent k) :
    (Iter.chunks addr buf src n false).Silent k := by
  cases n with
  | zero => exact (chunks_empty addr buf src).silent k
  | succ n =>
    refine h.lift (fun (_ : Unit) src => Iter.chunks addr buf src (n + 1) false) ?_ ()
    intro q src m src' m' returns
    obtain ⟨j, returns⟩ := Iter.returns_from returns
    exact ⟨q, j + 1, by simp [readUpTo, returns j le_rfl]⟩

theorem flatMap_silent (buf : Nat) {src : Iter s} (fn : s.Val → Mem → Iter t)
    (after : s.Val → Mem → Mem) (sub : Iter t) (h : src.Silent k) :
    (Iter.flatMap addr buf src fn after sub false).Silent k := by
  refine h.lift (fun (_ : Unit) src => Iter.flatMap addr buf src fn after sub false) ?_ ()
  intro q src m src' m' returns
  obtain ⟨j, returns⟩ := Iter.returns_from returns
  exact ⟨q, j + 1, by simp [returns j le_rfl]⟩

end Adaptors

end Seqc
