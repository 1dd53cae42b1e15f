import Seqc.Pipeline

/-! Calls of `iter_next` and `iter_peek` after the first `iter_next` that returned false.
`take_while_next` has no flag and goes back to its source, so its end lasts only if no
later element passes. -/

namespace Seqc
open Iteration

variable {t : ElemType}

/-- `peek` for one type of elements. -/
abbrev Iter.peekCall (t : ElemType) (fuel : Nat) (it : Iter t) (m : Mem) :
    Option (Option t.Val × Iter t × Mem) := it.peek fuel m

/-- Reached by any number of calls of the two functions, whatever happens between them. -/
inductive Iter.Asked (it : Iter t) : Iter t → Prop
  | start : Asked it it
  | next {it₁ it' : Iter t} {m m' : Mem} {out : Option t.Val} (earlier : Asked it it₁)
      (returns : Returns (Iter.call t) it₁ m out it' m') : Asked it it'
  | peek {it₁ it' : Iter t} {m m' : Mem} {out : Option t.Val} (earlier : Asked it it₁)
      (returns : Returns (Iter.peekCall t) it₁ m out it' m') : Asked it it'

/-- After an `iter_next` that returns false, every later call of either function does. -/
def Iter.StaysEnded (it : Iter t) : Prop :=
  ∀ (it₁ it₂ it₃ : Iter t) (m₁ m₂ : Mem), it.Asked it₁ →
    Returns (Iter.call t) it₁ m₁ none it₂ m₂ → it₂.Asked it₃ → ∀ m,
      (∃ it' m', Returns (Iter.call t) it₃ m none it' m') ∧
        ∃ it' m', Returns (Iter.peekCall t) it₃ m none it' m'

theorem Iter.Asked.trans {a b c : Iter t} (h : a.Asked b) (h' : b.Asked c) : a.Asked c := by
  induction h' with
  | start => exact h
  | next _ returns ih => exact .next ih returns
  | peek _ returns ih => exact .peek ih returns

/-! ### What the calls keep -/

variable {it it' : Iter t} {m m' : Mem} {out : Option t.Val}

/-- What `iter_peek` does: nothing, unless the iterator is peekable and its source has to be
called. -/
theorem Iter.peek_cases (it : Iter t) :
    (∃ out, (∀ m, Returns (Iter.peekCall t) it m out it m) ∧
      ∀ x, out = some x → ∃ it', ∀ m, Returns (Iter.call t) it m (some x) it' m) ∨
    ∃ addr buf src, it = .peekable addr buf src none false := by
  cases it with
  | peekable addr buf source peeked sourceDone =>
    match peeked, sourceDone with
    | some x, _ =>
      refine .inl ⟨some x, fun m => ⟨0, rfl⟩, ?_⟩
      intro y same
      obtain rfl := Option.some.inj same
      exact ⟨_, fun m => ⟨1, rfl⟩⟩
    | none, true => exact .inl ⟨none, fun m => ⟨0, rfl⟩, by simp⟩
    | none, false => exact .inr ⟨addr, buf, source, rfl⟩
  | _ => exact .inl ⟨none, fun m => ⟨0, rfl⟩, by simp⟩

/-- A peek keeps what the next call would return, or that there is nothing. -/
theorem peekable_peek {addr buf : Nat} {src : Iter t}
    (h : Returns (Iter.call t) (.peekable addr buf src none false) m out it' m') :
    ∃ src', it' = .peekable addr buf src' none false ∧
      Returns (Iter.peekCall t) (.peekable addr buf src none false) m out
        (.peekable addr buf src' out out.isNone) m' := by
  obtain ⟨fuel, h⟩ := h
  cases fuel with
  | zero => simp [Iter.call] at h
  | succ fuel =>
    match hn : src.next fuel m with
    | none => simp [Iter.call, hn] at h
    | some (out', src', m₁) =>
      obtain ⟨rfl, rfl, rfl⟩ : out' = out ∧ _ = it' ∧ m₁ = m' := by
        simpa [Iter.call, hn] using h
      refine ⟨src', rfl, fuel, ?_⟩
      cases out' <;> simp [Iter.peekCall, Iter.peek, hn]

theorem peekable_done (addr buf : Nat) (src : Iter t) :
    (Iter.peekable addr buf src none true).Ended :=
  Iter.ended_of_same fun m => by simp

theorem Iter.Ended.peek (h : it.Ended) (m : Mem) :
    ∃ it' m', Returns (Iter.peekCall t) it m none it' m' ∧ it'.Ended := by
  obtain ⟨it₁, m₁, returns, -⟩ := h.call m
  cases it.peek_cases with
  | inl kept =>
    obtain ⟨out, peek, next⟩ := kept
    cases out with
    | none => exact ⟨it, m, peek m, h⟩
    | some x =>
      obtain ⟨it₂, next⟩ := next x rfl
      exact absurd (returns.unique Iter.call_mono (next m)).1 (by simp)
  | inr fresh =>
    obtain ⟨addr, buf, src, rfl⟩ := fresh
    obtain ⟨src', -, peek⟩ := peekable_peek returns
    exact ⟨_, m₁, peek, peekable_done addr buf src'⟩

theorem Iter.OnCourse.peek (h : it.OnCourse) (m : Mem) :
    ∃ out it' m', Returns (Iter.peekCall t) it m out it' m' ∧ it'.OnCourse := by
  cases h with
  | inr ended =>
    obtain ⟨it', m', peek, after⟩ := ended.peek m
    exact ⟨none, it', m', peek, .inr after⟩
  | inl delivers =>
    cases it.peek_cases with
    | inl kept =>
      obtain ⟨out, peek, -⟩ := kept
      exact ⟨out, it, m, peek m, .inl delivers⟩
    | inr fresh =>
      obtain ⟨addr, buf, src, rfl⟩ := fresh
      obtain ⟨xs, A, delivers⟩ := delivers
      cases delivers.call m with
      | ended returns _ _ _ _ =>
        obtain ⟨src', -, peek⟩ := peekable_peek returns
        exact ⟨none, _, _, peek, .inr (peekable_done addr buf src')⟩
      | @item x _ _ ys B returns _ rest _ _ =>
        obtain ⟨src', rfl, peek⟩ := peekable_peek returns
        refine ⟨some x, _, _, peek, .inl ⟨x :: ys, (x :: ·) '' B, ?_⟩⟩
        -- the element that was peeked comes first
        exact .mk fun m => .item ⟨1, rfl⟩ le_rfl rest (fun zs hz => ⟨zs, hz, rfl⟩) fun _ => rfl

theorem Iter.peekCall_mono : Mono (Iter.peekCall t) := by
  intro fuel it m r h
  cases it with
  | peekable addr buf source peeked sourceDone =>
    match peeked, sourceDone with
    | some x, _ => exact h
    | none, true => exact h
    | none, false => exact bind_mono h (source.next_mono fuel m) fun _ h => h
  | _ => exact h

theorem Iter.OnCourse.asked (h : it.OnCourse) (calls : it.Asked it') : it'.OnCourse := by
  induction calls with
  | start => exact h
  | @next it₁ it' m _ _ _ returns ih =>
    obtain ⟨_, _, _, call, course, -⟩ := ih.call m
    obtain ⟨-, rfl, -⟩ := returns.unique Iter.call_mono call
    exact course
  | @peek it₁ it' m _ _ _ returns ih =>
    obtain ⟨_, _, _, call, course⟩ := ih.peek m
    obtain ⟨-, rfl, -⟩ := returns.unique Iter.peekCall_mono call
    exact course

theorem Iter.Ended.asked (h : it.Ended) (calls : it.Asked it') : it'.Ended := by
  induction calls with
  | start => exact h
  | @next it₁ it' m _ _ _ returns ih =>
    obtain ⟨_, _, call, after⟩ := ih.call m
    obtain ⟨-, rfl, -⟩ := returns.unique Iter.call_mono call
    exact after
  | @peek it₁ it' m _ _ _ returns ih =>
    obtain ⟨_, _, call, after⟩ := ih.peek m
    obtain ⟨-, rfl, -⟩ := returns.unique Iter.peekCall_mono call
    exact after

theorem Iter.OnCourse.staysEnded (h : it.OnCourse) : it.StaysEnded := by
  intro it₁ it₂ it₃ m₁ m₂ calls ended later m
  obtain ⟨_, _, _, call, -, last⟩ := (h.asked calls).call m₁
  obtain ⟨rfl, rfl, -⟩ := ended.unique Iter.call_mono call
  have past := (last rfl).asked later
  obtain ⟨it', m', next, -⟩ := past.call m
  obtain ⟨it'', m'', peek, -⟩ := past.peek m
  exact ⟨⟨it', m', next⟩, it'', m'', peek⟩

/-! ### An element that passes after one that failed -/

section Resumes
variable {E : Iter t → Prop} {pred : t.Val → Bool} (addr : Nat)

/-- An element that passes is returned, however often the iterator has ended before. -/
theorem takeWhile_passes {ys : List t.Val} (m : Mem) :
    ∀ {src : Iter t}, src.Delivers E ys {ys} → (∃ y ∈ ys, pred y = true) →
      ∃ it' y it'' m', (Iter.takeWhile addr src pred).Asked it' ∧
        ∃ m, Returns (Iter.call t) it' m (some y) it'' m' := by
  induction ys generalizing m with
  | nil =>
    intro src h later
    simp at later
  | cons x ys ih =>
    intro src h later
    rcases h.call_only m with ⟨none, -⟩ | ⟨x', ys', src', m', same, returns, rest⟩
    · simp at none
    · obtain ⟨rfl, rfl⟩ := List.cons.inj same
      obtain ⟨k, returns⟩ := Iter.returns_from returns
      cases pass : pred x with
      | true =>
        exact ⟨_, x, .takeWhile addr src' pred, m', .start, m, k + 1,
          by simp [returns k le_rfl, pass]⟩
      | false =>
        have call : Returns (Iter.call t) (.takeWhile addr src pred) m none
            (.takeWhile addr src' pred) m' := ⟨k + 1, by simp [returns k le_rfl, pass]⟩
        obtain ⟨it', y, it'', m'', calls, last⟩ := ih m' rest (by simpa [pass] using later)
        exact ⟨it', y, it'', m'', .trans (.next .start call) calls, last⟩

theorem takeWhile_resumes {ys : List t.Val} (m : Mem) :
    ∀ {src : Iter t}, src.Delivers E ys {ys} → (∃ y ∈ ys.dropWhile pred, pred y = true) →
      ¬(Iter.takeWhile addr src pred).StaysEnded := by
  induction ys generalizing m with
  | nil =>
    intro src h later
    simp at later
  | cons x ys ih =>
    intro src h later stays
    rcases h.call_only m with ⟨none, -⟩ | ⟨x', ys', src', m', same, returns, rest⟩
    · simp at none
    · obtain ⟨rfl, rfl⟩ := List.cons.inj same
      obtain ⟨k, returns⟩ := Iter.returns_from returns
      cases pass : pred x with
      | true =>
        have call : Returns (Iter.call t) (.takeWhile addr src pred) m (some x)
            (.takeWhile addr src' pred) m' := ⟨k + 1, by simp [returns k le_rfl, pass]⟩
        rw [List.dropWhile_cons_of_pos pass] at later
        apply ih m' rest later
        intro it₁ it₂ it₃ m₁ m₂ calls
        exact stays it₁ it₂ it₃ m₁ m₂ (.trans (.next .start call) calls)
      | false =>
        have call : Returns (Iter.call t) (.takeWhile addr src pred) m none
            (.takeWhile addr src' pred) m' := ⟨k + 1, by simp [returns k le_rfl, pass]⟩
        rw [List.dropWhile_cons_of_neg (by simp [pass])] at later
        obtain ⟨it', y, it'', m'', calls, m₁, returns'⟩ :=
          takeWhile_passes addr m' rest (by simpa [pass] using later)
        obtain ⟨⟨_, _, none⟩, -⟩ := stays _ _ _ m m' .start call calls m₁
        exact absurd (none.unique Iter.call_mono returns').1 (by simp)

end Resumes

/-! ### Every expression -/

/-- A steady expression makes iterators that stay at their end, and for an
`iter_take_while` on a steady source that delivers one list only this is necessary. -/
theorem iter_stays_ended (e : IterExpr t) {m m₁ : Mem} {it : Iter t}
    (built : e.build m = (it, m₁)) :
    (e.Steady → it.StaysEnded) ∧
      ∀ (source : IterExpr t) (pred : t.Val → Bool), e = .takeWhile source pred →
        it.isValid = true → source.Steady → source.sequences = {source.denote} →
          (it.StaysEnded ↔ e.Steady) := by
  have steadily : e.Steady → it.StaysEnded := by
    intro steady
    apply Iter.OnCourse.staysEnded
    have made := build_ends e m
    rw [built] at made
    cases made with
    | inl failed =>
      obtain ⟨rfl, -⟩ := failed
      exact .inr failed_ended
    | inr made =>
      obtain ⟨delivers, -, -⟩ := made
      refine .inl ⟨_, _, delivers.weaken (fun _ ends => ?_) fun zs hz => hz⟩
      exact Silent.ended Iter.call_mono fun k => ends k (steady k)
  refine ⟨steadily, ?_⟩
  rintro source pred rfl valid steady only
  refine ⟨fun stays k zs hz => ⟨fun x hx => ?_, steady _⟩, steadily⟩
  rw [only] at hz
  subst hz
  by_contra pass
  have later : ∃ y ∈ source.denote.dropWhile pred, pred y = true :=
    ⟨x, List.mem_of_mem_take hx, by simpa using pass⟩
  obtain ⟨addr, src, delivers, rfl⟩ : ∃ addr src,
      Iter.Delivers (fun it => ∀ k, source.Lasts k → it.Silent k) src source.denote
          source.sequences ∧
        it = .takeWhile addr src pred := by
    have made := build_ends source m
    rw [IterExpr.build, iterTakeWhile] at built
    split at built
    · rename_i works
      rcases hm : memAlloc (source.build m).2 Iter.sizeofTakeWhileState with ⟨_ | addr, m₂⟩
      · rw [withState, hm] at built
        obtain ⟨rfl, -⟩ := Prod.mk.inj built
        simp [Iter.isValid] at valid
      · rw [withState, hm] at built
        obtain ⟨rfl, -⟩ := Prod.mk.inj built
        refine ⟨addr, (source.build m).1, ?_, rfl⟩
        cases made with
        | inl failed => simp [failed.1, Iter.isValid] at works
        | inr made => exact made.1
    · obtain ⟨rfl, -⟩ := Prod.mk.inj built
      simp [Iter.isValid] at valid
  rw [only] at delivers
  exact takeWhile_resumes addr m₁ delivers later stays

/-- The pairs of 1, 2 with the leading elements below 5 of 1, 9, 2: the second source, which would
go on, is not asked again. And the leading elements below 5 of 1, 9, 7. -/
theorem iter_stays_ended_ints :
    (∃ it m, IterExpr.build (.zip (s := .value Int 4) (t := .value Int 4) (.fromSlice [1, 2])
      (.takeWhile (.fromSlice [1, 9, 2]) fun x => decide (x < 5))) (.start .generous) = (it, m) ∧
        it.StaysEnded) ∧
    ∃ it m, IterExpr.build (t := .value Int 4)
      (.takeWhile (.fromSlice [1, 9, 7]) fun x => decide (x < 5)) (.start .generous) = (it, m) ∧
        it.StaysEnded := by
  constructor
  · have ends := (iter_stays_ended (.zip (s := .value Int 4) (t := .value Int 4) (.fromSlice [1, 2])
      (.takeWhile (.fromSlice [1, 9, 2]) fun x => decide (x < 5))) (m := .start .generous) rfl).1
    refine ⟨_, _, rfl, ends ?_⟩
    rintro k _ rfl _ ⟨_, rfl, rfl⟩
    refine ⟨trivial, ?_⟩
    show IterExpr.Lasts _ (min k 0)
    rw [Nat.min_zero]
    exact IterExpr.lasts_zero _
  · have ends := (iter_stays_ended (t := .value Int 4)
      (.takeWhile (.fromSlice [1, 9, 7]) fun x => decide (x < 5)) (m := .start .generous) rfl).1
    refine ⟨_, _, rfl, ends ?_⟩
    rintro k _ rfl
    refine ⟨fun x hx => ?_, trivial⟩
    have all : ∀ x ∈ ([9, 7] : List Int), decide (x < 5) = false := by decide
    exact all x (List.mem_of_mem_take hx)

/-- `iter_take_while` goes on after its end: below 5 of 1, 9, 2. -/
theorem iter_resumes : ∃ (it : Iter (.value Int 4)) (m : Mem),
    IterExpr.build (.takeWhile (.fromSlice (t := .value Int 4) [1, 9, 2]) fun x => decide (x < 5))
      (.start .generous) = (it, m) ∧ ¬it.StaysEnded ∧ ∃ it₁ it₂ it₃,
        Returns (Iter.call (.value Int 4)) it m (some 1) it₁ m ∧
        Returns (Iter.call (.value Int 4)) it₁ m none it₂ m ∧
        Returns (Iter.call (.value Int 4)) it₂ m (some 2) it₃ m := by
  let source (pos : Nat) : Iter (.value Int 4) := .fromSlice 0 [1, 9, 2] pos
  let after (pos : Nat) : Iter (.value Int 4) := .takeWhile 1 (source pos) fun x => decide (x < 5)
  have first (m : Mem) : Returns (Iter.call (.value Int 4)) (after 0) m (some 1) (after 1) m :=
    ⟨2, rfl⟩
  have second (m : Mem) : Returns (Iter.call (.value Int 4)) (after 1) m none (after 2) m :=
    ⟨2, rfl⟩
  have third (m : Mem) : Returns (Iter.call (.value Int 4)) (after 2) m (some 2) (after 3) m :=
    ⟨2, rfl⟩
  refine ⟨after 0, _, rfl, fun stays => ?_, after 1, after 2, after 3, first _, second _, third _⟩
  obtain ⟨⟨_, _, none⟩, -⟩ := stays (after 1) (after 2) (after 2) (.start .generous)
    (.start .generous) (.next .start (first (.start .generous))) (second _) .start
    (.start .generous)
  exact absurd (none.unique Iter.call_mono (third _)).1 (by simp)

end Seqc
