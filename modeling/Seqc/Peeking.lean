import Seqc.StaysEnded

/-! Calls of `iter_next` and `iter_peek` on what `iter_peekable` makes, in any order.
The buffered element, the end flag and the source encode a position in the list that
the source yields, which only a successful `iter_next` moves. -/

namespace Seqc
open Iteration

variable {t : ElemType}

/-- A call of one of the two functions; the `out` of `iter_peek` may be NULL. -/
inductive Ask where
  | next
  | peek (out : Bool)
deriving DecidableEq

/-- What a call returns, and the element it writes through `out`. -/
structure Reply (α : Type) where
  returned : Bool
  written : Option α
deriving DecidableEq

def Iter.ask (op : Ask) (fuel : Nat) (it : Iter t) (m : Mem) :
    Option (Reply t.Val × Iter t × Mem) :=
  match op with
  | .next => do
    let (x, it, m) ← it.next fuel m
    pure (⟨x.isSome, x⟩, it, m)
  | .peek out => do
    let (x, it, m) ← it.peek fuel m
    pure (⟨x.isSome, if out then x else none⟩, it, m)

/-- Some bound is enough for the call to return with the answer. -/
def Iter.Replies (op : Ask) (it : Iter t) (m : Mem) (a : Reply t.Val) (it' : Iter t) (m' : Mem) :
    Prop := ∃ fuel, it.ask op fuel m = some (a, it', m')

/-- The calls made so far with their answers. Between two calls other code may change
the memory in the ways that `between` allows. -/
inductive Iter.Interleaved (between : Mem → Mem → Prop) (it : Iter t) (m : Mem) :
    List (Ask × Reply t.Val) → Iter t → Mem → Prop
  | start : Interleaved between it m [] it m
  | change {calls it₁ m₁ m₂} (earlier : Interleaved between it m calls it₁ m₁)
      (step : between m₁ m₂) : Interleaved between it m calls it₁ m₂
  | call {calls it₁ m₁ op a it₂ m₂} (earlier : Interleaved between it m calls it₁ m₁)
      (replies : it₁.Replies op m₁ a it₂ m₂) :
      Interleaved between it m (calls ++ [(op, a)]) it₂ m₂

/-- Each call of an iterator in `I` takes the first element of its list, and returns
false once there is none. -/
structure Streaming (between : Mem → Mem → Prop) (I : Iter t → Mem → List t.Val → Prop) :
    Prop where
  stable : ∀ {it m xs m'}, I it m xs → between m m' → I it m' xs
  call : ∀ {it m xs}, I it m xs →
    ∃ it' m', Returns (Iter.call t) it m xs.head? it' m' ∧ I it' m' xs.tail

/-- The iterator yields `xs` and then false forever. -/
def Iter.Streams (between : Mem → Mem → Prop) (it : Iter t) (m : Mem) (xs : List t.Val) : Prop :=
  ∃ I, Streaming between I ∧ I it m xs

/-- The calls of `iter_next` that returned true. -/
def delivered {α : Type} (calls : List (Ask × Reply α)) : Nat :=
  calls.countP fun c => c.1 == .next && c.2.returned

/-- The answer of a list of which `k` elements were delivered. -/
def replyAt {α : Type} (xs : List α) (k : Nat) : Ask → Reply α
  | .next => ⟨decide (k < xs.length), xs[k]?⟩
  | .peek out => ⟨decide (k < xs.length), if out then xs[k]? else none⟩

theorem replyAt_drop {α : Type} (xs : List α) (k : Nat) (op : Ask) :
    replyAt xs k op = replyAt (xs.drop k) 0 op := by
  cases op <;> simp [replyAt]

/-! ### One call -/

/-- A call replies with what the function it calls returns. -/
theorem Iter.replies_iff {call : Nat → Iter t → Mem → Option (Option t.Val × Iter t × Mem)}
    {reply : Option t.Val → Reply t.Val} {op : Ask} {it it' : Iter t} {m m' : Mem}
    {a : Reply t.Val}
    (asks : ∀ fuel, it.ask op fuel m = (call fuel it m).bind fun r => some (reply r.1, r.2)) :
    it.Replies op m a it' m' ↔ ∃ x, Returns call it m x it' m' ∧ a = reply x := by
  constructor
  · rintro ⟨fuel, h⟩
    rw [asks] at h
    obtain ⟨⟨x, _, _⟩, run, same⟩ := Option.bind_eq_some_iff.mp h
    obtain ⟨rfl, rfl, rfl⟩ : _ = a ∧ _ = it' ∧ _ = m' := by simpa using same
    exact ⟨x, ⟨fuel, run⟩, rfl⟩
  · rintro ⟨x, ⟨fuel, run⟩, rfl⟩
    exact ⟨fuel, (asks fuel).trans (Option.bind_eq_some_iff.mpr ⟨_, run, rfl⟩)⟩

theorem Iter.replies_next {it it' : Iter t} {m m' : Mem} {a : Reply t.Val} :
    it.Replies .next m a it' m' ↔ ∃ x, Returns (Iter.call t) it m x it' m' ∧ a = ⟨x.isSome, x⟩ :=
  Iter.replies_iff fun _ => rfl

theorem Iter.replies_peek {it it' : Iter t} {m m' : Mem} {a : Reply t.Val} {out : Bool} :
    it.Replies (.peek out) m a it' m' ↔
      ∃ x, Returns (Iter.peekCall t) it m x it' m' ∧ a = ⟨x.isSome, if out then x else none⟩ :=
  Iter.replies_iff fun _ => rfl

/-- A call has one outcome. -/
theorem Iter.Replies.unique {op : Ask} {it it₁ it₂ : Iter t} {m m₁ m₂ : Mem} {a b : Reply t.Val}
    (ha : it.Replies op m a it₁ m₁) (hb : it.Replies op m b it₂ m₂) :
    a = b ∧ it₁ = it₂ ∧ m₁ = m₂ := by
  cases op with
  | next =>
    obtain ⟨x, hx, rfl⟩ := Iter.replies_next.mp ha
    obtain ⟨y, hy, rfl⟩ := Iter.replies_next.mp hb
    obtain ⟨rfl, same⟩ := hx.unique Iter.call_mono hy
    exact ⟨rfl, same⟩
  | peek out =>
    obtain ⟨x, hx, rfl⟩ := Iter.replies_peek.mp ha
    obtain ⟨y, hy, rfl⟩ := Iter.replies_peek.mp hb
    obtain ⟨rfl, same⟩ := hx.unique Iter.peekCall_mono hy
    exact ⟨rfl, same⟩

/-- The list that a peekable iterator, or a failed one, has still to deliver. -/
inductive Cursor (I : Iter t → Mem → List t.Val → Prop) : Iter t → Mem → List t.Val → Prop
  | source {addr buf : Nat} {source : Iter t} {m : Mem} {xs : List t.Val} (rest : I source m xs) :
      Cursor I (.peekable addr buf source none false) m xs
  | peeked {addr buf : Nat} {source : Iter t} {m : Mem} {x : t.Val} {xs : List t.Val}
      (rest : I source m xs) : Cursor I (.peekable addr buf source (some x) false) m (x :: xs)
  | done {addr buf : Nat} {source : Iter t} {m : Mem} :
      Cursor I (.peekable addr buf source none true) m []
  | failed {m : Mem} : Cursor I .failed m []

section Calls
variable {between : Mem → Mem → Prop} {I : Iter t → Mem → List t.Val → Prop} {it : Iter t}
  {m : Mem} {xs : List t.Val}

theorem Cursor.stable (streaming : Streaming between I) (h : Cursor I it m xs) {m' : Mem}
    (step : between m m') : Cursor I it m' xs := by
  cases h with
  | source rest => exact .source (streaming.stable rest step)
  | peeked rest => exact .peeked (streaming.stable rest step)
  | done => exact .done
  | failed => exact .failed

/-- `iter_next` takes the first element. -/
theorem Cursor.next (streaming : Streaming between I) (h : Cursor I it m xs) :
    ∃ it' m', Returns (Iter.call t) it m xs.head? it' m' ∧ Cursor I it' m' xs.tail := by
  cases h with
  | @source addr buf source _ _ rest =>
    obtain ⟨source', m', ⟨fuel, call⟩, rest'⟩ := streaming.call rest
    exact ⟨.peekable addr buf source' none false, m', ⟨fuel + 1, by simp [Iter.call, call]⟩,
      .source rest'⟩
  | @peeked addr buf source _ x _ rest =>
    exact ⟨.peekable addr buf source none false, m, ⟨1, rfl⟩, .source rest⟩
  | done => exact ⟨_, m, ⟨1, rfl⟩, .done⟩
  | failed => exact ⟨_, m, ⟨1, rfl⟩, .failed⟩

/-- `iter_peek` finds the same element and leaves it. -/
theorem Cursor.peek (streaming : Streaming between I) (h : Cursor I it m xs) :
    ∃ it' m', Returns (Iter.peekCall t) it m xs.head? it' m' ∧ Cursor I it' m' xs := by
  cases h with
  | @source addr buf source _ _ rest =>
    obtain ⟨source', m', ⟨fuel, call⟩, rest'⟩ := streaming.call rest
    cases xs with
    | nil =>
      exact ⟨.peekable addr buf source' none true, m',
        ⟨fuel, by simp only [Iter.peekCall, Iter.peek, call]; rfl⟩, .done⟩
    | cons x xs =>
      exact ⟨.peekable addr buf source' (some x) false, m',
        ⟨fuel, by simp only [Iter.peekCall, Iter.peek, call]; rfl⟩, .peeked rest'⟩
  | @peeked addr buf source _ x _ rest => exact ⟨_, m, ⟨1, rfl⟩, .peeked rest⟩
  | done => exact ⟨_, m, ⟨1, rfl⟩, .done⟩
  | failed => exact ⟨_, m, ⟨1, rfl⟩, .failed⟩

theorem Cursor.ask (streaming : Streaming between I) (h : Cursor I it m xs) (op : Ask) :
    ∃ it' m', it.Replies op m (replyAt xs 0 op) it' m' ∧
      Cursor I it' m' (if op = .next then xs.tail else xs) := by
  cases op with
  | next =>
    obtain ⟨it', m', returns, rest⟩ := h.next streaming
    refine ⟨it', m', ?_, rest⟩
    cases xs <;> exact Iter.replies_next.mpr ⟨_, returns, rfl⟩
  | peek out =>
    obtain ⟨it', m', returns, rest⟩ := h.peek streaming
    refine ⟨it', m', ?_, rest⟩
    cases xs <;> exact Iter.replies_peek.mpr ⟨_, returns, rfl⟩

/-! ### Any number of calls -/

theorem delivered_append {α : Type} (calls : List (Ask × Reply α)) (op : Ask) (a : Reply α) :
    delivered (calls ++ [(op, a)]) =
      delivered calls + if op = .next ∧ a.returned = true then 1 else 0 := by
  simp [delivered, List.countP_append, List.countP_cons]

/-- The calls move the position by the successful calls of `iter_next`. -/
theorem Cursor.interleaved (streaming : Streaming between I) (h : Cursor I it m xs)
    {calls : List (Ask × Reply t.Val)} {it' : Iter t} {m' : Mem}
    (run : it.Interleaved between m calls it' m') :
    Cursor I it' m' (xs.drop (delivered calls)) := by
  induction run with
  | start => exact h
  | change _ step ih => exact ih.stable streaming step
  | @call calls it₁ m₁ op a it₂ m₂ _ replies ih =>
    obtain ⟨_, _, expected, rest⟩ := ih.ask streaming op
    obtain ⟨rfl, rfl, rfl⟩ := replies.unique expected
    have moved : xs.drop (delivered (calls ++ [(op, replyAt (xs.drop (delivered calls)) 0 op)])) =
        if op = .next then (xs.drop (delivered calls)).tail else xs.drop (delivered calls) := by
      rw [delivered_append]
      cases op with
      | peek out => simp
      | next =>
        by_cases inside : delivered calls < xs.length
        · simp [replyAt, inside, List.tail_drop]
        · have past : xs.length ≤ delivered calls := by omega
          simp [replyAt, List.drop_eq_nil_of_le past]
    rwa [moved]

end Calls

/-- What `iter_peekable` makes of an iterator that yields `xs`: if it was refused its
memory it yields nothing. -/
def Iter.remaining (it : Iter t) (xs : List t.Val) : List t.Val := if it.isValid then xs else []

theorem iterPeekable_cursor {I : Iter t → Mem → List t.Val → Prop} {source : Iter t} {m : Mem}
    {xs : List t.Val} (h : I source (iterPeekable source m).2 xs) :
    Cursor I (iterPeekable source m).1 (iterPeekable source m).2
      ((iterPeekable source m).1.remaining xs) := by
  unfold iterPeekable at h ⊢
  cases valid : source.isValid with
  | false => exact .failed
  | true =>
    simp only [valid, if_true, withBuffer] at h ⊢
    rcases hs : memAlloc m Iter.sizeofPeekableState with ⟨_ | addr, m₁⟩
    · exact .failed
    rcases hb : memAlloc m₁ t.size with ⟨_ | buf, m₂⟩
    · exact .failed
    · simp only [hs, hb] at h ⊢
      exact .source h

/-- Any interleaving of the two functions reads the list of the source: after `k`
successful calls of `iter_next`, each of which delivered its element, both functions
return true if there is an element at `k`, which is then what `iter_next` delivers and
what `iter_peek` writes, and false if there is not. -/
theorem peekable_lockstep {between : Mem → Mem → Prop} {source : Iter t} {m : Mem}
    {xs : List t.Val} (streams : source.Streams between (iterPeekable source m).2 xs)
    {calls : List (Ask × Reply t.Val)} {it : Iter t} {m' : Mem}
    (run : (iterPeekable source m).1.Interleaved between (iterPeekable source m).2 calls it m')
    (op : Ask) :
    (∃ it' m'', it.Replies op m'
      (replyAt ((iterPeekable source m).1.remaining xs) (delivered calls) op) it' m'') ∧
    ∀ a it' m'', it.Replies op m' a it' m'' →
      a = replyAt ((iterPeekable source m).1.remaining xs) (delivered calls) op := by
  obtain ⟨I, streaming, start⟩ := streams
  have here := (iterPeekable_cursor start).interleaved streaming run
  obtain ⟨it', m'', replies, -⟩ := here.ask streaming op
  rw [← replyAt_drop] at replies
  exact ⟨⟨it', m'', replies⟩, fun a _ _ other => (other.unique replies).1⟩

/-- A source that delivers a list whatever happens to the memory. -/
theorem Iter.Delivers.streams {between : Mem → Mem → Prop} {it : Iter t} {xs : List t.Val}
    (h : it.Delivers Iter.Ended xs {xs}) (m : Mem) : it.Streams between m xs := by
  refine ⟨fun it _ ys => it.Delivers Iter.Ended ys {ys} ∨ ys = [] ∧ it.Ended, ⟨fun h _ => h, ?_⟩,
    .inl h⟩
  intro it m ys course
  cases course with
  | inr ended =>
    obtain ⟨rfl, ended⟩ := ended
    obtain ⟨it', m', returns, after⟩ := ended.call m
    exact ⟨it', m', returns, .inr ⟨rfl, after⟩⟩
  | inl delivers =>
    rcases delivers.call_only m with ⟨rfl, it', m', returns, last⟩ | h
    · exact ⟨it', m', returns, .inr ⟨rfl, last⟩⟩
    · obtain ⟨x, ys, it', m', rfl, returns, rest⟩ := h
      exact ⟨it', m', returns, .inl rest⟩

theorem peekable_lockstep_slice :
    let xs : List ElemType.longLong.Val := ([3, 4] : List Int)
    let made := iterPeekable (.fromSlice 0 xs 0) (.start (refusingOnce 9))
    ∃ it m, made.1.Interleaved (fun _ _ => True) made.2
        [(.peek true, ⟨true, some (3 : Int)⟩), (.peek false, ⟨true, none⟩),
          (.next, ⟨true, some (3 : Int)⟩), (.next, ⟨true, some (4 : Int)⟩)] it m ∧
      ∀ a it' m', it.Replies (.peek true) m a it' m' → a = ⟨false, none⟩ := by
  intro xs made
  have delivers : (Iter.fromSlice 0 xs 0).Delivers Iter.Ended xs {xs} :=
    fromSlice_delivers 0 xs (fromSlice_ended 0 xs) 0 (by decide)
  have looked (out : Bool) (it : Iter .longLong) (h : it = made.1 ∨
      it = .peekable 0 1 (.fromSlice 0 xs 1) (some (3 : Int)) false) :
      it.Replies (.peek out) made.2 ⟨true, if out then some (3 : Int) else none⟩
        (.peekable 0 1 (.fromSlice 0 xs 1) (some (3 : Int)) false) made.2 := by
    rcases h with rfl | rfl <;> exact ⟨1, rfl⟩
  have first : Iter.Replies .next (.peekable 0 1 (.fromSlice 0 xs 1) (some (3 : Int)) false)
    made.2 ⟨true, some (3 : Int)⟩ (.peekable 0 1 (.fromSlice 0 xs 1) none false) made.2 := ⟨1, rfl⟩
  have second : Iter.Replies .next (.peekable 0 1 (.fromSlice 0 xs 1) none false) made.2
    ⟨true, some (4 : Int)⟩ (.peekable 0 1 (.fromSlice 0 xs 2) none false) made.2 := ⟨2, rfl⟩
  have run := Iter.Interleaved.call (.call (.call (.call
    (.start : made.1.Interleaved (fun _ _ => True) made.2 [] _ _)
    (looked true _ (.inl rfl))) (looked false _ (.inr rfl))) first) second
  exact ⟨_, _, run, (peekable_lockstep (delivers.streams _) run (.peek true)).2⟩

end Seqc
