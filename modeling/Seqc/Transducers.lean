import Seqc.IterCalls
import Mathlib.Data.List.Destutter

/-! The adaptors that look at one item of their source at a time: `iter_filter`,
`iter_map`, `iter_skip`, `iter_skip_while`, `iter_enumerate`, `iter_dedup`,
`iter_peekable` without a peek and the second half of `iter_chain`. -/

namespace Seqc
open Iteration

variable {s t : ElemType}

theorem Iter.call_mono : Mono (Iter.call t) := fun fuel it m r => it.next_mono fuel m r

/-- Every bound from some on is enough. -/
theorem Iter.returns_from {it it' : Iter t} {m m' : Mem} {out : Option t.Val}
    (h : Returns (Iter.call t) it m out it' m') :
    ∃ n, ∀ k, n ≤ k → it.next k m = some (out, it', m') := by
  obtain ⟨n, h⟩ := h
  exact ⟨n, fun k le => Iter.call_mono.le h le⟩

/-- An adaptor whose calls call the source once, and then return or start again. -/
theorem transduces_of {γ : Type} {react : γ → s.Val → Option t.Val × γ} {wrap : γ → Iter s → Iter t}
    (ended : ∀ {fuel q source m source' m'}, source.next fuel m = some (none, source', m') →
      (wrap q source).next (fuel + 1) m = some (none, wrap q source', m'))
    (emits : ∀ {fuel q source m x source' m' y}, source.next fuel m = some (some x, source', m') →
      (react q x).1 = some y →
        (wrap q source).next (fuel + 1) m = some (some y, wrap (react q x).2 source', m'))
    (drops : ∀ {fuel q source m x source' m'}, source.next fuel m = some (some x, source', m') →
      (react q x).1 = none →
        (wrap q source).next (fuel + 1) m = (wrap (react q x).2 source').next fuel m') :
    Transduces (Iter.call s) (Iter.call t) react wrap where
  ended := by
    rintro q source m source' m' ⟨n, h⟩
    exact ⟨q, n + 1, ended h⟩
  emits := by
    rintro q source m x source' m' y ⟨n, h⟩ emit
    exact ⟨n + 1, emits h emit⟩
  drops := by
    rintro q source m x source' m' out r m'' ⟨n, h⟩ drop ⟨k, h'⟩
    have step := drops (Iter.call_mono.le h (le_max_left n k)) drop
    exact ⟨max n k + 1, step.trans (Iter.call_mono.le h' (le_max_right n k))⟩

/-- An adaptor that turns every item of its source into one of its own. -/
theorem transduces_each {γ : Type} {emit : γ → s.Val → t.Val} {after : γ → s.Val → γ}
    {wrap : γ → Iter s → Iter t}
    (ended : ∀ {fuel q source m source' m'}, source.next fuel m = some (none, source', m') →
      (wrap q source).next (fuel + 1) m = some (none, wrap q source', m'))
    (given : ∀ {fuel q source m x source' m'}, source.next fuel m = some (some x, source', m') →
      (wrap q source).next (fuel + 1) m = some (some (emit q x), wrap (after q x) source', m')) :
    Transduces (Iter.call s) (Iter.call t) (fun q x => (some (emit q x), after q x)) wrap := by
  refine transduces_of ended ?_ (fun _ drop => by simp at drop)
  intro fuel q source m x source' m' y h same
  obtain rfl := Option.some.inj same
  exact given h

variable (addr buf : Nat)

theorem filter_transduces (pred : t.Val → Bool) :
    Transduces (Iter.call t) (Iter.call t)
      (fun (_ : Unit) x => (if pred x then some x else none, ()))
      fun _ source => .filter addr source pred := by
  refine transduces_of (fun h => by simp [Iter.next, h]) ?_ ?_
  · intro fuel q source m x source' m' y h emit
    cases keep : pred x with
    | true =>
      obtain rfl := by simpa [keep] using emit
      simp [Iter.next, h, keep]
    | false => simp [keep] at emit
  · intro fuel q source m x source' m' h drop
    cases keep : pred x with
    | true => simp [keep] at drop
    | false => simp [Iter.next, h, keep]

theorem transduce_filter {β : Type} (pred : β → Bool) (xs : List β) :
    transduce (fun (_ : Unit) x => (if pred x then some x else none, ())) () xs =
      xs.filter pred := by
  induction xs with
  | nil => rfl
  | cons x xs ih => cases keep : pred x <;> simp [transduce, keep, ih]

theorem map_transduces (fn : s.Val → t.Val) :
    Transduces (Iter.call s) (Iter.call t) (fun (_ : Unit) x => (some (fn x), ()))
      fun _ source => .map addr buf source fn :=
  transduces_each (fun h => by simp [Iter.next, h]) fun h => by simp [Iter.next, h]

theorem transduce_map {β γ : Type} (fn : β → γ) (xs : List β) :
    transduce (fun (_ : Unit) x => (some (fn x), ())) () xs = xs.map fn := by
  induction xs with
  | nil => rfl
  | cons x xs ih => simp [transduce, ih]

theorem skip_transduces :
    Transduces (Iter.call t) (Iter.call t)
      (fun remaining x => if remaining = 0 then (some x, 0) else (none, remaining - 1))
      fun remaining source => .skip addr source remaining := by
  refine transduces_of (fun {_ q _ _ _ _} h => ?_) ?_ ?_
  · by_cases zero : q = 0 <;> simp [Iter.next, h, zero]
  · intro fuel q source m x source' m' y h emit
    by_cases zero : q = 0
    · obtain rfl := by simpa [zero] using emit
      simp [Iter.next, h, zero]
    · simp [zero] at emit
  · intro fuel q source m x source' m' h drop
    by_cases zero : q = 0
    · simp [zero] at drop
    · simp [Iter.next, h, zero]

theorem transduce_skip {β : Type} (n : Nat) (xs : List β) :
    transduce (fun remaining x => if remaining = 0 then (some x, 0) else (none, remaining - 1))
      n xs = xs.drop n := by
  induction xs generalizing n with
  | nil => simp [transduce]
  | cons x xs ih =>
    cases n with
    | zero => simp [transduce, ih]
    | succ n => simp [transduce, ih]

theorem skipWhile_transduces (pred : t.Val → Bool) :
    Transduces (Iter.call t) (Iter.call t)
      (fun done x => if done || !pred x then (some x, true) else (none, false))
      fun done source => .skipWhile addr source pred done := by
  refine transduces_of (fun h => by simp [Iter.next, h]) ?_ ?_
  · intro fuel q source m x source' m' y h emit
    cases q with
    | true =>
      obtain rfl := Option.some.inj emit
      simp [Iter.next, h]
    | false =>
      cases keep : pred x with
      | true => simp [keep] at emit
      | false =>
        obtain rfl := by simpa [keep] using emit
        simp [Iter.next, h, keep]
  · intro fuel q source m x source' m' h drop
    cases q with
    | true => simp at drop
    | false =>
      cases keep : pred x with
      | true => simp [Iter.next, h, keep]
      | false => simp [keep] at drop

theorem transduce_skipWhile {β : Type} (pred : β → Bool) (xs : List β) :
    transduce (fun done x => if done || !pred x then (some x, true) else (none, false)) false xs =
      xs.dropWhile pred := by
  have all (xs : List β) : transduce
      (fun done x => if done || !pred x then (some x, true) else (none, false)) true xs = xs := by
    induction xs with
    | nil => rfl
    | cons x xs ih => exact congrArg (x :: ·) ih
  induction xs with
  | nil => rfl
  | cons x xs ih =>
    cases keep : pred x with
    | true => simpa [transduce, keep] using ih
    | false =>
      rw [transduce_emit (y := x) (by simp [keep]), List.dropWhile_cons_of_neg (by simp [keep])]
      simp only [keep, Bool.not_false, Bool.or_true, if_true, all]

theorem enumerate_transduces :
    Transduces (Iter.call t) (Iter.call (.entry t))
      (fun index x => (some (index, x), addSize index 1))
      fun index source => .enumerate addr buf source index :=
  transduces_each (fun h => by simp [Iter.next, h]) fun h => by simp [Iter.next, h]

theorem transduce_enumerate {β : Type} (xs : List β) (k : Nat) :
    transduce (fun index x => (some (index, x), addSize index 1)) (k % 2 ^ 64) xs =
      (xs.zipIdx k).map fun p => (p.2 % 2 ^ 64, p.1) := by
  induction xs generalizing k with
  | nil => rfl
  | cons x xs ih =>
    rw [transduce, show addSize (k % 2 ^ 64) 1 = (k + 1) % 2 ^ 64 by simp [addSize], ih]
    rfl

/-- An element is kept unless it equals the one kept last. -/
def dedupReact {β : Type} (cmp : β → β → Int) : Option β → β → Option β × Option β
  | none, x => (some x, some x)
  | some y, x => if cmp x y = 0 then (none, some y) else (some x, some x)

theorem dedup_transduces (cmp : t.Val → t.Val → Int) :
    Transduces (Iter.call t) (Iter.call t) (dedupReact cmp)
      fun last source => .dedup addr buf source cmp last := by
  refine transduces_of (fun h => by simp [Iter.next, h]) ?_ ?_
  · intro fuel q source m x source' m' y h emit
    cases q with
    | none =>
      obtain rfl := Option.some.inj emit
      simp [Iter.next, h, dedupReact]
    | some z =>
      by_cases same : cmp x z = 0
      · simp [dedupReact, same] at emit
      · obtain rfl := by simpa [dedupReact, same] using emit
        simp [Iter.next, h, dedupReact, same]
  · intro fuel q source m x source' m' h drop
    cases q with
    | none => simp [dedupReact] at drop
    | some z =>
      by_cases same : cmp x z = 0
      · simp [Iter.next, h, dedupReact, same]
      · simp [dedupReact, same] at drop

theorem transduce_dedup {β : Type} (cmp : β → β → Int) (xs : List β) :
    transduce (dedupReact cmp) none xs = xs.destutter fun x y => cmp y x ≠ 0 := by
  have after (xs : List β) : ∀ y, y :: transduce (dedupReact cmp) (some y) xs =
      xs.destutter' (fun x y => cmp y x ≠ 0) y := by
    induction xs with
    | nil =>
      intro y
      rfl
    | cons x xs ih =>
      intro y
      by_cases same : cmp x y = 0
      · rw [List.destutter'_cons_neg _ (by simpa using same), ← ih y]
        simp [transduce, dedupReact, same]
      · rw [List.destutter'_cons_pos _ same, ← ih x]
        simp [transduce, dedupReact, same]
  cases xs with
  | nil => rfl
  | cons x xs => exact after xs x

theorem peekable_transduces :
    Transduces (Iter.call t) (Iter.call t) (fun (_ : Unit) x => (some x, ()))
      fun _ source => .peekable addr buf source none false :=
  transduces_each (fun h => by simp [Iter.next, h]) fun h => by simp [Iter.next, h]

/-- The second part of a chain is passed on as it is. -/
theorem second_transduces (first : Iter t) :
    Transduces (Iter.call t) (Iter.call t) (fun (_ : Unit) x => (some x, ()))
      fun _ second => .chain addr first second true :=
  transduces_each (fun h => by simp [Iter.next, h]) fun h => by simp [Iter.next, h]

theorem transduce_id {β : Type} (xs : List β) :
    transduce (fun (_ : Unit) x => (some x, ())) () xs = xs := by
  induction xs with
  | nil => rfl
  | cons x xs ih => simp [transduce, ih]

end Seqc
