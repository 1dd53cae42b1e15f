import Seqc.Lib.Iteration
import Mathlib.Data.Set.NAry

/-! Iterators made of iterators: one that turns each item of its source into an item or
into nothing, and one that goes on when its first part has ended. What they deliver
follows from what their parts deliver. -/

namespace Iteration

variable {σ τ β γ μ Q : Type*} {nextA : Nat → σ → μ → Option (Option β × σ × μ)}
  {nextB : Nat → τ → μ → Option (Option γ × τ × μ)} {cost : μ → Nat}

/-- An iterator whose calls return nothing whenever those of its source do. -/
theorem Silent.lift {n : Nat} {s : σ} (h : Silent nextA n s) (wrap : Q → σ → τ)
    (ended : ∀ q s m s' m', Returns nextA s m none s' m' →
      ∃ q', Returns nextB (wrap q s) m none (wrap q' s') m') (q : Q) :
    Silent nextB n (wrap q s) := by
  induction n generalizing q s with
  | zero => trivial
  | succ n ih =>
    intro m
    obtain ⟨s', m', returns, rest⟩ := h m
    obtain ⟨q', returns'⟩ := ended q s m s' m' returns
    exact ⟨wrap q' s', m', returns', ih rest q'⟩

/-! ### Transducers -/

/-- The items that come of the items of a list; `react` may answer none. -/
def transduce (react : Q → β → Option γ × Q) : Q → List β → List γ
  | _, [] => []
  | q, x :: xs => (react q x).1.toList ++ transduce react (react q x).2 xs

/-- `wrap q s` is an iterator that passes the items of `s` through `react`. -/
structure Transduces (nextA : Nat → σ → μ → Option (Option β × σ × μ))
    (nextB : Nat → τ → μ → Option (Option γ × τ × μ)) (react : Q → β → Option γ × Q)
    (wrap : Q → σ → τ) : Prop where
  ended : ∀ {q s m s' m'}, Returns nextA s m none s' m' →
    ∃ q', Returns nextB (wrap q s) m none (wrap q' s') m'
  emits : ∀ {q s m x s' m' y}, Returns nextA s m (some x) s' m' → (react q x).1 = some y →
    Returns nextB (wrap q s) m (some y) (wrap (react q x).2 s') m'
  drops : ∀ {q s m x s' m' out r m''}, Returns nextA s m (some x) s' m' → (react q x).1 = none →
    Returns nextB (wrap (react q x).2 s') m' out r m'' → Returns nextB (wrap q s) m out r m''

variable {react : Q → β → Option γ × Q} {wrap : Q → σ → τ} {E : σ → Prop} {F : τ → Prop}
  {s : σ} {xs : List β} {A : Set (List β)}

theorem transduce_emit {q : Q} {x : β} {y : γ} (h : (react q x).1 = some y) (xs : List β) :
    transduce react q (x :: xs) = y :: transduce react (react q x).2 xs := by
  rw [transduce, h]
  rfl

theorem transduce_drop {q : Q} {x : β} (h : (react q x).1 = none) (xs : List β) :
    transduce react q (x :: xs) = transduce react (react q x).2 xs := by
  rw [transduce, h]
  rfl

theorem Transduces.delivers (t : Transduces nextA nextB react wrap)
    (ends : ∀ q s, E s → F (wrap q s)) (h : Delivers nextA cost E s xs A) :
    ∀ (q : Q) (T : Set (List γ)), (∀ zs ∈ A, transduce react q zs ∈ T) →
      Delivers nextB cost F (wrap q s) (transduce react q xs) T := by
  induction h using Delivers.induct with
  | step s xs A _ ih =>
    intro q T family
    apply Delivers.mk
    intro m
    cases ih m with
    | ended returns grows closes last calm =>
      obtain ⟨q', returns'⟩ := t.ended (q := q) returns
      refine .ended returns' grows (family [] closes) (ends q' _ last) fun same => ?_
      rw [calm same, transduce]
    | @item x s' m' ys B returns grows rest sub calm =>
      match hr : (react q x).1 with
      | some y =>
        have tail := rest.snd (react q x).2 {ws | y :: ws ∈ T} fun zs hz => by
          have := family _ (sub zs hz)
          rwa [transduce_emit hr] at this
        refine .item (t.emits returns hr) grows tail (fun zs hz => hz) fun same => ?_
        rw [calm same, transduce_emit hr]
      | none =>
        have tail := rest.snd (react q x).2 T fun zs hz => by
          have := family _ (sub zs hz)
          rwa [transduce_drop hr] at this
        refine (tail.call m').before (fun _ _ _ => t.drops returns hr) grows fun same => ?_
        rw [calm same, transduce_drop hr]

theorem Transduces.computes (t : Transduces nextA nextB react wrap) {q : Q}
    {f : List β → List γ} (list : ∀ zs, transduce react q zs = f zs)
    (ends : ∀ q s, E s → F (wrap q s)) (h : Delivers nextA cost E s xs A) :
    Delivers nextB cost F (wrap q s) (f xs) (f '' A) := by
  rw [← list xs]
  apply t.delivers ends h
  intro zs hz
  rw [list zs]
  exact Set.mem_image_of_mem f hz

theorem Transduces.silent (t : Transduces nextA nextB react wrap) (q : Q) {n : Nat}
    (h : Silent nextA n s) : Silent nextB n (wrap q s) :=
  h.lift wrap (fun _ _ _ _ _ => t.ended) q

/-! ### One after the other -/

/-- `wrap s` passes on the items of `s` and goes on as `later s` when `s` has ended. -/
structure Continues (nextA : Nat → σ → μ → Option (Option β × σ × μ))
    (nextB : Nat → τ → μ → Option (Option β × τ × μ)) (cost : μ → Nat) (wrap later : σ → τ)
    (drop : σ → μ → μ) : Prop where
  item : ∀ {s m x s' m'}, Returns nextA s m (some x) s' m' →
    Returns nextB (wrap s) m (some x) (wrap s') m'
  goesOn : ∀ {s m s' m' out r m''}, Returns nextA s m none s' m' →
    Returns nextB (later s') (drop s' m') out r m'' → Returns nextB (wrap s) m out r m''
  free : ∀ s m, cost (drop s m) = cost m

variable {nextB' : Nat → τ → μ → Option (Option β × τ × μ)} {wrap' later : σ → τ}
  {drop : σ → μ → μ}

theorem Continues.delivers (c : Continues nextA nextB' cost wrap' later drop) {ys : List β}
    {B : Set (List β)} (next : ∀ s, Delivers nextB' cost F (later s) ys B)
    (h : Delivers nextA cost E s xs A) :
    ∀ T : Set (List β), (∀ zs ∈ A, ∀ ws ∈ B, zs ++ ws ∈ T) →
      Delivers nextB' cost F (wrap' s) (xs ++ ys) T := by
  induction h using Delivers.induct with
  | step s xs A _ ih =>
    intro T family
    apply Delivers.mk
    intro m
    cases ih m with
    | @ended s' m' returns grows closes last calm =>
      have tail : Delivers nextB' cost F (later s') ys T :=
        (next s').weaken (fun _ => id) fun ws hw => family [] closes ws hw
      refine (tail.call (drop s' m')).before (fun _ _ _ => c.goesOn returns)
        (by rw [c.free]; exact grows) fun same => ?_
      rw [calm (by rw [← same, c.free]), List.nil_append]
    | @item x s' m' zs B' returns grows rest sub calm =>
      have tail := rest.snd {vs | x :: vs ∈ T} fun vs hv ws hw => family (x :: vs) (sub vs hv) ws hw
      refine .item (c.item returns) grows tail (fun vs hv => hv) fun same => ?_
      rw [calm same, List.cons_append]

end Iteration
