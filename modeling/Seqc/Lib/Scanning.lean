import Seqc.Lib.Iteration
import Mathlib.Data.List.Induction

/-! Loops over an iterator whose body only changes an accumulator, and may leave the loop. -/

namespace Iteration

variable {σ β μ α : Type*}

/-- The accumulator after the items; `step` answers whether the loop goes on. -/
def scan (step : β → α → Bool × α) : List β → α → α
  | [], a => a
  | x :: xs, a => if (step x a).1 then scan step xs (step x a).2 else (step x a).2

@[simp] theorem scan_nil (step : β → α → Bool × α) (a : α) : scan step [] a = a := rfl

/-- A loop that is not left folds. -/
theorem scan_foldl (f : α → β → α) (xs : List β) (a : α) :
    scan (fun x a => (true, f a x)) xs a = xs.foldl f a := by
  induction xs generalizing a with
  | nil => rfl
  | cons x xs ih => exact ih (f a x)

/-- A loop that is left at the first item that meets `p` finds it. -/
theorem scan_find (p : β → Bool) (f : β → α) (xs : List β) (a : α) :
    scan (fun x a => if p x then (false, f x) else (true, a)) xs a = (xs.find? p).elim a f := by
  induction xs generalizing a with
  | nil => rfl
  | cons x xs ih =>
    rw [scan]
    cases hit : p x with
    | true => simp [hit]
    | false => simp [hit, ih]

variable {next : Nat → σ → μ → Option (Option β × σ × μ)} {cost : μ → Nat} {E : σ → Prop} {s : σ}
  {xs : List β} {A : Set (List β)}

/-- The rule for such a loop: it scans a list that the faults may make of the items. -/
theorem Delivers.scan [Nonempty μ] (mono : Mono next) (h : Delivers next cost E s xs A)
    (step : β → α → Bool × α) (a : α) (m : μ) :
    ∃ fuel s' m' zs, whileNext next (fun x a m => ((step x a).1, (step x a).2, m)) fuel s a m =
        some (scan step zs a, s', m') ∧ cost m ≤ cost m' ∧ zs ∈ A ∧
      (cost m' = cost m → scan step zs a = scan step xs a) := by
  induction h using Delivers.induct generalizing a m with
  | step s xs A _ ih =>
    cases ih m with
    | ended returns grows closes _ calm =>
      obtain ⟨fuel, call⟩ := returns
      exact ⟨fuel + 1, _, _, [], by simp only [whileNext, call]; rfl, grows, closes,
        fun same => by rw [calm same]⟩
    | @item x s₁ m₁ ys B returns grows rest family calm =>
      obtain ⟨rest, ih⟩ := rest
      obtain ⟨fuel, call⟩ := returns
      cases goes : (step x a).1 with
      | false =>
        obtain ⟨zs, hz⟩ := rest.exists_mem
        refine ⟨fuel + 1, s₁, m₁, x :: zs, ?_, grows, family zs hz, fun same => ?_⟩
        · simp only [whileNext, call, goes, Iteration.scan, Bool.false_eq_true, if_false]
        · rw [calm same]
          simp only [Iteration.scan, goes, Bool.false_eq_true, if_false]
      | true =>
        obtain ⟨fuel', s', m', zs, run, grows', hz, whole⟩ := ih (step x a).2 m₁
        refine ⟨max fuel fuel' + 1, s', m', x :: zs, ?_, grows.trans grows', family zs hz,
          fun same => ?_⟩
        · simp only [whileNext, mono.le call (Nat.le_max_left fuel fuel'), goes, Iteration.scan,
            if_true]
          exact whileNext_le mono run (Nat.le_max_right fuel fuel')
        · rw [calm (by omega)]
          simp only [Iteration.scan, goes, if_true]
          exact whole (by omega)

/-! ### The best item -/

/-- `better` is a strict order in which items may be on a par. -/
structure Prefers (better : β → β → Bool) : Prop where
  asymm : ∀ a b, better a b = true → better b a = false
  weak : ∀ a b c, better a b = true → better c b = false → better a c = true

def keepBest (better : β → β → Bool) (found : Option β) (x : β) : Option β :=
  some (match found with
    | none => x
    | some best => if better x best then x else best)

/-- `x` is better than all items before it, and none behind it is better. -/
def FirstBest (better : β → β → Bool) (xs : List β) (x : β) : Prop :=
  ∃ pre post, xs = pre ++ x :: post ∧ (∀ y ∈ pre, better x y = true) ∧
    ∀ y ∈ post, better y x = false

/-- None of no items, and the first of the best otherwise. -/
def Picks (better : β → β → Bool) (xs : List β) (found : Option β) : Prop :=
  (xs = [] ∧ found = none) ∨ ∃ x, found = some x ∧ FirstBest better xs x

theorem FirstBest.none_better {better : β → β → Bool} (p : Prefers better) {x : β}
    (h : FirstBest better xs x) : x ∈ xs ∧ ∀ y ∈ xs, better y x = false := by
  obtain ⟨pre, post, rfl, before, behind⟩ := h
  refine ⟨by simp, fun y hy => ?_⟩
  rcases List.mem_append.mp hy with hy | hy
  · exact p.asymm x y (before y hy)
  · rcases List.mem_cons.mp hy with rfl | hy
    · cases self : better y y with
      | false => rfl
      | true => exact self ▸ p.asymm y y self
    · exact behind y hy

theorem foldl_keepBest {better : β → β → Bool} (p : Prefers better) (xs : List β) :
    Picks better xs (xs.foldl (keepBest better) none) := by
  induction xs using List.reverseRecOn with
  | nil => exact .inl ⟨rfl, rfl⟩
  | append_singleton xs x ih =>
    rw [List.foldl_concat]
    obtain ⟨rfl, none⟩ | ⟨best, found, pre, post, rfl, before, behind⟩ := ih
    · exact .inr ⟨x, by rw [none]; rfl, [], [], rfl, by simp, by simp⟩
    rw [found, keepBest]
    cases wins : better x best with
    | true =>
      refine .inr ⟨x, rfl, pre ++ best :: post, [], rfl, fun y hy => ?_, by simp⟩
      rcases List.mem_append.mp hy with hy | hy
      · exact p.weak x best y wins (p.asymm best y (before y hy))
      · rcases List.mem_cons.mp hy with rfl | hy
        · exact wins
        · exact p.weak x best y wins (behind y hy)
    | false =>
      refine .inr ⟨best, rfl, pre, post ++ [x], by simp, before, fun y hy => ?_⟩
      rcases List.mem_append.mp hy with hy | hy
      · exact behind y hy
      · rw [List.mem_singleton.mp hy]
        exact wins

end Iteration
