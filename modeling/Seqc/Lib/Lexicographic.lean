import Mathlib.Data.List.Forall2
import Seqc.Lib.Comparator

/-! Lists compared entry by entry, a proper prefix first, with a three-way comparison of
the entries. -/

namespace Lexicographic
open Comparator

variable {α : Type} {cmp : α → α → Int} {a b : α} {xs ys zs : List α}

def lexCmp (cmp : α → α → Int) : List α → List α → Int
  | [], [] => 0
  | [], _ :: _ => -1
  | _ :: _, [] => 1
  | a :: xs, b :: ys => if cmp a b ≠ 0 then cmp a b else lexCmp cmp xs ys

theorem lexCmp_cons_of_ne (h : cmp a b ≠ 0) : lexCmp cmp (a :: xs) (b :: ys) = cmp a b :=
  if_pos h

theorem lexCmp_cons_of_eq (h : cmp a b = 0) :
    lexCmp cmp (a :: xs) (b :: ys) = lexCmp cmp xs ys := if_neg (not_not.mpr h)

/-- Equal prefixes do not matter. -/
theorem lexCmp_append (refl : ∀ a, cmp a a = 0) (pre xs ys : List α) :
    lexCmp cmp (pre ++ xs) (pre ++ ys) = lexCmp cmp xs ys := by
  induction pre with
  | nil => rfl
  | cons p pre ih => rw [List.cons_append, List.cons_append, lexCmp_cons_of_eq (refl p), ih]

theorem lexCmp_self (refl : ∀ a, cmp a a = 0) (xs : List α) : lexCmp cmp xs xs = 0 := by
  simpa [lexCmp] using lexCmp_append refl xs [] []

theorem lexCmp_eq_zero (xs : List α) :
    ∀ ys, lexCmp cmp xs ys = 0 ↔ List.Forall₂ (fun a b => cmp a b = 0) xs ys := by
  induction xs with
  | nil =>
    intro ys
    cases ys with
    | nil => exact ⟨fun _ => .nil, fun _ => rfl⟩
    | cons y ys => exact ⟨fun h => by simp [lexCmp] at h, fun h => by cases h⟩
  | cons x xs ih =>
    intro ys
    cases ys with
    | nil => exact ⟨fun h => by simp [lexCmp] at h, fun h => by cases h⟩
    | cons y ys =>
      rw [List.forall₂_cons, ← ih ys]
      by_cases same : cmp x y = 0
      · rw [lexCmp_cons_of_eq same]
        simp [same]
      · rw [lexCmp_cons_of_ne same]
        simp [same]

/-- The common length first, then the lengths. -/
theorem lexCmp_eq_take (xs : List α) :
    ∀ ys, lexCmp cmp xs ys =
      let n := min xs.length ys.length
      let c := lexCmp cmp (xs.take n) (ys.take n)
      if c ≠ 0 then c
      else (if ys.length < xs.length then 1 else 0) - (if xs.length < ys.length then 1 else 0) := by
  induction xs with
  | nil =>
    intro ys
    cases ys <;> simp [lexCmp]
  | cons x xs ih =>
    intro ys
    cases ys with
    | nil => simp [lexCmp]
    | cons y ys =>
      simp only [List.length_cons, Nat.add_min_add_right, List.take_succ_cons,
        Nat.add_lt_add_iff_right]
      by_cases same : cmp x y = 0
      · rw [lexCmp_cons_of_eq same, lexCmp_cons_of_eq same]
        exact ih ys
      · rw [lexCmp_cons_of_ne same, lexCmp_cons_of_ne same, if_pos same]

/-- Two lists of one length are equal or have a first difference. -/
theorem first_difference (xs : List α) :
    ∀ ys, xs.length = ys.length → xs = ys ∨
      ∃ pre a b xs' ys', xs = pre ++ a :: xs' ∧ ys = pre ++ b :: ys' ∧ a ≠ b ∧
        xs'.length = ys'.length := by
  induction xs with
  | nil =>
    intro ys len
    exact .inl (List.length_eq_zero_iff.mp len.symm).symm
  | cons x xs ih =>
    intro ys len
    cases ys with
    | nil => simp at len
    | cons y ys =>
      rw [List.length_cons, List.length_cons, Nat.add_right_cancel_iff] at len
      by_cases same : x = y
      · subst same
        cases ih ys len with
        | inl equal => exact .inl (congrArg _ equal)
        | inr differ =>
          obtain ⟨pre, a, b, xs', ys', hx, hy, ne, len'⟩ := differ
          exact .inr ⟨x :: pre, a, b, xs', ys', by simp [hx], by simp [hy], ne, len'⟩
      · exact .inr ⟨[], x, y, xs, ys, rfl, rfl, same, len⟩

/-! ### Laws -/

theorem lexCmp_flip (laws : Laws cmp) (xs : List α) :
    ∀ ys, lexCmp cmp xs ys < 0 ↔ 0 < lexCmp cmp ys xs := by
  induction xs with
  | nil =>
    intro ys
    cases ys <;> simp [lexCmp]
  | cons x xs ih =>
    intro ys
    cases ys with
    | nil => simp [lexCmp]
    | cons y ys =>
      by_cases same : cmp x y = 0
      · rw [lexCmp_cons_of_eq same, lexCmp_cons_of_eq (laws.eq_symm same)]
        exact ih ys
      · have differ : cmp y x ≠ 0 := fun h => same (laws.eq_symm h)
        rw [lexCmp_cons_of_ne same, lexCmp_cons_of_ne differ]
        exact laws.flip x y

theorem lexCmp_trans (laws : Laws cmp) (xs : List α) :
    ∀ ys zs, lexCmp cmp xs ys ≤ 0 → lexCmp cmp ys zs ≤ 0 → lexCmp cmp xs zs ≤ 0 := by
  induction xs with
  | nil =>
    intro ys zs _ _
    cases zs <;> simp [lexCmp]
  | cons x xs ih =>
    intro ys zs h h'
    cases ys with
    | nil => simp [lexCmp] at h
    | cons y ys =>
      cases zs with
      | nil => simp [lexCmp] at h'
      | cons z zs =>
        have sameXY : cmp x y ≤ 0 ∧ (cmp x y = 0 → lexCmp cmp xs ys ≤ 0) := by
          by_cases same : cmp x y = 0
          · rw [lexCmp_cons_of_eq same] at h
            exact ⟨same.le, fun _ => h⟩
          · rw [lexCmp_cons_of_ne same] at h
            exact ⟨h, fun zero => absurd zero same⟩
        have sameYZ : cmp y z ≤ 0 ∧ (cmp y z = 0 → lexCmp cmp ys zs ≤ 0) := by
          by_cases same : cmp y z = 0
          · rw [lexCmp_cons_of_eq same] at h'
            exact ⟨same.le, fun _ => h'⟩
          · rw [lexCmp_cons_of_ne same] at h'
            exact ⟨h', fun zero => absurd zero same⟩
        by_cases same : cmp x z = 0
        · -- Equal ends leave no room between them.
          have below := laws.trans z x y (laws.eq_symm same).le sameXY.1
          have above := laws.trans y z x sameYZ.1 (laws.eq_symm same).le
          have flipXY := laws.le_iff y x
          have flipYZ := laws.le_iff z y
          rw [lexCmp_cons_of_eq same]
          exact ih ys zs (sameXY.2 (by omega)) (sameYZ.2 (by omega))
        · rw [lexCmp_cons_of_ne same]
          exact laws.trans x y z sameXY.1 sameYZ.1

theorem lexCmp_laws (laws : Laws cmp) : Laws (lexCmp cmp) where
  flip xs ys := lexCmp_flip laws xs ys
  trans xs ys zs := lexCmp_trans laws xs ys zs

/-- For the comparison of a linear order it is the order of lists. -/
theorem lexCmp_lt_iff [LT α] (less : ∀ a b : α, cmp a b < 0 ↔ a < b)
    (equal : ∀ a b : α, cmp a b = 0 ↔ a = b) (xs : List α) :
    ∀ ys, lexCmp cmp xs ys < 0 ↔ xs < ys := by
  induction xs with
  | nil =>
    intro ys
    cases ys <;> simp [lexCmp]
  | cons x xs ih =>
    intro ys
    cases ys with
    | nil => simp [lexCmp]
    | cons y ys =>
      rw [List.cons_lt_cons_iff, ← ih ys, ← less, ← equal]
      by_cases same : cmp x y = 0
      · rw [lexCmp_cons_of_eq same]
        simp [same]
      · rw [lexCmp_cons_of_ne same]
        simp [same]

end Lexicographic
