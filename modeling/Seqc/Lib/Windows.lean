import Mathlib.Data.List.Basic
import Mathlib.Data.List.Destutter

/-! The windows and the chunks of a list. -/

namespace Windows

variable {α : Type*}

/-- All runs of `n` neighbours, in order. -/
def windows (n : Nat) (xs : List α) : List (List α) :=
  if n = 0 then [] else (List.range (xs.length + 1 - n)).map fun i => (xs.drop i).take n

/-- Consecutive runs of `n`, the last one possibly shorter. -/
def chunksOf (n : Nat) (xs : List α) : List (List α) :=
  if n = 0 ∨ xs = [] then [] else xs.take n :: chunksOf n (xs.drop n)
termination_by xs.length
decreasing_by
  obtain ⟨pos, some⟩ := not_or.mp ‹_›
  have := List.length_pos_iff.mpr some
  rw [List.length_drop]
  omega

@[simp] theorem windows_zero (xs : List α) : windows 0 xs = [] := rfl

theorem windows_short {n : Nat} {xs : List α} (h : xs.length < n) : windows n xs = [] := by
  rw [windows, show xs.length + 1 - n = 0 by omega]
  split <;> rfl

theorem windows_step {n : Nat} (pos : n ≠ 0) {xs : List α} (h : n ≤ xs.length) :
    windows n xs = xs.take n :: windows n xs.tail := by
  have count : xs.length + 1 - n = xs.tail.length + 1 - n + 1 := by
    rw [List.length_tail]
    omega
  rw [windows, windows, if_neg pos, if_neg pos, count, List.range_succ_eq_map, List.map_cons,
    List.map_map, List.drop_zero]
  congr 1
  apply List.map_congr_left
  intro i _
  simp only [Function.comp_apply, List.drop_tail]

@[simp] theorem chunksOf_zero (xs : List α) : chunksOf 0 xs = [] := by
  rw [chunksOf, if_pos (.inl rfl)]

@[simp] theorem chunksOf_nil (n : Nat) : chunksOf n ([] : List α) = [] := by
  rw [chunksOf, if_pos (.inr rfl)]

theorem chunksOf_step {n : Nat} (pos : n ≠ 0) {xs : List α} (some : xs ≠ []) :
    chunksOf n xs = xs.take n :: chunksOf n (xs.drop n) := by
  rw [chunksOf, if_neg (not_or.mpr ⟨pos, some⟩)]

theorem chunksOf_append {n : Nat} (pos : n ≠ 0) {xs : List α} (h : xs.length = n) (ys : List α) :
    chunksOf n (xs ++ ys) = xs :: chunksOf n ys := by
  have some : xs ++ ys ≠ [] := by
    intro nothing
    obtain ⟨rfl, -⟩ := List.append_eq_nil_iff.mp nothing
    exact pos h.symm
  rw [chunksOf_step pos some, ← h, List.take_left, List.drop_left]

theorem chunksOf_short {n : Nat} {xs : List α} (some : xs ≠ []) (h : xs.length < n) :
    chunksOf n xs = [xs] := by
  rw [chunksOf_step (by omega) some, List.take_of_length_le h.le, List.drop_eq_nil_of_le h.le,
    chunksOf_nil]

end Windows
