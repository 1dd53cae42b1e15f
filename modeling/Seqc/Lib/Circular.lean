import Mathlib.Data.List.Basic
import Mathlib.Data.Nat.ModEq
import Mathlib.Logic.Function.Basic

/-! A list kept in a ring of slots: item `i` is in slot `(head + i) % cap`. -/

namespace Circular

variable {α : Type*} {slots : Nat → Option α} {cap head : Nat} {xs ys : List α} {x : α}

/-- The slots hold `xs` from `head` on. -/
structure Holds (slots : Nat → Option α) (cap head : Nat) (xs : List α) : Prop where
  fits : xs.length ≤ cap
  item : ∀ i x, xs[i]? = some x → slots ((head + i) % cap) = some x

theorem slot_inj {i j : Nat} (hi : i < cap) (hj : j < cap)
    (h : (head + i) % cap = (head + j) % cap) : i = j := by
  have same : i ≡ j [MOD cap] := Nat.ModEq.add_left_cancel' head h
  rwa [Nat.ModEq, Nat.mod_eq_of_lt hi, Nat.mod_eq_of_lt hj] at same

/-- One slot back. -/
theorem slot_pred (h : 0 < cap) (i : Nat) : (head + cap - 1 + (i + 1)) % cap = (head + i) % cap := by
  rw [show head + cap - 1 + (i + 1) = head + i + cap by omega, Nat.add_mod_right]

theorem holds_nil (slots : Nat → Option α) (cap head : Nat) : Holds slots cap head [] where
  fits := Nat.zero_le cap
  item := by simp

theorem Holds.first (h : Holds slots cap head (x :: xs)) : slots (head % cap) = some x :=
  h.item 0 x rfl

theorem Holds.last (h : Holds slots cap head (xs ++ [x])) :
    slots ((head + xs.length) % cap) = some x := h.item xs.length x (by simp)

theorem Holds.rest (h : Holds slots cap head (x :: xs)) : Holds slots cap ((head + 1) % cap) xs where
  fits := by
    have := h.fits
    rw [List.length_cons] at this
    omega
  item i y hy := by
    rw [Nat.mod_add_mod, Nat.add_assoc, Nat.add_comm 1]
    exact h.item (i + 1) y hy

theorem Holds.init (h : Holds slots cap head (xs ++ ys)) : Holds slots cap head xs where
  fits := by
    have := h.fits
    rw [List.length_append] at this
    omega
  item i y hy := h.item i y (by
    rw [List.getElem?_append_left (List.getElem?_eq_some_iff.mp hy).1]
    exact hy)

theorem Holds.snoc (h : Holds slots cap head xs) (room : xs.length < cap) (x : α) :
    Holds (Function.update slots ((head + xs.length) % cap) (some x)) cap head (xs ++ [x]) where
  fits := by
    rw [List.length_append, List.length_singleton]
    omega
  item i y hy := by
    obtain old | ⟨rfl, rfl⟩ : xs[i]? = some y ∨ i = xs.length ∧ y = x := by
      have len := (List.getElem?_eq_some_iff.mp hy).1
      rw [List.length_append, List.length_singleton] at len
      by_cases inside : i < xs.length
      · exact .inl (by rwa [List.getElem?_append_left inside] at hy)
      · obtain rfl : i = xs.length := by omega
        exact .inr ⟨rfl, by simpa using hy.symm⟩
    · have inside := (List.getElem?_eq_some_iff.mp old).1
      rw [Function.update_of_ne, h.item i y old]
      intro same
      have := slot_inj (inside.trans room) room same
      omega
    · exact Function.update_self _ _ _

theorem Holds.cons (h : Holds slots cap head xs) (room : xs.length < cap) (x : α) :
    Holds (Function.update slots ((head + cap - 1) % cap) (some x)) cap ((head + cap - 1) % cap)
      (x :: xs) where
  fits := room
  item i y hy := by
    have pos : 0 < cap := by omega
    cases i with
    | zero =>
      obtain rfl := Option.some.inj hy
      rw [Nat.add_zero, Nat.mod_mod, Function.update_self]
    | succ i =>
      rw [List.getElem?_cons_succ] at hy
      have inside := (List.getElem?_eq_some_iff.mp hy).1
      rw [Nat.mod_add_mod, slot_pred pos, Function.update_of_ne, h.item i y hy]
      intro same
      rw [← slot_pred pos i] at same
      have := slot_inj (by omega : i + 1 < cap) pos same
      omega

/-- Slots that hold the items from slot 0 on. -/
theorem holds_linear {cap' : Nat} (fits : xs.length ≤ cap')
    (item : ∀ i x, xs[i]? = some x → slots i = some x) : Holds slots cap' 0 xs where
  fits := fits
  item i x hx := by
    have inside := (List.getElem?_eq_some_iff.mp hx).1
    rw [Nat.zero_add, Nat.mod_eq_of_lt (by omega)]
    exact item i x hx

end Circular
