import Mathlib.Data.List.Basic

/-! Buffers as functions from positions to what the slots hold, read up to a length as
lists. A buffer holds something past every length that is read. -/

namespace Slots

variable {β : Type*} {n : Nat} {buf : Nat → β}

/-- What the first `n` slots hold. -/
def contents (n : Nat) (buf : Nat → β) : List β := (List.range n).map buf

def store (buf : Nat → β) (i : Nat) (x : β) : Nat → β :=
  fun k => if k = i then x else buf k

/-- `memmove` by whole elements; the source is read before anything is written. -/
def memmove (buf : Nat → β) (dst src count : Nat) : Nat → β :=
  fun k => if dst ≤ k ∧ k < dst + count then buf (src + (k - dst)) else buf k

@[simp] theorem contents_length (n : Nat) (buf : Nat → β) : (contents n buf).length = n := by
  simp [contents]

@[simp] theorem contents_zero (buf : Nat → β) : contents 0 buf = [] := rfl

theorem contents_succ (n : Nat) (buf : Nat → β) :
    contents (n + 1) buf = contents n buf ++ [buf n] := by
  simp [contents, List.range_succ]

theorem contents_get (buf : Nat → β) {i : Nat} (h : i < n) :
    (contents n buf)[i]? = some (buf i) := by
  simp [contents, h]

theorem contents_past (buf : Nat → β) {i : Nat} (h : n ≤ i) : (contents n buf)[i]? = none := by
  simp [contents, h]

theorem contents_congr {buf' : Nat → β} (same : ∀ k < n, buf' k = buf k) :
    contents n buf' = contents n buf :=
  List.map_congr_left fun k hk => same k (List.mem_range.mp hk)

/-- A list is read if each slot holds its entry. -/
theorem contents_eq {xs : List β} (len : xs.length = n) (holds : ∀ k < n, xs[k]? = some (buf k)) :
    contents n buf = xs := by
  apply List.ext_getElem?
  intro k
  by_cases inside : k < n
  · rw [contents_get buf inside, holds k inside]
  · rw [contents_past buf (by omega), List.getElem?_eq_none (by omega)]

theorem contents_take {k : Nat} (h : k ≤ n) : (contents n buf).take k = contents k buf := by
  rw [contents, ← List.map_take, List.take_range, Nat.min_eq_left h, contents]

theorem store_same (buf : Nat → β) (i : Nat) (x : β) : store buf i x i = x :=
  if_pos rfl

theorem store_other {i k : Nat} (ne : k ≠ i) (buf : Nat → β) (x : β) : store buf i x k = buf k :=
  if_neg ne

/-- What is stored past the end is not read. -/
theorem contents_store_past {i : Nat} (h : n ≤ i) (x : β) :
    contents n (store buf i x) = contents n buf :=
  contents_congr fun _ hk => store_other (by omega) buf x

theorem contents_store_end (x : β) : contents (n + 1) (store buf n x) = contents n buf ++ [x] := by
  rw [contents_succ, contents_store_past (Nat.le_refl _), store_same]

theorem contents_set {i : Nat} (h : i < n) (x : β) :
    contents n (store buf i x) = (contents n buf).set i x := by
  apply contents_eq (by simp)
  intro k hk
  by_cases here : k = i
  · subst here
    simp [store_same, h]
  · rw [List.getElem?_set_ne (Ne.symm here), contents_get buf hk, store_other here]

/-- Moving the tail up by one slot makes room at `i`. -/
theorem contents_insert {i : Nat} (h : i ≤ n) (x : β) :
    contents (n + 1) (store (memmove buf (i + 1) i (n - i)) i x) =
      (contents n buf).take i ++ x :: (contents n buf).drop i := by
  have length : ((contents n buf).take i).length = i := by
    rw [List.length_take, contents_length, Nat.min_eq_left h]
  apply contents_eq (by simp; omega)
  intro k hk
  rcases Nat.lt_trichotomy k i with below | rfl | above
  · rw [List.getElem?_append_left (by omega), List.getElem?_take_of_lt below,
      contents_get buf (by omega), store_other (by omega), memmove, if_neg (by omega)]
  · rw [List.getElem?_append_right (by omega), store_same]
    simp [h]
  · obtain ⟨j, rfl⟩ : ∃ j, k = i + (j + 1) := ⟨k - i - 1, by omega⟩
    rw [List.getElem?_append_right (by omega), store_other (by omega), memmove,
      if_pos (by omega), length, Nat.add_sub_cancel_left, List.getElem?_cons_succ,
      List.getElem?_drop, contents_get buf (by omega)]
    congr 2
    omega

/-- Moving the tail down by one slot overwrites the entry at `i`. -/
theorem contents_remove {i : Nat} (h : i < n) :
    contents (n - 1) (memmove buf i (i + 1) (n - i - 1)) = (contents n buf).eraseIdx i := by
  apply contents_eq (by simp [List.length_eraseIdx, h])
  intro k hk
  rw [List.getElem?_eraseIdx]
  by_cases below : k < i
  · rw [if_pos below, contents_get buf (by omega), memmove, if_neg (by omega)]
  · rw [if_neg below, contents_get buf (by omega), memmove, if_pos (by omega)]
    congr 2
    omega

/-- A window of `n` slots after its elements moved down by one and another was stored
behind them. -/
theorem contents_shift (pos : 0 < n) (x : β) :
    contents n (store (memmove buf 0 1 (n - 1)) (n - 1) x) = (contents n buf).tail ++ [x] := by
  have last : n - 1 + 1 = n := by omega
  have moved : contents (n - 1) (memmove buf 0 1 (n - 1)) = (contents n buf).tail := by
    rw [← List.eraseIdx_zero]
    exact contents_remove pos
  rw [← moved, ← contents_store_end, last]

end Slots
