import Mathlib.Data.List.Basic
import Mathlib.Data.List.Infix
import Mathlib.Tactic.Linarith

/-! Cutting a list at the leftmost occurrences of a delimiter that do not overlap. -/

namespace Splitting

variable {α : Type*} {d s t rest : List α} {ts us : List (List α)}

/-- `ts` is `s` cut at the leftmost occurrences of `d`: no occurrence begins inside a piece
before the cut that ends it, and the last piece contains none. -/
inductive Cuts (d : List α) : List α → List (List α) → Prop
  | last {t : List α} (clean : ¬d <:+: t) : Cuts d t [t]
  | cut {t rest : List α} {ts : List (List α)}
      (leftmost : ∀ i < t.length, ¬d <+: (t ++ d ++ rest).drop i) (later : Cuts d rest ts) :
      Cuts d (t ++ d ++ rest) (t :: ts)

/-- The pieces of `s`; an empty delimiter does not cut. -/
def Splits (d s : List α) (ts : List (List α)) : Prop :=
  if d = [] then ts = [s] else Cuts d s ts

theorem infix_iff_drop : d <:+: s ↔ ∃ i, d <+: s.drop i := by
  constructor
  · intro h
    obtain ⟨before, after, rfl⟩ := h
    exact ⟨before.length, after, by simp⟩
  · intro h
    obtain ⟨i, h⟩ := h
    exact h.isInfix.trans (List.drop_suffix i s).isInfix

theorem Cuts.ne_nil (h : Cuts d s ts) : ts ≠ [] := by cases h <;> simp

/-- Two first cuts are at the same place. -/
private theorem leftmost_length_le {t₁ t₂ rest₁ rest₂ : List α}
    (same : t₁ ++ d ++ rest₁ = t₂ ++ d ++ rest₂)
    (leftmost : ∀ i < t₁.length, ¬d <+: (t₁ ++ d ++ rest₁).drop i) : t₁.length ≤ t₂.length := by
  by_contra longer
  apply leftmost t₂.length (by omega)
  rw [same, List.append_assoc, List.drop_left]
  exact List.prefix_append d rest₂

theorem Cuts.unique (h : Cuts d s ts) : ∀ {us}, Cuts d s us → ts = us := by
  induction h with
  | @last t clean =>
    intro us other
    cases other with
    | last _ => rfl
    | @cut t' rest _ _ _ =>
      exfalso
      exact clean ⟨t', rest, rfl⟩
  | @cut t rest ts leftmost later ih =>
    intro us other
    generalize hs : t ++ d ++ rest = s at other
    cases other with
    | last clean =>
      exfalso
      exact clean ⟨t, rest, hs⟩
    | @cut t' rest' us' leftmost' later' =>
      have le := leftmost_length_le hs leftmost
      have ge := leftmost_length_le hs.symm leftmost'
      rw [List.append_assoc, List.append_assoc] at hs
      obtain ⟨rfl, tail⟩ := List.append_inj hs (by omega)
      obtain rfl := List.append_cancel_left tail
      rw [ih later']

/-- Joining the pieces with the delimiter gives the list back. -/
theorem Cuts.intercalate (h : Cuts d s ts) : d.intercalate ts = s := by
  induction h with
  | last _ => simp
  | @cut t rest ts _ later ih =>
    obtain ⟨u, us, rfl⟩ := List.exists_cons_of_ne_nil later.ne_nil
    rw [List.intercalate_cons_cons, ih, List.append_assoc]

theorem Splits.unique (h : Splits d s ts) (other : Splits d s us) : us = ts := by
  unfold Splits at h other
  split at h
  · rw [if_pos ‹_›] at other
    exact other.trans h.symm
  · rw [if_neg ‹_›] at other
    exact other.unique h

theorem Splits.intercalate (h : Splits d s ts) : d.intercalate ts = s := by
  unfold Splits at h
  split at h
  · rw [h, List.intercalate_singleton]
  · exact h.intercalate

/-- The length of pieces joined with a separator, with one separator more. -/
theorem length_intercalate (sep : List α) (some : ts ≠ []) :
    (sep.intercalate ts).length + sep.length =
      (ts.map List.length).sum + ts.length * sep.length := by
  induction ts with
  | nil => exact absurd rfl some
  | cons t ts ih =>
    cases ts with
    | nil => simp
    | cons u us =>
      have tail := ih (by simp)
      rw [List.intercalate_cons_cons, List.length_append, List.length_append, List.map_cons,
        List.sum_cons, List.length_cons, Nat.add_mul, Nat.one_mul]
      omega

/-! ### The number of cuts -/

section Count
variable [DecidableEq α]

/-- The occurrences of a non-empty `d`, from left to right; `skip` entries still belong to the
last one. -/
def occurrencesFrom (d : List α) : (skip : Nat) → List α → Nat
  | _, [] => 0
  | skip + 1, _ :: s => occurrencesFrom d skip s
  | 0, x :: s =>
    if d <+: x :: s then occurrencesFrom d (d.length - 1) s + 1 else occurrencesFrom d 0 s

/-- The number of leftmost occurrences of `d` that do not overlap. -/
def occurrences (d s : List α) : Nat := if d = [] then 0 else occurrencesFrom d 0 s

theorem occurrencesFrom_skip (s : List α) :
    ∀ n, occurrencesFrom d n s = occurrencesFrom d 0 (s.drop n) := by
  induction s with
  | nil =>
    intro n
    rw [List.drop_nil]
    cases n <;> rfl
  | cons x s ih =>
    intro n
    cases n with
    | zero => rfl
    | succ n => exact ih n

/-- Entries where no occurrence begins do not matter. -/
theorem occurrencesFrom_append (t rest : List α)
    (clean : ∀ i < t.length, ¬d <+: (t ++ rest).drop i) :
    occurrencesFrom d 0 (t ++ rest) = occurrencesFrom d 0 rest := by
  induction t with
  | nil => rfl
  | cons x t ih =>
    have first : ¬d <+: x :: (t ++ rest) := clean 0 (by simp)
    rw [List.cons_append, occurrencesFrom, if_neg first]
    exact ih fun i hi => clean (i + 1) (by simpa using hi)

theorem Cuts.length_eq (nonempty : d ≠ []) (h : Cuts d s ts) :
    ts.length = occurrencesFrom d 0 s + 1 := by
  induction h with
  | @last t clean =>
    have none := occurrencesFrom_append t []
      (fun i _ here => clean (infix_iff_drop.mpr ⟨i, by simpa using here⟩))
    rw [List.append_nil] at none
    rw [none]
    rfl
  | @cut t rest ts leftmost later ih =>
    rw [List.append_assoc] at leftmost ⊢
    rw [occurrencesFrom_append t (d ++ rest) leftmost, List.length_cons, ih]
    obtain ⟨x, d', rfl⟩ := List.exists_cons_of_ne_nil nonempty
    have here : x :: d' <+: x :: (d' ++ rest) := List.prefix_append (x :: d') rest
    rw [List.cons_append, occurrencesFrom, if_pos here, List.length_cons, Nat.add_sub_cancel,
      occurrencesFrom_skip (d' ++ rest), List.drop_left]

theorem Splits.length_eq (h : Splits d s ts) : ts.length = occurrences d s + 1 := by
  unfold Splits at h
  unfold occurrences
  by_cases empty : d = []
  · rw [if_pos empty] at h ⊢
    rw [h]
    rfl
  · rw [if_neg empty] at h ⊢
    exact h.length_eq empty

/-- Other pieces between the cuts change the length by the difference for each. -/
theorem Splits.length_other (h : Splits d s ts) (other : List α) :
    ((other.intercalate ts).length : Int) =
      s.length + occurrences d s * ((other.length : Int) - d.length) := by
  have some : ts ≠ [] := fun none => by simpa [none] using h.length_eq
  have before := length_intercalate d some
  have after := length_intercalate other some
  rw [h.intercalate, h.length_eq] at before
  rw [h.length_eq] at after
  zify at before after
  linarith

end Count

/-! ### Delimiters of one entry -/

section Single
variable {c : α}

theorem singleton_prefix_drop {i : Nat} : [c] <+: s.drop i ↔ s[i]? = some c := by
  rw [← List.head?_drop]
  cases s.drop i with
  | nil => simp
  | cons x xs => simp [eq_comm]

theorem single_infix_iff : [c] <:+: s ↔ c ∈ s := by
  rw [infix_iff_drop, List.mem_iff_getElem?]
  simp only [singleton_prefix_drop]

theorem Cuts.pieces_free (h : Cuts [c] s ts) : ∀ t ∈ ts, c ∉ t := by
  induction h with
  | last clean => simpa [single_infix_iff] using clean
  | @cut t rest ts leftmost later ih =>
    intro u mem
    cases mem with
    | head =>
      intro here
      obtain ⟨i, hi⟩ := List.mem_iff_getElem?.mp here
      have inside : i < t.length := (List.getElem?_eq_some_iff.mp hi).1
      apply leftmost i inside
      rw [singleton_prefix_drop, List.append_assoc, List.getElem?_append_left inside, hi]
    | tail _ mem => exact ih u mem

/-- Pieces without the delimiter are what their join is cut into. -/
theorem cuts_intercalate (some : ts ≠ []) (free : ∀ t ∈ ts, c ∉ t) :
    Cuts [c] ([c].intercalate ts) ts := by
  induction ts with
  | nil => exact absurd rfl some
  | cons t ts ih =>
    have clean : c ∉ t := free t (by simp)
    cases ts with
    | nil => exact List.intercalate_singleton ▸ .last (by rwa [single_infix_iff])
    | cons u us =>
      rw [List.intercalate_cons_cons]
      refine .cut (fun i hi here => clean ?_) (ih (by simp) fun v hv => free v (by simp [hv]))
      rw [singleton_prefix_drop, List.append_assoc, List.getElem?_append_left hi] at here
      exact List.mem_of_getElem? here

theorem Cuts.length_single [BEq α] [LawfulBEq α] (h : Cuts [c] s ts) :
    ts.length = s.count c + 1 := by
  have free := h.pieces_free
  induction h with
  | @last t _ =>
    rw [List.count_eq_zero_of_not_mem (free t (by simp))]
    rfl
  | @cut t rest ts _ later ih =>
    rw [List.length_cons, ih fun u mem => free u (by simp [mem]), List.count_append,
      List.count_append, List.count_eq_zero_of_not_mem (free t (by simp)),
      List.count_singleton_self]
    omega

end Single

end Splitting
