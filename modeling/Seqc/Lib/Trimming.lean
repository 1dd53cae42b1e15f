import Mathlib.Data.List.DropRight

/-! What is left of a list without the elements at its two ends that meet a condition: the only
part between two runs of such elements that neither starts nor ends with one. -/

namespace Trimming

variable {α : Type*} {p : α → Bool} {xs t pre post : List α}

/-- Neither the first nor the last element meets `p`. -/
structure Bare (p : α → Bool) (t : List α) : Prop where
  first : ∀ a ∈ t.head?, p a = false
  last : ∀ a ∈ t.getLast?, p a = false

def trim (p : α → Bool) (xs : List α) : List α := (xs.dropWhile p).rdropWhile p

theorem Bare.reverse (bare : Bare p t) : Bare p t.reverse where
  first := by simpa using bare.last
  last := by simpa using bare.first

theorem dropWhile_core (before : ∀ a ∈ pre, p a = true) (bare : Bare p t) (rest : t ≠ []) :
    (pre ++ (t ++ post)).dropWhile p = t ++ post := by
  rw [List.dropWhile_append_of_pos before]
  cases t with
  | nil => exact absurd rfl rest
  | cons a t => rw [List.cons_append, List.dropWhile_cons_of_neg (by simp [bare.first a rfl])]

theorem dropWhile_all (all : ∀ a ∈ xs, p a = true) : xs.dropWhile p = [] :=
  List.dropWhile_eq_nil_iff.mpr all

theorem rdropWhile_core (behind : ∀ a ∈ post, p a = true) (bare : Bare p t) (rest : t ≠ []) :
    ((pre ++ t) ++ post).rdropWhile p = pre ++ t := by
  rw [List.rdropWhile, List.reverse_append, List.reverse_append,
    dropWhile_core (by simpa using behind) bare.reverse (by simpa using rest)]
  simp

theorem rdropWhile_all (all : ∀ a ∈ xs, p a = true) : xs.rdropWhile p = [] :=
  List.rdropWhile_eq_nil_iff.mpr all

/-- The part that is left is the only one, and the order of the two ends does not matter. -/
theorem trim_unique (before : ∀ a ∈ pre, p a = true) (behind : ∀ a ∈ post, p a = true)
    (bare : Bare p t) :
    trim p (pre ++ t ++ post) = t ∧ ((pre ++ t ++ post).rdropWhile p).dropWhile p = t := by
  by_cases rest : t = []
  · subst rest
    have all : ∀ a ∈ pre ++ [] ++ post, p a = true := by
      intro a ha
      simp only [List.append_nil, List.mem_append] at ha
      exact ha.elim (before a) (behind a)
    rw [trim, dropWhile_all all, rdropWhile_all all]
    exact ⟨rfl, rfl⟩
  · refine ⟨?_, ?_⟩
    · have whole : ([] ++ t ++ post).rdropWhile p = [] ++ t := rdropWhile_core behind bare rest
      rw [trim, List.append_assoc, dropWhile_core before bare rest]
      exact whole
    · have whole : (pre ++ (t ++ [])).dropWhile p = t ++ [] := dropWhile_core before bare rest
      rw [rdropWhile_core behind bare rest]
      simpa using whole

theorem trim_split (p : α → Bool) (xs : List α) :
    ∃ pre post, xs = pre ++ trim p xs ++ post ∧ (∀ a ∈ pre, p a = true) ∧
      (∀ a ∈ post, p a = true) ∧ pre = xs.takeWhile p := by
  refine ⟨xs.takeWhile p, (xs.dropWhile p).rtakeWhile p, ?_, fun a => List.mem_takeWhile_imp,
    fun a => List.mem_rtakeWhile_imp, rfl⟩
  rw [List.append_assoc, trim, List.rdropWhile_append_rtakeWhile, List.takeWhile_append_dropWhile]

theorem trim_bare (p : α → Bool) (xs : List α) : Bare p (trim p xs) where
  first a ha := by
    obtain ⟨rest, trimmed⟩ := List.head?_eq_some_iff.mp ha
    obtain ⟨behind, whole⟩ : trim p xs <+: xs.dropWhile p := List.rdropWhile_prefix p _
    have more : xs.dropWhile p = a :: (rest ++ behind) := by
      rw [← whole, trimmed, List.cons_append]
    have bare := List.head_dropWhile_not p (l := xs) (by simp [more])
    simpa only [more, List.head_cons] using bare
  last a ha := by
    obtain ⟨rest, trimmed⟩ := List.getLast?_eq_some_iff.mp ha
    have real : trim p xs ≠ [] := by simp [trimmed]
    have bare := List.rdropWhile_last_not p (xs.dropWhile p) real
    have last : ((xs.dropWhile p).rdropWhile p).getLast real = a :=
      (by simp [trimmed] : (trim p xs).getLast real = a)
    simpa only [last, Bool.not_eq_true] using bare

end Trimming
