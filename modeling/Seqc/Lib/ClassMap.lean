import Mathlib.Data.List.Pairwise

/-! Finite maps whose keys are taken up to an equivalence test. A map is a
function on keys that does not separate equivalent ones; a list of entries with
pairwise inequivalent keys represents it. Keeping a new entry, replacing the
value of an equivalent key and dropping an entry are the operations of the map. -/

namespace ClassMap

variable {κ ν : Type}

structure EqLaws (eq : κ → κ → Bool) : Prop where
  refl : ∀ a, eq a a = true
  symm : ∀ a b, eq a b = true → eq b a = true
  trans : ∀ a b c, eq a b = true → eq b c = true → eq a c = true

def empty : κ → Option ν := fun _ => none

def insert (eq : κ → κ → Bool) (g : κ → Option ν) (k : κ) (v : ν) : κ → Option ν :=
  fun x => if eq k x then some v else g x

def erase (eq : κ → κ → Bool) (g : κ → Option ν) (k : κ) : κ → Option ν :=
  fun x => if eq k x then none else g x

structure Represents (eq : κ → κ → Bool) (xs : List (κ × ν)) (g : κ → Option ν) : Prop where
  apart : xs.Pairwise fun a b => eq a.1 b.1 = false
  lookup : ∀ k v, g k = some v ↔ ∃ p ∈ xs, eq p.1 k = true ∧ p.2 = v

variable {eq : κ → κ → Bool} {xs ys : List (κ × ν)} {g : κ → Option ν}

theorem EqLaws.symm_false (laws : EqLaws eq) {a b : κ} (h : eq a b = false) : eq b a = false := by
  by_contra flipped
  rw [Bool.not_eq_false] at flipped
  simp [laws.symm _ _ flipped] at h

theorem EqLaws.congr (laws : EqLaws eq) {a b : κ} (h : eq a b = true) (c : κ) :
    eq c a = eq c b := by
  rw [Bool.eq_iff_iff]
  exact ⟨fun hc => laws.trans _ _ _ hc h, fun hc => laws.trans _ _ _ hc (laws.symm _ _ h)⟩

theorem EqLaws.congr_left (laws : EqLaws eq) {a b : κ} (h : eq a b = true) (c : κ) :
    eq a c = eq b c := by
  rw [Bool.eq_iff_iff]
  exact ⟨laws.trans _ _ _ (laws.symm _ _ h), laws.trans _ _ _ h⟩

theorem represents_nil : Represents eq ([] : List (κ × ν)) empty where
  apart := .nil
  lookup k v := by simp [empty]

theorem Represents.perm (laws : EqLaws eq) (r : Represents eq xs g) (h : xs.Perm ys) :
    Represents eq ys g where
  apart := (h.pairwise_iff (fun hab => laws.symm_false hab)).mp r.apart
  lookup k v := by simp only [r.lookup, h.mem_iff]

theorem Represents.eq_none_iff (r : Represents eq xs g) (k : κ) :
    g k = none ↔ ∀ p ∈ xs, eq p.1 k = false := by
  rw [Option.eq_none_iff_forall_ne_some]
  constructor
  · intro h p hp
    by_contra hit
    rw [Bool.not_eq_false] at hit
    exact h p.2 ((r.lookup k p.2).mpr ⟨p, hp, hit, rfl⟩)
  · intro h v hv
    obtain ⟨p, hp, hit, -⟩ := (r.lookup k v).mp hv
    simp [h p hp] at hit

theorem Represents.get (r : Represents eq xs g) {p : κ × ν} (hp : p ∈ xs) {k : κ}
    (hit : eq p.1 k = true) : g k = some p.2 := (r.lookup k p.2).mpr ⟨p, hp, hit, rfl⟩

/-- Equivalent keys have the same value. -/
theorem Represents.congr (laws : EqLaws eq) (r : Represents eq xs g) {k l : κ}
    (h : eq k l = true) : g k = g l := by
  ext v
  rw [r.lookup, r.lookup]
  simp only [laws.congr h]

theorem Represents.cons (laws : EqLaws eq) (r : Represents eq xs g) {k : κ} (fresh : g k = none)
    (v : ν) : Represents eq ((k, v) :: xs) (insert eq g k v) where
  apart := by
    refine List.pairwise_cons.mpr ⟨fun p hp => ?_, r.apart⟩
    exact laws.symm_false ((r.eq_none_iff k).mp fresh p hp)
  lookup x w := by
    by_cases h : eq k x = true
    · have other (p : κ × ν) (hp : p ∈ xs) : eq p.1 x = false := by
        rw [← laws.congr h]
        exact (r.eq_none_iff k).mp fresh p hp
      constructor
      · intro hw
        exact ⟨(k, v), by simp, h, by simpa [insert, h] using hw⟩
      · rintro ⟨p, hp, hit, rfl⟩
        rcases List.mem_cons.mp hp with rfl | hp
        · simp [insert, h]
        · simp [other p hp] at hit
    · simp [insert, h, r.lookup]

theorem Represents.tail_apart {k : κ} {v : ν} (r : Represents eq ((k, v) :: xs) g) (p : κ × ν)
    (hp : p ∈ xs) : eq k p.1 = false := (List.pairwise_cons.mp r.apart).1 p hp

theorem Represents.replace (laws : EqLaws eq) {k l : κ} {v : ν}
    (r : Represents eq ((k, v) :: xs) g) (h : eq k l = true) (w : ν) :
    Represents eq ((k, w) :: xs) (insert eq g l w) where
  apart := List.pairwise_cons.mpr (List.pairwise_cons.mp r.apart)
  lookup x u := by
    rw [insert, ← laws.congr_left h x]
    by_cases hx : eq k x = true
    · have other (p : κ × ν) (hp : p ∈ xs) : eq p.1 x = false := by
        rw [← laws.congr hx]
        exact laws.symm_false (r.tail_apart p hp)
      simp only [hx, if_true, List.mem_cons, Option.some.injEq]
      constructor
      · rintro rfl
        exact ⟨(k, w), .inl rfl, hx, rfl⟩
      · rintro ⟨p, rfl | hp, hit, rfl⟩
        · rfl
        · simp [other p hp] at hit
    · simp [hx, r.lookup]

theorem Represents.erase (laws : EqLaws eq) {k l : κ} {v : ν}
    (r : Represents eq ((k, v) :: xs) g) (h : eq k l = true) :
    Represents eq xs (erase eq g l) where
  apart := (List.pairwise_cons.mp r.apart).2
  lookup x u := by
    rw [ClassMap.erase, ← laws.congr_left h x]
    by_cases hx : eq k x = true
    · have other (p : κ × ν) (hp : p ∈ xs) : eq p.1 x = false := by
        rw [← laws.congr hx]
        exact laws.symm_false (r.tail_apart p hp)
      simp only [hx, if_true, reduceCtorEq, false_iff, not_exists, not_and]
      intro p hp hit
      simp [other p hp] at hit
    · simp [hx, r.lookup]

/-- Two lists of entries that represent one map are the same, up to their order and to the
choice of a key in its class. -/
theorem Represents.matching (laws : EqLaws eq) (r : Represents eq xs g) (r' : Represents eq ys g) :
    ∃ zs, zs.Perm ys ∧ List.Forall₂ (fun p q => eq p.1 q.1 = true ∧ p.2 = q.2) xs zs := by
  induction xs generalizing ys g with
  | nil =>
    cases ys with
    | nil => exact ⟨[], .refl _, .nil⟩
    | cons q ys =>
      obtain ⟨p, hp, -⟩ := (r.lookup q.1 q.2).mp (r'.get (by simp) (laws.refl q.1))
      simp at hp
  | cons p xs ih =>
    obtain ⟨q, hq, equal, value⟩ := (r'.lookup p.1 p.2).mp (r.get (by simp) (laws.refl p.1))
    obtain ⟨pre, post, rfl⟩ := List.append_of_mem hq
    have moved : (pre ++ q :: post).Perm (q :: (pre ++ post)) := List.perm_middle
    obtain ⟨zs, perm, same⟩ := ih (r.erase laws (laws.refl p.1))
      ((r'.perm laws moved).erase laws equal)
    exact ⟨q :: zs, (perm.cons q).trans moved.symm, .cons ⟨laws.symm _ _ equal, value.symm⟩ same⟩

/-- Inserting all entries of one map into another puts the values of the one before those of
the other. -/
theorem Represents.foldl_insert (laws : EqLaws eq) (r : Represents eq xs g) (h : κ → Option ν) :
    xs.foldl (fun h p => insert eq h p.1 p.2) h = fun k => (g k).or (h k) := by
  induction xs generalizing g h with
  | nil =>
    funext k
    have none : g k = none := (r.eq_none_iff k).mpr (by simp)
    simp [none]
  | cons p xs ih =>
    funext k
    rw [List.foldl_cons, ih (r.erase laws (laws.refl p.1))]
    simp only [ClassMap.erase, insert]
    by_cases hit : eq p.1 k = true
    · simp [hit, r.get (by simp) hit]
    · simp [hit]

/-- A first part of the entries leaves a value alone or puts that of the map. -/
theorem Represents.foldl_part (r : Represents eq xs g) (part : ys <+: xs)
    (h : κ → Option ν) (k : κ) :
    ys.foldl (fun h p => insert eq h p.1 p.2) h k = h k ∨
      (g k).isSome ∧ ys.foldl (fun h p => insert eq h p.1 p.2) h k = g k := by
  have hit {p : κ × ν} (hp : p ∈ ys) (equal : eq p.1 k = true) : g k = some p.2 :=
    r.get (part.subset hp) equal
  clear part
  induction ys generalizing h with
  | nil => exact .inl rfl
  | cons p ys ih =>
    rcases ih (insert eq h p.1 p.2) (fun hp => hit (List.mem_cons_of_mem p hp)) with same | later
    · by_cases equal : eq p.1 k = true
      · have value := hit List.mem_cons_self equal
        exact .inr ⟨by simp [value], by simp [List.foldl_cons, same, insert, equal, value]⟩
      · exact .inl (by simp [List.foldl_cons, same, insert, equal])
    · exact .inr later

end ClassMap
