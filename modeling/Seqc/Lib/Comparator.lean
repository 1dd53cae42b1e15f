import Seqc.Lib.ClassMap
import Mathlib.Algebra.Order.Group.Int
import Mathlib.Data.List.Forall2
import Mathlib.Data.Set.Basic

/-! Three-way comparisons that describe a total preorder, and lists that ascend
strictly under one. A key cuts such a list into the entries below and above it. -/

namespace Comparator

variable {κ δ : Type} {cmp : κ → κ → Int} {key : δ → κ}

structure Laws (cmp : κ → κ → Int) : Prop where
  flip : ∀ a b, cmp a b < 0 ↔ 0 < cmp b a
  trans : ∀ a b c, cmp a b ≤ 0 → cmp b c ≤ 0 → cmp a c ≤ 0

theorem Laws.le_iff (laws : Laws cmp) (a b : κ) : cmp a b ≤ 0 ↔ 0 ≤ cmp b a := by
  have := laws.flip b a
  omega

theorem Laws.self (laws : Laws cmp) (a : κ) : cmp a a = 0 := by
  have := laws.flip a a
  omega

theorem Laws.eq_symm (laws : Laws cmp) {a b : κ} (h : cmp a b = 0) : cmp b a = 0 := by
  have := laws.flip a b
  have := laws.flip b a
  omega

theorem Laws.lt_of_lt_of_le (laws : Laws cmp) {a b c : κ} (hab : cmp a b < 0) (hbc : cmp b c ≤ 0) :
    cmp a c < 0 := by
  by_contra far
  have back := laws.trans b c a hbc ((laws.le_iff c a).mpr (by omega))
  have := (laws.flip a b).mp hab
  omega

theorem Laws.lt_of_le_of_lt (laws : Laws cmp) {a b c : κ} (hab : cmp a b ≤ 0) (hbc : cmp b c < 0) :
    cmp a c < 0 := by
  by_contra far
  have back := laws.trans c a b ((laws.le_iff c a).mpr (by omega)) hab
  have := (laws.flip b c).mp hbc
  omega

theorem Laws.total (laws : Laws cmp) (a b : κ) : cmp a b ≤ 0 ∨ cmp b a ≤ 0 := by
  have := laws.flip a b
  omega

/-- Only the sign of the answers matters. -/
theorem Laws.of_sign {cmp' : κ → κ → Int} (laws : Laws cmp)
    (same : ∀ a b, (cmp' a b).sign = (cmp a b).sign) : Laws cmp' where
  flip a b := by
    rw [← Int.sign_neg_iff, same, Int.sign_neg_iff, laws.flip, ← Int.sign_pos_iff, ← same,
      Int.sign_pos_iff]
  trans a b c := by
    rw [← Int.sign_nonpos_iff, same, Int.sign_nonpos_iff, ← Int.sign_nonpos_iff (x := cmp' b c),
      same, Int.sign_nonpos_iff, ← Int.sign_nonpos_iff (x := cmp' a c), same, Int.sign_nonpos_iff]
    exact laws.trans a b c

theorem Laws.comap (laws : Laws cmp) (f : δ → κ) : Laws fun a b => cmp (f a) (f b) where
  flip a b := laws.flip (f a) (f b)
  trans a b c := laws.trans (f a) (f b) (f c)

/-- Subtraction compares integers. -/
def intCmp (a b : Int) : Int := a - b

theorem intCmp_laws : Laws intCmp where
  flip a b := by
    simp only [intCmp]
    omega
  trans a b c := by
    simp only [intCmp]
    omega

/-- The keys that compare equal form the classes of the order. -/
def sameKey (cmp : κ → κ → Int) (a b : κ) : Bool := decide (cmp a b = 0)

theorem Laws.eqLaws (laws : Laws cmp) : ClassMap.EqLaws (sameKey cmp) where
  refl a := by simp [sameKey, laws.self a]
  symm a b h := by
    simp only [sameKey, decide_eq_true_eq] at h ⊢
    exact laws.eq_symm h
  trans a b c hab hbc := by
    simp only [sameKey, decide_eq_true_eq] at hab hbc ⊢
    have le := laws.trans a b c hab.le hbc.le
    have ge := laws.trans c b a (laws.eq_symm hbc).le (laws.eq_symm hab).le
    have := laws.le_iff c a
    omega

/-- Strictly ascending keys. -/
def Ascending (cmp : κ → κ → Int) (key : δ → κ) (xs : List δ) : Prop :=
  xs.Pairwise fun a b => cmp (key a) (key b) < 0

/-- `k` belongs between the entries of `pre` and those of `post`. -/
structure Cut (cmp : κ → κ → Int) (key : δ → κ) (k : κ) (pre post : List δ) : Prop where
  below : ∀ a ∈ pre, 0 < cmp k (key a)
  above : ∀ b ∈ post, cmp k (key b) < 0

variable {k : κ} {d : δ} {xs ys pre post : List δ}

theorem Cut.nil : Cut cmp key k [] [] := ⟨by simp, by simp⟩

theorem Ascending.parts (asc : Ascending cmp key (xs ++ d :: ys)) :
    Ascending cmp key xs ∧ Ascending cmp key ys ∧ (∀ a ∈ xs, cmp (key a) (key d) < 0) ∧
      ∀ b ∈ ys, cmp (key d) (key b) < 0 := by
  obtain ⟨left, right, across⟩ := List.pairwise_append.mp asc
  obtain ⟨above, tail⟩ := List.pairwise_cons.mp right
  exact ⟨left, tail, fun a ha => across a ha d (by simp), above⟩

theorem Ascending.sublist (asc : Ascending cmp key ys) (h : xs.Sublist ys) :
    Ascending cmp key xs := List.Pairwise.sublist h asc

/-- Below `d`, the entries from `d` on are above. -/
theorem Ascending.above (laws : Laws cmp) (asc : Ascending cmp key (xs ++ d :: ys))
    (h : cmp k (key d) < 0) (b : δ) (hb : b ∈ d :: ys) : cmp k (key b) < 0 := by
  rcases List.mem_cons.mp hb with rfl | hb
  · exact h
  · exact laws.lt_of_lt_of_le h (asc.parts.2.2.2 b hb).le

/-- Above `d`, the entries up to `d` are below. -/
theorem Ascending.below (laws : Laws cmp) (asc : Ascending cmp key (xs ++ d :: ys))
    (h : 0 < cmp k (key d)) (a : δ) (ha : a ∈ xs ++ [d]) : 0 < cmp k (key a) := by
  rcases List.mem_append.mp ha with ha | ha
  · refine (laws.flip (key a) k).mp (laws.lt_of_lt_of_le (asc.parts.2.2.1 a ha) ?_)
    exact ((laws.flip (key d) k).mpr h).le
  · rw [List.mem_singleton.mp ha]
    exact h

theorem Ascending.cut_of_eq (laws : Laws cmp) (asc : Ascending cmp key (xs ++ d :: ys))
    (h : cmp k (key d) = 0) : Cut cmp key k xs ys where
  below a ha := (laws.flip (key a) k).mp
    (laws.lt_of_lt_of_le (asc.parts.2.2.1 a ha) (laws.eq_symm h).le)
  above b hb := laws.lt_of_le_of_lt h.le (asc.parts.2.2.2 b hb)

/-- A cut of the entries before `d` is one of the whole list. -/
theorem Cut.left (laws : Laws cmp) (cut : Cut cmp key k pre post)
    (asc : Ascending cmp key (xs ++ d :: ys)) (h : cmp k (key d) < 0) :
    Cut cmp key k pre (post ++ d :: ys) where
  below := cut.below
  above b hb := by
    rcases List.mem_append.mp hb with hb | hb
    · exact cut.above b hb
    · exact asc.above laws h b hb

theorem Cut.right (laws : Laws cmp) (cut : Cut cmp key k pre post)
    (asc : Ascending cmp key (xs ++ d :: ys)) (h : 0 < cmp k (key d)) :
    Cut cmp key k (xs ++ d :: pre) post where
  below a ha := by
    rw [List.append_cons] at ha
    rcases List.mem_append.mp ha with ha | ha
    · exact asc.below laws h a ha
    · exact cut.below a ha
  above := cut.above

/-- An entry put where its key cuts the list keeps it ascending. -/
theorem Ascending.put (laws : Laws cmp) (asc : Ascending cmp key (pre ++ post))
    (cut : Cut cmp key (key d) pre post) : Ascending cmp key (pre ++ d :: post) := by
  obtain ⟨left, right, across⟩ := List.pairwise_append.mp asc
  refine List.pairwise_append.mpr ⟨left, List.pairwise_cons.mpr ⟨cut.above, right⟩, ?_⟩
  intro a ha b hb
  rcases List.mem_cons.mp hb with rfl | hb
  · exact (laws.flip _ _).mpr (cut.below a ha)
  · exact across a ha b hb

theorem Ascending.drop (asc : Ascending cmp key (pre ++ d :: post)) :
    Ascending cmp key (pre ++ post) :=
  asc.sublist (List.Sublist.append_left (List.sublist_cons_self d post) pre)

theorem Ascending.head_le (laws : Laws cmp) (asc : Ascending cmp key xs) (h : xs.head? = some d) :
    d ∈ xs ∧ ∀ e ∈ xs, cmp (key d) (key e) ≤ 0 := by
  cases xs with
  | nil => simp at h
  | cons x xs =>
    obtain rfl := Option.some.inj h
    refine ⟨by simp, fun e he => ?_⟩
    rcases List.mem_cons.mp he with rfl | he
    · exact (laws.self (key e)).le
    · exact ((List.pairwise_cons.mp asc).1 e he).le

theorem Ascending.le_getLast (laws : Laws cmp) (asc : Ascending cmp key xs)
    (h : xs.getLast? = some d) : d ∈ xs ∧ ∀ e ∈ xs, cmp (key e) (key d) ≤ 0 := by
  obtain ⟨ys, rfl⟩ := List.getLast?_eq_some_iff.mp h
  refine ⟨by simp, fun e he => ?_⟩
  rcases List.mem_append.mp he with he | he
  · exact (asc.parts.2.2.1 e he).le
  · rw [List.mem_singleton.mp he]
    exact (laws.self (key d)).le

/-- No entry has the key of a cut without an entry of its own. -/
theorem Cut.absent (cut : Cut cmp key k pre post) (a : δ) (ha : a ∈ pre ++ post) :
    cmp k (key a) ≠ 0 := by
  rcases List.mem_append.mp ha with ha | ha
  · exact (cut.below a ha).ne'
  · exact (cut.above a ha).ne

/-- Keys of pairwise different classes. -/
def Unequal (cmp : κ → κ → Int) (ks : List κ) : Prop := ks.Pairwise fun a b => cmp a b ≠ 0

section Unequal
variable {a b : κ} {ks ls : List κ}

theorem Unequal.perm (laws : Laws cmp) (unequal : Unequal cmp ks) (perm : ks.Perm ls) :
    Unequal cmp ls :=
  (perm.pairwise_iff fun h back => h (laws.eq_symm back)).mp unequal

theorem Unequal.same (laws : Laws cmp) (unequal : Unequal cmp ks) (ha : a ∈ ks) (hb : b ∈ ks)
    (equal : cmp a b = 0) : a = b := by
  have symm : Std.Symm fun a b => cmp a b ≠ 0 := ⟨fun _ _ h back => h (laws.eq_symm back)⟩
  by_contra other
  exact unequal.forall ha hb other equal

theorem Ascending.unequal (asc : Ascending cmp id ks) : Unequal cmp ks :=
  asc.imp fun less => less.ne

/-- Two ascending lists of the same keys are the same. -/
theorem Ascending.eq_of_perm (laws : Laws cmp) (asc : Ascending cmp id ks)
    (asc' : Ascending cmp id ls) (perm : ks.Perm ls) : ks = ls :=
  perm.eq_of_pairwise (fun a b _ _ less more => by
    have := laws.flip a b
    simp only [id] at less more
    omega) asc asc'

end Unequal

/-- The keys up to `k`. -/
def upTo (cmp : κ → κ → Int) (k : κ) : Set κ := {a | cmp a k ≤ 0}

theorem upTo_inj (laws : Laws cmp) {a b : κ} (same : upTo cmp a = upTo cmp b) : cmp a b = 0 := by
  have up : a ∈ upTo cmp b := same ▸ (laws.self a).le
  have down : b ∈ upTo cmp a := same ▸ (laws.self b).le
  have le : cmp a b ≤ 0 := up
  have ge : cmp b a ≤ 0 := down
  have := laws.flip a b
  omega

/-- The same keys sorted twice are equal in every place. -/
theorem matching_of_sorted (laws : Laws cmp) {ks ls : List κ} (perm : ks.Perm ls)
    (sorted : ks.Pairwise fun a b => cmp a b ≤ 0) (sorted' : ls.Pairwise fun a b => cmp a b ≤ 0) :
    List.Forall₂ (fun a b => cmp a b = 0) ks ls := by
  have below {a b : κ} (le : cmp a b ≤ 0) : upTo cmp a ⊆ upTo cmp b :=
    fun k hk => laws.trans k a b hk le
  have same : ks.map (upTo cmp) = ls.map (upTo cmp) :=
    (perm.map _).eq_of_pairwise (fun _ _ _ _ => Set.Subset.antisymm)
      (List.pairwise_map.mpr (sorted.imp below)) (List.pairwise_map.mpr (sorted'.imp below))
  rw [← List.forall₂_eq_eq_eq, List.forall₂_map_left_iff, List.forall₂_map_right_iff] at same
  exact same.imp fun _ _ => upTo_inj laws

end Comparator
