import Seqc.Lib.Comparator

/-! Binary heaps laid out in a list: the children of position `i` are `2 * i + 1` and
`2 * i + 2`. A heap with one violated position is repaired by exchanging it with its
least child, or with its parent, until the violation is gone. -/

namespace Heap
open Comparator

variable {α : Type} {cmp : α → α → Int} {xs ys : List α} {i j s : Nat} {a b : α}
  {P : Nat → Prop}

def parent (c : Nat) : Nat := (c - 1) / 2

/-- The entries at `i` and `j`, where there are both, are in order. -/
def Le (cmp : α → α → Int) (xs : List α) (i j : Nat) : Prop :=
  ∀ a b, xs[i]? = some a → xs[j]? = some b → cmp a b ≤ 0

/-- Below every position that satisfies `P`, the children are in order. -/
def OrderedOn (cmp : α → α → Int) (P : Nat → Prop) (xs : List α) : Prop :=
  ∀ c, 0 < c → P (parent c) → Le cmp xs (parent c) c

def Ordered (cmp : α → α → Int) (xs : List α) : Prop :=
  ∀ c, 0 < c → Le cmp xs (parent c) c

/-- Every pair is in order but those of `i` and its children, which are in order with
the parent of `i`. -/
structure DownHole (cmp : α → α → Int) (P : Nat → Prop) (xs : List α) (i : Nat) : Prop where
  others : ∀ c, 0 < c → P (parent c) → parent c ≠ i → Le cmp xs (parent c) c
  across : ∀ c, 0 < c → parent c = i → 0 < i → P (parent i) → Le cmp xs (parent i) c

/-- Every pair is in order but that of `i` and its parent, which is in order with the
children of `i`. -/
structure UpHole (cmp : α → α → Int) (xs : List α) (i : Nat) : Prop where
  others : ∀ c, 0 < c → c ≠ i → Le cmp xs (parent c) c
  across : ∀ c, 0 < c → parent c = i → 0 < i → Le cmp xs (parent i) c

/-- The list with `a` at `i` and `b` at `j` exchanged. -/
def exchange (xs : List α) (i j : Nat) (a b : α) : List α := (xs.set i b).set j a

theorem parent_lt {c : Nat} (h : 0 < c) : parent c < c := by
  rw [parent]
  omega

theorem parent_eq_iff {c : Nat} (h : 0 < c) : parent c = i ↔ c = 2 * i + 1 ∨ c = 2 * i + 2 := by
  rw [parent]
  omega

theorem exchange_perm (ha : xs[i]? = some a) (hb : xs[j]? = some b) :
    (exchange xs i j a b).Perm xs := by
  obtain ⟨hi, rfl⟩ := List.getElem?_eq_some_iff.mp ha
  obtain ⟨hj, rfl⟩ := List.getElem?_eq_some_iff.mp hb
  exact List.set_set_perm hi hj

theorem exchange_getElem? (ha : xs[i]? = some a) (hb : xs[j]? = some b) (k : Nat) :
    (exchange xs i j a b)[k]? = if k = j then some a else if k = i then some b else xs[k]? := by
  obtain ⟨hi, -⟩ := List.getElem?_eq_some_iff.mp ha
  obtain ⟨hj, -⟩ := List.getElem?_eq_some_iff.mp hb
  rw [exchange, List.getElem?_set, List.getElem?_set, List.length_set]
  by_cases kj : k = j
  · simp [kj, hj]
  · by_cases ki : k = i
    · simp [ki, hi, show ¬j = i by omega, show ¬i = j by omega]
    · simp [show ¬j = k by omega, show ¬i = k by omega, kj, ki]

/-- Pairs stay in order where the entries stay. -/
theorem Le.of_keep (h : Le cmp xs i j) (hi : ∀ a, ys[i]? = some a → xs[i]? = some a)
    (hj : ∀ b, ys[j]? = some b → xs[j]? = some b) : Le cmp ys i j :=
  fun a b ha hb => h a b (hi a ha) (hj b hb)

/-! ### Downwards -/

theorem DownHole.finish (h : DownHole cmp P xs i)
    (here : ∀ c, 0 < c → parent c = i → Le cmp xs i c) : OrderedOn cmp P xs := by
  intro c pos hp
  by_cases hole : parent c = i
  · rw [hole]
    exact here c pos hole
  · exact h.others c pos hp hole

/-- Exchanging the entry at `i` with its least child moves the violation there. -/
theorem DownHole.descend (down : ∀ c, 0 < c → P (parent c) → P c)
    (h : DownHole cmp P xs i) (hi : P i) (hs : 0 < s) (child : parent s = i)
    (ha : xs[i]? = some a) (hb : xs[s]? = some b) (less : cmp b a < 0)
    (least : ∀ c, 0 < c → parent c = i → Le cmp xs s c) :
    DownHole cmp P (exchange xs i s a b) s := by
  have get := exchange_getElem? ha hb
  have below := parent_lt hs
  constructor
  · intro c pos hp ne x y hx hy
    rw [get] at hx hy
    rw [if_neg ne] at hx
    by_cases top : parent c = i
    · -- The least child went up.
      rw [if_pos top] at hx
      obtain rfl := Option.some.inj hx
      by_cases cs : c = s
      · rw [if_pos cs] at hy
        exact Option.some.inj hy ▸ less.le
      · have := parent_lt pos
        rw [if_neg cs, if_neg (by omega)] at hy
        exact least c pos top b y hb hy
    · rw [if_neg top] at hx
      have cs : c ≠ s := by
        rintro rfl
        exact top child
      rw [if_neg cs] at hy
      by_cases ci : c = i
      · rw [if_pos ci] at hy
        obtain rfl := Option.some.inj hy
        subst ci
        exact h.across s hs child pos hp x b hx hb
      · rw [if_neg ci] at hy
        exact h.others c pos hp top x y hx hy
  · intro c pos hc _ _ x y hx hy
    have := parent_lt pos
    rw [child, get, if_neg (by omega), if_pos rfl] at hx
    rw [get, if_neg (by omega), if_neg (by omega)] at hy
    obtain rfl := Option.some.inj hx
    have hps : P (parent c) := by
      rw [hc]
      exact down s hs (by rwa [child])
    have step := h.others c pos hps (by omega) b y
    rw [hc] at step
    exact step hb hy

/-! ### Upwards -/

theorem UpHole.finish (h : UpHole cmp xs i) (here : 0 < i → Le cmp xs (parent i) i) :
    Ordered cmp xs := by
  intro c pos
  by_cases hole : c = i
  · subst hole
    exact here pos
  · exact h.others c pos hole

/-- Exchanging the entry at `i` with a greater parent moves the violation there. -/
theorem UpHole.ascend (laws : Laws cmp) (h : UpHole cmp xs i) (pos : 0 < i)
    (ha : xs[i]? = some a) (hb : xs[parent i]? = some b) (less : cmp a b < 0) :
    UpHole cmp (exchange xs i (parent i) a b) (parent i) := by
  have get := exchange_getElem? ha hb
  have below := parent_lt pos
  constructor
  · intro c hc ne x y hx hy
    have := parent_lt hc
    rw [get] at hx hy
    rw [if_neg ne] at hy
    by_cases ci : c = i
    · subst ci
      rw [if_pos rfl] at hx hy
      obtain rfl := Option.some.inj hx
      obtain rfl := Option.some.inj hy
      exact less.le
    rw [if_neg ci] at hy
    by_cases sibling : parent c = parent i
    · rw [if_pos sibling] at hx
      obtain rfl := Option.some.inj hx
      exact laws.trans _ _ _ less.le (h.others c hc ci b y (sibling ▸ hb) hy)
    rw [if_neg sibling] at hx
    by_cases child : parent c = i
    · rw [if_pos child] at hx
      obtain rfl := Option.some.inj hx
      exact h.across c hc child pos b y hb hy
    · rw [if_neg child] at hx
      exact h.others c hc ci x y hx hy
  · intro c hc child up x y hx hy
    have above := parent_lt up
    rw [get, if_neg (by omega), if_neg (by omega)] at hx
    have grand := h.others (parent i) up (by omega) x b hx hb
    rw [get] at hy
    have := parent_lt hc
    rw [if_neg (by omega)] at hy
    by_cases ci : c = i
    · rw [if_pos ci] at hy
      exact Option.some.inj hy ▸ grand
    · rw [if_neg ci] at hy
      exact laws.trans _ _ _ grand (h.others c hc ci b y (child ▸ hb) hy)

/-! ### Whole heaps -/

/-- The root of a heap is a least entry. -/
theorem Ordered.root_le (laws : Laws cmp) (h : Ordered cmp xs) (hr : xs[0]? = some a) :
    ∀ (n : Nat) (x : α), xs[n]? = some x → cmp a x ≤ 0 := by
  intro n
  induction n using Nat.strongRecOn with
  | ind n ih =>
    intro x hx
    rcases Nat.eq_zero_or_pos n with rfl | pos
    · rw [hr] at hx
      obtain rfl := Option.some.inj hx
      exact (laws.self a).le
    · have below := parent_lt pos
      obtain ⟨hn, -⟩ := List.getElem?_eq_some_iff.mp hx
      have hp : xs[parent n]? = some xs[parent n] := List.getElem?_eq_getElem (by omega)
      exact laws.trans _ _ _ (ih _ below _ hp) (h n pos _ x hp hx)

theorem Ordered.least (laws : Laws cmp) (h : Ordered cmp xs) (hr : xs[0]? = some a) (x : α)
    (hx : x ∈ xs) : cmp a x ≤ 0 := by
  obtain ⟨n, hn⟩ := List.getElem?_of_mem hx
  exact h.root_le laws hr n x hn

/-- An entry appended to a heap is in order with everything but its parent. -/
theorem Ordered.append (h : Ordered cmp xs) (x : α) : UpHole cmp (xs ++ [x]) xs.length := by
  have beyond (c : Nat) (hc : xs.length < c) : (xs ++ [x])[c]? = none := by
    rw [List.getElem?_eq_none_iff, List.length_append, List.length_singleton]
    omega
  constructor
  · intro c pos ne
    have below := parent_lt pos
    rcases Nat.lt_or_gt_of_ne ne with inside | outside
    · refine (h c pos).of_keep (fun a ha => ?_) (fun b hb => ?_)
      · rwa [List.getElem?_append_left (by omega)] at ha
      · rwa [List.getElem?_append_left inside] at hb
    · intro a b _ hb
      simp [beyond c outside] at hb
  · intro c pos hc _ a b _ hb
    have := parent_lt pos
    simp [beyond c (by omega)] at hb

/-- What replaces the root of a heap, and entries cut off its end, leave it in order
below the root's children. -/
theorem Ordered.replace_root (h : Ordered cmp xs) (keep : ∀ n y, 0 < n → ys[n]? = some y →
    xs[n]? = some y) : DownHole cmp (fun _ => True) ys 0 where
  others c pos _ ne := (h c pos).of_keep (fun a => keep (parent c) a (Nat.pos_of_ne_zero ne))
    (fun b => keep c b pos)
  across _ _ _ pos := absurd pos (lt_irrefl 0)

/-- Positions past the middle have no children. -/
theorem orderedOn_leaves (xs : List α) : OrderedOn cmp (fun j => xs.length / 2 ≤ j) xs := by
  intro c pos leaf a b _ hb
  have above : xs.length ≤ c := by
    rw [parent] at leaf
    omega
  simp [List.getElem?_eq_none above] at hb

theorem OrderedOn.hole (h : OrderedOn cmp (fun j => i + 1 ≤ j) xs) :
    DownHole cmp (fun j => i ≤ j) xs i where
  others c pos hp ne := h c pos (by omega)
  across c _ _ pos hp := by
    have := parent_lt pos
    omega

/-! ### Subtrees -/

/-- Position `c` is in the subtree rooted at `i`: `i` is on the path from `c` to the root. -/
inductive Under (i : Nat) : Nat → Prop
  | root : Under i i
  | child {c : Nat} (pos : 0 < c) (up : Under i (parent c)) : Under i c

theorem Under.le {c : Nat} (h : Under i c) : i ≤ c := by
  induction h with
  | root => exact le_rfl
  | child pos _ ih => exact ih.trans (parent_lt pos).le

theorem Under.trans {c : Nat} (h : Under i j) (h' : Under j c) : Under i c := by
  induction h' with
  | root => exact h
  | child pos _ ih => exact .child pos ih

theorem Under.parent (h : 0 < i) : Under (parent i) i := .child h .root

/-- Below the root of a subtree, a position is under one of the root's children. -/
theorem Under.through {c : Nat} (h : Under i c) (ne : c ≠ i) :
    ∃ d, 0 < d ∧ Heap.parent d = i ∧ Under d c := by
  induction h with
  | root => exact absurd rfl ne
  | @child c pos up ih =>
    by_cases top : Heap.parent c = i
    · exact ⟨c, pos, top, .root⟩
    · obtain ⟨d, hd, here, under⟩ := ih top
      exact ⟨d, hd, here, .child pos under⟩

theorem under_iff {c : Nat} : Under i c ↔ ∃ d ≤ c, Heap.parent^[d] c = i := by
  constructor
  · intro h
    induction h with
    | root => exact ⟨0, Nat.zero_le _, rfl⟩
    | @child c pos _ ih =>
      obtain ⟨d, le, reaches⟩ := ih
      have below := parent_lt pos
      exact ⟨d + 1, by omega, reaches⟩
  · rintro ⟨d, -, reaches⟩
    induction d generalizing c with
    | zero => exact reaches ▸ .root
    | succ d ih =>
      have up := ih (c := Heap.parent c) reaches
      rcases Nat.eq_zero_or_pos c with rfl | pos
      · exact up
      · exact .child pos up

instance (i c : Nat) : Decidable (Under i c) := decidable_of_iff _ under_iff.symm

/-- The entries at those of the positions from `k` on that satisfy `P`. -/
def entriesAt (P : Nat → Prop) [DecidablePred P] : (k : Nat) → List α → List α
  | _, [] => []
  | k, x :: xs => if P k then x :: entriesAt P (k + 1) xs else entriesAt P (k + 1) xs

theorem entriesAt_split (P : Nat → Prop) [DecidablePred P] (k : Nat) (xs : List α) :
    (entriesAt P k xs ++ entriesAt (fun j => ¬P j) k xs).Perm xs := by
  induction xs generalizing k with
  | nil => rfl
  | cons x xs ih =>
    by_cases hk : P k
    · rw [entriesAt, entriesAt, if_pos hk, if_neg (not_not_intro hk), List.cons_append]
      exact (ih (k + 1)).cons x
    · rw [entriesAt, entriesAt, if_neg hk, if_pos hk]
      exact List.perm_middle.trans ((ih (k + 1)).cons x)

theorem entriesAt_congr [DecidablePred P] (k : Nat) (len : ys.length = xs.length)
    (same : ∀ j, P (k + j) → ys[j]? = xs[j]?) : entriesAt P k ys = entriesAt P k xs := by
  induction xs generalizing k ys with
  | nil => rw [List.length_eq_zero_iff.mp len]
  | cons x xs ih =>
    cases ys with
    | nil => simp at len
    | cons y ys =>
      have rest := ih (k + 1) (Nat.succ.inj len) fun j hj => by
        simpa using same (j + 1) (by rwa [Nat.add_comm j, ← Nat.add_assoc])
      by_cases hk : P k
      · have head : y = x := by simpa using same 0 hk
        rw [entriesAt, entriesAt, if_pos hk, if_pos hk, rest, head]
      · rw [entriesAt, entriesAt, if_neg hk, if_neg hk, rest]

/-- Rearranged with the other positions untouched, the positions that satisfy `P` hold
the same entries as before. -/
theorem entriesAt_perm [DecidablePred P] (perm : ys.Perm xs)
    (same : ∀ k, ¬P k → ys[k]? = xs[k]?) : (entriesAt P 0 ys).Perm (entriesAt P 0 xs) := by
  have rest : entriesAt (fun k => ¬P k) 0 ys = entriesAt (fun k => ¬P k) 0 xs :=
    entriesAt_congr 0 perm.length_eq fun j hj => same j (by rwa [Nat.zero_add] at hj)
  have whole := (entriesAt_split P 0 ys).trans (perm.trans (entriesAt_split P 0 xs).symm)
  rw [rest] at whole
  exact (List.perm_append_right_iff _).mp whole

end Heap
