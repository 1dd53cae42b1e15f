import Mathlib.Data.List.Perm.Subperm
import Mathlib.Data.Finset.Card
import Mathlib.Logic.Function.Basic
import Mathlib.Tactic.Ring

/-! Robin Hood tables on a cyclic array, for any entries and any home slot.
A cell stores its probe sequence length, one for the home slot; zero stands for
an empty slot. The invariant is local: no length exceeds that of the slot before
it by more than one. Each lemma is about one elementary move (store, displace,
pass, shift back), so that a loop that makes such moves keeps the invariant. -/

namespace RobinHood

structure Cell (α : Type) where
  item : α
  psl : Nat

abbrev Table (α : Type) := Nat → Option (Cell α)

variable {α β : Type}

/-- The probe sequence length at a slot; an empty slot has length zero. -/
def pslAt (t : Table α) (i : Nat) : Nat := (t i).elim 0 Cell.psl

/-- The slot after `i` on the cycle of length `n`. -/
def next (n i : Nat) : Nat := (i + 1) % n

/-- Replace the content of one slot. -/
def put (t : Table α) (i : Nat) (c : Option (Cell α)) : Table α := Function.update t i c

/-- The stored items in slot order. -/
def items (n : Nat) (t : Table α) : List α :=
  (List.range n).filterMap fun i => (t i).map Cell.item

structure Valid (n : Nat) (home : α → Nat) (t : Table α) : Prop where
  pos : ∀ i < n, ∀ c, t i = some c → 0 < c.psl
  position : ∀ i < n, ∀ c, t i = some c → (home c.item + (c.psl - 1)) % n = i
  chain : ∀ i < n, pslAt t (next n i) ≤ pslAt t i + 1

/-- An item on its way through the table: at `slot` its length is `p`, and every
slot it has passed was at least as far from home. -/
structure Carried (n : Nat) (home : α → Nat) (t : Table α) (slot : Nat) (x : α) (p : Nat) :
    Prop where
  slot_lt : slot < n
  pos : 0 < p
  position : (home x + (p - 1)) % n = slot
  pred : ∀ j < n, next n j = slot → p ≤ pslAt t j + 1

@[simp] theorem pslAt_put_self (t : Table α) (i : Nat) (c : Option (Cell α)) :
    pslAt (put t i c) i = c.elim 0 Cell.psl := by simp [pslAt, put]

theorem pslAt_put_ne (t : Table α) {i j : Nat} (c : Option (Cell α)) (h : j ≠ i) :
    pslAt (put t i c) j = pslAt t j := by simp [pslAt, put, h]

@[simp] theorem put_self (t : Table α) (i : Nat) (c : Option (Cell α)) : put t i c i = c := by
  simp [put]

theorem put_ne (t : Table α) {i j : Nat} (c : Option (Cell α)) (h : j ≠ i) :
    put t i c j = t j := by simp [put, h]

theorem pslAt_some {t : Table α} {i : Nat} {c : Cell α} (h : t i = some c) :
    pslAt t i = c.psl := by simp [pslAt, h]

theorem pslAt_none {t : Table α} {i : Nat} (h : t i = none) : pslAt t i = 0 := by
  simp [pslAt, h]

theorem next_lt {n i : Nat} (h : 0 < n) : next n i < n := Nat.mod_lt _ h

theorem next_inj {n i j : Nat} (hi : i < n) (hj : j < n) (h : next n i = next n j) : i = j := by
  unfold next at h
  rcases Nat.lt_or_ge (i + 1) n with a | a <;> rcases Nat.lt_or_ge (j + 1) n with b | b
  · rw [Nat.mod_eq_of_lt a, Nat.mod_eq_of_lt b] at h
    omega
  · rw [Nat.mod_eq_of_lt a, show j + 1 = n by omega, Nat.mod_self] at h
    omega
  · rw [Nat.mod_eq_of_lt b, show i + 1 = n by omega, Nat.mod_self] at h
    omega
  · omega

theorem next_add_mod (n i k : Nat) : next n ((i + k) % n) = (i + (k + 1)) % n := by
  simp [next, Nat.add_assoc]

/-! ### Moves of an insertion -/

section Insertion
variable {n : Nat} {home : α → Nat} {t : Table α} {slot p : Nat} {x : α}

theorem carried_home (h : home x < n) : Carried n home t (home x) x 1 where
  slot_lt := h
  pos := Nat.one_pos
  position := by simpa using Nat.mod_eq_of_lt h
  pred _ _ _ := by omega

/-- Storing the carried item where the table is empty or closer to home. -/
theorem Valid.store (v : Valid n home t) (c : Carried n home t slot x p)
    (less : pslAt t slot < p) : Valid n home (put t slot (some ⟨x, p⟩)) where
  pos i hi d hd := by
    by_cases h : i = slot
    · subst h
      simp only [put_self, Option.some.injEq] at hd
      exact hd ▸ c.pos
    · exact v.pos i hi d (by rwa [put_ne _ _ h] at hd)
  position i hi d hd := by
    by_cases h : i = slot
    · subst h
      simp only [put_self, Option.some.injEq] at hd
      exact hd ▸ c.position
    · exact v.position i hi d (by rwa [put_ne _ _ h] at hd)
  chain i hi := by
    have old := v.chain i hi
    by_cases hs : next n i = slot
    · have bound := c.pred i hi hs
      rw [hs, pslAt_put_self]
      by_cases h : i = slot
      · simp [h]
      · simpa [pslAt_put_ne _ _ h] using bound
    · rw [pslAt_put_ne _ _ hs]
      by_cases h : i = slot
      · subst h
        simp only [pslAt_put_self, Option.elim_some]
        omega
      · rwa [pslAt_put_ne _ _ h]

/-- Passing a slot that is at least as far from home. -/
theorem Carried.pass (c : Carried n home t slot x p) (more : p ≤ pslAt t slot) :
    Carried n home t (next n slot) x (p + 1) where
  slot_lt := next_lt (Nat.zero_lt_of_lt c.slot_lt)
  pos := Nat.succ_pos p
  position := by
    have pos := c.pos
    have shift := next_add_mod n (home x) (p - 1)
    rw [c.position, show p - 1 + 1 = p + 1 - 1 by omega] at shift
    exact shift.symm
  pred j hj h := by
    have := next_inj hj c.slot_lt h
    subst this
    omega

/-- Taking the slot of a cell that is closer to home, which is carried on. -/
theorem Carried.displace (v : Valid n home t) (c : Carried n home t slot x p) {d : Cell α}
    (hd : t slot = some d) (less : d.psl < p) :
    Carried n home (put t slot (some ⟨x, p⟩)) (next n slot) d.item (d.psl + 1) where
  slot_lt := next_lt (Nat.zero_lt_of_lt c.slot_lt)
  pos := Nat.succ_pos _
  position := by
    have pos := v.pos slot c.slot_lt d hd
    have shift := next_add_mod n (home d.item) (d.psl - 1)
    rw [v.position slot c.slot_lt d hd, show d.psl - 1 + 1 = d.psl + 1 - 1 by omega] at shift
    exact shift.symm
  pred j hj h := by
    have := next_inj hj c.slot_lt h
    subst this
    simp only [pslAt_put_self, Option.elim_some]
    omega

/-- Replacing an item by one with the same home. -/
theorem Valid.replace (v : Valid n home t) (d : Cell α)
    (hd : t slot = some d) (same : home x = home d.item) :
    Valid n home (put t slot (some ⟨x, d.psl⟩)) := by
  have psl (i : Nat) : pslAt (put t slot (some ⟨x, d.psl⟩)) i = pslAt t i := by
    by_cases h : i = slot
    · subst h
      simp [pslAt_some hd]
    · exact pslAt_put_ne _ _ h
  refine ⟨fun i hi c hc => ?_, fun i hi c hc => ?_, fun i hi => ?_⟩
  · by_cases h : i = slot
    · subst h
      simp only [put_self, Option.some.injEq] at hc
      exact hc ▸ v.pos i hi d hd
    · exact v.pos i hi c (by rwa [put_ne _ _ h] at hc)
  · by_cases h : i = slot
    · subst h
      simp only [put_self, Option.some.injEq] at hc
      subst hc
      simpa [same] using v.position i hi d hd
    · exact v.position i hi c (by rwa [put_ne _ _ h] at hc)
  · rw [psl, psl]
    exact v.chain i hi

end Insertion

/-- The probe of a stored item meets no slot that would stop it early. -/
theorem Valid.probe {n : Nat} {home : α → Nat} {t : Table α} (v : Valid n home t) {i : Nat}
    (hi : i < n) {c : Cell α} (hc : t i = some c) (q : Nat) (hq : 0 < q) (hle : q ≤ c.psl) :
    q ≤ pslAt t ((home c.item + (q - 1)) % n) := by
  have hn : 0 < n := Nat.zero_lt_of_lt hi
  -- Downward from the slot of the item, one predecessor at a time.
  obtain ⟨k, hk⟩ : ∃ k, c.psl = q + k := ⟨c.psl - q, by omega⟩
  induction k generalizing q with
  | zero =>
    have hp := v.position i hi c hc
    rw [show q - 1 = c.psl - 1 by omega, hp, pslAt_some hc]
    omega
  | succ k ih =>
    have after := ih (q + 1) (by omega) (by omega)
    have step := v.chain ((home c.item + (q - 1)) % n) (Nat.mod_lt _ hn)
    rw [next_add_mod, show q - 1 + 1 = q + 1 - 1 by omega] at step
    omega

/-! ### Moves of a backward shift -/

/-- A valid table but for the slot after a hole, which may still sit too far
from home by the width of the hole. -/
structure Hole (n : Nat) (home : α → Nat) (t : Table α) (hole : Nat) : Prop where
  hole_lt : hole < n
  empty : t hole = none
  pos : ∀ i < n, ∀ c, t i = some c → 0 < c.psl
  position : ∀ i < n, ∀ c, t i = some c → (home c.item + (c.psl - 1)) % n = i
  chain : ∀ i < n, i ≠ hole → pslAt t (next n i) ≤ pslAt t i + 1
  bridge : ∀ j < n, next n j = hole → pslAt t (next n hole) ≤ pslAt t j + 2

section Shift
variable {n : Nat} {home : α → Nat} {t : Table α}

theorem Valid.dig (v : Valid n home t) {s : Nat} (hs : s < n) : Hole n home (put t s none) s where
  hole_lt := hs
  empty := put_self _ _ _
  pos i hi c hc := by
    by_cases h : i = s
    · simp [h] at hc
    · exact v.pos i hi c (by rwa [put_ne _ _ h] at hc)
  position i hi c hc := by
    by_cases h : i = s
    · simp [h] at hc
    · exact v.position i hi c (by rwa [put_ne _ _ h] at hc)
  chain i hi h := by
    rw [pslAt_put_ne _ _ h]
    by_cases hn : next n i = s
    · simp [hn]
    · simpa [pslAt_put_ne _ _ hn] using v.chain i hi
  bridge j hj h := by
    by_cases hn : next n s = s
    · simp [hn]
    · have hjs : j ≠ s := by
        rintro rfl
        exact hn h
      rw [pslAt_put_ne _ _ hn, pslAt_put_ne _ _ hjs]
      have first := v.chain s hs
      have second := v.chain j hj
      rw [h] at second
      omega

theorem Hole.fill (g : Hole n home t hole) (stop : pslAt t (next n hole) ≤ 1) :
    Valid n home t where
  pos := g.pos
  position := g.position
  chain i hi := by
    by_cases h : i = hole
    · subst h
      omega
    · exact g.chain i hi h

theorem Hole.shift {hole : Nat} (g : Hole n home t hole) {c : Cell α}
    (hc : t (next n hole) = some c) (more : 1 < c.psl) :
    Hole n home (put (put t hole (some ⟨c.item, c.psl - 1⟩)) (next n hole) none)
      (next n hole) := by
  have hn : 0 < n := Nat.zero_lt_of_lt g.hole_lt
  have ne : hole ≠ next n hole := by
    intro h
    rw [← h, g.empty] at hc
    simp at hc
  have hlt : next n hole < n := next_lt hn
  have moved : pslAt (put (put t hole (some ⟨c.item, c.psl - 1⟩)) (next n hole) none) hole =
      c.psl - 1 := by
    rw [pslAt_put_ne _ _ ne]
    simp
  have other {i : Nat} (h : i ≠ hole) (h' : i ≠ next n hole) :
      pslAt (put (put t hole (some ⟨c.item, c.psl - 1⟩)) (next n hole) none) i = pslAt t i := by
    rw [pslAt_put_ne _ _ h', pslAt_put_ne _ _ h]
  have cell {i : Nat} {d : Cell α}
      (hd : put (put t hole (some ⟨c.item, c.psl - 1⟩)) (next n hole) none i = some d) :
      (i = hole ∧ d = ⟨c.item, c.psl - 1⟩) ∨ t i = some d := by
    by_cases h' : i = next n hole
    · simp [h'] at hd
    · rw [put_ne _ _ h'] at hd
      by_cases h : i = hole
      · subst h
        simp only [put_self, Option.some.injEq] at hd
        exact .inl ⟨rfl, hd.symm⟩
      · exact .inr (by rwa [put_ne _ _ h] at hd)
  refine ⟨hlt, by simp, fun i hi d hd => ?_, fun i hi d hd => ?_, fun i hi h => ?_, ?_⟩
  · rcases cell hd with ⟨-, rfl⟩ | hd
    · show 0 < c.psl - 1
      omega
    · exact g.pos i hi d hd
  · rcases cell hd with ⟨rfl, rfl⟩ | hd
    · have hp := g.position _ hlt c hc
      apply next_inj (Nat.mod_lt _ hn) hi
      rw [next_add_mod, ← hp]
      congr 2
      show c.psl - 1 - 1 + 1 = c.psl - 1
      omega
    · exact g.position i hi d hd
  · by_cases hh : i = hole
    · simp [hh]
    · rw [other hh h]
      by_cases h1 : next n i = hole
      · have bridge := g.bridge i hi h1
        rw [pslAt_some hc] at bridge
        rw [h1, moved]
        omega
      · by_cases h2 : next n i = next n hole
        · exact absurd (next_inj hi g.hole_lt h2) hh
        · rw [other h1 h2]
          exact g.chain i hi hh
  · intro j hj h
    have := next_inj hj g.hole_lt h
    subst this
    rw [moved]
    have after := g.chain _ hlt ne.symm
    rw [pslAt_some hc] at after
    by_cases h1 : next n (next n j) = j
    · rw [h1, moved]
      omega
    · by_cases h2 : next n (next n j) = next n j
      · simp [h2]
      · rw [other h1 h2]
        omega

end Shift

/-! ### The stored items -/

theorem items_congr {n : Nat} {t t' : Table α} (h : ∀ i < n, t i = t' i) :
    items n t = items n t' := by
  refine List.filterMap_congr fun i hi => ?_
  rw [h i (List.mem_range.mp hi)]

theorem items_succ (n : Nat) (t : Table α) :
    items (n + 1) t = items n t ++ ((t n).map Cell.item).toList := by
  simp only [items, List.range_succ, List.filterMap_append]
  cases h : t n <;> simp [h]

/-- Replacing one slot trades its old item for its new one. -/
theorem items_put {n : Nat} (t : Table α) {i : Nat} (hi : i < n) (b : Option (Cell α)) :
    (((t i).map Cell.item).toList ++ items n (put t i b)).Perm
      ((b.map Cell.item).toList ++ items n t) := by
  induction n with
  | zero => omega
  | succ n ih =>
    rw [items_succ, items_succ]
    rcases Nat.lt_succ_iff_lt_or_eq.mp hi with h | rfl
    · rw [put_ne _ _ (by omega : n ≠ i), ← List.append_assoc, ← List.append_assoc]
      exact (ih h).append_right _
    · have same : items i (put t i b) = items i t :=
        items_congr fun j hj => put_ne _ _ (by omega)
      rw [same, put_self]
      rw [← List.append_assoc]
      exact List.perm_append_comm.trans (List.perm_append_comm.append_left _)

/-! ### Another view of the items -/

/-- The table of what `g` keeps of the items. -/
def relabel (g : α → β) (t : Table α) : Table β := fun i => (t i).map fun c => ⟨g c.item, c.psl⟩

section Relabel
variable {g : α → β} {t : Table α}

@[simp] theorem pslAt_relabel (i : Nat) : pslAt (relabel g t) i = pslAt t i := by
  cases h : t i <;> simp [pslAt, relabel, h]

@[simp] theorem relabel_empty : relabel g (fun _ => none) = fun _ => none := rfl

theorem relabel_put (i : Nat) (c : Option (Cell α)) :
    relabel g (put t i c) = put (relabel g t) i (c.map fun c => ⟨g c.item, c.psl⟩) := by
  funext j
  by_cases h : j = i
  · subst h
    simp [relabel]
  · rw [put_ne _ _ h, relabel, relabel, put_ne _ _ h]

theorem items_relabel (n : Nat) : items n (relabel g t) = (items n t).map g := by
  rw [items, items, List.map_filterMap]
  refine List.filterMap_congr fun i _ => ?_
  cases h : t i <;> simp [relabel, h]

theorem relabel_eq_some {i : Nat} {d : Cell β} (h : relabel g t i = some d) :
    ∃ c, t i = some c ∧ g c.item = d.item ∧ c.psl = d.psl := by
  obtain ⟨c, hc, rfl⟩ := Option.map_eq_some_iff.mp h
  exact ⟨c, hc, rfl, rfl⟩

theorem Valid.relabel (g : α → β) {n : Nat} {home : β → Nat} (v : Valid n (fun x => home (g x)) t) :
    Valid n home (RobinHood.relabel g t) where
  pos i hi d hd := by
    obtain ⟨c, hc, -, psl⟩ := relabel_eq_some hd
    exact psl ▸ v.pos i hi c hc
  position i hi d hd := by
    obtain ⟨c, hc, item, psl⟩ := relabel_eq_some hd
    exact psl ▸ item ▸ v.position i hi c hc
  chain i hi := by simpa using v.chain i hi

end Relabel

end RobinHood
