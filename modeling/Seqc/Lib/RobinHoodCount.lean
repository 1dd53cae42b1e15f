import Seqc.Lib.RobinHood
import Mathlib.Data.Nat.Find
import Mathlib.Order.Interval.Finset.Nat
import Mathlib.Data.Nat.ModEq

/-! Probe lengths as counts. A cell with length `p` in a valid table that has an
empty slot closes a window of home slots that holds `p` items more than it has
slots (less one), and a table whose lengths are at most `M` has no such window
for `p > M`. So the longest probe depends on the stored items alone, adding
items never shortens it, and splitting the home slots never lengthens it. -/

namespace RobinHood

variable {α β : Type}

theorem mem_items {n : Nat} {t : Table α} {x : α} :
    x ∈ items n t ↔ ∃ i < n, ∃ c, t i = some c ∧ c.item = x := by
  simp [items, List.mem_filterMap]

/-- Home slot `h` is one of the `width` slots from `a` on. -/
def InWindow (n a width h : Nat) : Prop := ∃ k < width, h = (a + k) % n

instance (n a width h : Nat) : Decidable (InWindow n a width h) :=
  inferInstanceAs (Decidable (∃ k < width, h = (a + k) % n))

/-- The number of stored items whose home lies in the window. -/
def windowCount (n : Nat) (home : α → Nat) (xs : List α) (a width : Nat) : Nat :=
  xs.countP fun x => decide (InWindow n a width (home x))

/-- The occupied slots whose item satisfies `q`. -/
def slotsOf (n : Nat) (t : Table α) (q : α → Bool) : Finset Nat :=
  (Finset.range n).filter fun i => (t i).any (fun c => q c.item)

theorem countP_items (n : Nat) (t : Table α) (q : α → Bool) :
    (items n t).countP q = (slotsOf n t q).card := by
  induction n with
  | zero => simp [items, slotsOf]
  | succ n ih =>
    rw [items_succ, List.countP_append, ih, slotsOf, slotsOf, Finset.range_add_one,
      Finset.filter_insert]
    cases h : t n with
    | none => simp
    | some c =>
      by_cases hq : q c.item <;> simp [hq]

/-- Slots at distance less than `width + M - 1` after the window hold every item
whose home lies in it. -/
theorem windowCount_le {n : Nat} {home : α → Nat} {t : Table α} (v : Valid n home t) {M : Nat}
    (bound : ∀ i < n, pslAt t i ≤ M) (a : Nat) {width : Nat} (hw : 0 < width) :
    windowCount n home (items n t) a width ≤ width + M - 1 := by
  rw [windowCount, countP_items]
  have sub : slotsOf n t (fun x => decide (InWindow n a width (home x))) ⊆
      (Finset.range (width + M - 1)).image fun u => (a + u) % n := by
    intro i hi
    simp only [slotsOf, Finset.mem_filter, Finset.mem_range, Option.any_eq_true,
      decide_eq_true_eq] at hi
    obtain ⟨hlt, c, hc, k, hk, hhome⟩ := hi
    have pos := v.pos i hlt c hc
    have short := bound i hlt
    rw [pslAt_some hc] at short
    refine Finset.mem_image.mpr ⟨k + (c.psl - 1), Finset.mem_range.mpr (by omega), ?_⟩
    rw [← v.position i hlt c hc, hhome, Nat.mod_add_mod, Nat.add_assoc]
  calc
    _ ≤ ((Finset.range (width + M - 1)).image fun u => (a + u) % n).card :=
      Finset.card_le_card sub
    _ ≤ (Finset.range (width + M - 1)).card := Finset.card_image_le
    _ = _ := Finset.card_range _

/-- Before every occupied slot there is a last empty one. -/
theorem exists_run {n : Nat} {t : Table α} {e i : Nat} (he : e < n) (hi : i < n)
    (free : t e = none) (full : t i ≠ none) :
    ∃ a < n, ∃ d, 0 < d ∧ d < n ∧ (a + d) % n = i ∧ t a = none ∧
      ∀ j, 0 < j → j ≤ d → t ((a + j) % n) ≠ none := by
  classical
  have hn : 0 < n := Nat.zero_lt_of_lt hi
  let P : Nat → Prop := fun d => ∃ a < n, (a + d) % n = i ∧ t a = none
  have start : P ((i + n - e) % n) := by
    refine ⟨e, he, ?_, free⟩
    rw [Nat.add_mod_mod, show e + (i + n - e) = i + n by omega, Nat.add_mod_right,
      Nat.mod_eq_of_lt hi]
  obtain ⟨d, ⟨a, ha, hai, hae⟩, least⟩ : ∃ d, P d ∧ ∀ m, P m → d ≤ m :=
    ⟨Nat.find ⟨_, start⟩, Nat.find_spec ⟨_, start⟩, fun m hm => Nat.find_min' _ hm⟩
  refine ⟨a, ha, d, ?_, (least _ start).trans_lt (Nat.mod_lt _ hn), hai, hae,
    fun j hj hjd hfree => ?_⟩
  · rcases Nat.eq_zero_or_pos d with rfl | pos
    · rw [Nat.add_zero, Nat.mod_eq_of_lt ha] at hai
      exact absurd hae (hai ▸ full)
    · exact pos
  · have closer : P (d - j) := by
      refine ⟨(a + j) % n, Nat.mod_lt _ hn, ?_, hfree⟩
      rw [Nat.mod_add_mod, ← hai]
      congr 1
      omega
    have := least _ closer
    omega

theorem Valid.chain_add {n : Nat} {home : α → Nat} {t : Table α} (v : Valid n home t)
    (hn : 0 < n) (a j : Nat) : pslAt t ((a + (j + 1)) % n) ≤ pslAt t ((a + j) % n) + 1 := by
  have := v.chain ((a + j) % n) (Nat.mod_lt _ hn)
  rwa [next_add_mod] at this

theorem Valid.psl_le_of_run {n : Nat} {home : α → Nat} {t : Table α} (v : Valid n home t)
    {a : Nat} (ha : a < n) (free : t a = none) (j : Nat) : pslAt t ((a + j) % n) ≤ j := by
  induction j with
  | zero => simp [Nat.mod_eq_of_lt ha, pslAt_none free]
  | succ j ih => exact (v.chain_add (Nat.zero_lt_of_lt ha) a j).trans (by omega)

/-- No probe goes once around a table that has an empty slot. -/
theorem Valid.psl_lt {n : Nat} {home : α → Nat} {t : Table α} (v : Valid n home t) {e i : Nat}
    (he : e < n) (hi : i < n) (free : t e = none) : pslAt t i < n := by
  by_cases full : t i = none
  · rw [pslAt_none full]
    omega
  · obtain ⟨a, ha, d, -, hdn, rfl, hae, -⟩ := exists_run he hi free full
    exact (v.psl_le_of_run ha hae d).trans_lt hdn

/-- A cell of length `p` is the last of a window with `p - 1` items too many. -/
theorem Valid.exists_window {n : Nat} {home : α → Nat} {t : Table α} (v : Valid n home t)
    (home_lt : ∀ x, home x < n) {e i : Nat} (he : e < n) (hi : i < n) (free : t e = none)
    {c : Cell α} (hc : t i = some c) :
    ∃ a width, 0 < width ∧ (a + (width + c.psl - 2)) % n = i ∧
      width + c.psl - 1 ≤ windowCount n home (items n t) a width := by
  have hn : 0 < n := Nat.zero_lt_of_lt hi
  obtain ⟨a, ha, d, hd, hdn, hai, hae, run⟩ := exists_run he hi free (by simp [hc])
  have short := v.psl_le_of_run ha hae
  -- Along the run the offset of the home, `j - psl`, never decreases.
  have mono (j k : Nat) : j - pslAt t ((a + j) % n) ≤ j + k - pslAt t ((a + (j + k)) % n) := by
    induction k with
    | zero => exact Nat.le_refl _
    | succ k ih =>
      have := v.chain_add hn a (j + k)
      rw [← Nat.add_assoc]
      omega
  have hp : pslAt t ((a + d) % n) = c.psl := by rw [hai, pslAt_some hc]
  have hpd := short d
  have hpos := v.pos i hi c hc
  refine ⟨a + 1, d - c.psl + 1, Nat.succ_pos _, ?_, ?_⟩
  · rw [← hai]
    congr 1
    omega
  rw [windowCount, countP_items]
  have sub : (Finset.Icc 1 d).image (fun j => (a + j) % n) ⊆
      slotsOf n t (fun x => decide (InWindow n (a + 1) (d - c.psl + 1) (home x))) := by
    intro s hs
    obtain ⟨j, hj, rfl⟩ := Finset.mem_image.mp hs
    obtain ⟨hj1, hjd⟩ := Finset.mem_Icc.mp hj
    obtain ⟨b, hb⟩ := Option.ne_none_iff_exists'.mp (run j hj1 hjd)
    have slot_lt : (a + j) % n < n := Nat.mod_lt _ hn
    simp only [slotsOf, Finset.mem_filter, Finset.mem_range, slot_lt, true_and,
      Option.any_eq_true, decide_eq_true_eq]
    refine ⟨b, hb, j - b.psl, ?_, ?_⟩
    · have := mono j (d - j)
      rw [show j + (d - j) = d by omega, hp, pslAt_some hb] at this
      omega
    · have hbj := short j
      have hbpos := v.pos _ slot_lt b hb
      rw [pslAt_some hb] at hbj
      have position := v.position _ slot_lt b hb
      have key : (home b.item + (b.psl - 1)) % n = ((a + 1 + (j - b.psl)) + (b.psl - 1)) % n := by
        rw [position]
        congr 1
        omega
      have cancel := Nat.ModEq.add_right_cancel' (b.psl - 1) key
      rwa [Nat.ModEq, Nat.mod_eq_of_lt (home_lt _)] at cancel
  have inj : Set.InjOn (fun j => (a + j) % n) (Finset.Icc 1 d) := by
    intro x hx y hy hxy
    simp only [Finset.coe_Icc, Set.mem_Icc] at hx hy
    have : x ≡ y [MOD n] := Nat.ModEq.add_left_cancel' a hxy
    rwa [Nat.ModEq, Nat.mod_eq_of_lt (by omega), Nat.mod_eq_of_lt (by omega)] at this
  have card := Finset.card_le_card sub
  rw [Finset.card_image_of_injOn inj, Nat.card_Icc] at card
  omega

/-- No probe is longer than there are items. -/
theorem Valid.psl_le_length {n : Nat} {home : α → Nat} {t : Table α} (v : Valid n home t)
    (home_lt : ∀ x, home x < n) {e i : Nat} (he : e < n) (hi : i < n) (free : t e = none) :
    pslAt t i ≤ (items n t).length := by
  cases hc : t i with
  | none =>
    rw [pslAt_none hc]
    exact Nat.zero_le _
  | some c =>
    obtain ⟨a, width, hw, -, many⟩ := v.exists_window home_lt he hi free hc
    have few : windowCount n home (items n t) a width ≤ (items n t).length := List.countP_le_length
    rw [pslAt_some hc]
    omega

theorem Valid.chain_many {n : Nat} {home : α → Nat} {t : Table α} (v : Valid n home t)
    (hn : 0 < n) (a j k : Nat) : pslAt t ((a + (j + k)) % n) ≤ pslAt t ((a + j) % n) + k := by
  induction k with
  | zero => exact le_rfl
  | succ k ih =>
    have step := v.chain_add hn a (j + k)
    rw [Nat.add_assoc] at step
    omega

/-- A window that holds `p - 1` items too many pushes the length of the slot where it closes
up to `p`. -/
theorem Valid.le_psl_of_window {n : Nat} {home : α → Nat} {t : Table α} (v : Valid n home t)
    (hn : 0 < n) {a width p : Nat} (hw : 0 < width) (hp : 0 < p)
    (many : width + p - 1 ≤ windowCount n home (items n t) a width) :
    p ≤ pslAt t ((a + (width + p - 2)) % n) := by
  by_contra short
  rw [windowCount, countP_items] at many
  -- An item of the window beyond that slot would not be shorter than the chain allows.
  have sub : slotsOf n t (fun x => decide (InWindow n a width (home x))) ⊆
      (Finset.range (width + p - 2)).image fun u => (a + u) % n := by
    intro i hi
    simp only [slotsOf, Finset.mem_filter, Finset.mem_range, Option.any_eq_true,
      decide_eq_true_eq] at hi
    obtain ⟨hlt, c, hc, k, hk, hhome⟩ := hi
    have pos := v.pos i hlt c hc
    have place : (a + (k + (c.psl - 1))) % n = i := by
      rw [← v.position i hlt c hc, hhome, Nat.mod_add_mod, Nat.add_assoc]
    refine Finset.mem_image.mpr ⟨k + (c.psl - 1), Finset.mem_range.mpr ?_, place⟩
    by_contra beyond
    have chain := v.chain_many hn a (width + p - 2) (k + (c.psl - 1) - (width + p - 2))
    rw [Nat.add_sub_of_le (by omega), place, pslAt_some hc] at chain
    omega
  have card := (Finset.card_le_card sub).trans Finset.card_image_le
  rw [Finset.card_range] at card
  omega

/-- Some length is `p` or more when some window holds `p - 1` items too many. -/
theorem Valid.exists_long_iff {n : Nat} {home : α → Nat} {t : Table α} (v : Valid n home t)
    (home_lt : ∀ x, home x < n) {e : Nat} (he : e < n) (free : t e = none) {p : Nat}
    (hp : 0 < p) :
    (∃ i < n, p ≤ pslAt t i) ↔
      ∃ a width, 0 < width ∧ width + p - 1 ≤ windowCount n home (items n t) a width := by
  have hn : 0 < n := Nat.zero_lt_of_lt he
  constructor
  · rintro ⟨i, hi, long⟩
    cases hc : t i with
    | none =>
      rw [pslAt_none hc] at long
      omega
    | some c =>
      rw [pslAt_some hc] at long
      obtain ⟨a, width, hw, -, many⟩ := v.exists_window home_lt he hi free hc
      exact ⟨a, width, hw, by omega⟩
  · rintro ⟨a, width, hw, many⟩
    exact ⟨_, Nat.mod_lt _ hn, v.le_psl_of_window hn hw hp many⟩

/-- The lengths of a table are determined by the home slots of its items. -/
theorem Valid.psl_eq_of_homes {n : Nat} {home : α → Nat} {home' : β → Nat} {t : Table α}
    {t' : Table β} (v : Valid n home t) (v' : Valid n home' t') (home_lt : ∀ x, home x < n)
    (home_lt' : ∀ x, home' x < n) {e e' : Nat} (he : e < n) (free : t e = none) (he' : e' < n)
    (free' : t' e' = none) (same : ((items n t).map home).Perm ((items n t').map home')) {i : Nat}
    (hi : i < n) : pslAt t i = pslAt t' i := by
  have hn : 0 < n := Nat.zero_lt_of_lt hi
  have counts (a width : Nat) :
      windowCount n home (items n t) a width = windowCount n home' (items n t') a width := by
    have := same.countP_eq fun h => decide (InWindow n a width h)
    rwa [List.countP_map, List.countP_map] at this
  apply Nat.le_antisymm
  · cases hc : t i with
    | none =>
      rw [pslAt_none hc]
      exact Nat.zero_le _
    | some c =>
      obtain ⟨a, width, hw, closes, many⟩ := v.exists_window home_lt he hi free hc
      rw [counts] at many
      have long := v'.le_psl_of_window hn hw (v.pos i hi c hc) many
      rwa [closes, ← pslAt_some hc] at long
  · cases hc : t' i with
    | none =>
      rw [pslAt_none hc]
      exact Nat.zero_le _
    | some c =>
      obtain ⟨a, width, hw, closes, many⟩ := v'.exists_window home_lt' he' hi free' hc
      rw [← counts] at many
      have long := v.le_psl_of_window hn hw (v'.pos i hi c hc) many
      rwa [closes, ← pslAt_some hc] at long

theorem windowCount_map {n : Nat} (hash : α → Nat) (xs : List α) (a width : Nat) :
    windowCount n (fun x => hash x % n) xs a width =
      (xs.map hash).countP fun h => decide (InWindow n a width (h % n)) := by
  rw [windowCount, List.countP_map]
  rfl

theorem items_sublist {n m : Nat} (h : n ≤ m) (t : Table α) : (items n t).Sublist (items m t) :=
  (List.range_sublist.mpr h).filterMap _

/-- Doubling, or any other splitting of the home slots, lengthens no probe, and
neither does leaving items out. -/
theorem Valid.psl_le_of_split {n m M : Nat} {hash : α → Nat} {t t' : Table α}
    (v : Valid n (fun x => hash x % n) t) (v' : Valid m (fun x => hash x % m) t')
    (divides : n ∣ m) (fewer : ((items m t').map hash).Subperm ((items n t).map hash))
    (bound : ∀ i < n, pslAt t i ≤ M) {e : Nat} (he : e < m) (free : t' e = none) (i : Nat)
    (hi : i < m) : pslAt t' i ≤ M := by
  cases hc : t' i with
  | none => simp [pslAt_none hc]
  | some c =>
    have home_lt (x : α) : hash x % m < m := Nat.mod_lt _ (Nat.zero_lt_of_lt hi)
    obtain ⟨a, width, hw, -, many⟩ := v'.exists_window home_lt he hi free hc
    have few := windowCount_le v bound a hw
    rw [windowCount_map] at many few
    have wider : ((items m t').map hash).countP (fun h => decide (InWindow m a width (h % m))) ≤
        ((items n t).map hash).countP (fun h => decide (InWindow n a width (h % n))) := by
      calc
        _ ≤ ((items n t).map hash).countP (fun h => decide (InWindow m a width (h % m))) :=
          fewer.countP_le _
        _ ≤ _ := by
          refine List.countP_mono_left fun h _ hh => ?_
          simp only [decide_eq_true_eq] at hh ⊢
          obtain ⟨j, hj, hh⟩ := hh
          exact ⟨j, hj, by rw [← Nat.mod_mod_of_dvd _ divides, hh, Nat.mod_mod_of_dvd _ divides]⟩
    rw [pslAt_some hc]
    omega

end RobinHood
