import Seqc.Probing

/-! The invariant of the bucket arrays of hashmap.c and set.c, and what the
shared loops do to it. The bound on `maxPsl` is where the 8-bit counters stay
small: an insertion adds at most one to the longest probe, above 127 it is
preceded by a doubling, a doubling lengthens no probe, and an array of 2^59
buckets is more than any allocator grants. -/

namespace Seqc
open RobinHood

variable {α : Type}

/-- The home slot in an array of `2 ^ k` buckets. -/
def homeIn (hash : α → Nat) (k : Nat) (x : α) : Nat := hash x % 2 ^ k

theorem homeIn_lt (hash : α → Nat) (k : Nat) (x : α) : homeIn hash k x < 2 ^ k :=
  Nat.mod_lt _ (Nat.two_pow_pos k)

/-- Two items with different keys. -/
def Apart (eq : α → α → Bool) (a b : α) : Prop := eq a b = false ∧ eq b a = false

theorem Apart.symm {eq : α → α → Bool} {a b : α} (h : Apart eq a b) : Apart eq b a := ⟨h.2, h.1⟩

instance (eq : α → α → Bool) : Std.Symm (Apart eq) := ⟨fun _ _ => Apart.symm⟩

theorem pairwise_apart_perm {eq : α → α → Bool} {xs ys : List α} (h : xs.Perm ys) :
    xs.Pairwise (Apart eq) ↔ ys.Pairwise (Apart eq) := h.pairwise_iff Apart.symm

structure Packed (hash : α → Nat) (k : Nat) (t : Table α) (maxPsl : Nat) : Prop where
  low : 4 ≤ k
  high : k ≤ 58
  valid : Valid (2 ^ k) (homeIn hash k) t
  load : 4 * (items (2 ^ k) t).length ≤ 3 * 2 ^ k
  covers : ∀ i < 2 ^ k, pslAt t i ≤ maxPsl
  bound : maxPsl ≤ 124 + k

theorem Packed.room {hash : α → Nat} {k : Nat} {t : Table α} {maxPsl : Nat}
    (p : Packed hash k t maxPsl) : (items (2 ^ k) t).length < 2 ^ k := by
  have := p.load
  have := Nat.two_pow_pos k
  omega

theorem pow_le_cap {k : Nat} (h : k ≤ 58) : 2 ^ k ≤ 2 ^ 58 := Nat.pow_le_pow_right (by omega) h

@[simp] theorem items_empty (n : Nat) : items n (fun _ => none : Table α) = [] := by
  simp [items]

theorem valid_empty (n : Nat) (home : α → Nat) : Valid n home (fun _ => none) where
  pos _ _ _ h := by simp at h
  position _ _ _ h := by simp at h
  chain _ _ := by simp [pslAt]

theorem packed_empty (hash : α → Nat) {k : Nat} (low : 4 ≤ k) (high : k ≤ 58) :
    Packed hash k (fun _ => none) 0 where
  low := low
  high := high
  valid := valid_empty _ _
  load := by simp
  covers i _ := by simp [pslAt]
  bound := by omega

theorem Packed.relabel {β : Type} (g : α → β) {hash : β → Nat} {k : Nat} {t : Table α}
    {maxPsl : Nat} (p : Packed (fun x => hash (g x)) k t maxPsl) :
    Packed hash k (RobinHood.relabel g t) maxPsl where
  low := p.low
  high := p.high
  valid := p.valid.relabel g
  load := by
    rw [items_relabel, List.length_map]
    exact p.load
  covers i hi := by
    rw [pslAt_relabel]
    exact p.covers i hi
  bound := p.bound

/-! ### Insertion -/

section Insert
variable {ndebug : Bool} {eq : α → α → Bool} {merge : α → α → α} {hash : α → Nat} {k : Nat}
  {t : Table α} {maxPsl : Nat} {x : α} {r : Inserted α}

/-- An insertion into a table that is not full leaves it packed if the maximum
recorded before has one to spare. -/
theorem Packed.insert (ndebug : Bool) (eq : α → α → Bool) (merge : α → α → α)
    (hash_merge : ∀ c x, hash (merge c x) = hash c)
    (p : Packed hash k t maxPsl) (room : 4 * ((items (2 ^ k) t).length + 1) ≤ 3 * 2 ^ k)
    (spare : maxPsl ≤ 123 + k) (x : α) :
    ∃ r, insertLoop ndebug eq merge (2 ^ k) (2 ^ k) t maxPsl (homeIn hash k x) x 1 = some r ∧
      InsertSpec eq merge (2 ^ k) (homeIn hash k) t x maxPsl (maxPsl + 1) r ∧
      Packed hash k r.buckets r.maxPsl := by
  have high := p.high
  obtain ⟨r, run, spec⟩ := insertLoop_home ndebug eq merge
    (fun c x => by simp [homeIn, hash_merge]) (homeIn_lt hash k) p.valid p.room (by omega)
    p.covers maxPsl x
  refine ⟨r, run, spec, p.low, high, spec.valid, ?_, spec.covers p.covers, ?_⟩
  · have := spec.length_le
    omega
  · have := spec.attained (maxPsl + 1) (by omega) spec.bounded
    omega

/-- Distinct keys stay unmerged. -/
theorem InsertSpec.matched_eq_none {cap bound : Nat} {home : α → Nat}
    (s : InsertSpec eq merge cap home t x maxPsl bound r)
    (apart : (x :: items cap t).Pairwise (Apart eq)) : r.matched = none := by
  cases h : r.matched with
  | none => rfl
  | some pair =>
    obtain ⟨equal, rest, split, -⟩ := s.merged pair.1 pair.2 h
    have clash := (pairwise_apart_perm split).mpr apart
    have := (List.pairwise_cons.mp clash).1 pair.2 (by simp)
    simp [this.1] at equal

theorem apart_of_slots {n : Nat} (distinct : (items n t).Pairwise (Apart eq)) {i j : Nat}
    (hi : i < n) (hj : j < n) (ne : i ≠ j) {a b : Cell α} (ha : t i = some a) (hb : t j = some b) :
    Apart eq a.item b.item := by
  rw [items, List.pairwise_filterMap, List.pairwise_iff_getElem] at distinct
  rcases Nat.lt_or_gt_of_ne ne with h | h
  · exact distinct i j (by simpa using hi) (by simpa using hj) h _ (by simp [ha]) _ (by simp [hb])
  · exact (distinct j i (by simpa using hj) (by simpa using hi) h _ (by simp [hb]) _
      (by simp [ha])).symm

/-- An equal key is found before anything is displaced. -/
theorem Packed.insert_present_eq (ndebug : Bool) (merge : α → α → α) (p : Packed hash k t maxPsl)
    (distinct : (items (2 ^ k) t).Pairwise (Apart eq)) {c : α} (hc : c ∈ items (2 ^ k) t)
    (equal : eq c x = true) (same : hash c = hash x)
    (joint : ∀ a b, eq a x = true → eq b x = true → eq a b = true) :
    ∃ s cell, t s = some cell ∧ cell.item = c ∧
      insertLoop ndebug eq merge (2 ^ k) (2 ^ k) t maxPsl (homeIn hash k x) x 1 =
        some ⟨put t s (some ⟨merge c x, cell.psl⟩), maxPsl, some (c, x)⟩ := by
  obtain ⟨s, hs, cell, hcell, rfl⟩ := mem_items.mp hc
  obtain ⟨e, he, free⟩ := exists_free p.room
  have round := p.valid.psl_lt he hs free
  have small := p.covers s hs
  have pos := p.valid.pos s hs cell hcell
  have high := p.high
  have bound := p.bound
  rw [pslAt_some hcell] at round small
  have run := insertLoop_present ndebug merge p.valid hs hcell
    (show homeIn hash k cell.item = homeIn hash k x by simp [homeIn, same]) equal
    (fun i hi b hb hit => by
      by_contra ne
      have apart := apart_of_slots distinct hi hs ne hb hcell
      exact absurd (joint b.item cell.item hit equal) (by simp [apart.1]))
    (by omega) maxPsl (2 ^ k) 1 Nat.one_pos pos (by omega)
  rw [show (homeIn hash k x + (1 - 1)) % 2 ^ k = homeIn hash k x by
    simp [homeIn]] at run
  exact ⟨s, cell, hcell, rfl, run⟩

theorem Packed.insert_present (ndebug : Bool) (merge : α → α → α) (p : Packed hash k t maxPsl)
    (distinct : (items (2 ^ k) t).Pairwise (Apart eq)) {c : α} (hc : c ∈ items (2 ^ k) t)
    (equal : eq c x = true) (same : hash c = hash x)
    (joint : ∀ a b, eq a x = true → eq b x = true → eq a b = true) :
    ∃ r, insertLoop ndebug eq merge (2 ^ k) (2 ^ k) t maxPsl (homeIn hash k x) x 1 = some r ∧
      r.matched = some (c, x) := by
  obtain ⟨s, cell, -, -, run⟩ := p.insert_present_eq ndebug merge distinct hc equal same joint
  exact ⟨_, run, rfl⟩

end Insert

/-! ### Rehashing -/

/-- The state of a doubling that has moved the first `i` buckets of `old`. -/
structure Rehashing (eq : α → α → Bool) (hash : α → Nat) (k : Nat) (old : Table α)
    (maxOld i : Nat) (t : Table α) (maxPsl : Nat) : Prop where
  valid : Valid (2 ^ (k + 1)) (homeIn hash (k + 1)) t
  covers : ∀ s < 2 ^ (k + 1), pslAt t s ≤ maxPsl
  small : maxPsl ≤ maxOld
  fewer : ((items (2 ^ (k + 1)) t).map hash).Subperm ((items i old).map hash)
  all : (items (2 ^ k) old).Pairwise (Apart eq) → (items (2 ^ (k + 1)) t).Perm (items i old)

section Rehash
variable {ndebug : Bool} {eq : α → α → Bool} {merge : α → α → α} {hash : α → Nat} {k : Nat}
  {old t : Table α} {maxOld maxPsl i : Nat}

theorem rehashing_start : Rehashing eq hash k old maxOld 0 (fun _ => none) 0 where
  valid := valid_empty _ _
  covers i _ := by simp [pslAt]
  small := Nat.zero_le _
  fewer := by simp [items]
  all _ := by simp [items]

theorem Rehashing.skip (r : Rehashing eq hash k old maxOld i t maxPsl) (h : old i = none) :
    Rehashing eq hash k old maxOld (i + 1) t maxPsl where
  valid := r.valid
  covers := r.covers
  small := r.small
  fewer := by simpa [items_succ, h] using r.fewer
  all d := by simpa [items_succ, h] using r.all d

theorem Rehashing.insert (ndebug : Bool) (merge : α → α → α)
    (hash_merge : ∀ c x, hash (merge c x) = hash c)
    (p : Packed hash k old maxOld) (r : Rehashing eq hash k old maxOld i t maxPsl)
    (hi : i < 2 ^ k) {c : Cell α} (hc : old i = some c) :
    ∃ res, insertLoop ndebug eq merge (2 ^ (k + 1)) (2 ^ (k + 1)) t maxPsl
        (homeIn hash (k + 1) c.item) c.item 1 = some res ∧
      InsertSpec eq merge (2 ^ (k + 1)) (homeIn hash (k + 1)) t c.item maxPsl (maxPsl + 1) res ∧
      Rehashing eq hash k old maxOld (i + 1) res.buckets res.maxPsl ∧
      ((items (2 ^ k) old).Pairwise (Apart eq) → res.matched = none) := by
  have high := p.high
  have bound := p.bound
  have small := r.small
  have load := p.load
  have double : 2 ^ (k + 1) = 2 * 2 ^ k := by rw [Nat.pow_succ, Nat.mul_comm]
  have part : (items (i + 1) old).Sublist (items (2 ^ k) old) := items_sublist (by omega) old
  have now : (c.item :: items i old).Perm (items (i + 1) old) := by
    rw [items_succ, hc]
    simpa using (List.perm_append_singleton c.item (items i old)).symm
  have fewer_len := r.fewer.length_le
  have part_len := part.length_le
  have now_len := now.length_eq
  simp only [List.length_map, List.length_cons] at fewer_len now_len
  obtain ⟨res, run, spec⟩ := insertLoop_home ndebug eq merge
    (fun c x => by simp [homeIn, hash_merge]) (homeIn_lt hash (k + 1)) r.valid (by omega)
    (by omega) r.covers maxPsl c.item
  have more : ((items (2 ^ (k + 1)) res.buckets).map hash).Subperm
      ((items (i + 1) old).map hash) := by
    refine (spec.subperm hash_merge).trans (List.Subperm.trans ?_ (now.map hash).subperm)
    exact (List.subperm_cons (hash c.item)).mpr r.fewer
  have len := spec.length_le
  obtain ⟨e, he, free⟩ := exists_free (n := 2 ^ (k + 1)) (t := res.buckets) (by omega)
  have short := p.valid.psl_le_of_split spec.valid (Nat.pow_dvd_pow 2 (Nat.le_succ k))
    (more.trans (part.map hash).subperm) p.covers he free
  have unmerged (d : (items (2 ^ k) old).Pairwise (Apart eq)) : res.matched = none :=
    spec.matched_eq_none ((pairwise_apart_perm (((r.all d).cons _).trans now)).mpr
      (d.sublist part))
  exact ⟨res, run, spec, ⟨spec.valid, spec.covers r.covers, spec.attained _ small short, more,
    fun d => (spec.fresh (unmerged d)).trans (((r.all d).cons _).trans now)⟩, unmerged⟩

/-- A finished doubling leaves one to spare below the bound. -/
theorem Rehashing.finish (p : Packed hash k old maxOld) (high : k + 1 ≤ 58)
    (r : Rehashing eq hash k old maxOld (2 ^ k) t maxPsl) :
    Packed hash (k + 1) t maxPsl ∧ maxPsl ≤ 123 + (k + 1) ∧
      (items (2 ^ (k + 1)) t).length ≤ (items (2 ^ k) old).length := by
  have bound := p.bound
  have load := p.load
  have small := r.small
  have low := p.low
  have double : 2 ^ (k + 1) = 2 * 2 ^ k := by rw [Nat.pow_succ, Nat.mul_comm]
  have len := r.fewer.length_le
  simp only [List.length_map] at len
  exact ⟨⟨by omega, high, r.valid, by omega, r.covers, by omega⟩, by omega, len⟩

end Rehash

/-! ### Search and removal -/

section Remove
variable {hash : α → Nat} {k : Nat} {t : Table α} {maxPsl : Nat}

/-- A search ends before its 8-bit counter could wrap. -/
theorem Packed.probe (p : Packed hash k t maxPsl) (eq : α → Bool) (h fuel : Nat)
    (hf : min 255 (2 ^ k) ≤ fuel) :
    ∃ r, probeLoop eq (2 ^ k) t fuel (h % 2 ^ k) 1 = some r ∧
      (∀ s, r = some s → s < 2 ^ k ∧ ∃ c, t s = some c ∧ eq c.item = true) ∧
      (r = none → ∀ x ∈ items (2 ^ k) t, hash x = h → eq x = false) := by
  obtain ⟨e, he, free⟩ := exists_free p.room
  have high := p.high
  have bound := p.bound
  have pos := Nat.two_pow_pos k
  have short (i : Nat) (hi : i < 2 ^ k) : pslAt t i ≤ min (2 ^ k - 1) 254 := by
    have round := p.valid.psl_lt he hi free
    have := p.covers i hi
    omega
  obtain ⟨r, run, found, absent⟩ := probeLoop_spec p.valid eq (h := h % 2 ^ k)
    (by omega) short fuel 1 Nat.one_pos (by omega) (by omega)
    (fun q hq hlt => by omega)
  rw [Nat.sub_self, Nat.add_zero, Nat.mod_mod] at run
  refine ⟨r, run, found, fun hr x hx hh => ?_⟩
  obtain ⟨i, hi, c, hc, rfl⟩ := mem_items.mp hx
  exact absent hr i hi c hc (by simp [homeIn, hh])

theorem Packed.remove (p : Packed hash k t maxPsl) {s : Nat} (hs : s < 2 ^ k) {c : Cell α}
    (hc : t s = some c) :
    ∃ t', hashmapShift (2 ^ k) (2 ^ k) (put t s none) s (next (2 ^ k) s) = some t' ∧
      Packed hash k t' maxPsl ∧ (c.item :: items (2 ^ k) t').Perm (items (2 ^ k) t) := by
  obtain ⟨t', run, valid, perm, small⟩ := hashmapShift_remove p.valid p.room p.covers hs hc
  have load := p.load
  have len := perm.length_eq
  simp only [List.length_cons] at len
  exact ⟨t', run, ⟨p.low, p.high, valid, by omega, small, p.bound⟩, perm⟩

end Remove

end Seqc
