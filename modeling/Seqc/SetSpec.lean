import Seqc.Set
import Seqc.Lib.Runs

/-! What each operation of set.c does to a table that satisfies its invariant, and
what a lawful pair of functions adds to it. -/

namespace Seqc
open RobinHood ClassMap Runs

variable {κ : Type} {f : KeyFns κ} {k : Nat} {s : SetT κ} {ndebug : Bool} {m : Mem}

def SetT.entries (s : SetT κ) : List (Block κ) := items s.cap s.buckets

/-- Before the first `set_add` that allocates. -/
structure SetFresh (s : SetT κ) : Prop where
  no_buckets : s.bucketsAddr = none
  cap_eq : s.cap = 0
  len_eq : s.len = 0
  psl_eq : s.maxPsl = 0

/-- For an unlawful `hash` a rehash may merge keys while `len` stays. -/
structure SetInv (f : KeyFns κ) (k : Nat) (s : SetT κ) : Prop where
  allocated : s.bucketsAddr ≠ none
  cap_eq : s.cap = 2 ^ k
  packed : Packed (blockHash f) k s.buckets s.maxPsl
  counted : (items (2 ^ k) s.buckets).length ≤ s.len
  load : 4 * s.len ≤ 3 * 2 ^ k

/-- What a lawful pair adds. -/
structure SetDistinct (f : KeyFns κ) (s : SetT κ) : Prop where
  apart : s.entries.Pairwise (Apart (blockEq f))
  len_eq : s.len = s.entries.length

/-- The states a set can be in. -/
inductive SetState (f : KeyFns κ) (s : SetT κ) : Prop
  | fresh (h : SetFresh s)
  | table (k : Nat) (inv : SetInv f k s)

theorem SetInv.entries_eq (inv : SetInv f k s) : s.entries = items (2 ^ k) s.buckets := by
  rw [SetT.entries, inv.cap_eq]

theorem SetInv.cap_ne (inv : SetInv f k s) : s.cap ≠ 0 := by
  have := Nat.two_pow_pos k
  have := inv.cap_eq
  omega

theorem SetInv.pow_le (inv : SetInv f k s) : 2 ^ k ≤ 2 ^ 58 := pow_le_cap inv.packed.high

theorem SetFresh.entries_eq (h : SetFresh s) : s.entries = [] := by
  simp [SetT.entries, h.cap_eq, items]

theorem setSlot_eq_home (hcap : s.cap = 2 ^ k) (b : Block κ) :
    setSlot f s b.val = homeIn (blockHash f) k b := by
  rw [setSlot, hcap, and_pred]
  rfl

/-- A lawful pair finds the duplicate of a key if there is one. -/
theorem setInsert_entries (law : f.Lawful) {t : Table (Block κ)} {maxPsl bound : Nat} {b : Block κ}
    {r : Inserted (Block κ)} (p : Packed (blockHash f) k t maxPsl)
    (run : insertLoop ndebug (blockEq f) (fun cur _ => cur) (2 ^ k) (2 ^ k) t maxPsl
      (homeIn (blockHash f) k b) b 1 = some r)
    (spec : InsertSpec (blockEq f) (fun cur _ => cur) (2 ^ k) (homeIn (blockHash f) k) t b maxPsl
      bound r) (distinct : (items (2 ^ k) t).Pairwise (Apart (blockEq f))) :
    (r.matched = none ∧ (∀ c ∈ items (2 ^ k) t, f.eq c.val b.val = false) ∧
        (items (2 ^ k) r.buckets).Perm (b :: items (2 ^ k) t)) ∨
      (r.matched ≠ none ∧ (∃ c ∈ items (2 ^ k) t, f.eq c.val b.val = true) ∧
        (items (2 ^ k) r.buckets).Perm (items (2 ^ k) t)) := by
  by_cases present : ∃ c ∈ items (2 ^ k) t, f.eq c.val b.val = true
  · obtain ⟨c, hc, equal⟩ := present
    obtain ⟨r', run', hit⟩ := p.insert_present ndebug (fun cur _ => cur) distinct
      hc equal (law.hash_eq _ _ equal)
      (fun x y hx hy => law.trans _ _ _ hx (law.symm _ _ hy))
    obtain rfl := Option.some.inj (run.symm.trans run')
    obtain ⟨-, rest, split, kept⟩ := spec.merged c b hit
    have before := List.Perm.cons_inv ((List.Perm.swap _ _ _).trans split)
    exact .inr ⟨by simp [hit], ⟨c, hc, equal⟩, kept.trans before⟩
  · have absent (c : Block κ) (hc : c ∈ items (2 ^ k) t) : f.eq c.val b.val = false := by
      by_contra hit
      exact present ⟨c, hc, by simpa using hit⟩
    have unmerged : r.matched = none := spec.matched_eq_none (List.pairwise_cons.mpr
      ⟨fun c hc => ⟨law.toEqLaws.symm_false (absent c hc), absent c hc⟩, distinct⟩)
    exact .inl ⟨unmerged, absent, spec.fresh unmerged⟩

theorem setInsertRaw_of_loop {b : Block κ} {r : Inserted (Block κ)}
    (run : insertLoop ndebug (blockEq f) (fun cur _ => cur) s.cap s.cap s.buckets s.maxPsl
      (setSlot f s b.val) b 1 = some r) :
    ∃ m' : Mem, m'.refusals = m.refusals ∧ setInsertRaw ndebug f s b m =
      some (r.matched.isNone, { s with buckets := r.buckets, maxPsl := r.maxPsl }, m') := by
  cases h : r.matched with
  | none => exact ⟨m, rfl, by simp [setInsertRaw, run, h]⟩
  | some pair =>
    exact ⟨memFree m (some pair.2.addr) s.elemSize, by simp, by simp [setInsertRaw, run, h]⟩

/-! ### Growth -/

/-- What holds when the first `i` of the old buckets have been moved. -/
private def SetMoved (f : KeyFns κ) (k : Nat) (s : SetT κ) (refusals i : Nat) (st : SetT κ × Mem) :
    Prop :=
  Rehashing (blockEq f) (blockHash f) k s.buckets s.maxPsl i st.1.buckets st.1.maxPsl ∧
    st.1.cap = 2 ^ (k + 1) ∧ st.1.len = s.len ∧ st.1.bucketsAddr ≠ none ∧ st.2.refusals = refusals

private theorem setRehashBucket_moved (inv : SetInv f k s) {refusals i : Nat} (hi : i < 2 ^ k)
    (st : SetT κ × Mem) (h : SetMoved f k s refusals i st) :
    ∃ st', setRehashBucket ndebug f s.buckets st i = some st' ∧
      SetMoved f k s refusals (i + 1) st' := by
  obtain ⟨r, hcap, hlen, haddr, href⟩ := h
  cases hc : s.buckets i with
  | none => exact ⟨st, by simp [setRehashBucket, hc], r.skip hc, hcap, hlen, haddr, href⟩
  | some c =>
    obtain ⟨res, run, -, more, -⟩ :=
      r.insert ndebug (fun cur _ => cur) (fun _ _ => rfl) inv.packed hi hc
    rw [← hcap, ← setSlot_eq_home hcap c.item] at run
    obtain ⟨m', same, result⟩ := setInsertRaw_of_loop (m := st.2) run
    simp only [setRehashBucket, hc, result, Option.bind_eq_bind, Option.bind_some, Option.pure_def]
    exact ⟨_, rfl, more, hcap, hlen, haddr, same.trans href⟩

theorem sizeof_set_buckets (hk : k ≤ 58) : mulSize (2 ^ k) 2 = 2 ^ (k + 1) ∧
    mulSize (2 ^ (k + 1)) sizeofSetBucket = 2 ^ (k + 1) * 16 % 2 ^ 64 := by
  have pow_le := pow_le_cap hk
  have double : 2 ^ (k + 1) = 2 ^ k * 2 := Nat.pow_succ 2 k
  refine ⟨?_, rfl⟩
  rw [mulSize_of_lt (by omega), double]

/-- `2^59 * 16` is `2^63`, one more than any allocator grants. -/
theorem setResize_spec (ndebug : Bool) (inv : SetInv f k s) (m : Mem) :
    (∃ m', setResize ndebug f s m = some (.oom, s, m') ∧ m'.refusals = m.refusals + 1) ∨
    ∃ s' m', setResize ndebug f s m = some (.ok, s', m') ∧ SetInv f (k + 1) s' ∧
      s'.maxPsl ≤ 123 + (k + 1) ∧ s'.len = s.len ∧ m'.refusals = m.refusals ∧
      (s.entries.Pairwise (Apart (blockEq f)) → s'.entries.Perm s.entries) := by
  obtain ⟨twice, size⟩ := sizeof_set_buckets inv.packed.high
  have double : 2 ^ (k + 1) = 2 ^ k * 2 := Nat.pow_succ 2 k
  rcases hm : memAlloc m (mulSize (mulSize s.cap 2) sizeofSetBucket) with ⟨_ | addr, m₁⟩
  · exact .inl ⟨m₁, by simp only [setResize, hm], memAlloc_none hm⟩
  obtain ⟨-, granted, quiet⟩ := memAlloc_some hm
  rw [inv.cap_eq, twice, size] at granted
  have high := inv.packed.high
  have small : k + 1 ≤ 58 := by
    by_contra large
    obtain rfl : k = 58 := by omega
    rw [ptrdiffMax] at granted
    omega
  obtain ⟨⟨s', m₂⟩, run, moved, hcap, hlen, haddr, href⟩ :=
    foldlM_range (f := setRehashBucket ndebug f s.buckets) (P := SetMoved f k s m.refusals) (2 ^ k)
      (fun i hi st hst => setRehashBucket_moved inv hi st hst)
      (s := ({ s with
        bucketsAddr := some addr, buckets := fun _ => none, cap := 2 ^ (k + 1), maxPsl := 0 }, m₁))
      ⟨rehashing_start, rfl, rfl, by simp, quiet⟩
  obtain ⟨packed, spare, fewer⟩ := moved.finish inv.packed small
  have counted := inv.counted
  have load := inv.load
  simp only at hcap hlen haddr href fewer
  refine .inr ⟨s', memFree m₂ s.bucketsAddr (mulSize s.cap sizeofSetBucket), ?_,
    ⟨haddr, hcap, packed, by omega, by omega⟩, spare, hlen, by simpa using href,
    fun distinct => ?_⟩
  · rw [setResize, hm, inv.cap_eq, twice]
    simp [run]
  · rw [inv.entries_eq] at distinct ⊢
    rw [SetT.entries, hcap]
    exact moved.all distinct

theorem setGrow_spec (ndebug : Bool) (inv : SetInv f k s) (m : Mem) :
    (∃ m', setGrow ndebug f s m = some (.oom, s, m') ∧ m'.refusals = m.refusals + 1) ∨
    ∃ k' s' m', setGrow ndebug f s m = some (.ok, s', m') ∧ SetInv f k' s' ∧
      s'.maxPsl ≤ 123 + k' ∧ 4 * (s'.len + 1) ≤ 3 * 2 ^ k' ∧ s'.len = s.len ∧
      m'.refusals = m.refusals ∧
      (s.entries.Pairwise (Apart (blockEq f)) → s'.entries.Perm s.entries) := by
  have pow_le := inv.pow_le
  have load := inv.load
  have low := inv.packed.low
  obtain ⟨j, hj⟩ : 2 ^ 4 ∣ 2 ^ k := Nat.pow_dvd_pow 2 low
  have at_least : 2 ^ 4 ≤ 2 ^ k := Nat.pow_le_pow_right (by omega) low
  have full : mulSize s.cap 3 = 2 ^ k * 3 := by
    rw [inv.cap_eq]
    exact mulSize_of_lt (by omega)
  have used : mulSize s.len 4 = s.len * 4 := mulSize_of_lt (by omega)
  unfold setGrow
  rw [full, used]
  split
  · rcases setResize_spec ndebug inv m with oom | ⟨s', m', run, inv', spare, len,
      quiet, perm⟩
    · exact .inl oom
    · refine .inr ⟨k + 1, s', m', run, inv', spare, ?_, len, quiet, perm⟩
      rw [Nat.pow_succ]
      omega
  · rename_i calm
    rw [setPslThreshold] at calm
    exact .inr ⟨k, s, m, rfl, inv, by omega, by omega, rfl, rfl, fun _ => .refl _⟩

/-! ### `set_add` -/

theorem setFirstBuckets_spec (h : SetState f s) (m : Mem) :
    (∃ m', setFirstBuckets s m = (.oom, s, m') ∧ m'.refusals = m.refusals + 1) ∨
    ∃ k s' m', setFirstBuckets s m = (.ok, s', m') ∧ SetInv f k s' ∧ s'.entries = s.entries ∧
      s'.len = s.len ∧ m'.refusals = m.refusals := by
  cases h with
  | table k inv =>
    exact .inr ⟨k, s, m, by simp [setFirstBuckets, inv.cap_ne], inv, rfl, rfl, rfl⟩
  | fresh h =>
    rcases hm : memAlloc m (mulSize setInitialCap sizeofSetBucket) with ⟨_ | addr, m₁⟩
    · exact .inl ⟨m₁, by simp [setFirstBuckets, h.cap_eq, hm], memAlloc_none hm⟩
    have packed : Packed (blockHash f) 4 (fun _ => none) s.maxPsl := by
      rw [h.psl_eq]
      exact packed_empty _ (by omega) (by omega)
    simp only [setFirstBuckets, h.cap_eq, hm, if_true]
    refine .inr ⟨4, _, m₁, rfl, ⟨by simp, rfl, packed, by simp, by simp [h.len_eq]⟩, ?_, rfl,
      (memAlloc_some hm).2.2⟩
    rw [h.entries_eq]
    simp [SetT.entries]

theorem setStore_spec (ndebug : Bool) (inv : SetInv f k s) (spare : s.maxPsl ≤ 123 + k)
    (room : 4 * (s.len + 1) ≤ 3 * 2 ^ k) (elem : κ) (m : Mem) :
    ∃ st s' m', setStore ndebug f s elem m = some (st, s', m') ∧ SetInv f k s' ∧
      ((st = .oom ∧ m.refusals < m'.refusals ∧ s' = s) ∨
        (st = .ok ∧ m'.refusals = m.refusals ∧ (f.Lawful → SetDistinct f s → SetDistinct f s' ∧
          (∀ c ∈ s.entries, f.eq c.val elem = false) ∧
          ∃ b : Block κ, b.val = elem ∧ s'.entries.Perm (b :: s.entries))) ∨
        (st = .duplicate ∧ m'.refusals = m.refusals ∧ (f.Lawful → SetDistinct f s →
          SetDistinct f s' ∧ (∃ c ∈ s.entries, f.eq c.val elem = true) ∧
          s'.entries.Perm s.entries))) := by
  have pow_le := inv.pow_le
  have counted := inv.counted
  rcases hkey : memAlloc m s.elemSize with ⟨_ | key, m₁⟩
  · exact ⟨.oom, s, m₁, by simp [setStore, hkey], inv,
      .inl ⟨rfl, by have := memAlloc_none hkey; omega, rfl⟩⟩
  obtain ⟨-, -, quiet⟩ := memAlloc_some hkey
  obtain ⟨r, run, spec, packed⟩ := inv.packed.insert ndebug (blockEq f)
    (fun cur _ => cur) (fun _ _ => rfl) (by omega) spare ⟨key, elem⟩
  have loop := run
  rw [← inv.cap_eq, ← setSlot_eq_home inv.cap_eq] at loop
  obtain ⟨m₂, same, result⟩ := setInsertRaw_of_loop (m := m₁) loop
  have length := spec.length_eq
  have len : addSize s.len 1 = s.len + 1 := addSize_of_lt (by omega)
  cases hr : r.matched with
  | none =>
    simp only [hr, if_true] at length
    refine ⟨.ok, { s with buckets := r.buckets, maxPsl := r.maxPsl, len := s.len + 1 }, m₂,
      by simp [setStore, hkey, result, hr, len], ⟨inv.allocated, inv.cap_eq, packed,
        length.trans_le (by simpa using counted), room⟩,
      .inr (.inl ⟨rfl, same.trans quiet, fun law d => ?_⟩)⟩
    obtain ⟨-, absent, perm⟩ | ⟨bad, -⟩ :=
      setInsert_entries law inv.packed run spec (inv.entries_eq ▸ d.apart)
    · rw [← inv.entries_eq] at perm absent
      have after : items s.cap r.buckets = items (2 ^ k) r.buckets := by rw [inv.cap_eq]
      refine ⟨⟨?_, ?_⟩, absent, ⟨key, elem⟩, rfl, ?_⟩
      · rw [SetT.entries, after, pairwise_apart_perm perm]
        exact List.pairwise_cons.mpr
          ⟨fun c hc => ⟨law.toEqLaws.symm_false (absent c hc), absent c hc⟩, d.apart⟩
      · simp only [SetT.entries, after, perm.length_eq, List.length_cons, d.len_eq]
      · rw [SetT.entries, after]
        exact perm
    · exact absurd hr bad
  | some pair =>
    simp only [hr, reduceCtorEq, if_false] at length
    refine ⟨.duplicate, { s with buckets := r.buckets, maxPsl := r.maxPsl }, m₂,
      by simp [setStore, hkey, result, hr], ⟨inv.allocated, inv.cap_eq, packed,
        length.trans_le counted, inv.load⟩,
      .inr (.inr ⟨rfl, same.trans quiet, fun law d => ?_⟩)⟩
    obtain ⟨bad, -⟩ | ⟨-, present, perm⟩ :=
      setInsert_entries law inv.packed run spec (inv.entries_eq ▸ d.apart)
    · simp [hr] at bad
    · rw [← inv.entries_eq] at perm present
      have after : items s.cap r.buckets = items (2 ^ k) r.buckets := by rw [inv.cap_eq]
      refine ⟨⟨?_, ?_⟩, present, ?_⟩
      · rw [SetT.entries, after, pairwise_apart_perm perm]
        exact d.apart
      · rw [SetT.entries, after, perm.length_eq]
        exact d.len_eq
      · rw [SetT.entries, after]
        exact perm

/-- An addition that fails to allocate, or finds a duplicate, leaves the elements;
one that succeeds puts the new one among them. -/
theorem setAdd_spec (ndebug : Bool) (h : SetState f s) (elem : κ) (m : Mem) :
    ∃ st s' m', setAdd ndebug f s (some elem) m = some (st, s', m') ∧ SetState f s' ∧
      (s'.cap = 0 → s' = s ∧ st = .oom) ∧
      ((st = .oom ∧ m.refusals < m'.refusals ∧ (f.Lawful → SetDistinct f s → SetDistinct f s' ∧
          s'.entries.Perm s.entries)) ∨
        (st = .ok ∧ m'.refusals = m.refusals ∧ (f.Lawful → SetDistinct f s → SetDistinct f s' ∧
          (∀ c ∈ s.entries, f.eq c.val elem = false) ∧
          ∃ b : Block κ, b.val = elem ∧ s'.entries.Perm (b :: s.entries))) ∨
        (st = .duplicate ∧ m'.refusals = m.refusals ∧ (f.Lawful → SetDistinct f s →
          SetDistinct f s' ∧ (∃ c ∈ s.entries, f.eq c.val elem = true) ∧
          s'.entries.Perm s.entries))) := by
  rcases setFirstBuckets_spec h m with ⟨m₁, first, more⟩ | ⟨k, s₁, m₁, first, inv₁, same₁, len₁,
    quiet₁⟩
  · exact ⟨.oom, s, m₁, by simp [setAdd, first], h, fun _ => ⟨rfl, rfl⟩,
      .inl ⟨rfl, by omega, fun _ d => ⟨d, .refl _⟩⟩⟩
  have d₁ (d : SetDistinct f s) : SetDistinct f s₁ := ⟨same₁ ▸ d.apart, by
    rw [same₁, len₁]
    exact d.len_eq⟩
  rcases setGrow_spec ndebug inv₁ m₁ with ⟨m₂, grow, more⟩ | ⟨k', s₂, m₂, grow, inv₂,
    spare, room, len₂, quiet₂, perm⟩
  · exact ⟨.oom, s₁, m₂, by simp [setAdd, first, grow], .table k inv₁,
      fun zero => absurd zero inv₁.cap_ne, .inl ⟨rfl, by omega, fun _ d => ⟨d₁ d, by rw [same₁]⟩⟩⟩
  have d₂ (d : SetDistinct f s) : SetDistinct f s₂ ∧ s₂.entries.Perm s.entries := by
    have perm := perm (d₁ d).apart
    refine ⟨⟨(pairwise_apart_perm perm).mpr (d₁ d).apart, ?_⟩, same₁ ▸ perm⟩
    rw [len₂, perm.length_eq]
    exact (d₁ d).len_eq
  obtain ⟨st, s₃, m₃, store, inv₃, outcome⟩ := setStore_spec ndebug inv₂ spare room elem
    m₂
  refine ⟨st, s₃, m₃, by simp [setAdd, first, grow, store], .table k' inv₃,
    fun zero => absurd zero inv₃.cap_ne, ?_⟩
  rcases outcome with ⟨rfl, more, rfl⟩ | ⟨rfl, quiet, added⟩ | ⟨rfl, quiet, kept⟩
  · exact .inl ⟨rfl, by omega, fun _ d => d₂ d⟩
  · refine .inr (.inl ⟨rfl, by omega, fun law d => ?_⟩)
    obtain ⟨d₂, perm₂⟩ := d₂ d
    obtain ⟨d₃, absent, b, hb, perm₃⟩ := added law d₂
    exact ⟨d₃, fun c hc => absent c (perm₂.mem_iff.mpr hc), b, hb, perm₃.trans (perm₂.cons b)⟩
  · refine .inr (.inr ⟨rfl, by omega, fun law d => ?_⟩)
    obtain ⟨d₂, perm₂⟩ := d₂ d
    obtain ⟨d₃, ⟨c, hc, equal⟩, perm₃⟩ := kept law d₂
    exact ⟨d₃, ⟨c, perm₂.mem_iff.mp hc, equal⟩, perm₃.trans perm₂⟩

/-! ### Search, removal and `set_clear` -/

theorem setFind_spec (inv : SetInv f k s) (elem : κ) :
    ∃ r, setFind f s elem = some r ∧
      (∀ i, r = some i → i < 2 ^ k ∧ ∃ c, s.buckets i = some c ∧ f.eq c.item.val elem = true) ∧
      (r = none → ∀ b ∈ s.entries, f.hash b.val = f.hash elem → f.eq b.val elem = false) := by
  obtain ⟨r, run, found, absent⟩ := inv.packed.probe (fun b => f.eq b.val elem) (f.hash elem)
    (2 ^ k) (Nat.min_le_right _ _)
  refine ⟨r, ?_, found, fun h b hb => absent h b (inv.entries_eq ▸ hb)⟩
  rwa [setFind, setSlot, inv.cap_eq, and_pred]

theorem SetInv.entries_nil (inv : SetInv f k s) (h : s.len = 0) : s.entries = [] := by
  have := inv.counted
  rw [← inv.entries_eq] at this
  exact List.length_eq_zero_iff.mp (by omega)

theorem setContains_spec (h : SetState f s) (elem : κ) :
    ∃ r, setContains f s (some elem) = some r ∧
      (f.Lawful → (r = true ↔ ∃ b ∈ s.entries, f.eq b.val elem = true)) := by
  cases h with
  | fresh h => exact ⟨false, by simp [setContains, h.len_eq], by simp [h.entries_eq]⟩
  | table k inv =>
    by_cases len : s.len = 0
    · exact ⟨false, by simp [setContains, len], by simp [inv.entries_nil len]⟩
    obtain ⟨r, run, found, absent⟩ := setFind_spec inv elem
    refine ⟨r.isSome, by simp [setContains, len, run], fun law => ?_⟩
    cases r with
    | none =>
      simp only [Option.isSome_none, Bool.false_eq_true, false_iff, not_exists, not_and]
      intro b hb hit
      simp [absent rfl b hb (law.hash_eq _ _ hit)] at hit
    | some i =>
      obtain ⟨hi, c, hc, equal⟩ := found i rfl
      have stored := mem_items.mpr ⟨i, hi, c, hc, rfl⟩
      exact ⟨fun _ => ⟨c.item, inv.entries_eq ▸ stored, equal⟩, fun _ => rfl⟩

theorem setRemove_spec (h : SetState f s) (elem : κ) (m : Mem) :
    ∃ st s' m', setRemove f s (some elem) m = some (st, s', m') ∧ SetState f s' ∧
      m'.refusals = m.refusals ∧ s'.cap = s.cap ∧
      ((st = .notFound ∧ s' = s ∧ ∀ b ∈ s.entries, f.hash b.val = f.hash elem →
          f.eq b.val elem = false) ∨
        (st = .ok ∧ s.len = s'.len + 1 ∧ ∃ b, f.eq b.val elem = true ∧
          (b :: s'.entries).Perm s.entries)) := by
  cases h with
  | fresh h =>
    exact ⟨.notFound, s, m, by simp [setRemove, h.len_eq], .fresh h, rfl, rfl,
      .inl ⟨rfl, rfl, by simp [h.entries_eq]⟩⟩
  | table k inv =>
    by_cases len : s.len = 0
    · exact ⟨.notFound, s, m, by simp [setRemove, len], .table k inv, rfl, rfl,
        .inl ⟨rfl, rfl, by simp [inv.entries_nil len]⟩⟩
    obtain ⟨r, run, found, absent⟩ := setFind_spec inv elem
    cases r with
    | none =>
      exact ⟨.notFound, s, m, by simp [setRemove, len, run], .table k inv, rfl, rfl,
        .inl ⟨rfl, rfl, absent rfl⟩⟩
    | some i =>
      obtain ⟨hi, c, hc, equal⟩ := found i rfl
      obtain ⟨t', shift, packed, perm⟩ := inv.packed.remove hi hc
      have length := perm.length_eq
      have counted := inv.counted
      have load := inv.load
      have at_least : 2 ^ 4 ≤ 2 ^ k := Nat.pow_le_pow_right (by omega) inv.packed.low
      simp only [List.length_cons] at length
      rw [← setShift_eq k (2 ^ k) s.buckets i hi (by omega)] at shift
      refine ⟨.ok, { s with buckets := t', len := s.len - 1 }, memFree m (some c.item.addr)
        s.elemSize, ?_, .table k ⟨inv.allocated, inv.cap_eq, packed, ?_, ?_⟩, by simp, rfl,
        .inr ⟨rfl, ?_, c.item, equal, ?_⟩⟩
      · simp only [setRemove, len, if_false, run, hc, inv.cap_eq, Option.bind_eq_bind,
          Option.bind_some, shift, Option.pure_def]
      · simp only
        omega
      · simp only
        omega
      · simp only
        omega
      · rw [inv.entries_eq]
        simpa only [SetT.entries, inv.cap_eq] using perm

/-- A removal keeps the elements distinct and the length exact. -/
theorem SetDistinct.remove {s s' : SetT κ} (d : SetDistinct f s) (len : s.len = s'.len + 1)
    {b : Block κ} (perm : (b :: s'.entries).Perm s.entries) : SetDistinct f s' := by
  have whole := (pairwise_apart_perm perm).mpr d.apart
  have length := perm.length_eq
  have exact_len := d.len_eq
  simp only [List.length_cons] at length
  exact ⟨(List.pairwise_cons.mp whole).2, by omega⟩

theorem setClear_spec (h : SetState f s) (m : Mem) :
    SetState f (setClear s m).1 ∧ (setClear s m).1.entries = [] ∧ (setClear s m).1.len = 0 ∧
      (setClear s m).1.cap = s.cap ∧ (setClear s m).2.refusals = m.refusals := by
  cases h with
  | fresh h => exact ⟨by simpa [setClear, h.no_buckets] using .fresh h,
      by simp [setClear, h.no_buckets, h.entries_eq], by simp [setClear, h.no_buckets, h.len_eq],
      by simp [setClear, h.no_buckets], by simp [setClear, h.no_buckets]⟩
  | table k inv =>
    obtain ⟨addr, haddr⟩ := Option.ne_none_iff_exists'.mp inv.allocated
    simp only [setClear, haddr]
    refine ⟨.table k ⟨by simp, inv.cap_eq, packed_empty _ inv.packed.low inv.packed.high,
      by simp, by simp⟩, by simp [SetT.entries], trivial, trivial, ?_⟩
    induction items s.cap s.buckets generalizing m with
    | nil => rfl
    | cons b bs ih =>
      rw [List.foldl_cons, ih]
      simp

theorem setCreate_spec {elemSize : Nat} {m m' : Mem} (h : setCreate κ elemSize m = (some s, m')) :
    SetFresh s ∧ m'.refusals = m.refusals := by
  unfold setCreate at h
  rcases hs : memAlloc m sizeofSet with ⟨_ | addr, m₁⟩
  · simp [hs] at h
  simp only [hs, Prod.mk.injEq, Option.some.injEq] at h
  obtain ⟨rfl, rfl⟩ := h
  exact ⟨⟨rfl, rfl, rfl, rfl⟩, (memAlloc_some hs).2.2⟩

end Seqc
