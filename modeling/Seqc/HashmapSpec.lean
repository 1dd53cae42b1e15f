import Seqc.Hashmap
import Seqc.Lib.Runs

/-! What each operation of hashmap.c does to a table that satisfies its invariant.
The invariant and the bounds on probe lengths need nothing of `hash` and `eq`; for
a lawful pair the contents are those of a finite map on classes of keys. -/

namespace Seqc
open RobinHood ClassMap Runs

variable {κ ν : Type} {f : KeyFns κ} {k : Nat} {map : Hashmap κ ν} {ndebug : Bool} {m : Mem}

structure HashmapInv (f : KeyFns κ) (k : Nat) (map : Hashmap κ ν) : Prop where
  cap_eq : map.cap = 2 ^ k
  packed : Packed (entryHash f) k map.buckets map.maxPsl
  len_eq : map.len = (items (2 ^ k) map.buckets).length

def Entry.pair (e : Entry κ ν) : κ × ν := (e.key.val, e.value.val)

/-- The stored entries in slot order. -/
def Hashmap.entries (map : Hashmap κ ν) : List (Entry κ ν) := items map.cap map.buckets

def Hashmap.contents (map : Hashmap κ ν) : List (κ × ν) := map.entries.map Entry.pair

theorem HashmapInv.entries_eq (inv : HashmapInv f k map) :
    map.entries = items (2 ^ k) map.buckets := by rw [Hashmap.entries, inv.cap_eq]

theorem HashmapInv.len_le (inv : HashmapInv f k map) : 4 * map.len ≤ 3 * 2 ^ k :=
  inv.len_eq ▸ inv.packed.load

theorem HashmapInv.pow_le (inv : HashmapInv f k map) : 2 ^ k ≤ 2 ^ 58 := pow_le_cap inv.packed.high

theorem entryHash_update (c x : Entry κ ν) : entryHash f (entryUpdate c x) = entryHash f c := rfl

theorem slot_eq_home (hcap : map.cap = 2 ^ k) (e : Entry κ ν) :
    hashmapGetSlot f map e.key.val = homeIn (entryHash f) k e := by
  rw [hashmapGetSlot, hcap, and_pred]
  rfl

theorem distinct_of_represents (law : f.Lawful) {es : List (Entry κ ν)} {g : κ → Option ν}
    (r : Represents f.eq (es.map Entry.pair) g) : es.Pairwise (Apart (entryEq f)) := by
  have apart := r.apart
  rw [List.pairwise_map] at apart
  exact apart.imp fun h => ⟨h, law.toEqLaws.symm_false h⟩

/-! ### Insertion -/

theorem hashmapInsertRaw_of_loop {e : Entry κ ν} {r : Inserted (Entry κ ν)}
    (run : insertLoop ndebug (entryEq f) entryUpdate map.cap map.cap map.buckets map.maxPsl
      (hashmapGetSlot f map e.key.val) e 1 = some r) :
    ∃ m' : Mem, m'.refusals = m.refusals ∧ hashmapInsertRaw ndebug f map e m =
      some ({ map with
        buckets := r.buckets
        maxPsl := r.maxPsl
        len := if r.matched = none then addSize map.len 1 else map.len }, m') := by
  cases h : r.matched with
  | none => exact ⟨m, rfl, by simp [hashmapInsertRaw, run, h]⟩
  | some pair =>
    exact ⟨memFree (memFree m (some pair.2.key.addr) map.keySize) (some pair.1.value.addr)
      map.valSize, by simp, by simp [hashmapInsertRaw, run, h]⟩

/-- The entries with the incoming one form the updated map. -/
theorem represents_insert (law : f.Lawful) {t : Table (Entry κ ν)} {maxPsl bound : Nat}
    {e : Entry κ ν} {r : Inserted (Entry κ ν)} {g : κ → Option ν}
    (p : Packed (entryHash f) k t maxPsl)
    (run : insertLoop ndebug (entryEq f) entryUpdate (2 ^ k) (2 ^ k) t maxPsl
      (homeIn (entryHash f) k e) e 1 = some r)
    (spec : InsertSpec (entryEq f) entryUpdate (2 ^ k) (homeIn (entryHash f) k) t e maxPsl bound r)
    (rep : Represents f.eq ((items (2 ^ k) t).map Entry.pair) g) :
    Represents f.eq ((items (2 ^ k) r.buckets).map Entry.pair)
      (insert f.eq g e.key.val e.value.val) := by
  have distinct := distinct_of_represents law rep
  by_cases absent : g e.key.val = none
  · have none_equal := (rep.eq_none_iff e.key.val).mp absent
    have unmerged : r.matched = none := by
      refine spec.matched_eq_none (List.pairwise_cons.mpr ⟨fun c hc => ?_, distinct⟩)
      have other := none_equal c.pair (List.mem_map_of_mem hc)
      exact ⟨law.toEqLaws.symm_false other, other⟩
    exact (rep.cons law.toEqLaws absent e.value.val).perm law.toEqLaws
      ((spec.fresh unmerged).map Entry.pair).symm
  · -- The one stored entry with an equal key gets the new value.
    obtain ⟨v, hv⟩ := Option.ne_none_iff_exists'.mp absent
    obtain ⟨q, hq, equal, -⟩ := (rep.lookup e.key.val v).mp hv
    obtain ⟨c, hc, rfl⟩ := List.mem_map.mp hq
    obtain ⟨r', run', hit⟩ := p.insert_present ndebug entryUpdate distinct hc equal
      (law.hash_eq _ _ equal)
      (fun a b ha hb => law.trans _ _ _ ha (law.symm _ _ hb))
    obtain rfl := Option.some.inj (run.symm.trans run')
    obtain ⟨-, rest, split, kept⟩ := spec.merged c e hit
    have before := (List.Perm.cons_inv ((List.Perm.swap _ _ _).trans split)).map Entry.pair
    have stored := (rep.perm law.toEqLaws before.symm).replace law.toEqLaws equal e.value.val
    exact stored.perm law.toEqLaws (kept.map Entry.pair).symm

theorem hashmapInsertRaw_spec (ndebug : Bool) (inv : HashmapInv f k map)
    (room : 4 * (map.len + 1) ≤ 3 * 2 ^ k) (spare : map.maxPsl ≤ 123 + k) (e : Entry κ ν) (m : Mem) :
    ∃ map' m', hashmapInsertRaw ndebug f map e m = some (map', m') ∧ HashmapInv f k map' ∧
      m'.refusals = m.refusals ∧ ∀ g, f.Lawful → Represents f.eq map.contents g →
        Represents f.eq map'.contents (insert f.eq g e.key.val e.value.val) := by
  have pow_le := inv.pow_le
  obtain ⟨r, run, spec, packed⟩ := inv.packed.insert ndebug (entryEq f) entryUpdate
    entryHash_update (inv.len_eq ▸ room) spare e
  have loop := run
  rw [← inv.cap_eq, ← slot_eq_home inv.cap_eq e] at loop
  obtain ⟨m', same, result⟩ := hashmapInsertRaw_of_loop (m := m) loop
  have len : addSize map.len 1 = map.len + 1 := addSize_of_lt (by omega)
  refine ⟨_, m', result, ⟨inv.cap_eq, packed, ?_⟩, same, fun g law rep => ?_⟩
  · rw [spec.length_eq, len, inv.len_eq]
  · rw [Hashmap.contents, inv.entries_eq] at rep
    have := represents_insert law inv.packed run spec rep
    simpa only [Hashmap.contents, Hashmap.entries, inv.cap_eq] using this

/-! ### Doubling -/

theorem sizeof_buckets (hk : k ≤ 58) : mulSize (2 ^ k) 2 = 2 ^ (k + 1) ∧
    mulSize (2 ^ (k + 1)) sizeofBucket = 2 ^ (k + 1) * 24 := by
  have pow_le := pow_le_cap hk
  have double : 2 ^ (k + 1) = 2 ^ k * 2 := Nat.pow_succ 2 k
  refine ⟨?_, ?_⟩
  · rw [mulSize_of_lt (by omega), double]
  · exact mulSize_of_lt (by rw [sizeofBucket]; omega)

/-- What holds when the first `i` of the old buckets have been moved. -/
private def Moved (f : KeyFns κ) (k : Nat) (map : Hashmap κ ν) (refusals i : Nat)
    (s : Hashmap κ ν × Mem) : Prop :=
  Rehashing (entryEq f) (entryHash f) k map.buckets map.maxPsl i s.1.buckets s.1.maxPsl ∧
    s.1.cap = 2 ^ (k + 1) ∧ s.1.len = (items (2 ^ (k + 1)) s.1.buckets).length ∧
    s.2.refusals = refusals

private theorem rehashBucket_moved (inv : HashmapInv f k map) {refusals i : Nat} (hi : i < 2 ^ k)
    (s : Hashmap κ ν × Mem) (h : Moved f k map refusals i s) :
    ∃ s', rehashBucket ndebug f map.buckets s i = some s' ∧ Moved f k map refusals (i + 1) s' := by
  obtain ⟨r, hcap, hlen, href⟩ := h
  cases hc : map.buckets i with
  | none => exact ⟨s, by simp [rehashBucket, hc], r.skip hc, hcap, hlen, href⟩
  | some c =>
    have pow_le := inv.pow_le
    have load := inv.packed.load
    have fewer := r.fewer.length_le
    have part := (items_sublist hi.le map.buckets).length_le
    simp only [List.length_map] at fewer
    obtain ⟨res, run, spec, more, -⟩ := r.insert ndebug _ entryHash_update inv.packed hi hc
    rw [← hcap, ← slot_eq_home hcap c.item] at run
    obtain ⟨m', same, result⟩ := hashmapInsertRaw_of_loop (m := s.2) run
    have len : addSize s.1.len 1 = s.1.len + 1 := addSize_of_lt (by omega)
    simp only [rehashBucket, hc]
    refine ⟨_, result, more, hcap, ?_, same.trans href⟩
    simp only [len]
    rw [spec.length_eq, hlen]

theorem hashmapResizeAndRehash_spec (ndebug : Bool) (inv : HashmapInv f k map) (m : Mem) :
    (∃ m', hashmapResizeAndRehash ndebug f map (mulSize map.cap 2) m = some (.oom, map, m') ∧
      m'.refusals = m.refusals + 1) ∨
    ∃ map' m', hashmapResizeAndRehash ndebug f map (mulSize map.cap 2) m = some (.ok, map', m') ∧
      HashmapInv f (k + 1) map' ∧ map'.maxPsl ≤ 123 + (k + 1) ∧ map'.len ≤ map.len ∧
      m'.refusals = m.refusals ∧
      (map.entries.Pairwise (Apart (entryEq f)) → map'.entries.Perm map.entries) := by
  obtain ⟨twice, size⟩ := sizeof_buckets inv.packed.high
  rw [inv.cap_eq, twice]
  rcases hm : memAlloc m (mulSize (2 ^ (k + 1)) sizeofBucket) with ⟨_ | addr, m₁⟩
  · exact .inl ⟨m₁, by simp only [hashmapResizeAndRehash, hm], memAlloc_none hm⟩
  obtain ⟨-, granted, quiet⟩ := memAlloc_some hm
  -- 2^59 buckets are more than any allocator grants.
  have small : k + 1 ≤ 58 := by
    by_contra large
    have : 2 ^ 59 ≤ 2 ^ (k + 1) := Nat.pow_le_pow_right (by omega) (by omega)
    rw [size, ptrdiffMax] at granted
    omega
  obtain ⟨⟨map', m₂⟩, run, moved, hcap, hlen, href⟩ :=
    foldlM_range (f := rehashBucket ndebug f map.buckets) (P := Moved f k map m.refusals) (2 ^ k)
      (fun i hi s hs => rehashBucket_moved inv hi s hs)
      (s := ({ map with
        bucketsAddr := addr, buckets := fun _ => none, cap := 2 ^ (k + 1), len := 0, maxPsl := 0 },
        m₁))
      ⟨rehashing_start, rfl, by simp, quiet⟩
  obtain ⟨packed, spare, fewer⟩ := moved.finish inv.packed small
  refine .inr ⟨map', memFree m₂ (some map.bucketsAddr) (mulSize map.cap sizeofBucket), ?_,
    ⟨hcap, packed, hlen⟩, spare, ?_, by simpa using href, fun distinct => ?_⟩
  · simp [hashmapResizeAndRehash, hm, inv.cap_eq, run]
  · rw [hlen, inv.len_eq]
    exact fewer
  · rw [inv.entries_eq] at distinct ⊢
    rw [Hashmap.entries, hcap]
    exact moved.all distinct

theorem hashmapGrow_spec (ndebug : Bool) (inv : HashmapInv f k map) (m : Mem) :
    (∃ m', hashmapGrow ndebug f map m = some (.oom, map, m') ∧ m'.refusals = m.refusals + 1) ∨
    ∃ k' map' m', hashmapGrow ndebug f map m = some (.ok, map', m') ∧ HashmapInv f k' map' ∧
      map'.maxPsl ≤ 123 + k' ∧ 4 * (map'.len + 1) ≤ 3 * 2 ^ k' ∧ map'.len ≤ map.len ∧
      m'.refusals = m.refusals ∧
      (map.entries.Pairwise (Apart (entryEq f)) → map'.entries.Perm map.entries) := by
  have pow_le := inv.pow_le
  have len_le := inv.len_le
  have low := inv.packed.low
  have at_least : 2 ^ 4 ≤ 2 ^ k := Nat.pow_le_pow_right (by omega) low
  have full : mulSize map.cap 3 = 2 ^ k * 3 := by
    rw [inv.cap_eq]
    exact mulSize_of_lt (by omega)
  have used : mulSize (addSize map.len 1) 4 = (map.len + 1) * 4 := by
    rw [addSize_of_lt (by omega)]
    exact mulSize_of_lt (by omega)
  unfold hashmapGrow
  rw [full, used]
  split
  · rcases hashmapResizeAndRehash_spec ndebug inv m with oom | ⟨map', m', run, inv',
      spare, fewer, quiet, perm⟩
    · exact .inl oom
    · refine .inr ⟨k + 1, map', m', run, inv', spare, ?_, fewer, quiet, perm⟩
      rw [Nat.pow_succ]
      omega
  · rename_i calm
    rw [hashPslThreshold] at calm
    exact .inr ⟨k, map, m, rfl, inv, by omega, by omega, le_rfl, rfl, fun _ => .refl _⟩

/-! ### `hashmap_set` -/

/-- What a call of `hashmap_set` with both pointers does: a failure to allocate,
even after a doubling, leaves the entries; success stores the pair. -/
theorem hashmapSet_spec (ndebug : Bool) (inv : HashmapInv f k map) (key : κ) (value : ν) (m : Mem) :
    ∃ st k' map' m', hashmapSet ndebug f map (some key) (some value) m = some (st, map', m') ∧
      HashmapInv f k' map' ∧
      ((st = .oom ∧ m.refusals < m'.refusals ∧ (map.entries.Pairwise (Apart (entryEq f)) →
          map'.entries.Perm map.entries)) ∨
        (st = .ok ∧ m'.refusals = m.refusals ∧ ∀ g, f.Lawful → Represents f.eq map.contents g →
          Represents f.eq map'.contents (insert f.eq g key value))) := by
  rcases hashmapGrow_spec ndebug inv m with ⟨m₁, grow, more⟩ | ⟨k', map₁, m₁, grow,
    inv₁, spare, room, -, quiet, perm⟩
  · exact ⟨.oom, k, map, m₁, by simp [hashmapSet, grow], inv,
      .inl ⟨rfl, by omega, fun _ => .refl _⟩⟩
  rcases hkey : memAlloc m₁ map₁.keySize with ⟨_ | keyCopy, m₂⟩
  · exact ⟨.oom, k', map₁, m₂, by simp [hashmapSet, grow, hashmapStore, hkey], inv₁,
      .inl ⟨rfl, by have := memAlloc_none hkey; omega, perm⟩⟩
  obtain ⟨-, -, quiet₂⟩ := memAlloc_some hkey
  rcases hval : memAlloc m₂ map₁.valSize with ⟨_ | valCopy, m₃⟩
  · refine ⟨.oom, k', map₁, memFree m₃ (some keyCopy) map₁.keySize,
      by simp [hashmapSet, grow, hashmapStore, hkey, hval], inv₁, .inl ⟨rfl, ?_, perm⟩⟩
    have := memAlloc_none hval
    simp
    omega
  obtain ⟨-, -, quiet₃⟩ := memAlloc_some hval
  obtain ⟨map₂, m₄, run, inv₂, quiet₄, stored⟩ := hashmapInsertRaw_spec ndebug inv₁ room
    spare ⟨⟨keyCopy, key⟩, ⟨valCopy, value⟩⟩ m₃
  refine ⟨.ok, k', map₂, m₄, by simp [hashmapSet, grow, hashmapStore, hkey, hval, run], inv₂,
    .inr ⟨rfl, by omega, fun g law rep => stored g law ?_⟩⟩
  exact rep.perm law.toEqLaws ((perm (distinct_of_represents law rep)).map Entry.pair).symm

/-! ### Lookup -/

/-- A search returns the slot of an equal key, and none only if no entry whose key
has the hash of `key` has an equal one. -/
theorem hashmapFind_spec (inv : HashmapInv f k map) (key : κ) :
    ∃ r, hashmapFind f map key = some r ∧
      (∀ s, r = some s → s < 2 ^ k ∧ ∃ c, map.buckets s = some c ∧ f.eq c.item.key.val key = true) ∧
      (r = none → ∀ e ∈ map.entries, f.hash e.key.val = f.hash key →
        f.eq e.key.val key = false) := by
  obtain ⟨r, run, found, absent⟩ := inv.packed.probe (fun e => f.eq e.key.val key) (f.hash key)
    (2 ^ k) (Nat.min_le_right _ _)
  refine ⟨r, ?_, found, fun h e he => absent h e (inv.entries_eq ▸ he)⟩
  rwa [hashmapFind, hashmapGetSlot, inv.cap_eq, and_pred]

/-- The pointer returned is that of the one entry with an equal key. -/
theorem hashmapGetPtr_spec (inv : HashmapInv f k map) (law : f.Lawful)
    (distinct : map.entries.Pairwise (Apart (entryEq f))) (key : κ) :
    ∃ r, hashmapGetPtr f map (some key) = some r ∧
      ∀ b, r = some b ↔ ∃ e ∈ map.entries, f.eq e.key.val key = true ∧ e.value = b := by
  obtain ⟨r, run, found, absent⟩ := hashmapFind_spec inv key
  cases r with
  | none =>
    refine ⟨none, by simp [hashmapGetPtr, run], fun b => ⟨by simp, ?_⟩⟩
    rintro ⟨e, he, hit, -⟩
    simp [absent rfl e he (law.hash_eq _ _ hit)] at hit
  | some s =>
    obtain ⟨hs, c, hc, equal⟩ := found s rfl
    have stored : c.item ∈ map.entries := inv.entries_eq ▸ mem_items.mpr ⟨s, hs, c, hc, rfl⟩
    refine ⟨some c.item.value, by simp [hashmapGetPtr, run, hc], fun b => ?_⟩
    simp only [Option.some.injEq]
    constructor
    · rintro rfl
      exact ⟨c.item, stored, equal, rfl⟩
    · rintro ⟨e, he, hit, rfl⟩
      by_contra ne
      have apart : Apart (entryEq f) c.item e := distinct.forall stored he (fun h => ne (h ▸ rfl))
      have clash := law.trans _ _ _ equal (law.symm _ _ hit)
      exact absurd clash (by simp [show f.eq _ _ = false from apart.1])

theorem hashmapGetPtr_represents (inv : HashmapInv f k map) (law : f.Lawful) {g : κ → Option ν}
    (rep : Represents f.eq map.contents g) (key : κ) :
    ∃ r, hashmapGetPtr f map (some key) = some r ∧ r.map Block.val = g key := by
  obtain ⟨r, run, unique⟩ := hashmapGetPtr_spec inv law (distinct_of_represents law rep) key
  refine ⟨r, run, ?_⟩
  ext v
  rw [rep.lookup, Option.map_eq_some_iff]
  constructor
  · rintro ⟨b, hb, rfl⟩
    obtain ⟨e, he, hit, rfl⟩ := (unique b).mp hb
    exact ⟨e.pair, List.mem_map_of_mem he, hit, rfl⟩
  · rintro ⟨p, hp, hit, rfl⟩
    obtain ⟨e, he, rfl⟩ := List.mem_map.mp hp
    exact ⟨e.value, (unique e.value).mpr ⟨e, he, hit, rfl⟩, rfl⟩

/-! ### `hashmap_remove` and `hashmap_clear` -/

theorem hashmapRemove_spec (inv : HashmapInv f k map) (key : κ) (m : Mem) :
    ∃ st map' m', hashmapRemove f map (some key) m = some (st, map', m') ∧ HashmapInv f k map' ∧
      m'.refusals = m.refusals ∧
      ((st = .notFound ∧ map' = map ∧ ∀ e ∈ map.entries, f.hash e.key.val = f.hash key →
          f.eq e.key.val key = false) ∨
        (st = .ok ∧ ∃ e, f.eq e.key.val key = true ∧ (e :: map'.entries).Perm map.entries)) := by
  obtain ⟨r, run, found, absent⟩ := hashmapFind_spec inv key
  cases r with
  | none =>
    exact ⟨.notFound, map, m, by simp [hashmapRemove, run], inv, rfl, .inl ⟨rfl, rfl, absent rfl⟩⟩
  | some s =>
    obtain ⟨hs, c, hc, equal⟩ := found s rfl
    obtain ⟨t', shift, packed, perm⟩ := inv.packed.remove hs hc
    have len := perm.length_eq
    simp only [List.length_cons] at len
    refine ⟨.ok, { map with buckets := t', len := map.len - 1 },
      freeEntry map.keySize map.valSize m c.item, ?_, ⟨inv.cap_eq, packed, ?_⟩, by simp [freeEntry],
      .inr ⟨rfl, c.item, equal, ?_⟩⟩
    · simp only [hashmapRemove, run, hc, inv.cap_eq, and_next, Option.bind_eq_bind,
        Option.bind_some, shift, Option.pure_def]
    · have := inv.len_eq
      simp only
      omega
    · rw [inv.entries_eq]
      simpa only [Hashmap.entries, inv.cap_eq] using perm

theorem hashmapClear_spec (inv : HashmapInv f k map) (m : Mem) :
    HashmapInv f k (hashmapClear map m).1 ∧ (hashmapClear map m).1.entries = [] ∧
      (hashmapClear map m).2.refusals = m.refusals := by
  refine ⟨⟨inv.cap_eq, packed_empty _ inv.packed.low inv.packed.high, by simp [hashmapClear]⟩,
    by simp [hashmapClear, Hashmap.entries], ?_⟩
  simp only [hashmapClear]
  induction items map.cap map.buckets generalizing m with
  | nil => rfl
  | cons e es ih =>
    rw [List.foldl_cons, ih]
    simp [freeEntry]

/-- A fresh map is empty. -/
theorem hashmapCreate_spec {keySize valSize : Nat} {m m' : Mem} (f : KeyFns κ)
    (h : hashmapCreate κ ν keySize valSize m = (some map, m')) :
    HashmapInv f 4 map ∧ map.entries = [] ∧ m'.refusals = m.refusals := by
  unfold hashmapCreate at h
  split at h
  · simp at h
  rcases hmap : memAlloc m sizeofHashmap with ⟨_ | addr, m₁⟩
  · simp [hmap] at h
  rcases hbuckets : memAlloc m₁ (mulSize 16 sizeofBucket) with ⟨_ | bucketsAddr, m₂⟩
  · simp [hmap, hbuckets] at h
  simp only [hmap, hbuckets, Prod.mk.injEq, Option.some.injEq] at h
  obtain ⟨rfl, rfl⟩ := h
  exact ⟨⟨rfl, packed_empty _ (by omega) (by omega), by simp⟩, by simp [Hashmap.entries],
    (memAlloc_some hbuckets).2.2.trans (memAlloc_some hmap).2.2⟩

end Seqc
