import Seqc.KeyTable
import Seqc.SetRun

/-! Growth without new keys. Both files decide to double before they look for the key, so a
call that adds none grows a table whose longest probe a doubling does not shorten. -/

namespace Seqc
open RobinHood ClassMap Runs

variable {κ ν : Type} {f : KeyFns κ} {ndebug : Bool} {k : Nat}

namespace KeyTable

structure Inv (f : KeyFns κ) (k : Nat) (T : KeyTable κ) : Prop where
  cap_eq : T.cap = 2 ^ k
  packed : Packed f.hash k T.buckets T.maxPsl
  apart : T.keys.Pairwise (Apart f.eq)

theorem Inv.keys_eq {T : KeyTable κ} (inv : T.Inv f k) : T.keys = items (2 ^ k) T.buckets := by
  rw [KeyTable.keys, inv.cap_eq]

/-- In an array of `n` slots some adjacent ones are home to 127 more of the keys than they
are slots. -/
def Crowded (f : KeyFns κ) (n : Nat) (keys : List κ) : Prop :=
  ∃ a width, 0 < width ∧ width + 127 ≤ windowCount n (fun x => f.hash x % n) keys a width

theorem Crowded.perm {n : Nat} {xs ys : List κ} (h : xs.Perm ys) :
    Crowded f n xs ↔ Crowded f n ys := by
  unfold Crowded windowCount
  simp only [h.countP_eq]

theorem Inv.slot_eq {T : KeyTable κ} (cap : T.cap = 2 ^ k) (x : κ) :
    T.slot f x = homeIn f.hash k x := by rw [slot, cap, and_pred, homeIn]

/-- What the insertion of a key does to the table. -/
theorem insertRaw_of_loop {T : KeyTable κ} (cap : T.cap = 2 ^ k) {x : κ} {r : Inserted κ}
    (run : insertLoop ndebug f.eq (fun cur _ => cur) (2 ^ k) (2 ^ k) T.buckets T.maxPsl
      (homeIn f.hash k x) x 1 = some r) :
    T.insertRaw ndebug f x = some ⟨2 ^ k, r.buckets, r.maxPsl⟩ := by
  rw [insertRaw, Inv.slot_eq cap, cap, run]
  rfl

theorem insertRaw_present (law : f.Lawful) {T : KeyTable κ} (inv : T.Inv f k) {x : κ}
    (present : ∃ y ∈ T.keys, f.eq y x = true) : T.insertRaw ndebug f x = some T := by
  obtain ⟨y, hy, equal⟩ := present
  have apart := inv.apart
  rw [inv.keys_eq] at hy apart
  obtain ⟨s, cell, hcell, rfl, run⟩ := inv.packed.insert_present_eq ndebug (fun cur _ => cur)
    apart hy equal (law.hash_eq _ _ equal) fun a b ha hb => law.trans _ _ _ ha (law.symm _ _ hb)
  have same : put T.buckets s (some ⟨cell.item, cell.psl⟩) = T.buckets := by
    rw [← hcell]
    exact Function.update_eq_self s T.buckets
  rw [insertRaw_of_loop inv.cap_eq run, same, ← inv.cap_eq]

/-! ### Doubling -/

/-- A doubling that has moved `i` buckets; its recorded maximum is the longest probe. -/
private structure Doubling (f : KeyFns κ) (k : Nat) (old : KeyTable κ) (i : Nat)
    (T : KeyTable κ) : Prop where
  cap_eq : T.cap = 2 ^ (k + 1)
  moved : Rehashing f.eq f.hash k old.buckets old.maxPsl i T.buckets T.maxPsl
  tight : ∀ b, (∀ i < 2 ^ (k + 1), pslAt T.buckets i ≤ b) → T.maxPsl ≤ b

private theorem rehashBucket_doubling {old T : KeyTable κ} (inv : old.Inv f k) {i : Nat}
    (hi : i < 2 ^ k) (d : Doubling f k old i T) :
    ∃ T', T.rehashBucket ndebug f old.buckets i = some T' ∧ Doubling f k old (i + 1) T' := by
  cases hc : old.buckets i with
  | none => exact ⟨T, by simp [rehashBucket, hc], d.cap_eq, d.moved.skip hc, d.tight⟩
  | some c =>
    obtain ⟨r, run, spec, moved, -⟩ := d.moved.insert ndebug (fun cur _ => cur) (fun _ _ => rfl)
      inv.packed hi hc
    refine ⟨⟨2 ^ (k + 1), r.buckets, r.maxPsl⟩, ?_, rfl, moved, fun b short => ?_⟩
    · simp only [rehashBucket, hc]
      exact insertRaw_of_loop d.cap_eq run
    · refine spec.attained b (d.tight b fun j hj => ?_) short
      exact (spec.grown j hj).trans (short j hj)

variable (ndebug) in
theorem double_spec {T : KeyTable κ} (inv : T.Inv f k) (high : k + 1 ≤ 58) :
    ∃ T', T.double ndebug f = some T' ∧ T'.Inv f (k + 1) ∧ T'.keys.Perm T.keys ∧
      T'.maxPsl ≤ T.maxPsl ∧ (T'.Overfull ↔ Crowded f (2 * T.cap) T.keys) := by
  have cap : 2 * T.cap = 2 ^ (k + 1) := by rw [inv.cap_eq, Nat.pow_succ']
  obtain ⟨T', run, d⟩ := foldlM_range (f := rehashBucket ndebug f T.buckets)
    (P := Doubling f k T) (2 ^ k) (fun i hi T' d => rehashBucket_doubling inv hi d)
    (s := ⟨2 ^ (k + 1), fun _ => none, 0⟩) ⟨rfl, rehashing_start, fun _ _ => Nat.zero_le _⟩
  obtain ⟨packed, -, fewer⟩ := d.moved.finish inv.packed high
  have apart := inv.apart
  rw [inv.keys_eq] at apart
  have perm : T'.keys.Perm T.keys := by
    rw [KeyTable.keys, d.cap_eq, inv.keys_eq]
    exact d.moved.all apart
  have inv' : T'.Inv f (k + 1) :=
    ⟨d.cap_eq, packed, (pairwise_apart_perm perm).mpr inv.apart⟩
  refine ⟨T', ?_, inv', perm, d.moved.small, ?_⟩
  · rw [double, cap, inv.cap_eq]
    exact run
  -- A doubled array is not loaded, so only its longest probe matters.
  have load := inv.packed.load
  have low : 2 ^ 4 ≤ 2 ^ k := Nat.pow_le_pow_right (by omega) inv.packed.low
  have count := perm.length_eq
  rw [inv.keys_eq] at count
  have wide : T'.cap = 2 * 2 ^ k := by rw [d.cap_eq, Nat.pow_succ']
  have probes : T'.Overfull ↔ 128 ≤ T'.maxPsl := by
    rw [Overfull]
    omega
  have longest : 128 ≤ T'.maxPsl ↔ ∃ i < 2 ^ (k + 1), 128 ≤ pslAt T'.buckets i := by
    constructor
    · intro long
      by_contra none_long
      have := d.tight 127 fun i hi => by
        by_contra more
        exact none_long ⟨i, hi, by omega⟩
      omega
    · rintro ⟨i, hi, long⟩
      exact long.trans (packed.covers i hi)
  obtain ⟨e, he, free⟩ := exists_free packed.room
  rw [probes, longest, packed.valid.exists_long_iff (homeIn_lt f.hash (k + 1)) he free (by omega),
    ← inv'.keys_eq, cap, ← Crowded.perm perm]
  rfl

theorem double_cap {T T' : KeyTable κ} (h : T.double ndebug f = some T') :
    T'.cap = 2 * T.cap := by
  refine foldlM_keeps KeyTable.cap (fun T₁ i T₂ step => ?_) _ h
  unfold rehashBucket at step
  split at step
  · rw [Option.some.inj step]
  · obtain ⟨r, -, rfl⟩ := Option.map_eq_some_iff.mp step
    rfl

/-! ### Calls that add no key -/

def growTimes (ndebug : Bool) (f : KeyFns κ) : Nat → KeyTable κ → Option (KeyTable κ)
  | 0, T => some T
  | n + 1, T => do
    let T ← T.grow ndebug f
    growTimes ndebug f n T

theorem grow_cases {T T' : KeyTable κ} (h : T.grow ndebug f = some T') :
    (¬T.Overfull ∧ T' = T) ∨
      (T.Overfull ∧ T.double ndebug f = some T' ∧ T'.cap = 2 * T.cap) := by
  unfold grow at h
  split at h
  · rename_i above
    exact .inr ⟨above, h, double_cap h⟩
  · rename_i calm
    exact .inl ⟨calm, (Option.some.inj h).symm⟩

theorem growTimes_calm {T : KeyTable κ} (calm : ¬T.Overfull) (n : Nat) :
    growTimes ndebug f n T = some T := by
  induction n with
  | zero => rfl
  | succ n ih => rw [growTimes, grow, if_neg calm, Option.bind_eq_bind, Option.bind_some, ih]

theorem growTimes_cap_le (n : Nat) :
    ∀ {T T' : KeyTable κ}, growTimes ndebug f n T = some T' → T.cap ≤ T'.cap := by
  induction n with
  | zero =>
    intro T T' h
    rw [Option.some.inj h]
  | succ n ih =>
    intro T T' h
    obtain ⟨T₁, grown, rest⟩ := Option.bind_eq_some_iff.mp h
    have later := ih rest
    rcases grow_cases grown with ⟨-, rfl⟩ | ⟨-, -, cap⟩
    · exact later
    · omega

theorem Inv.high_of_double {T T' : KeyTable κ} (inv : T.Inv f k) (cap : T'.cap = 2 * T.cap)
    (small : T'.cap ≤ 2 ^ 58) : k + 1 ≤ 58 := by
  by_contra large
  have large : 2 ^ 58 ≤ 2 ^ k := Nat.pow_le_pow_right (by omega) (by omega)
  have cap_eq := inv.cap_eq
  omega

/-- A table that grows `n` times has more than doubled exactly if it was overfull, the
doubled one was again, and there were two calls. -/
theorem growTimes_bounded {T T' : KeyTable κ} (inv : T.Inv f k) {n : Nat}
    (h : growTimes ndebug f n T = some T') (small : T'.cap ≤ 2 ^ 58) :
    T'.cap ≤ 2 * T.cap ↔ ¬(2 ≤ n ∧ T.Overfull ∧ Crowded f (2 * T.cap) T.keys) := by
  have pos : 0 < T.cap := by
    rw [inv.cap_eq]
    exact Nat.two_pow_pos k
  match n with
  | 0 =>
    obtain rfl := Option.some.inj h
    simp
    omega
  | 1 =>
    obtain ⟨T₁, grown, rest⟩ := Option.bind_eq_some_iff.mp h
    obtain rfl := Option.some.inj rest
    rcases grow_cases grown with ⟨-, rfl⟩ | ⟨-, -, cap⟩ <;> simp <;> omega
  | n + 2 =>
    obtain ⟨T₁, grown, rest⟩ := Option.bind_eq_some_iff.mp h
    rcases grow_cases grown with ⟨calm, rfl⟩ | ⟨above, doubled, cap⟩
    · rw [growTimes_calm calm] at rest
      obtain rfl := Option.some.inj rest
      simp [calm]
      omega
    · have later := growTimes_cap_le _ rest
      have high := inv.high_of_double cap (later.trans small)
      obtain ⟨T₁', doubled', -, -, -, again⟩ := double_spec ndebug inv high
      obtain rfl := Option.some.inj (doubled.symm.trans doubled')
      by_cases over₁ : T₁.Overfull
      · obtain ⟨T₂, grown₂, rest₂⟩ := Option.bind_eq_some_iff.mp rest
        have later₂ := growTimes_cap_le _ rest₂
        have more : ¬T'.cap ≤ 2 * T.cap := by
          rcases grow_cases grown₂ with ⟨calm, -⟩ | ⟨-, -, cap₂⟩
          · exact absurd over₁ calm
          · omega
        simp [more, above, again.mp over₁]
      · rw [growTimes_calm over₁] at rest
        obtain rfl := Option.some.inj rest
        simp [cap, again.not.mp over₁]

theorem Inv.grow {T T' : KeyTable κ} (inv : T.Inv f k) (h : T.grow ndebug f = some T')
    (small : T'.cap ≤ 2 ^ 58) : (∃ k', T'.Inv f k') ∧ T'.keys.Perm T.keys := by
  rcases grow_cases h with ⟨-, rfl⟩ | ⟨-, doubled, cap⟩
  · exact ⟨⟨k, inv⟩, .refl _⟩
  · have high := inv.high_of_double cap small
    obtain ⟨T₁, doubled', inv₁, perm, -⟩ := double_spec ndebug inv high
    obtain rfl := Option.some.inj (doubled.symm.trans doubled')
    exact ⟨⟨k + 1, inv₁⟩, perm⟩

/-- To add a key that is present is to grow. -/
theorem Inv.add_present (law : f.Lawful) {T T' : KeyTable κ} (inv : T.Inv f k) {x : κ}
    (present : ∃ y ∈ T.keys, f.eq y x = true) (h : T.add ndebug f x = some T')
    (small : T'.cap ≤ 2 ^ 58) : T.grow ndebug f = some T' := by
  obtain ⟨T₁, grown, stored⟩ := Option.bind_eq_some_iff.mp h
  have cap : T₁.cap = T'.cap := by
    obtain ⟨r, -, rfl⟩ := Option.map_eq_some_iff.mp stored
    rfl
  obtain ⟨⟨k₁, inv₁⟩, perm⟩ := inv.grow grown (cap.trans_le small)
  obtain ⟨y, hy, equal⟩ := present
  rw [insertRaw_present law inv₁ ⟨y, perm.mem_iff.mpr hy, equal⟩] at stored
  rwa [← Option.some.inj stored]

end KeyTable

/-! ### Updates of a map -/

theorem HashmapInv.keys_inv {map : Hashmap κ ν} (inv : HashmapInv f k map)
    (apart : map.entries.Pairwise (Apart (entryEq f))) : map.keys.Inv f k where
  cap_eq := inv.cap_eq
  packed := inv.packed.relabel fun e : Entry κ ν => e.key.val
  apart := by
    rw [map.keys_keys]
    exact List.pairwise_map.mpr apart

theorem HashmapInv.cap_le {map : Hashmap κ ν} (inv : HashmapInv f k map) : map.cap ≤ 2 ^ 58 :=
  inv.cap_eq.trans_le inv.pow_le

theorem apart_of_keys {map map' : Hashmap κ ν} (perm : map'.keys.keys.Perm map.keys.keys)
    (apart : map.entries.Pairwise (Apart (entryEq f))) :
    map'.entries.Pairwise (Apart (entryEq f)) := by
  rw [map.keys_keys, map'.keys_keys] at perm
  have whole : (map.entries.map fun e => e.key.val).Pairwise (Apart f.eq) :=
    List.pairwise_map.mpr apart
  have whole' := (pairwise_apart_perm perm).mpr whole
  rwa [List.pairwise_map] at whole'

/-- A call of `hashmap_set` for a key that is present leaves the keys where they are, or
grows the table. -/
theorem hashmapSet_present (law : f.Lawful) {map map' : Hashmap κ ν} {m m' : Mem} {rs : Status}
    {k' : Nat} (inv : HashmapInv f k map) (inv' : HashmapInv f k' map')
    (apart : map.entries.Pairwise (Apart (entryEq f))) {key : κ} {value : ν}
    (present : ∃ y ∈ map.keys.keys, f.eq y key = true)
    (h : hashmapSet ndebug f map (some key) (some value) m = some (rs, map', m')) :
    (map'.keys = map.keys ∧ m.refusals < m'.refusals) ∨
      (map.keys.grow ndebug f = some map'.keys ∧ m.refusals ≤ m'.refusals) := by
  rcases hashmapSet_keys inv h with ⟨-, more, rfl | grown⟩ | ⟨-, quiet, added⟩
  · exact .inl ⟨rfl, more⟩
  · exact .inr ⟨grown, more.le⟩
  · exact .inr ⟨(inv.keys_inv apart).add_present law present added inv'.cap_le, quiet.ge⟩

variable (ndebug) in
/-- Updates grow the table at most once a call, and once a call if no request is refused. -/
theorem updates_grow (law : f.Lawful) (calls : List (κ × ν)) :
    ∀ {k : Nat} (map : Hashmap κ ν) (m : Mem), HashmapInv f k map →
      map.entries.Pairwise (Apart (entryEq f)) →
      (∀ c ∈ calls, ∃ y ∈ map.keys.keys, f.eq y c.1 = true) →
      ∃ outs map' m' n, run (hashmapStep ndebug f)
          (calls.map fun c => .set (some c.1) (some c.2)) (map, m) = some (outs, (map', m')) ∧
        (∃ k', HashmapInv f k' map') ∧ m.refusals ≤ m'.refusals ∧
        KeyTable.growTimes ndebug f n map.keys = some map'.keys ∧ n ≤ calls.length ∧
        (m'.refusals = m.refusals → n = calls.length) := by
  induction calls with
  | nil =>
    intro k map m inv _ _
    exact ⟨[], map, m, 0, rfl, ⟨k, inv⟩, le_rfl, rfl, le_rfl, fun _ => rfl⟩
  | cons c calls ih =>
    intro k map m inv apart present
    obtain ⟨here, later⟩ := List.forall_mem_cons.mp present
    obtain ⟨rs, k₁, map₁, m₁, set, inv₁, -⟩ := hashmapSet_spec ndebug inv c.1 c.2 m
    have step := hashmapSet_present law inv inv₁ apart here set
    have perm : map₁.keys.keys.Perm map.keys.keys := by
      rcases step with ⟨same, -⟩ | ⟨grown, -⟩
      · rw [same]
      · exact ((inv.keys_inv apart).grow grown inv₁.cap_le).2
    obtain ⟨outs, map', m', n, ran, inv', more, grown, short, quiet⟩ :=
      ih map₁ m₁ inv₁ (apart_of_keys perm apart) fun c hc => by
        obtain ⟨y, hy, equal⟩ := later c hc
        exact ⟨y, perm.mem_iff.mpr hy, equal⟩
    have ran' : run (hashmapStep ndebug f)
        ((c :: calls).map fun c => .set (some c.1) (some c.2)) (map, m) =
          some (.status rs :: outs, (map', m')) := by
      simp [run, hashmapStep, set, ran]
    rcases step with ⟨same, refused⟩ | ⟨grew, calm⟩
    · refine ⟨_, map', m', n, ran', inv', by omega, same ▸ grown, ?_, fun q => by omega⟩
      exact short.trans (Nat.le_succ _)
    · refine ⟨_, map', m', n + 1, ran', inv', by omega, ?_, Nat.succ_le_succ short,
        fun q => congrArg (· + 1) (quiet (by omega))⟩
      rw [KeyTable.growTimes, grew]
      exact grown

/-! ### Duplicates in a set -/

theorem SetInv.keys_inv {s : SetT κ} (inv : SetInv f k s) (d : SetDistinct f s) :
    s.keys.Inv f k where
  cap_eq := inv.cap_eq
  packed := inv.packed.relabel Block.val
  apart := by
    rw [s.keys_keys]
    exact List.pairwise_map.mpr d.apart

theorem SetState.cap_le {s : SetT κ} (state : SetState f s) : s.cap ≤ 2 ^ 58 := by
  cases state with
  | fresh fresh =>
    rw [fresh.cap_eq]
    exact Nat.zero_le _
  | table k inv => exact inv.cap_eq.trans_le inv.pow_le

/-- An addition that finds a duplicate grows the set. -/
theorem setAdd_duplicate (law : f.Lawful) {s s' : SetT κ} {m m' : Mem} {elem : κ}
    (state : SetState f s) (d : SetDistinct f s)
    (h : setAdd ndebug f s (some elem) m = some (.duplicate, s', m')) :
    (∃ k, SetInv f k s) ∧ SetState f s' ∧ SetDistinct f s' ∧ m'.refusals = m.refusals ∧
      s.keys.grow ndebug f = some s'.keys := by
  obtain ⟨rs, s₁, m₁, run, state', -, outcome⟩ := setAdd_spec ndebug state elem m
  obtain ⟨rfl, rfl, rfl⟩ : .duplicate = rs ∧ s' = s₁ ∧ m' = m₁ := by
    simpa using h.symm.trans run
  obtain ⟨-, quiet, kept⟩ := (outcome.resolve_left (by simp)).resolve_left (by simp)
  obtain ⟨d', ⟨c, hc, equal⟩, -⟩ := kept law d
  cases state with
  | fresh fresh => simp [fresh.entries_eq] at hc
  | table k inv =>
    have first : setFirstBuckets s m = (.ok, s, m) := by rw [setFirstBuckets, if_neg inv.cap_ne]
    obtain ⟨-, -, added⟩ := (setAdd_keys first inv d h).resolve_left (by simp)
    have present : ∃ y ∈ s.keys.keys, f.eq y elem = true := by
      rw [s.keys_keys]
      exact ⟨c.val, List.mem_map_of_mem hc, equal⟩
    exact ⟨⟨k, inv⟩, state', d', quiet,
      (inv.keys_inv d).add_present law present added state'.cap_le⟩

theorem duplicates_grow (law : f.Lawful) (elems : List κ) :
    ∀ {s s' : SetT κ} {m m' : Mem} {outs : List (Answer κ)}, SetState f s → SetDistinct f s →
      run (setStep ndebug f) (elems.map fun x => .add (some x)) (s, m) = some (outs, (s', m')) →
      (∀ out ∈ outs, out = .status .duplicate) →
      SetState f s' ∧ ((∃ k, SetInv f k s) ∨ elems = []) ∧
        KeyTable.growTimes ndebug f elems.length s.keys = some s'.keys := by
  induction elems with
  | nil =>
    intro s s' m m' outs state _ h _
    obtain ⟨-, rfl, rfl⟩ : [] = outs ∧ s = s' ∧ m = m' := by simpa [run] using h
    exact ⟨state, .inr rfl, rfl⟩
  | cons x elems ih =>
    intro s s' m m' outs state d h all
    obtain ⟨⟨out, s₁, m₁⟩, first, rest⟩ := Option.bind_eq_some_iff.mp h
    obtain ⟨⟨outs₁, s₂, m₂⟩, later, rest⟩ := Option.bind_eq_some_iff.mp rest
    obtain ⟨rfl, rfl, rfl⟩ : out :: outs₁ = outs ∧ s₂ = s' ∧ m₂ = m' := by simpa using rest
    obtain ⟨here, others⟩ := List.forall_mem_cons.mp all
    subst here
    obtain ⟨⟨rs, s₃, m₃⟩, add, rest⟩ := Option.bind_eq_some_iff.mp first
    obtain ⟨rfl, rfl, rfl⟩ : rs = .duplicate ∧ s₃ = s₁ ∧ m₃ = m₁ := by simpa using rest
    obtain ⟨inv, state₁, d₁, -, grown⟩ := setAdd_duplicate law state d add
    obtain ⟨state', -, rest⟩ := ih state₁ d₁ later others
    refine ⟨state', .inl inv, ?_⟩
    rw [List.length_cons, KeyTable.growTimes, grown]
    exact rest

/-- A table that asks for a larger array while its keys crowd the doubled one. -/
def KeyTable.Runaway (f : KeyFns κ) (T : KeyTable κ) : Prop :=
  T.Overfull ∧ Crowded f (2 * T.cap) T.keys

/-- Calls that add no key more than double the capacity exactly if there are two or more of
them and the table is runaway before them; a run with refused requests may grow less. -/
theorem bounded_growth (law : f.Lawful) (ndebug : Bool) :
    (∀ (map : Hashmap κ ν) (m : Mem) (calls : List (κ × ν)), HashmapReachable f map →
      (∀ c ∈ calls, map.Has f c.1) →
      ∃ outs map' m', run (hashmapStep ndebug f)
          (calls.map fun c => .set (some c.1) (some c.2)) (map, m) = some (outs, (map', m')) ∧
        (¬(2 ≤ calls.length ∧ map.keys.Runaway f) → map'.cap ≤ 2 * map.cap) ∧
        (m'.refusals = m.refusals →
          (map'.cap ≤ 2 * map.cap ↔ ¬(2 ≤ calls.length ∧ map.keys.Runaway f)))) ∧
    ∀ (s s' : SetT κ) (m m' : Mem) (elems : List κ) (outs : List (Answer κ)),
      SetReachable f s →
      run (setStep ndebug f) (elems.map fun x => .add (some x)) (s, m) = some (outs, (s', m')) →
      (∀ out ∈ outs, out = .status .duplicate) →
      (s'.cap ≤ 2 * s.cap ↔ ¬(2 ≤ elems.length ∧ s.keys.Runaway f)) := by
  constructor
  · intro map m calls h present
    obtain ⟨k, inv⟩ := h.inv
    have apart := h.apart law
    obtain ⟨outs, map', m', n, ran, ⟨k', inv'⟩, -, grown, short, quiet⟩ :=
      updates_grow ndebug law calls map m inv apart fun c hc => by
        obtain ⟨e, he, equal⟩ := (h.has_iff law c.1).mp (present c hc)
        rw [map.keys_keys]
        exact ⟨e.key.val, List.mem_map_of_mem he, equal⟩
    have bounded : map'.cap ≤ 2 * map.cap ↔ ¬(2 ≤ n ∧ map.keys.Runaway f) :=
      KeyTable.growTimes_bounded (inv.keys_inv apart) grown inv'.cap_le
    refine ⟨outs, map', m', ran, fun calm => ?_, fun q => ?_⟩
    · exact bounded.mpr fun above => calm ⟨above.1.trans short, above.2⟩
    · rwa [quiet q] at bounded
  · intro s s' m m' elems outs h ran all
    obtain ⟨state, distinct⟩ := h.inv
    obtain ⟨state', ⟨k, inv⟩ | rfl, grown⟩ := duplicates_grow law elems state (distinct law) ran all
    · exact KeyTable.growTimes_bounded (inv.keys_inv (distinct law)) grown state'.cap_le
    · have same : s.keys.cap = s'.keys.cap := congrArg KeyTable.cap (Option.some.inj grown)
      change s.cap = s'.cap at same
      simp
      omega

/-- Twelve keys, each at home, and two of them again: the array doubles once. -/
theorem bounded_growth_twelve :
    (∃ outs map m outs' map' m',
      run (hashmapStep false numberKeys) ((List.range 12).map fun i => .set (some i) (some i))
        (⟨0, 1, fun _ => none, 16, 0, 8, 8, 0⟩, ⟨refusingOnce 50, 2, []⟩) =
          some (outs, ((map : Hashmap Nat Nat), m)) ∧
      run (hashmapStep false numberKeys) [.set (some 7) (some 71), .set (some 7) (some 72)]
        (map, m) = some (outs', (map', m')) ∧
      map.cap = 16 ∧ map'.cap = 32 ∧ map'.cap ≤ 2 * map.cap) ∧
    ∃ outs s m s' m',
      run (setStep false numberKeys) ((List.range 12).map fun i => .add (some i))
        (⟨0, none, fun _ => none, 0, 0, 8, 0⟩, ⟨refusingOnce 50, 1, []⟩) =
          some (outs, ((s : SetT Nat), m)) ∧
      run (setStep false numberKeys) [.add (some 7), .add (some 3)] (s, m) =
        some ([.status .duplicate, .status .duplicate], (s', m')) ∧
      s.cap = 16 ∧ s'.cap = 32 ∧ s'.cap ≤ 2 * s.cap := by
  have few {T : KeyTable Nat} (count : T.keys.length = 12) : ¬T.Runaway numberKeys := by
    rintro ⟨-, a, width, -, many⟩
    have all := many.trans List.countP_le_length
    omega
  constructor
  · obtain ⟨outs, map, m, ran, cap, seven, count, outs', map', m', again, doubled⟩ :
        ∃ outs map m, run (hashmapStep false numberKeys)
            ((List.range 12).map fun i => .set (some i) (some i))
            (⟨0, 1, fun _ => none, 16, 0, 8, 8, 0⟩, ⟨refusingOnce 50, 2, []⟩) =
              some (outs, ((map : Hashmap Nat Nat), m)) ∧
          map.cap = 16 ∧ map.Has numberKeys 7 ∧ map.keys.keys.length = 12 ∧
          ∃ outs' map' m', run (hashmapStep false numberKeys)
            [.set (some 7) (some 71), .set (some 7) (some 72)] (map, m) =
              some (outs', (map', m')) ∧ map'.cap = 32 :=
      ⟨_, _, _, rfl, rfl, rfl, rfl, _, _, _, rfl, rfl⟩
    have empty : HashmapReachable numberKeys ⟨0, 1, fun _ => none, 16, 0, 8, 8, 0⟩ :=
      .create (rfl : hashmapCreate Nat Nat 8 8 (.start (refusingOnce 50)) = (some _, _))
    obtain ⟨outs₁, map₁, m₁, again₁, bounded, -⟩ := (bounded_growth numberKeys_lawful false).1
      map m [(7, 71), (7, 72)] (empty.after ran) (by simpa using seven)
    obtain ⟨-, same⟩ := Prod.mk.inj (Option.some.inj (again.symm.trans again₁))
    obtain ⟨rfl, -⟩ := Prod.mk.inj same
    exact ⟨outs, map, m, outs', map', m', ran, again, cap, doubled,
      bounded fun above => few count above.2⟩
  · obtain ⟨outs, s, m, ran, cap, count, s', m', again, doubled⟩ :
        ∃ outs s m, run (setStep false numberKeys) ((List.range 12).map fun i => .add (some i))
            (⟨0, none, fun _ => none, 0, 0, 8, 0⟩, ⟨refusingOnce 50, 1, []⟩) =
              some (outs, ((s : SetT Nat), m)) ∧ s.cap = 16 ∧ s.keys.keys.length = 12 ∧
          ∃ s' m', run (setStep false numberKeys) [.add (some 7), .add (some 3)] (s, m) =
            some ([.status .duplicate, .status .duplicate], (s', m')) ∧ s'.cap = 32 :=
      ⟨_, _, _, rfl, rfl, rfl, _, _, rfl, rfl⟩
    have empty : SetReachable numberKeys ⟨0, none, fun _ => none, 0, 0, 8, 0⟩ :=
      .create (rfl : setCreate Nat 8 (.start (refusingOnce 50)) = (some _, _))
    refine ⟨outs, s, m, s', m', ran, again, cap, doubled, ?_⟩
    refine ((bounded_growth (ν := Nat) numberKeys_lawful false).2 s s' m m' [7, 3] _
      (empty.after ran) again (by simp)).mpr ?_
    exact fun above => few count above.2

/-! ### A hash function that is constant -/

section Colliding

theorem setInsertRaw_frame {s s' : SetT κ} {b : Block κ} {m m' : Mem} {inserted : Bool}
    (h : setInsertRaw ndebug f s b m = some (inserted, s', m')) :
    (s'.elemSize, m'.allocator) = (s.elemSize, m.allocator) := by
  obtain ⟨r, -, rest⟩ := Option.bind_eq_some_iff.mp h
  cases hr : r.matched with
  | none =>
    simp only [hr, Option.pure_def, Option.some.injEq, Prod.mk.injEq] at rest
    rw [← rest.2.1, ← rest.2.2]
  | some pair =>
    simp only [hr, Option.pure_def, Option.some.injEq, Prod.mk.injEq] at rest
    rw [← rest.2.1, ← rest.2.2]
    rfl

theorem setGrow_generous {s s' : SetT κ} {m m' : Mem} {rs : Status} (small : s.cap ≤ 512)
    (generous : m.allocator = .generous) (h : setGrow ndebug f s m = some (rs, s', m')) :
    rs = .ok ∧ (s'.elemSize, m'.allocator) = (s.elemSize, m.allocator) := by
  have size : mulSize (mulSize s.cap 2) sizeofSetBucket = s.cap * 2 * 16 := by
    have twice : mulSize s.cap 2 = s.cap * 2 := mulSize_of_lt (by omega)
    rw [twice, sizeofSetBucket, mulSize_of_lt (by omega)]
  unfold setGrow at h
  split at h
  · unfold setResize at h
    rw [size] at h
    rcases hm : memAlloc m (s.cap * 2 * 16) with ⟨_ | addr, m₁⟩
    · have large := memAlloc_generous hm generous
      rw [ptrdiffMax] at large
      omega
    · simp only [hm] at h
      obtain ⟨⟨s₁, m₂⟩, loop, rest⟩ := Option.bind_eq_some_iff.mp h
      obtain ⟨rfl, rfl, rfl⟩ : .ok = rs ∧ s₁ = s' ∧ _ = m' := by simpa using rest
      have frame := foldlM_keeps (fun st : SetT κ × Mem => (st.1.elemSize, st.2.allocator))
        (fun st i st' step => by
          unfold setRehashBucket at step
          split at step
          · rw [Option.some.inj step]
          · obtain ⟨⟨inserted, s₂, m₃⟩, ran, rest⟩ := Option.bind_eq_some_iff.mp step
            obtain rfl : (s₂, m₃) = st' := by simpa using rest
            exact setInsertRaw_frame ran) _ loop
      exact ⟨rfl, frame.trans (by rw [memAlloc_allocator hm])⟩
  · obtain ⟨rfl, rfl, rfl⟩ : .ok = rs ∧ s = s' ∧ m = m' := by simpa using h
    exact ⟨rfl, rfl⟩

/-- A generous allocator refuses no addition to a small set. -/
theorem setAdd_generous {s s' : SetT κ} {m m' : Mem} {rs : Status} {elem : κ}
    (small : s.cap ≤ 512) (size : s.elemSize = 8) (generous : m.allocator = .generous)
    (h : setAdd ndebug f s (some elem) m = some (rs, s', m')) :
    rs ≠ .oom ∧ s'.elemSize = 8 ∧ m'.allocator = .generous := by
  obtain ⟨s₁, m₁, first, small₁, size₁, generous₁⟩ : ∃ s₁ m₁,
      setFirstBuckets s m = (.ok, s₁, m₁) ∧ s₁.cap ≤ 512 ∧ s₁.elemSize = 8 ∧
        m₁.allocator = .generous := by
    by_cases zero : s.cap = 0
    · rcases hm : memAlloc m (mulSize setInitialCap sizeofSetBucket) with ⟨_ | addr, m₁⟩
      · have large := memAlloc_generous hm generous
        exact absurd large (by decide)
      · refine ⟨{ s with
          bucketsAddr := some addr, buckets := fun _ => none, cap := setInitialCap }, m₁, ?_, ?_,
          size, (memAlloc_allocator hm).trans generous⟩
        · simp [setFirstBuckets, zero, hm]
        · simp [setInitialCap]
    · exact ⟨s, m, by rw [setFirstBuckets, if_neg zero], small, size, generous⟩
  simp only [setAdd, first] at h
  obtain ⟨⟨rs₂, s₂, m₂⟩, grow, rest⟩ := Option.bind_eq_some_iff.mp h
  obtain ⟨rfl, frame⟩ := setGrow_generous small₁ generous₁ grow
  obtain ⟨size₂, generous₂⟩ := Prod.mk.inj frame
  rw [size₁] at size₂
  rw [generous₁] at generous₂
  simp only [if_true, setStore] at rest
  rcases hkey : memAlloc m₂ s₂.elemSize with ⟨_ | key, m₃⟩
  · have large := memAlloc_generous hkey generous₂
    rw [size₂] at large
    exact absurd large (by decide)
  simp only [hkey] at rest
  obtain ⟨⟨inserted, s₃, m₄⟩, ran, rest⟩ := Option.bind_eq_some_iff.mp rest
  obtain ⟨size₃, generous₃⟩ := Prod.mk.inj (setInsertRaw_frame ran)
  have kept : s₃.elemSize = 8 ∧ m₄.allocator = .generous :=
    ⟨size₃.trans size₂, generous₃.trans ((memAlloc_allocator hkey).trans generous₂)⟩
  cases inserted with
  | false =>
    obtain ⟨rfl, rfl, rfl⟩ : .duplicate = rs ∧ s₃ = s' ∧ m₄ = m' := by simpa using rest
    exact ⟨by simp, kept⟩
  | true =>
    obtain ⟨rfl, rfl, rfl⟩ : .ok = rs ∧ _ = s' ∧ m₄ = m' := by simpa using rest
    exact ⟨by simp, kept⟩

/-- A new key in a table of few keys leaves it small. -/
theorem KeyTable.Inv.add_small {T T' : KeyTable κ} {n : Nat} {x : κ} (inv : T.Inv f k)
    (hn : n < 128) (count : T.keys.length = n) (cap : T.cap ≤ 256) (short : T.maxPsl ≤ n)
    (h : T.add ndebug f x = some T') : T'.cap ≤ 256 ∧ T'.maxPsl ≤ n + 1 := by
  obtain ⟨T₁, grown, stored⟩ := Option.bind_eq_some_iff.mp h
  have low := inv.packed.low
  have wide := inv.cap_eq
  obtain ⟨k₁, inv₁, count₁, cap₁, short₁, room⟩ : ∃ k₁, T₁.Inv f k₁ ∧ T₁.keys.length = n ∧
      T₁.cap ≤ 256 ∧ T₁.maxPsl ≤ n ∧ 4 * (n + 1) ≤ 3 * T₁.cap := by
    rcases KeyTable.grow_cases grown with ⟨calm, rfl⟩ | ⟨above, doubled, cap₁⟩
    · rw [KeyTable.Overfull] at calm
      exact ⟨k, inv, count, cap, short, by omega⟩
    · -- At 256 slots neither test of the guard can succeed.
      have less : T.cap < 256 := by
        rw [KeyTable.Overfull] at above
        omega
      have hk : k < 8 := by
        by_contra large
        have : 2 ^ 8 ≤ 2 ^ k := Nat.pow_le_pow_right (by omega) (by omega)
        omega
      have half : 2 ^ k ≤ 2 ^ 7 := Nat.pow_le_pow_right (by omega) (by omega)
      have at_least : 2 ^ 4 ≤ 2 ^ k := Nat.pow_le_pow_right (by omega) low
      have load := inv.packed.load
      rw [← inv.keys_eq] at load
      obtain ⟨T₂, doubled', inv₂, perm, fewer, -⟩ :=
        KeyTable.double_spec ndebug inv (by omega)
      obtain rfl := Option.some.inj (doubled.symm.trans doubled')
      exact ⟨k + 1, inv₂, perm.length_eq.trans count, by omega, fewer.trans short, by omega⟩
  have low₁ := inv₁.packed.low
  rw [inv₁.keys_eq] at count₁
  rw [inv₁.cap_eq] at room
  obtain ⟨r, run, spec, packed⟩ := inv₁.packed.insert ndebug f.eq (fun cur _ => cur)
    (fun _ _ => rfl) (by omega) (by omega) x
  rw [KeyTable.insertRaw_of_loop inv₁.cap_eq run] at stored
  obtain rfl := Option.some.inj stored
  refine ⟨inv₁.cap_eq.symm.trans_le cap₁, spec.attained (n + 1) (by omega) fun i hi => ?_⟩
  obtain ⟨e, he, free⟩ := exists_free packed.room
  have length := spec.length_le
  exact (packed.valid.psl_le_length (homeIn_lt f.hash k₁) he hi free).trans (by omega)

theorem SetState.view_inv {s : SetT κ} (state : SetState f s) (d : SetDistinct f s) :
    ∃ k, s.view.Inv f k := by
  cases state with
  | fresh fresh =>
    rw [fresh.view_eq]
    exact ⟨4, rfl, packed_empty _ (by omega) (by omega), by simp [KeyTable.keys, KeyTable.start]⟩
  | table k inv =>
    rw [inv.view_eq]
    exact ⟨k, inv.keys_inv d⟩

theorem SetState.view_length {s : SetT κ} (state : SetState f s) (d : SetDistinct f s) :
    s.view.keys.length = s.len := by
  cases state with
  | fresh fresh => simp [fresh.view_eq, KeyTable.keys, KeyTable.start, fresh.len_eq]
  | table k inv => rw [inv.view_eq, d.keys_length]

/-- The set that holds the keys below `n`. -/
structure Crowd (n : Nat) (s : SetT Nat) (m : Mem) : Prop where
  state : SetState collidingKeys s
  distinct : SetDistinct collidingKeys s
  members : ∀ x, x ∈ s.members ↔ x < n
  count : s.len = n
  cap_le : s.view.cap ≤ 256
  short : s.view.maxPsl ≤ n
  size : s.elemSize = 8
  generous : m.allocator = .generous

theorem Crowd.add {n : Nat} {s : SetT Nat} {m : Mem} (c : Crowd n s m) (hn : n < 128) :
    ∃ s' m', setStep false collidingKeys (.add (some n)) (s, m) = some (.status .ok, (s', m')) ∧
      Crowd (n + 1) s' m' := by
  obtain ⟨rs, s', m', run, state', stays, outcome⟩ := setAdd_spec false c.state n m
  have cap : s.cap ≤ 512 := by
    by_cases zero : s.cap = 0
    · omega
    · have small := c.cap_le
      rw [SetT.view, if_neg zero] at small
      exact Nat.le_trans small (by omega)
  obtain ⟨granted, size, generous⟩ := setAdd_generous cap c.size c.generous run
  rcases outcome with ⟨rfl, -⟩ | ⟨rfl, quiet, added⟩ | ⟨-, -, kept⟩
  · exact absurd rfl granted
  · obtain ⟨d', -, b, rfl, perm⟩ := added collidingKeys_lawful c.distinct
    obtain ⟨-, grew⟩ := (setAdd_view c.state c.distinct run).resolve_left (by omega)
    obtain ⟨k, inv⟩ := c.state.view_inv c.distinct
    obtain ⟨cap', short'⟩ := inv.add_small hn ((c.state.view_length c.distinct).trans c.count)
      c.cap_le c.short grew
    have opened : s'.cap ≠ 0 := fun zero => by simpa using (stays zero).2
    have view : s'.view = s'.keys := by rw [SetT.view, if_neg opened]
    refine ⟨s', m', by simp [setStep, run], state', d', fun x => ?_, ?_, view ▸ cap',
      view ▸ short', size, generous⟩
    · have here := (perm.map Block.val).mem_iff (a := x)
      rw [List.map_cons, List.mem_cons] at here
      rw [SetT.members, here, ← SetT.members, c.members]
      omega
    · rw [d'.len_eq, perm.length_eq, List.length_cons, ← c.distinct.len_eq, c.count]
  · obtain ⟨-, ⟨b, hb, equal⟩, -⟩ := kept collidingKeys_lawful c.distinct
    have same : b.val = n := by simpa [collidingKeys] using equal
    have below := (c.members b.val).mp (List.mem_map_of_mem hb)
    omega

/-- The run that adds the keys below `n` to an empty set. -/
theorem crowd_run {n : Nat} (hn : n ≤ 128) :
    ∃ outs s m, run (setStep false collidingKeys) ((List.range n).map fun x => .add (some x))
        (⟨0, none, fun _ => none, 0, 0, 8, 0⟩, ⟨.generous, 1, [.alloc 0 72]⟩) =
          some (outs, (s, m)) ∧ Crowd n s m := by
  induction n with
  | zero =>
    have fresh : SetFresh (⟨0, none, fun _ => none, 0, 0, 8, 0⟩ : SetT Nat) := ⟨rfl, rfl, rfl, rfl⟩
    refine ⟨[], _, _, rfl, .fresh fresh, ⟨?_, ?_⟩, fun x => ?_, rfl, ?_, ?_, rfl, rfl⟩
    · simp [fresh.entries_eq]
    · simp [fresh.entries_eq]
    · simp [SetT.members, fresh.entries_eq]
    · simp [fresh.view_eq, KeyTable.start]
    · simp [fresh.view_eq, KeyTable.start]
  | succ n ih =>
    obtain ⟨outs, s, m, ran, crowd⟩ := ih (by omega)
    obtain ⟨s', m', step, crowd'⟩ := crowd.add hn
    refine ⟨outs ++ [.status .ok], s', m', ?_, crowd'⟩
    rw [List.range_succ, List.map_append]
    exact run_append ran (by simp [run, step])

/-- Keys that all collide crowd every array. -/
theorem crowded_colliding {n : Nat} {keys : List Nat} (many : 128 ≤ keys.length) :
    KeyTable.Crowded collidingKeys n keys := by
  refine ⟨0, 1, Nat.one_pos, ?_⟩
  have all : windowCount n (fun x => collidingKeys.hash x % n) keys 0 1 = keys.length := by
    rw [windowCount, List.countP_eq_length]
    intro x _
    exact decide_eq_true ⟨0, Nat.one_pos, by simp [collidingKeys]⟩
  omega

theorem KeyTable.Inv.long_of_crowded {T : KeyTable κ} (inv : T.Inv f k)
    (crowded : Crowded f T.cap T.keys) : 128 ≤ T.maxPsl := by
  obtain ⟨e, he, free⟩ := exists_free inv.packed.room
  rw [inv.keys_eq, inv.cap_eq] at crowded
  obtain ⟨i, hi, long⟩ := (inv.packed.valid.exists_long_iff (homeIn_lt f.hash k) he free
    (by omega : 0 < 128)).mpr crowded
  exact long.trans (inv.packed.covers i hi)

theorem Crowd.runaway {s : SetT Nat} {m : Mem} (c : Crowd 128 s m) :
    s.keys.Runaway collidingKeys := by
  have length : s.keys.keys.length = 128 := c.distinct.keys_length.trans c.count
  obtain ⟨k, inv⟩ := c.state.view_inv c.distinct
  cases c.state with
  | fresh fresh =>
    have count := c.count
    rw [fresh.len_eq] at count
    omega
  | table k' inv' =>
    rw [inv'.view_eq] at inv
    exact ⟨.inr (inv.long_of_crowded (crowded_colliding length.ge)), crowded_colliding length.ge⟩

/-- An addition of a key that a crowded set holds. -/
theorem Crowd.duplicate {s : SetT Nat} {m : Mem} (state : SetState collidingKeys s)
    (d : SetDistinct collidingKeys s) (zero : 0 ∈ s.members) (cap : s.cap ≤ 512)
    (size : s.elemSize = 8) (generous : m.allocator = .generous) :
    ∃ s' m', setAdd false collidingKeys s (some 0) m = some (.duplicate, s', m') ∧
      SetState collidingKeys s' ∧ SetDistinct collidingKeys s' ∧ 0 ∈ s'.members ∧
      s'.cap ≤ 2 * s.cap ∧ s'.elemSize = 8 ∧ m'.allocator = .generous := by
  obtain ⟨rs, s', m', run, state', -, outcome⟩ := setAdd_spec false state 0 m
  obtain ⟨granted, size', generous'⟩ := setAdd_generous cap size generous run
  obtain ⟨b, hb, hv⟩ := List.mem_map.mp zero
  rcases outcome with ⟨rfl, -⟩ | ⟨-, -, added⟩ | ⟨rfl, -, kept⟩
  · exact absurd rfl granted
  · obtain ⟨-, absent, -⟩ := added collidingKeys_lawful d
    have other := absent b hb
    simp [collidingKeys, hv] at other
  · obtain ⟨d', -, perm⟩ := kept collidingKeys_lawful d
    obtain ⟨-, -, -, -, grown⟩ := setAdd_duplicate collidingKeys_lawful state d run
    refine ⟨s', m', run, state', d', ?_, ?_, size', generous'⟩
    · exact List.mem_map.mpr ⟨b, perm.mem_iff.mpr hb, hv⟩
    · have caps : s'.keys.cap ≤ 2 * s.keys.cap := by
        rcases KeyTable.grow_cases grown with ⟨-, same⟩ | ⟨-, -, twice⟩
        · rw [same]
          omega
        · exact twice.le
      exact caps

/-- After 128 colliding keys two more additions of one of them, both answered
`SEQC_DUPLICATE`, quadruple the capacity. -/
theorem bounded_growth_fails :
    ∃ outs s m, run (setStep false collidingKeys) ((List.range 128).map fun x => .add (some x))
        (⟨0, none, fun _ => none, 0, 0, 8, 0⟩, ⟨.generous, 1, [.alloc 0 72]⟩) =
          some (outs, (s, m)) ∧
      ∃ s' m', run (setStep false collidingKeys) [.add (some 0), .add (some 0)] (s, m) =
          some ([.status .duplicate, .status .duplicate], (s', m')) ∧ ¬s'.cap ≤ 2 * s.cap := by
  obtain ⟨outs, s, m, ran, c⟩ := crowd_run le_rfl
  have cap : s.cap ≤ 256 := by
    by_cases zero : s.cap = 0
    · omega
    · have small := c.cap_le
      rwa [SetT.view, if_neg zero] at small
  obtain ⟨s₁, m₁, first, state₁, d₁, zero₁, cap₁, size₁, generous₁⟩ :=
    Crowd.duplicate c.state c.distinct ((c.members 0).mpr (by omega)) (by omega) c.size c.generous
  obtain ⟨s₂, m₂, second, -⟩ :=
    Crowd.duplicate state₁ d₁ zero₁ (by omega) size₁ generous₁
  have twice : run (setStep false collidingKeys) ([0, 0].map fun x => .add (some x)) (s, m) =
      some ([.status .duplicate, .status .duplicate], (s₂, m₂)) := by
    simp [run, setStep, first, second]
  obtain ⟨state₂, ⟨k, inv⟩ | none, grown⟩ :=
    duplicates_grow collidingKeys_lawful [0, 0] c.state c.distinct twice (by simp)
  · refine ⟨outs, s, m, ran, s₂, m₂, twice, fun small => ?_⟩
    have bounded := (KeyTable.growTimes_bounded (inv.keys_inv c.distinct) grown state₂.cap_le).mp
    exact bounded small ⟨le_rfl, c.runaway⟩
  · simp at none

end Colliding

end Seqc
