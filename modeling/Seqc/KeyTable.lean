import Seqc.Reachable

/-! What hashmap.c and set.c have in common: a Robin Hood table of keys. Each operation of
the two files that changes a table does to its keys what the operation here does. -/

namespace Seqc
open RobinHood ClassMap Runs

variable {κ ν α β : Type} {f : KeyFns κ} {ndebug : Bool}

/-! ### The shared loops see only the keys -/

theorem insertLoop_relabel (g : α → β) (eq : α → α → Bool) (merge : α → α → α)
    {eq' : β → β → Bool} {merge' : β → β → β} (eq_eq : ∀ a b, eq' (g a) (g b) = eq a b)
    (merge_eq : ∀ a b, g (merge a b) = merge' (g a) (g b)) (cap fuel : Nat) :
    ∀ (t : Table α) (maxPsl slot : Nat) (x : α) (p : Nat),
      insertLoop ndebug eq' merge' cap fuel (relabel g t) maxPsl slot (g x) p =
        (insertLoop ndebug eq merge cap fuel t maxPsl slot x p).map fun r =>
          ⟨relabel g r.buckets, r.maxPsl, r.matched.map fun m => (g m.1, g m.2)⟩ := by
  have stored (x : α) (p : Nat) : (bucketOf x p).map (fun c => (⟨g c.item, c.psl⟩ : Cell β)) =
      bucketOf (g x) p := by
    unfold bucketOf
    split <;> rfl
  induction fuel with
  | zero =>
    intros
    rfl
  | succ fuel ih =>
    intro t maxPsl slot x p
    simp only [insertLoop]
    cases hcur : t slot with
    | none => simp [relabel, hcur, ← stored, ← relabel_put]
    | some cur =>
      have there : relabel g t slot = some ⟨g cur.item, cur.psl⟩ := by simp [relabel, hcur]
      simp only [there, eq_eq]
      by_cases equal : eq cur.item x = true
      · simp [equal, relabel_put, merge_eq]
      by_cases less : cur.psl < p
      · cases hp : pslInc ndebug cur.psl with
        | none => simp [equal, less]
        | some q =>
          have rest := ih (put t slot (bucketOf x p)) (max maxPsl p) ((slot + 1) &&& (cap - 1))
            cur.item q
          rw [relabel_put, stored] at rest
          simpa [equal, less] using rest
      · cases hp : pslInc ndebug p with
        | none => simp [equal, less]
        | some q => simpa [equal, less] using ih t maxPsl ((slot + 1) &&& (cap - 1)) x q

theorem probeLoop_relabel (g : α → β) (eq : β → Bool) (t : Table α) (cap fuel : Nat) :
    ∀ slot probe, probeLoop eq cap (relabel g t) fuel slot probe =
      probeLoop (fun a => eq (g a)) cap t fuel slot probe := by
  induction fuel with
  | zero =>
    intros
    rfl
  | succ fuel ih =>
    intro slot probe
    cases hcur : t slot with
    | none => simp [probeLoop, relabel, hcur]
    | some cur => simp [probeLoop, relabel, hcur, ih]

theorem hashmapShift_relabel {g : α → β} (cap fuel : Nat) :
    ∀ (t : Table α) (prev slot : Nat), hashmapShift cap fuel (relabel g t) prev slot =
      (hashmapShift cap fuel t prev slot).map (relabel g) := by
  induction fuel with
  | zero =>
    intros
    rfl
  | succ fuel ih =>
    intro t prev slot
    cases hcur : t slot with
    | none => simp [hashmapShift, relabel, hcur]
    | some cur =>
      have there : relabel g t slot = some ⟨g cur.item, cur.psl⟩ := by simp [relabel, hcur]
      simp only [hashmapShift, there, hcur]
      by_cases far : 1 < cur.psl
      · have rest := ih (put (put t prev (some ⟨cur.item, cur.psl - 1⟩)) slot none) slot
          ((slot + 1) &&& (cap - 1))
        simp only [relabel_put, Option.map_some, Option.map_none] at rest
        simpa [far] using rest
      · simp [far]

/-! ### Tables of keys -/

structure KeyTable (κ : Type) where
  cap : Nat
  buckets : Table κ
  maxPsl : Nat

namespace KeyTable

/-- The first array of both files. -/
def start : KeyTable κ := ⟨16, fun _ => none, 0⟩

def keys (T : KeyTable κ) : List κ := items T.cap T.buckets

def slot (f : KeyFns κ) (T : KeyTable κ) (x : κ) : Nat := f.hash x &&& (T.cap - 1)

/-- A stored key stays when an equal one comes. -/
def insertRaw (ndebug : Bool) (f : KeyFns κ) (T : KeyTable κ) (x : κ) : Option (KeyTable κ) :=
  (insertLoop ndebug f.eq (fun cur _ => cur) T.cap T.cap T.buckets T.maxPsl (T.slot f x) x 1).map
    fun r => { T with buckets := r.buckets, maxPsl := r.maxPsl }

def rehashBucket (ndebug : Bool) (f : KeyFns κ) (old : Table κ) (T : KeyTable κ) (i : Nat) :
    Option (KeyTable κ) :=
  match old i with
  | none => some T
  | some c => T.insertRaw ndebug f c.item

def double (ndebug : Bool) (f : KeyFns κ) (T : KeyTable κ) : Option (KeyTable κ) :=
  (List.range T.cap).foldlM (rehashBucket ndebug f T.buckets) ⟨2 * T.cap, fun _ => none, 0⟩

/-- The load or the longest recorded probe asks for a larger array. -/
def Overfull (T : KeyTable κ) : Prop := 3 * T.cap < 4 * (T.keys.length + 1) ∨ 128 ≤ T.maxPsl

instance (T : KeyTable κ) : Decidable T.Overfull :=
  inferInstanceAs (Decidable (_ ∨ _))

def grow (ndebug : Bool) (f : KeyFns κ) (T : KeyTable κ) : Option (KeyTable κ) :=
  if T.Overfull then T.double ndebug f else some T

def add (ndebug : Bool) (f : KeyFns κ) (T : KeyTable κ) (x : κ) : Option (KeyTable κ) := do
  let T ← T.grow ndebug f
  T.insertRaw ndebug f x

/-- The inner `none`: there is no equal key. -/
def remove (f : KeyFns κ) (T : KeyTable κ) (x : κ) : Option (Option (KeyTable κ)) := do
  match ← probeLoop (fun y => f.eq y x) T.cap T.buckets T.cap (T.slot f x) 1 with
  | none => pure none
  | some slot =>
    let buckets ← hashmapShift T.cap T.cap (put T.buckets slot none) slot
      ((slot + 1) &&& (T.cap - 1))
    pure (some { T with buckets := buckets })

def clear (T : KeyTable κ) : KeyTable κ := { T with buckets := fun _ => none, maxPsl := 0 }

end KeyTable

/-! ### The keys of a map -/

section Map
variable {k : Nat} {map map' : Hashmap κ ν} {m m' : Mem} {rs : Status}

def Hashmap.keys (map : Hashmap κ ν) : KeyTable κ :=
  ⟨map.cap, relabel (fun e => e.key.val) map.buckets, map.maxPsl⟩

theorem Hashmap.keys_keys (map : Hashmap κ ν) :
    map.keys.keys = map.entries.map fun e => e.key.val := by
  rw [KeyTable.keys, Hashmap.keys, items_relabel, Hashmap.entries]

theorem HashmapInv.keys_length (inv : HashmapInv f k map) : map.keys.keys.length = map.len := by
  rw [map.keys_keys, List.length_map, inv.entries_eq, inv.len_eq]

theorem hashmapInsertRaw_keys {e : Entry κ ν}
    (h : hashmapInsertRaw ndebug f map e m = some (map', m')) :
    map.keys.insertRaw ndebug f e.key.val = some map'.keys := by
  obtain ⟨r, loop, rest⟩ := Option.bind_eq_some_iff.mp h
  have view : insertLoop ndebug f.eq (fun cur _ => cur) map.cap map.cap
      (relabel (fun e => e.key.val) map.buckets) map.maxPsl (hashmapGetSlot f map e.key.val)
      e.key.val 1 = _ :=
    insertLoop_relabel (fun e : Entry κ ν => e.key.val) (entryEq f) entryUpdate
      (fun _ _ => rfl) (fun _ _ => rfl) map.cap map.cap map.buckets map.maxPsl _ e 1
  have stored : map'.keys = ⟨map.cap, relabel (fun e => e.key.val) r.buckets, r.maxPsl⟩ := by
    cases hr : r.matched with
    | none =>
      simp only [hr, Option.pure_def, Option.some.injEq, Prod.mk.injEq] at rest
      rw [← rest.1, Hashmap.keys]
    | some pair =>
      simp only [hr, Option.pure_def, Option.some.injEq, Prod.mk.injEq] at rest
      rw [← rest.1, Hashmap.keys]
  rw [loop] at view
  rw [KeyTable.insertRaw, Hashmap.keys, KeyTable.slot]
  rw [hashmapGetSlot] at view
  simp [view, stored]

theorem hashmapResizeAndRehash_keys (inv : HashmapInv f k map)
    (h : hashmapResizeAndRehash ndebug f map (mulSize map.cap 2) m = some (rs, map', m')) :
    (rs = .oom ∧ map' = map ∧ m.refusals < m'.refusals) ∨
      (rs = .ok ∧ map.keys.double ndebug f = some map'.keys ∧ m'.refusals = m.refusals) := by
  rcases hashmapResizeAndRehash_spec ndebug inv m with
    ⟨m₁, run, more⟩ | ⟨map₁, m₁, run, -, -, -, quiet, -⟩
  · obtain ⟨rfl, rfl, rfl⟩ : .oom = rs ∧ map = map' ∧ m₁ = m' := by simpa [run] using h
    exact .inl ⟨rfl, rfl, by omega⟩
  · obtain ⟨rfl, rfl, rfl⟩ : .ok = rs ∧ map₁ = map' ∧ m₁ = m' := by simpa [run] using h
    refine .inr ⟨rfl, ?_, quiet⟩
    have twice : mulSize map.cap 2 = 2 * map.cap := by
      rw [inv.cap_eq, (sizeof_buckets inv.packed.high).1, Nat.pow_succ']
    rw [twice] at run
    unfold hashmapResizeAndRehash at run
    split at run
    · simp at run
    · obtain ⟨⟨map₂, m₂⟩, loop, rest⟩ := Option.bind_eq_some_iff.mp run
      obtain ⟨rfl, -⟩ : map₂ = map₁ ∧ _ := by simpa using rest
      refine foldlM_image (fun s : Hashmap κ ν × Mem => s.1.keys) (fun s i r hr => ?_) _ loop
      unfold rehashBucket at hr
      cases hc : map.buckets i with
      | none =>
        obtain rfl : s = r := by simpa [hc] using hr
        simp [KeyTable.rehashBucket, Hashmap.keys, relabel, hc]
      | some c =>
        simp only [hc] at hr
        simpa [KeyTable.rehashBucket, Hashmap.keys, relabel, hc] using hashmapInsertRaw_keys hr

theorem hashmapGrow_keys (inv : HashmapInv f k map)
    (h : hashmapGrow ndebug f map m = some (rs, map', m')) :
    (rs = .oom ∧ map' = map ∧ m.refusals < m'.refusals) ∨
      (rs = .ok ∧ map.keys.grow ndebug f = some map'.keys ∧ m'.refusals = m.refusals) := by
  have pow_le := inv.pow_le
  have len_le := inv.len_le
  have full : mulSize map.cap 3 = 3 * map.cap := by
    rw [inv.cap_eq, mulSize_of_lt (by omega), Nat.mul_comm]
  have used : mulSize (addSize map.len 1) 4 = 4 * (map.len + 1) := by
    rw [addSize_of_lt (by omega), mulSize_of_lt (by omega), Nat.mul_comm]
  have guard : map.keys.Overfull ↔ 3 * map.cap < 4 * (map.len + 1) ∨ 128 ≤ map.maxPsl := by
    rw [KeyTable.Overfull, inv.keys_length]
    rfl
  unfold hashmapGrow at h
  rw [full, used, hashPslThreshold] at h
  split at h
  · rename_i above
    rw [KeyTable.grow, if_pos (guard.mpr above)]
    exact hashmapResizeAndRehash_keys inv h
  · rename_i calm
    obtain ⟨rfl, rfl, rfl⟩ : .ok = rs ∧ map = map' ∧ m = m' := by simpa using h
    exact .inr ⟨rfl, by rw [KeyTable.grow, if_neg (guard.not.mpr calm)], rfl⟩

/-- A refused `hashmap_set` may have grown the table. -/
theorem hashmapSet_keys (inv : HashmapInv f k map) {key : κ} {value : ν}
    (h : hashmapSet ndebug f map (some key) (some value) m = some (rs, map', m')) :
    (rs = .oom ∧ m.refusals < m'.refusals ∧
        (map' = map ∨ map.keys.grow ndebug f = some map'.keys)) ∨
      (rs = .ok ∧ m'.refusals = m.refusals ∧ map.keys.add ndebug f key = some map'.keys) := by
  obtain ⟨⟨rs₁, map₁, m₁⟩, grow, rest⟩ := Option.bind_eq_some_iff.mp h
  rcases hashmapGrow_keys inv grow with ⟨rfl, rfl, more⟩ | ⟨rfl, grown, quiet⟩
  · obtain ⟨rfl, rfl, rfl⟩ : .oom = rs ∧ map₁ = map' ∧ m₁ = m' := by simpa using rest
    exact .inl ⟨rfl, more, .inl rfl⟩
  simp only [if_true, hashmapStore] at rest
  rcases hkey : memAlloc m₁ map₁.keySize with ⟨_ | keyCopy, m₂⟩
  · have refused := memAlloc_none hkey
    obtain ⟨rfl, rfl, rfl⟩ : .oom = rs ∧ map₁ = map' ∧ m₂ = m' := by simpa [hkey] using rest
    exact .inl ⟨rfl, by omega, .inr grown⟩
  obtain ⟨-, -, quiet₂⟩ := memAlloc_some hkey
  rcases hval : memAlloc m₂ map₁.valSize with ⟨_ | valCopy, m₃⟩
  · have refused := memAlloc_none hval
    obtain ⟨rfl, rfl, rfl⟩ : .oom = rs ∧ map₁ = map' ∧
        memFree m₃ (some keyCopy) map₁.keySize = m' := by simpa [hkey, hval] using rest
    exact .inl ⟨rfl, by rw [memFree_refusals]; omega, .inr grown⟩
  obtain ⟨-, -, quiet₃⟩ := memAlloc_some hval
  simp only [hkey, hval] at rest
  obtain ⟨⟨map₂, m₄⟩, inserted, rest⟩ := Option.bind_eq_some_iff.mp rest
  obtain ⟨rfl, rfl, rfl⟩ : .ok = rs ∧ map₂ = map' ∧ m₄ = m' := by simpa using rest
  have stored := hashmapInsertRaw_keys inserted
  refine .inr ⟨rfl, ?_, by rw [KeyTable.add, grown]; exact stored⟩
  obtain ⟨r, loop, rest⟩ := Option.bind_eq_some_iff.mp inserted
  obtain ⟨m₅, same, result⟩ := hashmapInsertRaw_of_loop (m := m₃) loop
  obtain ⟨-, rfl⟩ : _ ∧ m₅ = m₄ := by simpa [result] using inserted
  omega

theorem hashmapRemove_keys (inv : HashmapInv f k map) {key : κ}
    (h : hashmapRemove f map (some key) m = some (rs, map', m')) :
    (rs = .notFound ∧ map' = map ∧ map.keys.remove f key = some none) ∨
      (rs = .ok ∧ map.keys.remove f key = some (some map'.keys)) := by
  obtain ⟨found, probe, rest⟩ := Option.bind_eq_some_iff.mp h
  have search : probeLoop (fun y => f.eq y key) map.keys.cap map.keys.buckets map.keys.cap
      (map.keys.slot f key) 1 = some found := by
    rw [Hashmap.keys, probeLoop_relabel]
    exact probe
  cases found with
  | none =>
    obtain ⟨rfl, rfl, -⟩ : .notFound = rs ∧ map = map' ∧ _ := by simpa using rest
    exact .inl ⟨rfl, rfl, by simp [KeyTable.remove, search]⟩
  | some slot =>
    obtain ⟨-, found⟩ : _ ∧ ∃ c, map.buckets slot = some c := by
      obtain ⟨r, run, found, -⟩ := hashmapFind_spec inv key
      obtain rfl := Option.some.inj (run.symm.trans probe)
      obtain ⟨hs, c, hc, -⟩ := found slot rfl
      exact ⟨hs, c, hc⟩
    obtain ⟨c, hc⟩ := found
    simp only [hc] at rest
    obtain ⟨buckets, shift, rest⟩ := Option.bind_eq_some_iff.mp rest
    obtain ⟨rfl, rfl, -⟩ : .ok = rs ∧ _ = map' ∧ _ := by simpa using rest
    have view := hashmapShift_relabel (g := fun e : Entry κ ν => e.key.val) map.cap map.cap
      (put map.buckets slot none) slot ((slot + 1) &&& (map.cap - 1))
    rw [relabel_put, shift] at view
    refine .inr ⟨rfl, ?_⟩
    rw [KeyTable.remove, search]
    simp only [Hashmap.keys, Option.bind_eq_bind, Option.bind_some, Option.map_none] at view ⊢
    simp [view]

theorem hashmapClear_keys : (hashmapClear map m).1.keys = map.keys.clear := rfl

theorem hashmapCreate_keys {keySize valSize : Nat}
    (h : hashmapCreate κ ν keySize valSize m = (some map, m')) : map.keys = .start := by
  unfold hashmapCreate at h
  split at h
  · simp at h
  split at h
  · simp at h
  split at h
  · simp at h
  · obtain rfl := Option.some.inj (Prod.mk.inj h).1
    rfl

end Map

/-! ### The keys of a set -/

section Set
variable {k : Nat} {s s' : SetT κ} {m m' : Mem} {rs : Status}

def SetT.keys (s : SetT κ) : KeyTable κ := ⟨s.cap, relabel Block.val s.buckets, s.maxPsl⟩

theorem SetT.keys_keys (s : SetT κ) : s.keys.keys = s.entries.map Block.val := by
  rw [KeyTable.keys, SetT.keys, items_relabel, SetT.entries]

theorem SetDistinct.keys_length (d : SetDistinct f s) : s.keys.keys.length = s.len := by
  rw [s.keys_keys, List.length_map, d.len_eq]

theorem setInsertRaw_keys {b : Block κ} {inserted : Bool}
    (h : setInsertRaw ndebug f s b m = some (inserted, s', m')) :
    s.keys.insertRaw ndebug f b.val = some s'.keys := by
  obtain ⟨r, loop, rest⟩ := Option.bind_eq_some_iff.mp h
  have view : insertLoop ndebug f.eq (fun cur _ => cur) s.cap s.cap (relabel Block.val s.buckets)
      s.maxPsl (setSlot f s b.val) b.val 1 = _ :=
    insertLoop_relabel Block.val (blockEq f) (fun cur _ => cur) (fun _ _ => rfl)
      (fun _ _ => rfl) s.cap s.cap s.buckets s.maxPsl _ b 1
  have stored : s'.keys = ⟨s.cap, relabel Block.val r.buckets, r.maxPsl⟩ := by
    cases hr : r.matched with
    | none =>
      simp only [hr, Option.pure_def, Option.some.injEq, Prod.mk.injEq] at rest
      rw [← rest.2.1, SetT.keys]
    | some pair =>
      simp only [hr, Option.pure_def, Option.some.injEq, Prod.mk.injEq] at rest
      rw [← rest.2.1, SetT.keys]
  rw [loop] at view
  rw [KeyTable.insertRaw, SetT.keys, KeyTable.slot]
  rw [setSlot] at view
  simp [view, stored]

theorem setResize_keys (inv : SetInv f k s) (h : setResize ndebug f s m = some (rs, s', m')) :
    (rs = .oom ∧ s' = s ∧ m.refusals < m'.refusals) ∨
      (rs = .ok ∧ s.keys.double ndebug f = some s'.keys ∧ m'.refusals = m.refusals) := by
  rcases setResize_spec ndebug inv m with
    ⟨m₁, run, more⟩ | ⟨s₁, m₁, run, -, -, -, quiet, -⟩
  · obtain ⟨rfl, rfl, rfl⟩ : .oom = rs ∧ s = s' ∧ m₁ = m' := by simpa [run] using h
    exact .inl ⟨rfl, rfl, by omega⟩
  · obtain ⟨rfl, rfl, rfl⟩ : .ok = rs ∧ s₁ = s' ∧ m₁ = m' := by simpa [run] using h
    refine .inr ⟨rfl, ?_, quiet⟩
    have twice : mulSize s.cap 2 = 2 * s.cap := by
      rw [inv.cap_eq, (sizeof_set_buckets inv.packed.high).1, Nat.pow_succ']
    unfold setResize at run
    rw [twice] at run
    split at run
    · simp at run
    · obtain ⟨⟨s₂, m₂⟩, loop, rest⟩ := Option.bind_eq_some_iff.mp run
      obtain ⟨rfl, -⟩ : s₂ = s₁ ∧ _ := by simpa using rest
      refine foldlM_image (fun st : SetT κ × Mem => st.1.keys) (fun st i r hr => ?_) _ loop
      unfold setRehashBucket at hr
      cases hc : s.buckets i with
      | none =>
        obtain rfl : st = r := by simpa [hc] using hr
        simp [KeyTable.rehashBucket, SetT.keys, relabel, hc]
      | some c =>
        simp only [hc] at hr
        obtain ⟨⟨inserted, s₃, m₃⟩, ran, rest⟩ := Option.bind_eq_some_iff.mp hr
        obtain rfl : (s₃, m₃) = r := by simpa using rest
        simpa [KeyTable.rehashBucket, SetT.keys, relabel, hc] using setInsertRaw_keys ran

/-- The load tests of the two files agree, as a capacity is a multiple of 4. -/
theorem setGrow_keys (inv : SetInv f k s) (d : SetDistinct f s)
    (h : setGrow ndebug f s m = some (rs, s', m')) :
    (rs = .oom ∧ s' = s ∧ m.refusals < m'.refusals) ∨
      (rs = .ok ∧ s.keys.grow ndebug f = some s'.keys ∧ m'.refusals = m.refusals) := by
  have pow_le := inv.pow_le
  have load := inv.load
  have full : mulSize s.cap 3 = 3 * s.cap := by
    rw [inv.cap_eq, mulSize_of_lt (by omega), Nat.mul_comm]
  have used : mulSize s.len 4 = 4 * s.len := by rw [mulSize_of_lt (by omega), Nat.mul_comm]
  have guard : s.keys.Overfull ↔ 3 * s.cap ≤ 4 * s.len ∨ 128 ≤ s.maxPsl := by
    rw [KeyTable.Overfull, d.keys_length]
    refine or_congr ?_ Iff.rfl
    obtain ⟨j, hj⟩ : 2 ^ 2 ∣ 2 ^ k := Nat.pow_dvd_pow 2 (by have := inv.packed.low; omega)
    have cap : s.keys.cap = s.cap := rfl
    rw [cap, inv.cap_eq, hj]
    omega
  unfold setGrow at h
  rw [full, used, setPslThreshold] at h
  split at h
  · rename_i above
    rw [KeyTable.grow, if_pos (guard.mpr above)]
    exact setResize_keys inv h
  · rename_i calm
    obtain ⟨rfl, rfl, rfl⟩ : .ok = rs ∧ s = s' ∧ m = m' := by simpa using h
    exact .inr ⟨rfl, by rw [KeyTable.grow, if_neg (guard.not.mpr calm)], rfl⟩

/-- A refused `set_add` may have grown the table; `s` is the set once it has buckets. -/
theorem setAdd_keys {s₀ : SetT κ} {m₀ : Mem} (first : setFirstBuckets s₀ m₀ = (.ok, s, m))
    (inv : SetInv f k s) (d : SetDistinct f s) {elem : κ}
    (h : setAdd ndebug f s₀ (some elem) m₀ = some (rs, s', m')) :
    (rs = .oom ∧ m.refusals < m'.refusals ∧
        (s' = s ∨ s.keys.grow ndebug f = some s'.keys)) ∨
      ((rs = .ok ∨ rs = .duplicate) ∧ m'.refusals = m.refusals ∧
        s.keys.add ndebug f elem = some s'.keys) := by
  simp only [setAdd, first] at h
  obtain ⟨⟨rs₁, s₁, m₁⟩, grow, rest⟩ := Option.bind_eq_some_iff.mp h
  rcases setGrow_keys inv d grow with ⟨rfl, rfl, more⟩ | ⟨rfl, grown, quiet⟩
  · obtain ⟨rfl, rfl, rfl⟩ : .oom = rs ∧ s₁ = s' ∧ m₁ = m' := by simpa using rest
    exact .inl ⟨rfl, more, .inl rfl⟩
  simp only [if_true, setStore] at rest
  rcases hkey : memAlloc m₁ s₁.elemSize with ⟨_ | key, m₂⟩
  · have refused := memAlloc_none hkey
    obtain ⟨rfl, rfl, rfl⟩ : .oom = rs ∧ s₁ = s' ∧ m₂ = m' := by simpa [hkey] using rest
    exact .inl ⟨rfl, by omega, .inr grown⟩
  obtain ⟨-, -, quiet₂⟩ := memAlloc_some hkey
  simp only [hkey] at rest
  obtain ⟨⟨inserted, s₂, m₃⟩, ran, rest⟩ := Option.bind_eq_some_iff.mp rest
  have stored := setInsertRaw_keys ran
  have quiet₃ : m₃.refusals = m₂.refusals := by
    obtain ⟨r, loop, -⟩ := Option.bind_eq_some_iff.mp ran
    obtain ⟨m₄, same, result⟩ := setInsertRaw_of_loop (m := m₂) loop
    obtain ⟨-, -, rfl⟩ : _ ∧ _ ∧ m₄ = m₃ := by simpa [result] using ran
    exact same
  have added : s.keys.add ndebug f elem = some s₂.keys := by
    rw [KeyTable.add, grown]
    exact stored
  cases inserted with
  | false =>
    obtain ⟨rfl, rfl, rfl⟩ : .duplicate = rs ∧ s₂ = s' ∧ m₃ = m' := by simpa using rest
    exact .inr ⟨.inr rfl, by omega, added⟩
  | true =>
    obtain ⟨rfl, rfl, rfl⟩ : .ok = rs ∧ _ = s' ∧ m₃ = m' := by simpa using rest
    exact .inr ⟨.inl rfl, by omega, added⟩

theorem setRemove_keys (inv : SetInv f k s) {elem : κ}
    (h : setRemove f s (some elem) m = some (rs, s', m')) :
    (rs = .notFound ∧ s' = s ∧ s.keys.remove f elem = some none) ∨
      (rs = .ok ∧ s.keys.remove f elem = some (some s'.keys)) := by
  obtain ⟨found, probe, hit, -⟩ := setFind_spec inv elem
  have search : probeLoop (fun y => f.eq y elem) s.keys.cap s.keys.buckets s.keys.cap
      (s.keys.slot f elem) 1 = some found := by
    rw [SetT.keys, probeLoop_relabel]
    exact probe
  simp only [setRemove] at h
  split at h
  · rename_i len
    obtain ⟨rfl, rfl, -⟩ : .notFound = rs ∧ s = s' ∧ _ := by simpa using h
    -- Without keys the search of `hashmap_remove` finds none.
    cases found with
    | none => exact .inl ⟨rfl, rfl, by simp [KeyTable.remove, search]⟩
    | some slot =>
      obtain ⟨hs, c, hc, -⟩ := hit slot rfl
      have stored := mem_items.mpr ⟨slot, hs, c, hc, rfl⟩
      rw [← inv.entries_eq, inv.entries_nil len] at stored
      simp at stored
  · rw [probe] at h
    cases found with
    | none =>
      obtain ⟨rfl, rfl, -⟩ : .notFound = rs ∧ s = s' ∧ _ := by simpa using h
      exact .inl ⟨rfl, rfl, by simp [KeyTable.remove, search]⟩
    | some slot =>
      obtain ⟨hs, c, hc, -⟩ := hit slot rfl
      simp only [Option.bind_eq_bind, Option.bind_some, hc] at h
      obtain ⟨buckets, shift, rest⟩ := Option.bind_eq_some_iff.mp h
      obtain ⟨rfl, rfl, -⟩ : .ok = rs ∧ _ = s' ∧ _ := by simpa using rest
      have wide : 2 ^ 4 ≤ 2 ^ k := Nat.pow_le_pow_right (by omega) inv.packed.low
      rw [inv.cap_eq, setShift_eq k _ _ _ hs (by omega), ← and_next, ← inv.cap_eq] at shift
      have view := hashmapShift_relabel (g := Block.val) s.cap s.cap (put s.buckets slot none)
        slot ((slot + 1) &&& (s.cap - 1))
      rw [relabel_put, shift] at view
      refine .inr ⟨rfl, ?_⟩
      rw [KeyTable.remove, search]
      simp only [SetT.keys, Option.bind_eq_bind, Option.bind_some, Option.map_none] at view ⊢
      simp [view]

theorem setClear_keys (inv : SetInv f k s) : (setClear s m).1.keys = s.keys.clear := by
  obtain ⟨addr, haddr⟩ := Option.ne_none_iff_exists'.mp inv.allocated
  simp only [setClear, haddr]
  rfl

/-- The keys of a set as they are once it has buckets. -/
def SetT.view (s : SetT κ) : KeyTable κ := if s.cap = 0 then .start else s.keys

theorem SetFresh.view_eq (h : SetFresh s) : s.view = .start := by rw [SetT.view, if_pos h.cap_eq]

theorem SetInv.view_eq (inv : SetInv f k s) : s.view = s.keys := by
  rw [SetT.view, if_neg inv.cap_ne]

theorem KeyTable.start_remove (x : κ) : KeyTable.remove f .start x = some none := by
  simp [KeyTable.remove, KeyTable.start, probeLoop]

/-- The set that `set_add` goes on with once there are buckets. -/
theorem setFirstBuckets_view (state : SetState f s) (d : SetDistinct f s) (m : Mem) :
    (∃ m₁, setFirstBuckets s m = (.oom, s, m₁) ∧ m.refusals < m₁.refusals) ∨
      ∃ k s₁ m₁, setFirstBuckets s m = (.ok, s₁, m₁) ∧ SetInv f k s₁ ∧ SetDistinct f s₁ ∧
        s₁.keys = s.view ∧ m₁.refusals = m.refusals := by
  cases state with
  | table k inv =>
    exact .inr ⟨k, s, m, by rw [setFirstBuckets, if_neg inv.cap_ne], inv, d, inv.view_eq.symm, rfl⟩
  | fresh fresh =>
    rcases setFirstBuckets_spec (.fresh fresh) m with
      ⟨m₁, first, more⟩ | ⟨k, s₁, m₁, first, inv, same, len, quiet⟩
    · exact .inl ⟨m₁, first, by omega⟩
    · have opened : s₁.keys = .start := by
        simp only [setFirstBuckets, fresh.cap_eq, if_true] at first
        split at first
        · simp at first
        · obtain rfl := (Prod.mk.inj (Prod.mk.inj first).2).1
          simp [SetT.keys, KeyTable.start, setInitialCap, fresh.psl_eq]
      exact .inr ⟨k, s₁, m₁, first, inv, ⟨same ▸ d.apart, by rw [len, same, d.len_eq]⟩,
        opened.trans fresh.view_eq.symm, quiet⟩

theorem setAdd_view (state : SetState f s) (d : SetDistinct f s) {elem : κ}
    (h : setAdd ndebug f s (some elem) m = some (rs, s', m')) :
    (m.refusals < m'.refusals ∧
        (s' = s ∨ s'.keys = s.view ∨ s.view.grow ndebug f = some s'.keys)) ∨
      (m'.refusals = m.refusals ∧ s.view.add ndebug f elem = some s'.keys) := by
  rcases setFirstBuckets_view state d m with
    ⟨m₁, first, more⟩ | ⟨k, s₁, m₁, first, inv, d₁, same, quiet₁⟩
  · obtain ⟨-, rfl, rfl⟩ : .oom = rs ∧ s = s' ∧ m₁ = m' := by simpa [setAdd, first] using h
    exact .inl ⟨more, .inl rfl⟩
  · rw [← same]
    rcases setAdd_keys first inv d₁ h with ⟨-, more, rfl | grown⟩ | ⟨-, quiet, added⟩
    · exact .inl ⟨by omega, .inr (.inl rfl)⟩
    · exact .inl ⟨by omega, .inr (.inr grown)⟩
    · exact .inr ⟨by omega, added⟩

theorem setRemove_view (state : SetState f s) {elem : κ}
    (h : setRemove f s (some elem) m = some (rs, s', m')) :
    (rs = .notFound ∧ s' = s ∧ s.view.remove f elem = some none) ∨
      (rs = .ok ∧ s.view.remove f elem = some (some s'.view)) := by
  cases state with
  | fresh fresh =>
    obtain ⟨rfl, rfl, -⟩ : .notFound = rs ∧ s = s' ∧ _ := by
      simpa [setRemove, fresh.len_eq] using h
    exact .inl ⟨rfl, rfl, by rw [fresh.view_eq, KeyTable.start_remove]⟩
  | table k inv =>
    obtain ⟨rs₁, s₁, m₁, run, -, -, cap, -⟩ := setRemove_spec (.table k inv) elem m
    obtain rfl := (Prod.mk.inj (Prod.mk.inj (Option.some.inj (h.symm.trans run))).2).1
    have view : s'.view = s'.keys := by rw [SetT.view, if_neg (cap.trans_ne inv.cap_ne)]
    rw [inv.view_eq, view]
    exact setRemove_keys inv h

theorem setClear_view (state : SetState f s) : (setClear s m).1.view = s.view.clear := by
  cases state with
  | fresh fresh =>
    rw [setClear, fresh.no_buckets, fresh.view_eq]
    rfl
  | table k inv =>
    have cap := (setClear_spec (.table k inv) m).2.2.2.1
    rw [SetT.view, if_neg (cap.trans_ne inv.cap_ne), inv.view_eq, setClear_keys inv]

end Set

end Seqc
