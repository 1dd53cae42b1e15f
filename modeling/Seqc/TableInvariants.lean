import Seqc.HashmapRun
import Seqc.SetSpec

/-! What holds of the bucket arrays of hashmap.c and set.c in every state their
operations reach: the representation invariant of a Robin Hood table, and the
bounds that keep the 8-bit counters from wrapping. -/

namespace Seqc
open RobinHood ClassMap Runs

variable {κ ν : Type} {f : KeyFns κ} {k : Nat} {ndebug : Bool}

/-! ### Runs of set.c -/

inductive SetOp (κ : Type) where
  | add (elem : Option κ)
  | contains (elem : Option κ)
  | remove (elem : Option κ)
  | clear

def setStep (ndebug : Bool) (f : KeyFns κ) (op : SetOp κ) (st : SetT κ × Mem) :
    Option (Answer κ × SetT κ × Mem) :=
  match op with
  | .add elem => do
    let (rs, s, m) ← setAdd ndebug f st.1 elem st.2
    pure (.status rs, s, m)
  | .contains elem => do
    let b ← setContains f st.1 elem
    pure (.answer b, st)
  | .remove elem => do
    let (rs, s, m) ← setRemove f st.1 elem st.2
    pure (.status rs, s, m)
  | .clear => some (.nothing, setClear st.1 st.2)

theorem SetState.cap_eq_zero {s : SetT κ} (h : SetState f s) (zero : s.cap = 0) : SetFresh s := by
  cases h with
  | fresh h => exact h
  | table k inv =>
    have pos := Nat.two_pow_pos k
    have := inv.cap_eq
    omega

/-- Every operation of a set returns and keeps the invariant; as long as there are no
buckets, none has succeeded. -/
theorem setStep_inv (ndebug : Bool) (op : SetOp κ) (st : SetT κ × Mem) (h : SetState f st.1) :
    ∃ out st', setStep ndebug f op st = some (out, st') ∧ SetState f st'.1 ∧
      (f.Lawful → SetDistinct f st.1 → SetDistinct f st'.1) ∧
      (st'.1.cap = 0 → st.1.cap = 0 ∧ out ≠ .status .ok) := by
  obtain ⟨s, m⟩ := st
  cases op with
  | add elem =>
    cases elem with
    | none => exact ⟨_, _, rfl, h, fun _ d => d, fun zero => ⟨zero, by simp⟩⟩
    | some elem =>
      obtain ⟨rs, s', m', run, h', unused, outcome⟩ := setAdd_spec ndebug h elem m
      refine ⟨.status rs, (s', m'), by simp [setStep, run], h', fun law d => ?_, fun zero => ?_⟩
      · rcases outcome with ⟨-, -, kept⟩ | ⟨-, -, added⟩ | ⟨-, -, kept⟩
        · exact (kept law d).1
        · exact (added law d).1
        · exact (kept law d).1
      · obtain ⟨rfl, rfl⟩ := unused zero
        exact ⟨zero, by simp⟩
  | contains elem =>
    cases elem with
    | none => exact ⟨_, _, rfl, h, fun _ d => d, fun zero => ⟨zero, by simp⟩⟩
    | some elem =>
      obtain ⟨r, run, -⟩ := setContains_spec h elem
      exact ⟨.answer r, (s, m), by simp [setStep, run], h, fun _ d => d,
        fun zero => ⟨zero, by simp⟩⟩
  | remove elem =>
    cases elem with
    | none => exact ⟨_, _, rfl, h, fun _ d => d, fun zero => ⟨zero, by simp⟩⟩
    | some elem =>
      obtain ⟨rs, s', m', run, h', -, cap, outcome⟩ := setRemove_spec h elem m
      refine ⟨.status rs, (s', m'), by simp [setStep, run], h', fun _ d => ?_, fun zero => ?_⟩
      · rcases outcome with ⟨-, rfl, -⟩ | ⟨-, len, b, -, perm⟩
        · exact d
        · exact d.remove len perm
      · have empty := (h.cap_eq_zero (cap.symm.trans zero)).len_eq
        rcases outcome with ⟨rfl, rfl, -⟩ | ⟨-, len, -⟩
        · exact ⟨zero, by simp⟩
        · omega
  | clear =>
    obtain ⟨h', none_left, len, cap, -⟩ := setClear_spec h m
    exact ⟨_, _, rfl, h', fun _ _ => ⟨by simp [none_left], by simp [none_left, len]⟩,
      fun zero => ⟨cap.symm.trans zero, by simp⟩⟩

/-- A run of a set from `set_create`. -/
theorem set_run (f : KeyFns κ) {elemSize : Nat} {m₀ m₁ : Mem} {s₀ : SetT κ}
    (created : setCreate κ elemSize m₀ = (some s₀, m₁)) (ndebug : Bool) (ops : List (SetOp κ)) :
    ∃ outs s m, run (setStep ndebug f) ops (s₀, m₁) = some (outs, (s, m)) ∧ SetState f s ∧
      (f.Lawful → SetDistinct f s) ∧ (s.cap = 0 → ∀ out ∈ outs, out ≠ .status .ok) := by
  obtain ⟨fresh, -⟩ := setCreate_spec created
  obtain ⟨outs, ⟨s, m⟩, g, ran, spec, h, d, rfl⟩ :=
    run_refines (setStep ndebug f) (fun g _ out g' => g' = 0 → g = 0 ∧ out ≠ Answer.status .ok)
      (R := fun st g => SetState f st.1 ∧ (f.Lawful → SetDistinct f st.1) ∧ g = st.1.cap)
      (fun op st g hst => by
        obtain ⟨h, d, rfl⟩ := hst
        obtain ⟨out, st', step, h', d', unused⟩ := setStep_inv ndebug op st h
        exact ⟨out, st', st'.1.cap, step, unused, h', fun law => d' law (d law), rfl⟩) ops
      (s := (s₀, m₁)) (g := s₀.cap) ⟨.fresh fresh, fun _ => ⟨by simp [fresh.entries_eq],
        by simp [fresh.entries_eq, fresh.len_eq]⟩, rfl⟩
  exact ⟨outs, s, m, ran, h, d, fun zero =>
    (spec.backward (J := fun c => c = 0) (fun _ _ _ _ unused => unused) zero).2⟩

/-! ### The representation invariant -/

/-- `t` is a Robin Hood table of `cap` buckets that holds `len` items. -/
structure RobinHoodTable {α : Type} (hash : α → Nat) (eq : α → α → Bool) (cap len : Nat)
    (t : Table α) (maxPsl : Nat) : Prop where
  power : ∃ k, 4 ≤ k ∧ cap = 2 ^ k
  load : 4 * len ≤ 3 * cap
  counted : len = (List.range cap).countP fun i => decide (pslAt t i ≠ 0)
  apart : ∀ i < cap, ∀ j < cap, i ≠ j → ∀ a b, t i = some a → t j = some b →
    eq a.item b.item = false
  position : ∀ i < cap, ∀ c, t i = some c →
    ((hash c.item &&& (cap - 1) : Nat) : Int) = ((i : Int) - (c.psl - 1)) % cap
  preceded : ∀ i < cap, ∀ c, t i = some c → 2 ≤ c.psl →
    ∃ d, t ((i + cap - 1) % cap) = some d ∧ c.psl - 1 ≤ d.psl
  covers : ∀ i < cap, pslAt t i ≤ maxPsl

theorem Packed.robinHoodTable {α : Type} {hash : α → Nat} {eq : α → α → Bool} {t : Table α}
    {maxPsl : Nat} (p : Packed hash k t maxPsl) (distinct : (items (2 ^ k) t).Pairwise (Apart eq)) :
    RobinHoodTable hash eq (2 ^ k) (items (2 ^ k) t).length t maxPsl where
  power := ⟨k, p.low, rfl⟩
  load := p.load
  counted := by
    rw [items, List.length_filterMap_eq_countP]
    refine List.countP_congr fun i hi => ?_
    cases hc : t i with
    | none => simp [pslAt_none hc]
    | some c =>
      have pos := p.valid.pos i (by simpa using hi) c hc
      simp [pslAt_some hc]
      omega
  apart i hi j hj ne a b ha hb := (apart_of_slots distinct hi hj ne ha hb).1
  position i hi c hc := by
    have place := p.valid.position i hi c hc
    have pos := p.valid.pos i hi c hc
    rw [and_pred, ← place, homeIn]
    push_cast [Nat.cast_sub pos]
    simp
  preceded i hi c hc far := by
    have wide : 0 < 2 ^ k := by omega
    have back : next (2 ^ k) ((i + 2 ^ k - 1) % 2 ^ k) = i := by
      rw [next, Nat.mod_add_mod, show i + 2 ^ k - 1 + 1 = i + 2 ^ k by omega, Nat.add_mod_right,
        Nat.mod_eq_of_lt hi]
    have chain := p.valid.chain ((i + 2 ^ k - 1) % 2 ^ k) (Nat.mod_lt _ wide)
    rw [back, pslAt_some hc] at chain
    cases hd : t ((i + 2 ^ k - 1) % 2 ^ k) with
    | none =>
      rw [pslAt_none hd] at chain
      omega
    | some d =>
      rw [pslAt_some hd] at chain
      exact ⟨d, rfl, by omega⟩
  covers := p.covers

/-- In every state a map or a set with a lawful pair of functions reaches, its buckets
are a Robin Hood table; a set has none until an addition succeeds. -/
theorem robinHood_invariant (f : KeyFns κ) (law : f.Lawful) (ndebug : Bool) :
    (∀ keySize valSize m₀ (map₀ : Hashmap κ ν) m₁ ops,
      hashmapCreate κ ν keySize valSize m₀ = (some map₀, m₁) →
      ∃ outs map m, run (hashmapStep ndebug f) ops (map₀, m₁) = some (outs, (map, m)) ∧
        RobinHoodTable (entryHash f) (entryEq f) map.cap map.len map.buckets map.maxPsl) ∧
    ∀ elemSize m₀ s₀ m₁ ops, setCreate κ elemSize m₀ = (some s₀, m₁) →
      ∃ outs s m, run (setStep ndebug f) ops (s₀, m₁) = some (outs, (s, m)) ∧
        ((s.cap = 0 ∧ s.len = 0 ∧ ∀ out ∈ outs, out ≠ .status .ok) ∨
          RobinHoodTable (blockHash f) (blockEq f) s.cap s.len s.buckets s.maxPsl) := by
  constructor
  · intro keySize valSize m₀ map₀ m₁ ops created
    obtain ⟨outs, map, m, g, ran, -, ⟨k, inv⟩, rep⟩ := hashmap_runs law created ndebug ops
    have distinct := distinct_of_represents law rep
    rw [inv.entries_eq] at distinct
    refine ⟨outs, map, m, ran, ?_⟩
    rw [inv.len_eq, inv.cap_eq]
    exact inv.packed.robinHoodTable distinct
  · intro elemSize m₀ s₀ m₁ ops created
    obtain ⟨outs, s, m, ran, h, distinct, unused⟩ := set_run f created ndebug ops
    refine ⟨outs, s, m, ran, ?_⟩
    cases h with
    | fresh h => exact .inl ⟨h.cap_eq, h.len_eq, unused h.cap_eq⟩
    | table k inv =>
      have d := distinct law
      right
      rw [d.len_eq, inv.entries_eq, inv.cap_eq]
      exact inv.packed.robinHoodTable (inv.entries_eq ▸ d.apart)

theorem robinHood_invariant_colliding :
    ∃ outs s m, run (setStep false collidingKeys) [.add (some 7), .add (some 9), .remove (some 7)]
        (⟨0, none, fun _ => none, 0, 0, 8, 0⟩, ⟨refusingOnce 9, 1, [.alloc 0 72]⟩) =
          some (outs, (s, m)) ∧
      ((s.cap = 0 ∧ s.len = 0 ∧ ∀ out ∈ outs, out ≠ .status .ok) ∨
        RobinHoodTable (blockHash collidingKeys) (blockEq collidingKeys) s.cap s.len s.buckets
          s.maxPsl) :=
  (robinHood_invariant (ν := Nat) collidingKeys collidingKeys_lawful false).2 8
    (.start (refusingOnce 9)) _ _ _ rfl

/-! ### The 8-bit counters

An operation in which no assert fires is the one that `NDEBUG` compiles. -/

theorem hashmapInsertRaw_ndebug {map : Hashmap κ ν} {e : Entry κ ν} {m : Mem}
    {r : Hashmap κ ν × Mem} (h : hashmapInsertRaw false f map e m = some r) :
    hashmapInsertRaw true f map e m = some r := by
  obtain ⟨ins, loop, rest⟩ := Option.bind_eq_some_iff.mp h
  exact Option.bind_eq_some_iff.mpr ⟨ins, insertLoop_ndebug _ loop, rest⟩

theorem hashmapGrow_ndebug {map : Hashmap κ ν} {m : Mem} {r : Status × Hashmap κ ν × Mem}
    (h : hashmapGrow false f map m = some r) : hashmapGrow true f map m = some r := by
  unfold hashmapGrow at h ⊢
  split at h
  · rename_i grows
    rw [if_pos grows]
    unfold hashmapResizeAndRehash at h ⊢
    split at h
    · exact h
    · obtain ⟨s, loop, rest⟩ := Option.bind_eq_some_iff.mp h
      refine Option.bind_eq_some_iff.mpr ⟨s, foldlM_mono (fun s i s' hs => ?_) _ loop, rest⟩
      unfold rehashBucket at hs ⊢
      cases hc : map.buckets i with
      | none => simpa [hc] using hs
      | some c => exact hashmapInsertRaw_ndebug (by simpa [hc] using hs)
  · rename_i calm
    rw [if_neg calm]
    exact h

theorem hashmapStore_ndebug {map : Hashmap κ ν} {key : κ} {value : ν} {m : Mem}
    {r : Status × Hashmap κ ν × Mem} (h : hashmapStore false f map key value m = some r) :
    hashmapStore true f map key value m = some r := by
  unfold hashmapStore at h ⊢
  split at h
  · exact h
  · split at h
    · exact h
    · obtain ⟨s, inserted, rest⟩ := Option.bind_eq_some_iff.mp h
      exact Option.bind_eq_some_iff.mpr ⟨s, hashmapInsertRaw_ndebug inserted, rest⟩

theorem hashmapStep_ndebug (op : HashmapOp κ ν) (s : Hashmap κ ν × Mem)
    (r : Answer ν × Hashmap κ ν × Mem) (h : hashmapStep false f op s = some r) :
    hashmapStep true f op s = some r := by
  cases op with
  | set key value =>
    obtain ⟨t, set, rest⟩ := Option.bind_eq_some_iff.mp h
    refine Option.bind_eq_some_iff.mpr ⟨t, ?_, rest⟩
    unfold hashmapSet at set ⊢
    split at set
    · obtain ⟨⟨rs, map, m⟩, grow, stored⟩ := Option.bind_eq_some_iff.mp set
      refine Option.bind_eq_some_iff.mpr ⟨(rs, map, m), hashmapGrow_ndebug grow, ?_⟩
      by_cases ok : rs = .ok
      · simp only [ok, if_true] at stored ⊢
        exact hashmapStore_ndebug stored
      · simpa [ok] using stored
    · exact set
  | get | getPtr | contains | remove | clear => exact h

theorem setInsertRaw_ndebug {s : SetT κ} {b : Block κ} {m : Mem} {r : Bool × SetT κ × Mem}
    (h : setInsertRaw false f s b m = some r) : setInsertRaw true f s b m = some r := by
  obtain ⟨ins, loop, rest⟩ := Option.bind_eq_some_iff.mp h
  exact Option.bind_eq_some_iff.mpr ⟨ins, insertLoop_ndebug _ loop, rest⟩

theorem setGrow_ndebug {s : SetT κ} {m : Mem} {r : Status × SetT κ × Mem}
    (h : setGrow false f s m = some r) : setGrow true f s m = some r := by
  unfold setGrow at h ⊢
  split at h
  · rename_i grows
    rw [if_pos grows]
    unfold setResize at h ⊢
    split at h
    · exact h
    · obtain ⟨st, loop, rest⟩ := Option.bind_eq_some_iff.mp h
      refine Option.bind_eq_some_iff.mpr ⟨st, foldlM_mono (fun st i st' hst => ?_) _ loop, rest⟩
      unfold setRehashBucket at hst ⊢
      cases hc : s.buckets i with
      | none => simpa [hc] using hst
      | some c =>
        simp only [hc] at hst ⊢
        obtain ⟨t, inserted, rest⟩ := Option.bind_eq_some_iff.mp hst
        exact Option.bind_eq_some_iff.mpr ⟨t, setInsertRaw_ndebug inserted, rest⟩
  · rename_i calm
    rw [if_neg calm]
    exact h

theorem setStore_ndebug {s : SetT κ} {elem : κ} {m : Mem} {r : Status × SetT κ × Mem}
    (h : setStore false f s elem m = some r) : setStore true f s elem m = some r := by
  unfold setStore at h ⊢
  split at h
  · exact h
  · obtain ⟨t, inserted, rest⟩ := Option.bind_eq_some_iff.mp h
    exact Option.bind_eq_some_iff.mpr ⟨t, setInsertRaw_ndebug inserted, rest⟩

theorem setStep_ndebug (op : SetOp κ) (st : SetT κ × Mem) (r : Answer κ × SetT κ × Mem)
    (h : setStep false f op st = some r) : setStep true f op st = some r := by
  cases op with
  | add elem =>
    obtain ⟨t, add, rest⟩ := Option.bind_eq_some_iff.mp h
    refine Option.bind_eq_some_iff.mpr ⟨t, ?_, rest⟩
    unfold setAdd at add ⊢
    split at add
    · exact add
    · split at add
      · obtain ⟨⟨rs, s, m⟩, grow, stored⟩ := Option.bind_eq_some_iff.mp add
        refine Option.bind_eq_some_iff.mpr ⟨(rs, s, m), setGrow_ndebug grow, ?_⟩
        by_cases ok : rs = .ok
        · simp only [ok, if_true] at stored ⊢
          exact setStore_ndebug stored
        · simpa [ok] using stored
      · exact add
  | contains | remove | clear => exact h

/-- Every operation of a map returns and keeps the invariant, whatever `hash` and
`eq` are. -/
theorem hashmapStep_inv (ndebug : Bool) (op : HashmapOp κ ν) (s : Hashmap κ ν × Mem)
    (h : ∃ k, HashmapInv f k s.1) :
    ∃ out s', hashmapStep ndebug f op s = some (out, s') ∧ ∃ k, HashmapInv f k s'.1 := by
  obtain ⟨map, m⟩ := s
  obtain ⟨k, inv⟩ := h
  have ptr (key : Option κ) : ∃ r, hashmapGetPtr f map key = some r := by
    cases key with
    | none => exact ⟨none, rfl⟩
    | some key =>
      obtain ⟨r, run, -⟩ := hashmapFind_spec inv key
      cases r <;> exact ⟨_, by simp only [hashmapGetPtr, run]; rfl⟩
  have get (key : Option κ) (out : Bool) : ∃ r, hashmapGet f map key out = some r := by
    cases key with
    | none => exact ⟨_, rfl⟩
    | some key =>
      obtain ⟨r, run⟩ := ptr (some key)
      exact ⟨_, by simp only [hashmapGet, run]; rfl⟩
  cases op with
  | set key value =>
    cases key with
    | none => exact ⟨_, (map, m), rfl, k, inv⟩
    | some key =>
      cases value with
      | none => exact ⟨_, (map, m), rfl, k, inv⟩
      | some value =>
        obtain ⟨st, k', map', m', run, inv', -⟩ := hashmapSet_spec ndebug inv key value m
        exact ⟨.status st, (map', m'), by simp [hashmapStep, run], k', inv'⟩
  | get key out =>
    obtain ⟨r, run⟩ := get key out
    exact ⟨.read r.1 r.2, (map, m), by simp [hashmapStep, run], k, inv⟩
  | getPtr key =>
    obtain ⟨r, run⟩ := ptr key
    exact ⟨.pointee (r.map Block.val), (map, m), by simp [hashmapStep, run], k, inv⟩
  | contains key =>
    obtain ⟨r, run⟩ := get key false
    exact ⟨.answer (decide (r.1 = .ok)), (map, m),
      by simp [hashmapStep, hashmapContains, run], k, inv⟩
  | remove key =>
    cases key with
    | none => exact ⟨_, (map, m), rfl, k, inv⟩
    | some key =>
      obtain ⟨st, map', m', run, inv', -⟩ := hashmapRemove_spec inv key m
      exact ⟨.status st, (map', m'), by simp [hashmapStep, run], k, inv'⟩
  | clear => exact ⟨_, _, rfl, k, (hashmapClear_spec inv m).1⟩

theorem Packed.short {α : Type} {hash : α → Nat} {t : Table α} {maxPsl : Nat}
    (p : Packed hash k t maxPsl) : maxPsl ≤ 255 := by
  have high := p.high
  have bound := p.bound
  omega

/-- No run of a map or a set, whatever `hash` and `eq` are, fires an assert, so the
counters of the insertions never wrap, and `NDEBUG` changes no run; the counters
stored stay at or below 255, and so do those of the searches, which end within 255
iterations. -/
theorem psl_never_wraps (f : KeyFns κ) :
    (∀ keySize valSize m₀ (map₀ : Hashmap κ ν) m₁ ops,
      hashmapCreate κ ν keySize valSize m₀ = (some map₀, m₁) →
      ∃ outs map m, run (hashmapStep false f) ops (map₀, m₁) = some (outs, (map, m)) ∧
        run (hashmapStep true f) ops (map₀, m₁) = some (outs, (map, m)) ∧
        map.maxPsl ≤ 255 ∧ (∀ i < map.cap, pslAt map.buckets i ≤ 255) ∧
        ∀ key, ∃ r, probeLoop (fun e => f.eq e.key.val key) map.cap map.buckets 255
          (hashmapGetSlot f map key) 1 = some r) ∧
    ∀ elemSize m₀ s₀ m₁ ops, setCreate κ elemSize m₀ = (some s₀, m₁) →
      ∃ outs s m, run (setStep false f) ops (s₀, m₁) = some (outs, (s, m)) ∧
        run (setStep true f) ops (s₀, m₁) = some (outs, (s, m)) ∧
        s.maxPsl ≤ 255 ∧ (∀ i < s.cap, pslAt s.buckets i ≤ 255) ∧
        ∀ elem, s.len ≠ 0 → ∃ r, probeLoop (fun b => f.eq b.val elem) s.cap s.buckets 255
          (setSlot f s elem) 1 = some r := by
  constructor
  · intro keySize valSize m₀ map₀ m₁ ops created
    obtain ⟨outs, ⟨map, m⟩, ran, k, inv⟩ :=
      run_invariant (hashmapStep false f) (hashmapStep_inv false) ops (s := (map₀, m₁))
        ⟨4, (hashmapCreate_spec f created).1⟩
    refine ⟨outs, map, m, ran, run_mono hashmapStep_ndebug ops ran, inv.packed.short,
      fun i hi => ?_, fun key => ?_⟩
    · exact (inv.packed.covers i (inv.cap_eq ▸ hi)).trans inv.packed.short
    · obtain ⟨r, search, -⟩ := inv.packed.probe (fun e => f.eq e.key.val key) (f.hash key) 255
        (Nat.min_le_left _ _)
      exact ⟨r, by rwa [hashmapGetSlot, inv.cap_eq, and_pred]⟩
  · intro elemSize m₀ s₀ m₁ ops created
    obtain ⟨outs, s, m, ran, h, -⟩ := set_run f created false ops
    refine ⟨outs, s, m, ran, run_mono setStep_ndebug ops ran, ?_⟩
    cases h with
    | fresh h =>
      exact ⟨by simp [h.psl_eq], by simp [h.cap_eq], fun _ used => absurd h.len_eq used⟩
    | table k inv =>
      refine ⟨inv.packed.short, fun i hi => ?_, fun elem _ => ?_⟩
      · exact (inv.packed.covers i (inv.cap_eq ▸ hi)).trans inv.packed.short
      · obtain ⟨r, search, -⟩ := inv.packed.probe (fun b => f.eq b.val elem) (f.hash elem) 255
          (Nat.min_le_left _ _)
        exact ⟨r, by rwa [setSlot, inv.cap_eq, and_pred]⟩

theorem psl_never_wraps_colliding :
    ∃ outs s m, run (setStep false collidingKeys) [.add (some 7), .add (some 9), .remove (some 7)]
        (⟨0, none, fun _ => none, 0, 0, 8, 0⟩, ⟨refusingOnce 9, 1, [.alloc 0 72]⟩) =
          some (outs, (s, m)) ∧ s.maxPsl ≤ 255 := by
  obtain ⟨outs, s, m, ran, -, small, -⟩ := (psl_never_wraps (ν := Nat) collidingKeys).2 8
    (.start (refusingOnce 9)) _ _ [.add (some 7), .add (some 9), .remove (some 7)] rfl
  exact ⟨outs, s, m, ran, small⟩

end Seqc
