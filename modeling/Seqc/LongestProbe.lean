import Seqc.Growth
import Seqc.Layout

/-! The field `max_psl`, "highest PSL of any stored bucket". Insertions, doublings and
`clear` keep it; a removal leaves it as it was, though it may take away the longest probe or
move it one slot back. -/

namespace Seqc
open RobinHood ClassMap Runs

variable {κ ν α : Type} {f : KeyFns κ} {ndebug : Bool} {k : Nat}

/-! ### The maximum over the slots -/

/-- No smaller bound holds of the stored lengths. -/
def Attained (cap : Nat) (t : Table α) (maxPsl : Nat) : Prop :=
  ∀ b, (∀ i < cap, pslAt t i ≤ b) → maxPsl ≤ b

theorem attained_of_slot {cap maxPsl i : Nat} {t : Table α} (hi : i < cap)
    (longest : pslAt t i = maxPsl) : Attained cap t maxPsl := fun _ short => longest ▸ short i hi

theorem Attained.exists_slot {cap maxPsl : Nat} {t : Table α} (a : Attained cap t maxPsl)
    (covers : ∀ i < cap, pslAt t i ≤ maxPsl) (pos : 0 < maxPsl) :
    ∃ i < cap, pslAt t i = maxPsl := by
  by_contra shorter
  push Not at shorter
  have less := a (maxPsl - 1) fun i hi => by
    have := covers i hi
    have := shorter i hi
    omega
  omega

theorem tableAudit_maxPsl_succ (cap n len : Nat) (t : Table α) :
    ((List.range (n + 1)).foldl (auditBucket t) ⟨len, cap, 0, 0⟩).maxPsl =
      max ((List.range n).foldl (auditBucket t) ⟨len, cap, 0, 0⟩).maxPsl (pslAt t n) := by
  rw [List.range_succ, List.foldl_append, List.foldl_cons, List.foldl_nil, auditBucket]
  split
  · simp only
    split <;> omega
  · omega

/-- The audit's maximum is the least bound on the lengths. -/
theorem tableAudit_maxPsl (cap len : Nat) (t : Table α) :
    (∀ i < cap, pslAt t i ≤ (tableAudit cap len t).maxPsl) ∧
      Attained cap t (tableAudit cap len t).maxPsl := by
  unfold tableAudit
  generalize cap = total
  suffices h : ∀ n ≤ total, (∀ i < n, pslAt t i ≤
      ((List.range n).foldl (auditBucket t) ⟨len, total, 0, 0⟩).maxPsl) ∧
      Attained n t ((List.range n).foldl (auditBucket t) ⟨len, total, 0, 0⟩).maxPsl from
    h total le_rfl
  intro n
  induction n with
  | zero => exact fun _ => ⟨by simp, fun b _ => Nat.zero_le b⟩
  | succ n ih =>
    intro hn
    obtain ⟨covers, attained⟩ := ih (by omega)
    rw [tableAudit_maxPsl_succ]
    refine ⟨fun i hi => ?_, fun b short => ?_⟩
    · rcases Nat.lt_succ_iff_lt_or_eq.mp hi with before | rfl
      · exact (covers i before).trans (Nat.le_max_left _ _)
      · exact Nat.le_max_right _ _
    · exact Nat.max_le.mpr ⟨attained b fun i hi => short i (by omega), short n (by omega)⟩

/-- A bound on the lengths is the audit's maximum if no smaller one holds. -/
theorem eq_tableAudit_iff {cap maxPsl : Nat} (len : Nat) {t : Table α}
    (covers : ∀ i < cap, pslAt t i ≤ maxPsl) :
    maxPsl = (tableAudit cap len t).maxPsl ↔ Attained cap t maxPsl := by
  obtain ⟨above, least⟩ := tableAudit_maxPsl cap len t
  refine ⟨fun h => h ▸ least, fun a => ?_⟩
  exact le_antisymm (a _ above) (least _ covers)

/-! ### Insertions attain the maximum they record -/

theorem pslAt_put_bucketOf (t : Table α) (i : Nat) (x : α) (p : Nat) :
    pslAt (put t i (bucketOf x p)) i = p := by
  rw [pslAt_put_self, bucketOf]
  split
  · rename_i zero
    exact zero.symm
  · rfl

theorem Attained.store {cap maxPsl slot p : Nat} {t : Table α} {x : α}
    (a : Attained cap t maxPsl) (hs : slot < cap) (less : pslAt t slot ≤ p) :
    Attained cap (put t slot (bucketOf x p)) (max maxPsl p) := by
  intro b short
  have stored := short slot hs
  rw [pslAt_put_bucketOf] at stored
  refine Nat.max_le.mpr ⟨a b fun i hi => ?_, stored⟩
  by_cases h : i = slot
  · exact h ▸ less.trans stored
  · exact pslAt_put_ne t (bucketOf x p) h ▸ short i hi

theorem insertLoop_attained {eq : α → α → Bool} {merge : α → α → α} {cap : Nat} (fuel : Nat) :
    ∀ {t : Table α} {maxPsl slot : Nat} {x : α} {p : Nat} {r : Inserted α}, slot < cap →
      insertLoop ndebug eq merge cap fuel t maxPsl slot x p = some r →
      Attained cap t maxPsl → Attained cap r.buckets r.maxPsl := by
  induction fuel with
  | zero => simp [insertLoop]
  | succ fuel ih =>
    intro t maxPsl slot x p r hs h a
    have next_slot : (slot + 1) &&& (cap - 1) < cap :=
      lt_of_le_of_lt Nat.and_le_right (by omega)
    rw [insertLoop] at h
    cases hcur : t slot with
    | none =>
      simp only [hcur, Option.some.injEq] at h
      subst h
      exact a.store hs (by rw [pslAt_none hcur]; exact Nat.zero_le p)
    | some cur =>
      simp only [hcur] at h
      by_cases equal : eq cur.item x = true
      · simp only [equal, if_true, Option.some.injEq] at h
        subst h
        intro b short
        refine a b fun i hi => ?_
        have here := short i hi
        by_cases h : i = slot
        · subst h
          simpa [pslAt_some hcur] using here
        · rwa [pslAt_put_ne _ _ h] at here
      by_cases less : cur.psl < p
      · simp only [equal, less, if_true, if_false, Bool.false_eq_true] at h
        obtain ⟨q, -, rest⟩ := Option.bind_eq_some_iff.mp h
        exact ih next_slot rest (a.store hs (by rw [pslAt_some hcur]; exact less.le))
      · simp only [equal, less, if_false, Bool.false_eq_true] at h
        obtain ⟨q, -, rest⟩ := Option.bind_eq_some_iff.mp h
        exact ih next_slot rest a

/-! ### What a removal shifts -/

/-- The slots a removal at `s` changes: `s` itself and the buckets after it up to the first
that is empty or in its home slot. -/
def Shifted (cap : Nat) (t : Table α) (s i : Nat) : Prop :=
  ∃ n < cap, i = (s + n) % cap ∧ ∀ j < n, 1 < pslAt t ((s + (j + 1)) % cap)

/-- The shift of `n` buckets: each slot of the run takes over the length of the next, less
one, and the others stay. -/
theorem hashmapShift_run (n : Nat) :
    ∀ (fuel : Nat) (t : Table α) (s : Nat), n < fuel → n + 1 < 2 ^ k → s < 2 ^ k → t s = none →
      (∀ j < n, 1 < pslAt t ((s + (j + 1)) % 2 ^ k)) → pslAt t ((s + (n + 1)) % 2 ^ k) ≤ 1 →
      ∃ t', hashmapShift (2 ^ k) fuel t s (next (2 ^ k) s) = some t' ∧
        (∀ j ≤ n, pslAt t' ((s + j) % 2 ^ k) = pslAt t ((s + (j + 1)) % 2 ^ k) - 1) ∧
        ∀ i, (∀ j ≤ n, i ≠ (s + j) % 2 ^ k) → pslAt t' i = pslAt t i := by
  induction n with
  | zero =>
    intro fuel t s hf _ hs empty _ stop
    obtain ⟨fuel, rfl⟩ : ∃ f, fuel = f + 1 := ⟨fuel - 1, by omega⟩
    change pslAt t (next (2 ^ k) s) ≤ 1 at stop
    refine ⟨t, ?_, fun j hj => ?_, fun i _ => rfl⟩
    · cases hcur : t (next (2 ^ k) s) with
      | none => simp [hashmapShift, hcur]
      | some cur =>
        rw [pslAt_some hcur] at stop
        simp [hashmapShift, hcur, show ¬1 < cur.psl by omega]
    · obtain rfl : j = 0 := by omega
      change pslAt t ((s + 0) % 2 ^ k) = pslAt t (next (2 ^ k) s) - 1
      rw [Nat.add_zero, Nat.mod_eq_of_lt hs, pslAt_none empty]
      omega
  | succ n ih =>
    intro fuel t s hf hn hs empty far stop
    obtain ⟨fuel, rfl⟩ : ∃ f, fuel = f + 1 := ⟨fuel - 1, by omega⟩
    have first : 1 < pslAt t (next (2 ^ k) s) := far 0 (by omega)
    cases hcur : t (next (2 ^ k) s) with
    | none =>
      rw [pslAt_none hcur] at first
      omega
    | some cur =>
      rw [pslAt_some hcur] at first
      have hnext : next (2 ^ k) s < 2 ^ k := next_lt (by omega)
      have along (j : Nat) : (next (2 ^ k) s + j) % 2 ^ k = (s + (j + 1)) % 2 ^ k := by
        rw [next, Nat.mod_add_mod, show s + 1 + j = s + (j + 1) by omega]
      -- The slots still to come are neither the hole nor the one just emptied.
      have ahead (j : Nat) (hj : j < n + 1) :
          pslAt (put (put t s (some ⟨cur.item, cur.psl - 1⟩)) (next (2 ^ k) s) none)
            ((next (2 ^ k) s + (j + 1)) % 2 ^ k) = pslAt t ((s + (j + 1 + 1)) % 2 ^ k) := by
        rw [pslAt_put_ne _ _ (add_mod_ne hnext (by omega) (by omega)), along,
          pslAt_put_ne _ _ (add_mod_ne hs (by omega) (by omega))]
      obtain ⟨t', run, moved, same⟩ := ih fuel
        (put (put t s (some ⟨cur.item, cur.psl - 1⟩)) (next (2 ^ k) s) none) (next (2 ^ k) s)
        (by omega) (by omega) hnext (put_self _ _ _)
        (fun j hj => by rw [ahead j (by omega)]; exact far (j + 1) (by omega))
        (by rw [ahead n (by omega)]; exact stop)
      refine ⟨t', ?_, fun j hj => ?_, fun i hi => ?_⟩
      · simp only [hashmapShift, hcur, first, if_true, and_next]
        exact run
      · cases j with
        | zero =>
          have left : pslAt t' s = pslAt (put (put t s (some ⟨cur.item, cur.psl - 1⟩))
              (next (2 ^ k) s) none) s := same s fun j hj => by
            rw [along]
            exact (add_mod_ne hs (by omega) (by omega)).symm
          have ne : s ≠ next (2 ^ k) s := (add_mod_ne hs Nat.one_pos (by omega)).symm
          change pslAt t' ((s + 0) % 2 ^ k) = pslAt t (next (2 ^ k) s) - 1
          rw [Nat.add_zero, Nat.mod_eq_of_lt hs, left, pslAt_put_ne _ _ ne, pslAt_put_self,
            pslAt_some hcur]
          rfl
        | succ j => rw [← along, moved j (by omega), ahead j (by omega)]
      · rw [same i fun j hj => by rw [along]; exact hi (j + 1) (by omega)]
        have not_hole : i ≠ s := by
          have := hi 0 (by omega)
          rwa [Nat.add_zero, Nat.mod_eq_of_lt hs] at this
        have not_next : i ≠ next (2 ^ k) s := hi 1 (by omega)
        rw [pslAt_put_ne _ _ not_next, pslAt_put_ne _ _ not_hole]

/-- The run that a removal shifts back ends before it comes round. -/
theorem exists_run {t : Table α} (room : ∃ e < 2 ^ k, t e = none) {s : Nat} (hs : s < 2 ^ k)
    (taken : t s ≠ none) :
    ∃ n, n + 1 < 2 ^ k ∧ (∀ j < n, 1 < pslAt t ((s + (j + 1)) % 2 ^ k)) ∧
      pslAt t ((s + (n + 1)) % 2 ^ k) ≤ 1 := by
  obtain ⟨e, he, free⟩ := room
  have ne : e ≠ s := fun h => taken (h ▸ free)
  obtain ⟨d, hd, reach⟩ : ∃ d, d + 1 < 2 ^ k ∧ (s + (d + 1)) % 2 ^ k = e := by
    rcases Nat.lt_or_ge s e with before | after
    · refine ⟨e - s - 1, by omega, ?_⟩
      rw [show s + (e - s - 1 + 1) = e by omega, Nat.mod_eq_of_lt he]
    · refine ⟨e + 2 ^ k - s - 1, by omega, ?_⟩
      rw [show s + (e + 2 ^ k - s - 1 + 1) = e + 2 ^ k by omega, Nat.add_mod_right,
        Nat.mod_eq_of_lt he]
  have stops : ∃ n, pslAt t ((s + (n + 1)) % 2 ^ k) ≤ 1 :=
    ⟨d, by rw [reach, pslAt_none free]; exact Nat.zero_le 1⟩
  have least := Nat.find_min' stops (by rw [reach, pslAt_none free]; exact Nat.zero_le 1 :
    pslAt t ((s + (d + 1)) % 2 ^ k) ≤ 1)
  refine ⟨Nat.find stops, by omega, fun j hj => ?_, Nat.find_spec stops⟩
  exact Nat.not_le.mp (Nat.find_min stops hj)

/-- After a removal the recorded maximum is attained if and only if a longest probe was
outside the shifted slots. -/
theorem hashmapShift_attained_iff {t t' : Table α} {maxPsl s : Nat} {c : Cell α}
    (room : ∃ e < 2 ^ k, t e = none) (covers : ∀ i < 2 ^ k, pslAt t i ≤ maxPsl) (hs : s < 2 ^ k)
    (hc : t s = some c) (pos : 0 < c.psl)
    (h : hashmapShift (2 ^ k) (2 ^ k) (put t s none) s (next (2 ^ k) s) = some t') :
    Attained (2 ^ k) t' maxPsl ↔
      ∃ i < 2 ^ k, pslAt t i = maxPsl ∧ ¬Shifted (2 ^ k) t s i := by
  obtain ⟨n, hn, far, stop⟩ := exists_run room hs (by simp [hc])
  have other (j : Nat) (hj : j < n + 1) :
      pslAt (put t s none) ((s + (j + 1)) % 2 ^ k) = pslAt t ((s + (j + 1)) % 2 ^ k) :=
    pslAt_put_ne _ _ (add_mod_ne hs (by omega) (by omega))
  obtain ⟨t'', run, moved, same⟩ := hashmapShift_run n (2 ^ k) (put t s none) s (by omega) hn hs
    (put_self _ _ _) (fun j hj => by rw [other j (by omega)]; exact far j hj)
    (by rw [other n (by omega)]; exact stop)
  obtain rfl : t'' = t' := Option.some.inj (run.symm.trans h)
  have shifted (i : Nat) : Shifted (2 ^ k) t s i ↔ ∃ j ≤ n, i = (s + j) % 2 ^ k := by
    constructor
    · rintro ⟨j, -, rfl, all⟩
      refine ⟨j, Nat.le_of_not_lt fun more => ?_, rfl⟩
      have := all n more
      omega
    · rintro ⟨j, hj, rfl⟩
      exact ⟨j, by omega, rfl, fun j' hj' => far j' (by omega)⟩
  have unmoved (i : Nat) (outside : ¬Shifted (2 ^ k) t s i) : pslAt t'' i = pslAt t i := by
    have not_hole : i ≠ s := fun at_s => outside ((shifted i).mpr ⟨0, Nat.zero_le n, by
      rw [Nat.add_zero, Nat.mod_eq_of_lt hs, at_s]⟩)
    rw [same i fun j hj at_j => outside ((shifted i).mpr ⟨j, hj, at_j⟩), pslAt_put_ne _ _ not_hole]
  have some_psl : c.psl ≤ maxPsl := pslAt_some hc ▸ covers s hs
  constructor
  · intro attained
    by_contra all_shifted
    push Not at all_shifted
    -- Every longest probe was moved one slot back or removed.
    have shorter := attained (maxPsl - 1) fun i hi => by
      by_cases hit : Shifted (2 ^ k) t s i
      · obtain ⟨j, hj, rfl⟩ := (shifted i).mp hit
        have below := covers ((s + (j + 1)) % 2 ^ k) (Nat.mod_lt _ (Nat.two_pow_pos k))
        rw [moved j hj, other j (by omega)]
        omega
      · have below := covers i hi
        have not_longest : pslAt t i ≠ maxPsl := fun longest => hit (all_shifted i hi longest)
        rw [unmoved i hit]
        omega
    omega
  · rintro ⟨i, hi, longest, outside⟩
    exact attained_of_slot hi ((unmoved i outside).trans longest)

/-! ### Tables of keys -/

namespace KeyTable

/-- There are buckets and a stored length, or none at all, is the recorded maximum. -/
structure Tight (T : KeyTable κ) : Prop where
  pos : 0 < T.cap
  attained : Attained T.cap T.buckets T.maxPsl

theorem start_tight : (start : KeyTable κ).Tight := ⟨by simp [start], fun b _ => Nat.zero_le b⟩

theorem Tight.insertRaw {T T' : KeyTable κ} {x : κ} (tight : T.Tight)
    (h : T.insertRaw ndebug f x = some T') : T'.Tight := by
  obtain ⟨r, loop, rfl⟩ := Option.map_eq_some_iff.mp h
  have pos := tight.pos
  have home : T.slot f x < T.cap := lt_of_le_of_lt Nat.and_le_right (by omega)
  exact ⟨pos, insertLoop_attained T.cap home loop tight.attained⟩

theorem Tight.grow {T T' : KeyTable κ} (tight : T.Tight) (h : T.grow ndebug f = some T') :
    T'.Tight := by
  rcases grow_cases h with ⟨-, rfl⟩ | ⟨-, doubled, -⟩
  · exact tight
  · have pos := tight.pos
    have fresh : (⟨2 * T.cap, fun _ => none, 0⟩ : KeyTable κ).Tight :=
      ⟨by simp only; omega, fun b _ => Nat.zero_le b⟩
    refine foldlM_preserves (fun T₁ i T₂ tight₁ step => ?_) _ fresh doubled
    unfold rehashBucket at step
    split at step
    · exact Option.some.inj step ▸ tight₁
    · exact tight₁.insertRaw step

theorem Tight.add {T T' : KeyTable κ} {x : κ} (tight : T.Tight)
    (h : T.add ndebug f x = some T') : T'.Tight := by
  obtain ⟨T₁, grown, stored⟩ := Option.bind_eq_some_iff.mp h
  exact (tight.grow grown).insertRaw stored

theorem Tight.clear {T : KeyTable κ} (tight : T.Tight) : T.clear.Tight :=
  ⟨tight.pos, fun b _ => Nat.zero_le b⟩

/-- Without the key equal to `x`, and with the buckets shifted back behind it, a longest probe
stays where it is. -/
def KeepsLongest (f : KeyFns κ) (T : KeyTable κ) (x : κ) : Prop :=
  ∀ s < T.cap, ∀ c, T.buckets s = some c → f.eq c.item x = true →
    ∃ i < T.cap, pslAt T.buckets i = T.maxPsl ∧ ¬Shifted T.cap T.buckets s i

/-- `r` is `none` if there is no such key. -/
theorem Inv.remove_tight_iff (law : f.Lawful) {T : KeyTable κ} (inv : T.Inv f k) {x : κ}
    {r : Option (KeyTable κ)} (tight : T.Tight) (h : T.remove f x = some r) :
    (r.getD T).Tight ↔ T.KeepsLongest f x := by
  obtain ⟨found, probe, hit, absent⟩ := inv.packed.probe (fun y => f.eq y x) (f.hash x) (2 ^ k)
    (Nat.min_le_right _ _)
  obtain ⟨cap, buckets, maxPsl⟩ := T
  obtain ⟨rfl, packed, apart⟩ := inv
  have search : probeLoop (fun y => f.eq y x) (2 ^ k) buckets (2 ^ k) (f.hash x % 2 ^ k) 1 =
      some found := probe
  simp only [remove, slot, and_pred, search, Option.bind_eq_bind, Option.bind_some] at h
  cases found with
  | none =>
    obtain rfl : none = r := by simpa using h
    refine iff_of_true tight fun s hs c hc equal => ?_
    have other := absent rfl c.item (mem_items.mpr ⟨s, hs, c, hc, rfl⟩) (law.hash_eq _ _ equal)
    simp [other] at equal
  | some s =>
    obtain ⟨hs, c, hc, equal⟩ := hit s rfl
    obtain ⟨t', shift, rest⟩ := Option.bind_eq_some_iff.mp h
    obtain rfl : some ⟨2 ^ k, t', maxPsl⟩ = r := by simpa using rest
    -- The search found the only key that is equal to `x`.
    have only : KeepsLongest f ⟨2 ^ k, buckets, maxPsl⟩ x ↔
        ∃ i < 2 ^ k, pslAt buckets i = maxPsl ∧ ¬Shifted (2 ^ k) buckets s i := by
      refine ⟨fun keeps => keeps s hs c hc equal, fun longest s' hs' c' hc' equal' => ?_⟩
      obtain rfl : s' = s := by
        by_contra ne
        have differ := (apart_of_slots apart hs' hs ne hc' hc).1
        have clash := law.trans _ _ _ equal' (law.symm _ _ equal)
        simp [differ] at clash
      exact longest
    rw [only, ← hashmapShift_attained_iff (exists_free packed.room) packed.covers hs hc
      (packed.valid.pos s hs c hc) shift]
    exact ⟨Tight.attained, fun attained => ⟨tight.pos, attained⟩⟩

end KeyTable

/-! ### `hashmap_is_healthy` and `set_is_healthy` -/

def hashmapIsHealthy (map : Hashmap κ ν) : Bool := decide (map.maxPsl ≤ hashPslThreshold / 2)
def setIsHealthy (s : SetT κ) : Bool := decide (s.maxPsl ≤ setPslThreshold / 2)

/-- The field is the largest stored length, 0 when there is none, and the O(1) check says what
the audit finds. -/
structure PslTracked (cap maxPsl threshold : Nat) (t : Table α) (healthy : Bool)
    (audit : TableStats) : Prop where
  covers : ∀ i < cap, pslAt t i ≤ maxPsl
  attained : maxPsl = 0 ∨ ∃ i < cap, pslAt t i = maxPsl
  audited : maxPsl = audit.maxPsl
  healthy_iff : healthy = true ↔ audit.maxPsl ≤ threshold / 2

def Hashmap.PslTracked (map : Hashmap κ ν) : Prop :=
  Seqc.PslTracked map.cap map.maxPsl hashPslThreshold map.buckets (hashmapIsHealthy map)
    (hashmapAudit map)

def SetT.PslTracked (s : SetT κ) : Prop :=
  Seqc.PslTracked s.cap s.maxPsl setPslThreshold s.buckets (setIsHealthy s) (setAudit s)

theorem pslTracked_iff {cap len maxPsl threshold : Nat} {t : Table α}
    (covers : ∀ i < cap, pslAt t i ≤ maxPsl) :
    PslTracked cap maxPsl threshold t (decide (maxPsl ≤ threshold / 2)) (tableAudit cap len t) ↔
      Attained cap t maxPsl := by
  refine ⟨fun tracked => ?_, fun attained => ?_⟩
  · exact (eq_tableAudit_iff len covers).mp tracked.audited
  · have same := (eq_tableAudit_iff len covers).mpr attained
    refine ⟨covers, ?_, same, by rw [← same, decide_eq_true_iff]⟩
    rcases Nat.eq_zero_or_pos maxPsl with zero | pos
    · exact .inl zero
    · exact .inr (attained.exists_slot covers pos)

theorem attained_relabel {β : Type} (g : α → β) {cap maxPsl : Nat} {t : Table α} :
    Attained cap (relabel g t) maxPsl ↔ Attained cap t maxPsl := by
  simp only [Attained, pslAt_relabel]

theorem HashmapInv.tracked_iff {map : Hashmap κ ν} (inv : HashmapInv f k map) :
    map.PslTracked ↔ map.keys.Tight := by
  have cap := inv.cap_eq
  rw [Hashmap.PslTracked, hashmapIsHealthy, hashmapAudit,
    pslTracked_iff fun i hi => inv.packed.covers i (cap ▸ hi),
    ← attained_relabel fun e : Entry κ ν => e.key.val]
  exact ⟨fun a => ⟨(Nat.two_pow_pos k).trans_eq cap.symm, a⟩, KeyTable.Tight.attained⟩

theorem SetState.tracked_iff {s : SetT κ} (state : SetState f s) :
    s.PslTracked ↔ s.view.Tight := by
  cases state with
  | fresh fresh =>
    rw [SetT.PslTracked, setIsHealthy, setAudit,
      pslTracked_iff fun i hi => absurd hi (by simp [fresh.cap_eq]), fresh.view_eq]
    refine iff_of_true (fun b _ => ?_) KeyTable.start_tight
    rw [fresh.psl_eq]
    exact Nat.zero_le b
  | table k inv =>
    have cap := inv.cap_eq
    rw [SetT.PslTracked, setIsHealthy, setAudit,
      pslTracked_iff fun i hi => inv.packed.covers i (cap ▸ hi), inv.view_eq,
      ← attained_relabel Block.val]
    exact ⟨fun a => ⟨(Nat.two_pow_pos k).trans_eq cap.symm, a⟩, KeyTable.Tight.attained⟩

/-! ### Steps and runs -/

/-- The condition on a step: a removal takes no longest probe away, or not the only one. -/
def HashmapOp.KeepsLongest (f : KeyFns κ) : HashmapOp κ ν → Hashmap κ ν × Mem → Prop
  | .remove (some key), st => st.1.keys.KeepsLongest f key
  | _, _ => True

def SetOp.KeepsLongest (f : KeyFns κ) : SetOp κ → SetT κ × Mem → Prop
  | .remove (some elem), st => st.1.view.KeepsLongest f elem
  | _, _ => True

theorem hashmapStep_tight (law : f.Lawful) {op : HashmapOp κ ν} {st st' : Hashmap κ ν × Mem}
    {g : κ → Option ν} {out : Answer ν} (h : MapState f st g)
    (step : hashmapStep ndebug f op st = some (out, st')) (tight : st.1.keys.Tight) :
    st'.1.keys.Tight ↔ op.KeepsLongest f st := by
  obtain ⟨map, m⟩ := st
  obtain ⟨⟨k, inv⟩, rep⟩ := h
  cases op with
  | set key value =>
    refine iff_of_true ?_ trivial
    obtain ⟨⟨rs, map', m'⟩, call, rest⟩ := Option.bind_eq_some_iff.mp step
    obtain ⟨-, rfl⟩ : _ ∧ (map', m') = st' := by simpa using rest
    cases key with
    | none =>
      obtain ⟨-, rfl, -⟩ : _ ∧ map = map' ∧ _ := by simpa [hashmapSet] using call
      exact tight
    | some key =>
      cases value with
      | none =>
        obtain ⟨-, rfl, -⟩ : _ ∧ map = map' ∧ _ := by simpa [hashmapSet] using call
        exact tight
      | some value =>
        rcases hashmapSet_keys inv call with ⟨-, -, rfl | grown⟩ | ⟨-, -, added⟩
        · exact tight
        · exact tight.grow grown
        · exact tight.add added
  | get | getPtr | contains =>
    -- The lookups leave the map as it is.
    obtain ⟨r, -, rest⟩ := Option.bind_eq_some_iff.mp step
    obtain ⟨-, rfl⟩ : _ ∧ (map, m) = st' := by simpa using rest
    exact iff_of_true tight trivial
  | remove key =>
    obtain ⟨⟨rs, map', m'⟩, call, rest⟩ := Option.bind_eq_some_iff.mp step
    obtain ⟨-, rfl⟩ : _ ∧ (map', m') = st' := by simpa using rest
    cases key with
    | none =>
      obtain ⟨-, rfl, -⟩ : _ ∧ map = map' ∧ _ := by simpa [hashmapRemove] using call
      exact iff_of_true tight trivial
    | some key =>
      have inv' := inv.keys_inv (distinct_of_represents law rep)
      rcases hashmapRemove_keys inv call with ⟨-, rfl, missing⟩ | ⟨-, removed⟩
      · exact inv'.remove_tight_iff law tight missing
      · exact inv'.remove_tight_iff law tight removed
  | clear =>
    obtain ⟨-, rfl⟩ : _ ∧ hashmapClear map m = st' := by simpa [hashmapStep] using step
    exact iff_of_true tight.clear trivial

theorem setStep_tight (law : f.Lawful) {op : SetOp κ} {st st' : SetT κ × Mem} {out : Answer κ}
    (state : SetState f st.1) (d : SetDistinct f st.1)
    (step : setStep ndebug f op st = some (out, st')) (tight : st.1.view.Tight) :
    st'.1.view.Tight ↔ op.KeepsLongest f st := by
  obtain ⟨s, m⟩ := st
  cases op with
  | add elem =>
    refine iff_of_true ?_ trivial
    obtain ⟨⟨rs, s', m'⟩, call, rest⟩ := Option.bind_eq_some_iff.mp step
    obtain ⟨-, rfl⟩ : _ ∧ (s', m') = st' := by simpa using rest
    cases elem with
    | none =>
      obtain ⟨-, rfl, -⟩ : _ ∧ s = s' ∧ _ := by simpa [setAdd] using call
      exact tight
    | some elem =>
      have opened (tight' : s'.keys.Tight) : s'.view.Tight := by
        have pos : 0 < s'.cap := tight'.pos
        rwa [SetT.view, if_neg (Nat.pos_iff_ne_zero.mp pos)]
      rcases setAdd_view state d call with ⟨-, rfl | same | grown⟩ | ⟨-, added⟩
      · exact tight
      · exact opened (same ▸ tight)
      · exact opened (tight.grow grown)
      · exact opened (tight.add added)
  | contains elem =>
    obtain ⟨r, -, rest⟩ := Option.bind_eq_some_iff.mp step
    obtain ⟨-, rfl⟩ : _ ∧ (s, m) = st' := by simpa using rest
    exact iff_of_true tight trivial
  | remove elem =>
    obtain ⟨⟨rs, s', m'⟩, call, rest⟩ := Option.bind_eq_some_iff.mp step
    obtain ⟨-, rfl⟩ : _ ∧ (s', m') = st' := by simpa using rest
    cases elem with
    | none =>
      obtain ⟨-, rfl, -⟩ : _ ∧ s = s' ∧ _ := by simpa [setRemove] using call
      exact iff_of_true tight trivial
    | some elem =>
      obtain ⟨k, inv⟩ := state.view_inv d
      rcases setRemove_view state call with ⟨-, rfl, missing⟩ | ⟨-, removed⟩
      · exact inv.remove_tight_iff law tight missing
      · exact inv.remove_tight_iff law tight removed
  | clear =>
    obtain ⟨-, rfl⟩ : _ ∧ setClear s m = st' := by simpa [setStep] using step
    rw [setClear_view state]
    exact iff_of_true tight.clear trivial

/-- Every state that a run from `hashmap_create` or `set_create` goes through has the right
`max_psl` if and only if each removal leaves a longest probe where it is. -/
theorem maxPsl_tracked_iff (law : f.Lawful) (ndebug : Bool) :
    (∀ keySize valSize m₀ (map₀ : Hashmap κ ν) m₁ ops,
      hashmapCreate κ ν keySize valSize m₀ = (some map₀, m₁) →
      ((∀ before, before <+: ops → ∀ outs map m,
          run (hashmapStep ndebug f) before (map₀, m₁) = some (outs, (map, m)) →
          map.PslTracked) ↔
        AllSteps (hashmapStep ndebug f) (HashmapOp.KeepsLongest f) ops (map₀, m₁))) ∧
    ∀ elemSize m₀ s₀ m₁ ops, setCreate κ elemSize m₀ = (some s₀, m₁) →
      ((∀ before, before <+: ops → ∀ outs s m,
          run (setStep ndebug f) before (s₀, m₁) = some (outs, (s, m)) → s.PslTracked) ↔
        AllSteps (setStep ndebug f) (SetOp.KeepsLongest f) ops (s₀, m₁)) := by
  constructor
  · intro keySize valSize m₀ map₀ m₁ ops created
    obtain ⟨inv₀, -⟩ := hashmapCreate_spec f created
    have start : MapState f (map₀, m₁) empty := hashmapCreate_state created
    rw [← run_invariant_iff (I := fun st => ∃ g, MapState f st g)
      (P := fun st : Hashmap κ ν × Mem => st.1.PslTracked) (fun op st h => ?_) ops ⟨_, start⟩]
    · exact ⟨fun all before part outs st ran => all before part outs st.1 st.2 ran,
        fun all before part outs map m ran => all before part outs (map, m) ran⟩
    · exact inv₀.tracked_iff.mpr (hashmapCreate_keys created ▸ KeyTable.start_tight)
    · obtain ⟨g, state⟩ := h
      obtain ⟨out, st', g', step, -, state'⟩ := hashmapStep_refines ndebug law op st g state
      obtain ⟨k, inv⟩ := state.1
      obtain ⟨k', inv'⟩ := state'.1
      refine ⟨out, st', step, ⟨g', state'⟩, fun tracked => ?_⟩
      rw [inv'.tracked_iff]
      exact hashmapStep_tight law state step (inv.tracked_iff.mp tracked)
  · intro elemSize m₀ s₀ m₁ ops created
    obtain ⟨fresh, -⟩ := setCreate_spec created
    rw [← run_invariant_iff (I := fun st => SetState f st.1 ∧ SetDistinct f st.1)
      (P := fun st : SetT κ × Mem => st.1.PslTracked) (fun op st h => ?_) ops
      ⟨.fresh fresh, by simp [fresh.entries_eq], by simp [fresh.entries_eq, fresh.len_eq]⟩]
    · exact ⟨fun all before part outs st ran => all before part outs st.1 st.2 ran,
        fun all before part outs s m ran => all before part outs (s, m) ran⟩
    · exact (SetState.fresh (f := f) fresh).tracked_iff.mpr (fresh.view_eq ▸ KeyTable.start_tight)
    · obtain ⟨state, d⟩ := h
      obtain ⟨out, st', step, state', d', -⟩ := setStep_inv ndebug op st state
      refine ⟨out, st', step, ⟨state', d' law d⟩, fun tracked => ?_⟩
      rw [state'.tracked_iff]
      exact setStep_tight law state d step (state.tracked_iff.mp tracked)

/-- 0 and 16 collide, and 5 is removed. -/
theorem maxPsl_tracked_iff_colliding :
    ∃ outs map m, run (hashmapStep false numberKeys)
        [.set (some 0) (some 10), .set (some 16) (some 20), .set (some 5) (some 30),
          .remove (some 5)]
        (⟨0, 1, fun _ => none, 16, 0, 8, 8, 0⟩, ⟨refusingOnce 50, 2, [.alloc 0 80, .alloc 1 384]⟩) =
          some (outs, ((map : Hashmap Nat Nat), m)) ∧ map.PslTracked := by
  obtain ⟨outs, map, m, ran⟩ : ∃ outs map m, run (hashmapStep false numberKeys)
      [.set (some 0) (some 10), .set (some 16) (some 20), .set (some 5) (some 30),
        .remove (some 5)]
      (⟨0, 1, fun _ => none, 16, 0, 8, 8, 0⟩, ⟨refusingOnce 50, 2, [.alloc 0 80, .alloc 1 384]⟩) =
        some (outs, ((map : Hashmap Nat Nat), m)) :=
    ⟨_, _, _, rfl⟩
  refine ⟨outs, map, m, ran, ((maxPsl_tracked_iff numberKeys_lawful false).1 8 8
    (.start (refusingOnce 50)) _ _ _ rfl).mpr ?_ _ List.prefix_rfl outs map m ran⟩
  show AllSteps _ _ ([_, _, _] ++ [_]) _
  refine AllSteps.append
    ⟨trivial, fun _ _ _ => ⟨trivial, fun _ _ _ => ⟨trivial, fun _ _ _ => trivial⟩⟩⟩ ?_
  intro outs s' ran
  obtain ⟨outs₁, map, m, ran₁, cap, longest, here, behind, only⟩ : ∃ outs map m,
      run (hashmapStep false numberKeys)
        [.set (some 0) (some 10), .set (some 16) (some 20), .set (some 5) (some 30)]
        (⟨0, 1, fun _ => none, 16, 0, 8, 8, 0⟩, ⟨refusingOnce 50, 2, [.alloc 0 80, .alloc 1 384]⟩) =
          some (outs, ((map : Hashmap Nat Nat), m)) ∧ map.cap = 16 ∧ map.maxPsl = 2 ∧
        pslAt map.keys.buckets 1 = 2 ∧ pslAt map.keys.buckets 6 = 0 ∧
        ∀ i < 16, i = 5 ∨ (map.keys.buckets i).all (fun c => c.item ≠ 5) = true :=
    ⟨_, _, _, rfl, rfl, rfl, rfl, rfl, by decide⟩
  obtain ⟨-, rfl⟩ := Prod.mk.inj (Option.some.inj (ran₁.symm.trans ran))
  refine ⟨fun s hs c hc same => ?_, fun _ _ _ => trivial⟩
  have removed : s = 5 := by
    rcases only s (cap ▸ hs) with rfl | other
    · rfl
    · have five : c.item = 5 := by simpa [numberKeys] using same
      simp [hc, five] at other
  subst removed
  have slots : map.keys.cap = 16 := cap
  refine ⟨1, slots.symm ▸ (by decide : 1 < 16), here.trans longest.symm, ?_⟩
  -- nothing is shifted: the next slot is empty
  rintro ⟨n, -, reaches, probing⟩
  change 1 = (5 + n) % map.keys.cap at reaches
  rw [slots] at reaches
  have first : 1 < pslAt map.keys.buckets ((5 + (0 + 1)) % map.keys.cap) :=
    probing 0 (by omega)
  rw [slots, behind] at first
  omega

/-- Two colliding keys, the second removed; and one element, removed. -/
theorem maxPsl_stale :
    (∃ map₀ m₁ outs map m,
      hashmapCreate Nat Nat 8 8 (.start (refusingOnce 50)) = (some map₀, m₁) ∧
      run (hashmapStep false collidingKeys)
        [.set (some 1) (some 10), .set (some 2) (some 20), .remove (some 2)] (map₀, m₁) =
          some (outs, (map, m)) ∧
      map.maxPsl = 2 ∧ (hashmapAudit map).maxPsl = 1) ∧
    ∃ s₀ m₁ outs s m, setCreate Nat 8 (.start (refusingOnce 50)) = (some s₀, m₁) ∧
      run (setStep false collidingKeys) [.add (some 7), .remove (some 7)] (s₀, m₁) =
        some (outs, (s, m)) ∧
      s.maxPsl = 1 ∧ (setAudit s).maxPsl = 0 :=
  ⟨⟨_, _, _, _, _, rfl, rfl, rfl, rfl⟩, _, _, _, _, _, rfl, rfl, rfl, rfl⟩

end Seqc
