import Seqc.Reachable

/-! The layout of a bucket array: the probe lengths depend on the capacity and the keys
alone, not on the history of the table. -/

namespace Seqc
open RobinHood ClassMap Runs

variable {κ ν α β : Type} {f : KeyFns κ}

/-! ### `hashmap_audit` and `set_audit` -/

/-- The counts of `hashmap_stats_t` and `set_stats_t`; `sumPsl` over `len` is the mean. -/
structure TableStats where
  len : Nat
  cap : Nat
  maxPsl : Nat
  sumPsl : Nat

/-- One turn of the loop of both. -/
def auditBucket (buckets : Table α) (st : TableStats) (i : Nat) : TableStats :=
  let p := pslAt buckets i
  if p ≠ 0 then
    { st with sumPsl := st.sumPsl + p, maxPsl := if st.maxPsl < p then p else st.maxPsl }
  else st

def tableAudit (cap len : Nat) (buckets : Table α) : TableStats :=
  (List.range cap).foldl (auditBucket buckets) ⟨len, cap, 0, 0⟩

def hashmapAudit (map : Hashmap κ ν) : TableStats := tableAudit map.cap map.len map.buckets
def setAudit (s : SetT κ) : TableStats := tableAudit s.cap s.len s.buckets

theorem tableAudit_congr {t : Table α} {t' : Table β} {cap len : Nat}
    (same : ∀ i < cap, pslAt t i = pslAt t' i) : tableAudit cap len t = tableAudit cap len t' := by
  refine List.foldl_ext _ _ _ fun st i hi => ?_
  rw [auditBucket, auditBucket, same i (List.mem_range.mp hi)]

/-! ### Equal keys, equal lengths -/

/-- Two lists of different keys that have the same classes have the same hashes. -/
theorem hashes_perm (law : f.Lawful) (xs : List κ) :
    ∀ ys : List κ, xs.Pairwise (Apart f.eq) → ys.Pairwise (Apart f.eq) →
      (∀ k, (∃ x ∈ xs, f.eq x k = true) ↔ ∃ y ∈ ys, f.eq y k = true) →
      (xs.map f.hash).Perm (ys.map f.hash) := by
  induction xs with
  | nil =>
    intro ys _ _ same
    cases ys with
    | nil => exact .refl _
    | cons y ys =>
      obtain ⟨x, hx, -⟩ := (same y).mpr ⟨y, by simp, law.refl y⟩
      simp at hx
  | cons x xs ih =>
    intro ys apart apart' same
    obtain ⟨y, hy, hit⟩ := (same x).mp ⟨x, by simp, law.refl x⟩
    obtain ⟨before, after, rfl⟩ := List.append_of_mem hy
    have perm : (before ++ y :: after).Perm (y :: (before ++ after)) := List.perm_middle
    have whole := (pairwise_apart_perm perm).mp apart'
    obtain ⟨fresh, apart⟩ := List.pairwise_cons.mp apart
    obtain ⟨fresh', apart'⟩ := List.pairwise_cons.mp whole
    have rest := ih (before ++ after) apart apart' fun k => by
      constructor
      · rintro ⟨x', hx', hit'⟩
        obtain ⟨y', hy', hk⟩ := (same k).mp ⟨x', List.mem_cons_of_mem x hx', hit'⟩
        rcases List.mem_cons.mp (perm.mem_iff.mp hy') with rfl | hy'
        · have clash := law.trans _ _ _ (law.symm _ _ hit) (law.trans _ _ _ hk (law.symm _ _ hit'))
          simp [(fresh x' hx').1] at clash
        · exact ⟨y', hy', hk⟩
      · rintro ⟨y', hy', hit'⟩
        obtain ⟨x', hx', hk⟩ := (same k).mpr
          ⟨y', perm.mem_iff.mpr (List.mem_cons_of_mem y hy'), hit'⟩
        rcases List.mem_cons.mp hx' with rfl | hx'
        · have clash := law.trans _ _ _ hit (law.trans _ _ _ hk (law.symm _ _ hit'))
          simp [(fresh' y' hy').1] at clash
        · exact ⟨x', hx', hk⟩
    calc
      ((x :: xs).map f.hash).Perm (f.hash y :: (before ++ after).map f.hash) := by
        rw [List.map_cons, law.hash_eq _ _ hit]
        exact rest.cons _
      _ = (y :: (before ++ after)).map f.hash := rfl
      List.Perm _ _ := (perm.map f.hash).symm

/-- The lengths in two packed tables whose items have the same hashes. -/
theorem Packed.layout {hash : α → Nat} {hash' : β → Nat} {k maxPsl maxPsl' : Nat} {t : Table α}
    {t' : Table β} (p : Packed hash k t maxPsl) (p' : Packed hash' k t' maxPsl')
    (same : ((items (2 ^ k) t).map hash).Perm ((items (2 ^ k) t').map hash')) {i : Nat}
    (hi : i < 2 ^ k) : pslAt t i = pslAt t' i := by
  obtain ⟨e, he, free⟩ := exists_free p.room
  obtain ⟨e', he', free'⟩ := exists_free p'.room
  refine p.valid.psl_eq_of_homes p'.valid (homeIn_lt hash k) (homeIn_lt hash' k) he free he' free'
    ?_ hi
  have homes := same.map fun h => h % 2 ^ k
  rwa [List.map_map, List.map_map] at homes

theorem pow_inj {k k' : Nat} (h : 2 ^ k = 2 ^ k') : k = k' := Nat.pow_right_injective le_rfl h

theorem hashmap_layout (law : f.Lawful) {map map' : Hashmap κ ν} (h : HashmapReachable f map)
    (h' : HashmapReachable f map') (keys : ∀ x, map.Has f x ↔ map'.Has f x)
    (caps : map.cap = map'.cap) :
    map.len = map'.len ∧ ∀ i < map.cap, pslAt map.buckets i = pslAt map'.buckets i := by
  obtain ⟨k, inv⟩ := h.inv
  obtain ⟨k', inv'⟩ := h'.inv
  obtain rfl : k = k' := pow_inj (inv.cap_eq.symm.trans (caps.trans inv'.cap_eq))
  have apart : (map.entries.map fun e => e.key.val).Pairwise (Apart f.eq) :=
    List.pairwise_map.mpr (h.apart law)
  have apart' : (map'.entries.map fun e => e.key.val).Pairwise (Apart f.eq) :=
    List.pairwise_map.mpr (h'.apart law)
  have hashes := hashes_perm law _ _ apart apart' fun x => by
    simpa [h.has_iff law, h'.has_iff law] using keys x
  rw [List.map_map, List.map_map, inv.entries_eq, inv'.entries_eq] at hashes
  constructor
  · have lengths := hashes.length_eq
    rwa [List.length_map, List.length_map, ← inv.len_eq, ← inv'.len_eq] at lengths
  · intro i hi
    rw [inv.cap_eq] at hi
    exact inv.packed.layout inv'.packed hashes hi

theorem set_layout (law : f.Lawful) {s s' : SetT κ} (h : SetReachable f s)
    (h' : SetReachable f s') (keys : ∀ x, s.Has f x ↔ s'.Has f x) (caps : s.cap = s'.cap) :
    s.len = s'.len ∧ ∀ i < s.cap, pslAt s.buckets i = pslAt s'.buckets i := by
  have d := h.inv.2 law
  have d' := h'.inv.2 law
  have hashes := hashes_perm law (s.entries.map Block.val) (s'.entries.map Block.val)
    (List.pairwise_map.mpr d.apart) (List.pairwise_map.mpr d'.apart) fun x => by
      simpa [h.has_iff law, h'.has_iff law] using keys x
  rw [List.map_map, List.map_map] at hashes
  constructor
  · have lengths := hashes.length_eq
    rwa [List.length_map, List.length_map, ← d.len_eq, ← d'.len_eq] at lengths
  · intro i hi
    cases h.inv.1 with
    | fresh fresh =>
      have := fresh.cap_eq
      omega
    | table k inv =>
      cases h'.inv.1 with
      | fresh fresh =>
        have := fresh.cap_eq
        omega
      | table k' inv' =>
        obtain rfl : k = k' := pow_inj (inv.cap_eq.symm.trans (caps.trans inv'.cap_eq))
        rw [inv.entries_eq, inv'.entries_eq] at hashes
        rw [inv.cap_eq] at hi
        exact inv.packed.layout inv'.packed hashes hi

/-- Two reachable tables with the same keys and the same capacity have the same probe
lengths at every slot, so audits of them report the same counts. -/
theorem canonical_layout (law : f.Lawful) :
    (∀ map map' : Hashmap κ ν, HashmapReachable f map → HashmapReachable f map' →
      (∀ x, map.Has f x ↔ map'.Has f x) → map.cap = map'.cap →
      (∀ i < map.cap, pslAt map.buckets i = pslAt map'.buckets i) ∧
        hashmapAudit map = hashmapAudit map') ∧
    ∀ s s' : SetT κ, SetReachable f s → SetReachable f s' → (∀ x, s.Has f x ↔ s'.Has f x) →
      s.cap = s'.cap →
      (∀ i < s.cap, pslAt s.buckets i = pslAt s'.buckets i) ∧ setAudit s = setAudit s' := by
  constructor
  · intro map map' h h' keys caps
    obtain ⟨lens, same⟩ := hashmap_layout law h h' keys caps
    refine ⟨same, ?_⟩
    rw [hashmapAudit, hashmapAudit, ← caps, ← lens]
    exact tableAudit_congr same
  · intro s s' h h' keys caps
    obtain ⟨lens, same⟩ := set_layout law h h' keys caps
    refine ⟨same, ?_⟩
    rw [setAudit, setAudit, ← caps, ← lens]
    exact tableAudit_congr same

/-- What is left of 7 and 9 when 7 is removed, where 9 moves to its home slot, and 9 alone. -/
theorem canonical_layout_removed : ∃ outs s m outs' s' m',
    run (setStep false collidingKeys) [.add (some 7), .add (some 9), .remove (some 7)]
      (⟨0, none, fun _ => none, 0, 0, 8, 0⟩, ⟨refusingOnce 50, 1, [.alloc 0 72]⟩) =
        some (outs, (s, m)) ∧
    run (setStep false collidingKeys) [.add (some 9)]
      (⟨0, none, fun _ => none, 0, 0, 8, 0⟩, ⟨refusingOnce 50, 1, [.alloc 0 72]⟩) =
        some (outs', (s', m')) ∧
    s.entries = [⟨3, 9⟩] ∧ s'.entries = [⟨2, 9⟩] ∧ s.maxPsl = 2 ∧ s'.maxPsl = 1 ∧
      (∀ i < s.cap, pslAt s.buckets i = pslAt s'.buckets i) ∧ setAudit s = setAudit s' := by
  have empty : SetReachable collidingKeys ⟨0, none, fun _ => none, 0, 0, 8, 0⟩ :=
    .create (rfl : setCreate Nat 8 (.start (refusingOnce 50)) = (some _, _))
  obtain ⟨outs, s, m, ran, cap, entries, longest⟩ : ∃ outs s m,
      run (setStep false collidingKeys) [.add (some 7), .add (some 9), .remove (some 7)]
        (⟨0, none, fun _ => none, 0, 0, 8, 0⟩, ⟨refusingOnce 50, 1, [.alloc 0 72]⟩) =
          some (outs, (s, m)) ∧ s.cap = 16 ∧ s.entries = [⟨3, 9⟩] ∧ s.maxPsl = 2 :=
    ⟨_, _, _, rfl, rfl, rfl, rfl⟩
  obtain ⟨outs', s', m', ran', cap', entries', longest'⟩ : ∃ outs s m,
      run (setStep false collidingKeys) [.add (some 9)]
        (⟨0, none, fun _ => none, 0, 0, 8, 0⟩, ⟨refusingOnce 50, 1, [.alloc 0 72]⟩) =
          some (outs, (s, m)) ∧ s.cap = 16 ∧ s.entries = [⟨2, 9⟩] ∧ s.maxPsl = 1 :=
    ⟨_, _, _, rfl, rfl, rfl, rfl⟩
  have keys (x : Nat) : s.Has collidingKeys x ↔ s'.Has collidingKeys x := by
    rw [(empty.after ran).has_iff collidingKeys_lawful,
      (empty.after ran').has_iff collidingKeys_lawful, entries, entries']
    simp
  obtain ⟨slots, audits⟩ := (canonical_layout (ν := Nat) collidingKeys_lawful).2 s s'
    (empty.after ran) (empty.after ran') keys (cap.trans cap'.symm)
  exact ⟨outs, s, m, outs', s', m', ran, ran', entries, entries', longest, longest', slots, audits⟩

end Seqc
