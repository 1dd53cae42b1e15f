import Seqc.Allocator
import Seqc.Lib.RobinHoodCount
import Mathlib.Data.Nat.Bitwise

/-! The loops over the bucket array that hashmap.c and set.c both contain. A
bucket whose `psl` is 0 is `none`: its pointers are NULL or stale, and neither
file reads them. `cap` is the array's length, slots advance by
`(slot + 1) & (cap - 1)`, and the 8-bit counters wrap. A loop is given a number
of iterations; `none` means that they did not suffice or that an assert fired. -/

namespace Seqc
open RobinHood

variable {α : Type}

/-- `incoming.psl++; assert(incoming.psl != 0);`, the assert compiled out under
`NDEBUG`. -/
def pslInc (ndebug : Bool) (psl : Nat) : Option Nat :=
  if (psl + 1) % 256 = 0 ∧ ndebug = false then none else some ((psl + 1) % 256)

def bucketOf (item : α) (psl : Nat) : Option (Cell α) :=
  if psl = 0 then none else some ⟨item, psl⟩

/-- What an insertion leaves behind; `matched` holds the stored item and the
carried one when the loop ended at an equal key. -/
structure Inserted (α : Type) where
  buckets : Table α
  maxPsl : Nat
  matched : Option (α × α)

/-- The loop of `hashmap_insert_raw` and `set_insert_raw`; `merge` is what
happens to a stored item when the carried one has an equal key. -/
def insertLoop (ndebug : Bool) (eq : α → α → Bool) (merge : α → α → α) (cap : Nat) :
    (fuel : Nat) → Table α → (maxPsl slot : Nat) → α → (psl : Nat) → Option (Inserted α)
  | 0, _, _, _, _, _ => none
  | fuel + 1, buckets, maxPsl, slot, incoming, psl =>
    match buckets slot with
    | none => some ⟨put buckets slot (bucketOf incoming psl), max maxPsl psl, none⟩
    | some cur =>
      if eq cur.item incoming then
        some ⟨put buckets slot (some ⟨merge cur.item incoming, cur.psl⟩), maxPsl,
          some (cur.item, incoming)⟩
      else if cur.psl < psl then do
        -- The richer bucket gives up its slot and is carried on.
        let psl' ← pslInc ndebug cur.psl
        insertLoop ndebug eq merge cap fuel (put buckets slot (bucketOf incoming psl))
          (max maxPsl psl) ((slot + 1) &&& (cap - 1)) cur.item psl'
      else do
        let psl' ← pslInc ndebug psl
        insertLoop ndebug eq merge cap fuel buckets maxPsl ((slot + 1) &&& (cap - 1))
          incoming psl'

/-- The search of `hashmap_get_ptr`, `hashmap_remove`, `set_contains` and
`set_remove`: the slot of the first item that satisfies `eq`. -/
def probeLoop (eq : α → Bool) (cap : Nat) (buckets : Table α) :
    (fuel slot probe : Nat) → Option (Option Nat)
  | 0, _, _ => none
  | fuel + 1, slot, probe =>
    match buckets slot with
    | none => some none
    | some cur =>
      if cur.psl < probe then some none
      else if eq cur.item then some (some slot)
      else probeLoop eq cap buckets fuel ((slot + 1) &&& (cap - 1)) ((probe + 1) % 256)

/-- The backward shift of `hashmap_remove`: `prev` has just been vacated. -/
def hashmapShift (cap : Nat) : (fuel : Nat) → Table α → (prev slot : Nat) → Option (Table α)
  | 0, _, _, _ => none
  | fuel + 1, buckets, prev, slot =>
    match buckets slot with
    | none => some buckets
    | some cur =>
      if 1 < cur.psl then
        hashmapShift cap fuel (put (put buckets prev (some ⟨cur.item, cur.psl - 1⟩)) slot none)
          slot ((slot + 1) &&& (cap - 1))
      else some buckets

/-- The backward shift of `set_remove`, which leaves the old content of a slot
in place until the next bucket or the end overwrites it. -/
def setShift (cap : Nat) : (fuel : Nat) → Table α → (slot : Nat) → Option (Table α)
  | 0, _, _ => none
  | fuel + 1, buckets, slot =>
    match buckets ((slot + 1) &&& (cap - 1)) with
    | none => some (put buckets slot none)
    | some nb =>
      if nb.psl ≤ 1 then some (put buckets slot none)
      else
        setShift cap fuel (put buckets slot (some ⟨nb.item, nb.psl - 1⟩))
          ((slot + 1) &&& (cap - 1))

theorem and_pred (k i : Nat) : i &&& (2 ^ k - 1) = i % 2 ^ k := Nat.and_two_pow_sub_one_eq_mod i k

theorem and_next (k i : Nat) : (i + 1) &&& (2 ^ k - 1) = next (2 ^ k) i := and_pred k (i + 1)

theorem pslInc_of_lt {ndebug : Bool} {psl : Nat} (h : psl < 255) :
    pslInc ndebug psl = some (psl + 1) := by
  have small : (psl + 1) % 256 = psl + 1 := Nat.mod_eq_of_lt (by omega)
  simp [pslInc, small]

theorem bucketOf_of_pos {item : α} {psl : Nat} (h : 0 < psl) :
    bucketOf item psl = some ⟨item, psl⟩ := by simp [bucketOf, Nat.pos_iff_ne_zero.mp h]

theorem add_mod_ne {n i j : Nat} (hi : i < n) (hj : 0 < j) (hjn : j < n) : (i + j) % n ≠ i := by
  rcases Nat.lt_or_ge (i + j) n with h | h
  · rw [Nat.mod_eq_of_lt h]
    omega
  · rw [Nat.mod_eq_sub_mod h, Nat.mod_eq_of_lt (by omega)]
    omega

/-- A table with fewer items than slots has an empty slot. -/
theorem exists_free {n : Nat} {t : Table α} (h : (items n t).length < n) : ∃ e < n, t e = none := by
  by_contra full
  push Not at full
  have all : ∀ m ≤ n, (items m t).length = m := by
    intro m hm
    induction m with
    | zero => simp [items]
    | succ m ih =>
      obtain ⟨c, hc⟩ := Option.ne_none_iff_exists'.mp (full m hm)
      simp [items_succ, ih (by omega), hc]
  have := all n le_rfl
  omega

/-! ### Insertion -/

/-- What holds when an insertion of `x` into `t` ends: the table is valid, no
length is more than one above the old bound, lengths only grew, the recorded
maximum covers them and is one of them or the old one, and the items are the old
ones with `x`, one of them merged away if two equal keys met. -/
structure InsertSpec (eq : α → α → Bool) (merge : α → α → α) (cap : Nat) (home : α → Nat)
    (t : Table α) (x : α) (maxPsl bound : Nat) (r : Inserted α) : Prop where
  valid : Valid cap home r.buckets
  bounded : ∀ i < cap, pslAt r.buckets i ≤ bound
  grown : ∀ i < cap, pslAt t i ≤ pslAt r.buckets i
  covers : (∀ i < cap, pslAt t i ≤ maxPsl) → ∀ i < cap, pslAt r.buckets i ≤ r.maxPsl
  attained : ∀ b, maxPsl ≤ b → (∀ i < cap, pslAt r.buckets i ≤ b) → r.maxPsl ≤ b
  fresh : r.matched = none → (items cap r.buckets).Perm (x :: items cap t)
  merged : ∀ c y, r.matched = some (c, y) → eq c y = true ∧
    ∃ rest, (c :: y :: rest).Perm (x :: items cap t) ∧
      (items cap r.buckets).Perm (merge c y :: rest)

/-- The number of items after an insertion is the length the callers keep. -/
theorem InsertSpec.length_eq {eq : α → α → Bool} {merge : α → α → α} {cap : Nat} {home : α → Nat}
    {t : Table α} {x : α} {maxPsl bound : Nat} {r : Inserted α}
    (s : InsertSpec eq merge cap home t x maxPsl bound r) :
    (items cap r.buckets).length =
      if r.matched = none then (items cap t).length + 1 else (items cap t).length := by
  cases h : r.matched with
  | none => simpa using (s.fresh h).length_eq
  | some pair =>
    obtain ⟨-, rest, split, kept⟩ := s.merged pair.1 pair.2 h
    have a := split.length_eq
    have b := kept.length_eq
    simp only [List.length_cons] at a b
    simp
    omega

theorem InsertSpec.length_le {eq : α → α → Bool} {merge : α → α → α} {cap : Nat} {home : α → Nat}
    {t : Table α} {x : α} {maxPsl bound : Nat} {r : Inserted α}
    (s : InsertSpec eq merge cap home t x maxPsl bound r) :
    (items cap r.buckets).length ≤ (items cap t).length + 1 := by
  rw [s.length_eq]
  split <;> omega

/-- Up to a function that merging preserves, the items only gain `x`. -/
theorem InsertSpec.subperm {γ : Type} {g : α → γ} {eq : α → α → Bool} {merge : α → α → α}
    {cap : Nat} {home : α → Nat} {t : Table α} {x : α} {maxPsl bound : Nat} {r : Inserted α}
    (s : InsertSpec eq merge cap home t x maxPsl bound r) (same : ∀ c y, g (merge c y) = g c) :
    ((items cap r.buckets).map g).Subperm ((x :: items cap t).map g) := by
  cases h : r.matched with
  | none => exact ((s.fresh h).map g).subperm
  | some pair =>
    obtain ⟨-, rest, split, kept⟩ := s.merged pair.1 pair.2 h
    refine (kept.map g).subperm.trans (List.Subperm.trans ?_ (split.map g).subperm)
    simp only [List.map_cons, same]
    exact ((List.sublist_cons_self _ _).cons_cons _).subperm

section Insert
variable {ndebug : Bool} {eq : α → α → Bool} {merge : α → α → α} {k : Nat} {home : α → Nat}

private theorem pslAt_put_max {cap : Nat} {t : Table α} {slot maxPsl p : Nat} {x : α}
    (covers : ∀ i < cap, pslAt t i ≤ maxPsl) (i : Nat) (hi : i < cap) :
    pslAt (put t slot (some ⟨x, p⟩)) i ≤ max maxPsl p := by
  by_cases h : i = slot
  · subst h
    simp
  · rw [pslAt_put_ne _ _ h]
    exact (covers i hi).trans (Nat.le_max_left _ _)

private theorem pslAt_put_grown (cap : Nat) {t : Table α} {slot p : Nat} {x : α}
    (less : pslAt t slot < p) (i : Nat) (_ : i < cap) :
    pslAt t i ≤ pslAt (put t slot (some ⟨x, p⟩)) i := by
  by_cases h : i = slot
  · subst h
    simpa using less.le
  · rw [pslAt_put_ne _ _ h]

private theorem pslAt_put_bounded {cap : Nat} {t : Table α} {slot p bound : Nat} {x : α}
    (bounded : ∀ i < cap, pslAt t i ≤ bound) (hp : p ≤ bound) (i : Nat) (hi : i < cap) :
    pslAt (put t slot (some ⟨x, p⟩)) i ≤ bound := by
  by_cases h : i = slot
  · subst h
    simpa using hp
  · rw [pslAt_put_ne _ _ h]
    exact bounded i hi

private theorem spec_store {cap bound slot p maxPsl : Nat} {t : Table α} {x : α}
    (v : Valid cap home t) (c : Carried cap home t slot x p) (hp : p ≤ bound)
    (bounded : ∀ i < cap, pslAt t i ≤ bound) (free : t slot = none) :
    InsertSpec eq merge cap home t x maxPsl bound
      ⟨put t slot (some ⟨x, p⟩), max maxPsl p, none⟩ where
  valid := v.store c (by rw [pslAt_none free]; exact c.pos)
  bounded := pslAt_put_bounded bounded hp
  grown := pslAt_put_grown cap (by rw [pslAt_none free]; exact c.pos)
  covers := pslAt_put_max
  attained b hb all := by
    have := all slot c.slot_lt
    simp only [pslAt_put_self, Option.elim_some] at this
    exact Nat.max_le.mpr ⟨hb, this⟩
  fresh _ := by simpa [free] using items_put t c.slot_lt (some ⟨x, p⟩)
  merged _ _ h := by simp at h

private theorem spec_merge {cap bound slot p maxPsl : Nat} {t : Table α} {x : α} {cur : Cell α}
    (v : Valid cap home t) (c : Carried cap home t slot x p)
    (bounded : ∀ i < cap, pslAt t i ≤ bound) (hcur : t slot = some cur)
    (same : home (merge cur.item x) = home cur.item) (equal : eq cur.item x = true) :
    InsertSpec eq merge cap home t x maxPsl bound
      ⟨put t slot (some ⟨merge cur.item x, cur.psl⟩), maxPsl, some (cur.item, x)⟩ := by
  have psl (i : Nat) : pslAt (put t slot (some ⟨merge cur.item x, cur.psl⟩)) i = pslAt t i := by
    by_cases h : i = slot
    · subst h
      simp [pslAt_some hcur]
    · exact pslAt_put_ne _ _ h
  refine ⟨v.replace cur hcur same, fun i hi => ?_, fun i hi => ?_, fun all i hi => ?_,
    fun b hb _ => hb, fun h => by simp at h, ?_⟩
  · exact psl i ▸ bounded i hi
  · exact (psl i).ge
  · exact psl i ▸ all i hi
  · rintro c' y h
    simp only [Option.some.injEq, Prod.mk.injEq] at h
    obtain ⟨rfl, rfl⟩ := h
    -- Clearing the slot gives the items other than the stored one.
    have cut := items_put t c.slot_lt none
    have put_back := items_put (put t slot none) c.slot_lt (some ⟨merge cur.item x, cur.psl⟩)
    simp only [hcur, Option.map_some, Option.toList_some, Option.map_none, Option.toList_none,
      List.cons_append, List.nil_append, put_self] at cut put_back
    rw [show put (put t slot none) slot (some ⟨merge cur.item x, cur.psl⟩) =
      put t slot (some ⟨merge cur.item x, cur.psl⟩) from Function.update_idem _ _ _] at put_back
    exact ⟨equal, items cap (put t slot none),
      (List.Perm.swap _ _ _).trans (cut.cons x), put_back⟩

private theorem spec_displace {cap bound slot p maxPsl : Nat} {t : Table α} {x : α} {cur : Cell α}
    {r : Inserted α} (slot_lt : slot < cap) (hcur : t slot = some cur) (less : cur.psl < p)
    (rest : InsertSpec eq merge cap home (put t slot (some ⟨x, p⟩)) cur.item (max maxPsl p)
      bound r) : InsertSpec eq merge cap home t x maxPsl bound r := by
  have step := items_put t slot_lt (some ⟨x, p⟩)
  simp only [hcur, Option.map_some, Option.toList_some, List.cons_append, List.nil_append] at step
  have grown := pslAt_put_grown cap (x := x) (by rwa [pslAt_some hcur] : pslAt t slot < p)
  refine ⟨rest.valid, rest.bounded, fun i hi => (grown i hi).trans (rest.grown i hi),
    fun all => rest.covers (pslAt_put_max all), fun b hb all => rest.attained b ?_ all,
    fun h => (rest.fresh h).trans step, fun c y h => ?_⟩
  · have stored := (rest.grown slot slot_lt).trans (all slot slot_lt)
    simp only [pslAt_put_self, Option.elim_some] at stored
    exact Nat.max_le.mpr ⟨hb, stored⟩
  · obtain ⟨equal, others, same, kept⟩ := rest.merged c y h
    exact ⟨equal, others, same.trans step, kept⟩

/-- From a valid table with a free slot `d` steps ahead the insertion ends, with
no counter above `bound`. -/
theorem insertLoop_spec (home_merge : ∀ c x, home (merge c x) = home c) {bound : Nat}
    (hb : bound ≤ 255) (d : Nat) :
    ∀ (fuel : Nat) (t : Table α) (maxPsl slot : Nat) (x : α) (p : Nat), d < fuel → d < 2 ^ k →
      Valid (2 ^ k) home t → Carried (2 ^ k) home t slot x p → p ≤ bound →
      (∀ i < 2 ^ k, pslAt t i ≤ bound) →
      (∀ j ≤ d, pslAt t ((slot + j) % 2 ^ k) < bound) → t ((slot + d) % 2 ^ k) = none →
      ∃ r, insertLoop ndebug eq merge (2 ^ k) fuel t maxPsl slot x p = some r ∧
        InsertSpec eq merge (2 ^ k) home t x maxPsl bound r := by
  induction d with
  | zero =>
    intro fuel t maxPsl slot x p hf _ v c hp bounded _ free
    obtain ⟨fuel, rfl⟩ : ∃ f, fuel = f + 1 := ⟨fuel - 1, by omega⟩
    rw [Nat.add_zero, Nat.mod_eq_of_lt c.slot_lt] at free
    refine ⟨_, ?_, spec_store v c hp bounded free⟩
    simp [insertLoop, free, bucketOf_of_pos c.pos]
  | succ d ih =>
    intro fuel t maxPsl slot x p hf hd v c hp bounded ahead free
    obtain ⟨fuel, rfl⟩ : ∃ f, fuel = f + 1 := ⟨fuel - 1, by omega⟩
    have here := ahead 0 (Nat.zero_le _)
    rw [Nat.add_zero, Nat.mod_eq_of_lt c.slot_lt] at here
    have shift (j : Nat) : (next (2 ^ k) slot + j) % 2 ^ k = (slot + (j + 1)) % 2 ^ k := by
      rw [next, Nat.mod_add_mod]
      congr 1
      omega
    cases hcur : t slot with
    | none =>
      refine ⟨_, ?_, spec_store v c hp bounded hcur⟩
      simp [insertLoop, hcur, bucketOf_of_pos c.pos]
    | some cur =>
      rw [pslAt_some hcur] at here
      by_cases equal : eq cur.item x = true
      · refine ⟨_, ?_, spec_merge v c bounded hcur (home_merge _ _) equal⟩
        simp [insertLoop, hcur, equal]
      by_cases less : cur.psl < p
      · have apart (j : Nat) (hj : j ≤ d) : (slot + (j + 1)) % 2 ^ k ≠ slot :=
          add_mod_ne c.slot_lt (Nat.succ_pos j) (by omega)
        obtain ⟨r, run, spec⟩ := ih fuel (put t slot (some ⟨x, p⟩)) (max maxPsl p)
          (next (2 ^ k) slot) cur.item (cur.psl + 1) (by omega) (by omega)
          (v.store c (by rwa [pslAt_some hcur])) (c.displace v hcur less) (by omega)
          (pslAt_put_bounded bounded hp)
          (fun j hj => by
            rw [shift, pslAt_put_ne _ _ (apart j hj)]
            exact ahead (j + 1) (by omega))
          (by rw [shift, put_ne _ _ (apart d le_rfl), free])
        refine ⟨r, ?_, spec_displace c.slot_lt hcur less spec⟩
        simp only [insertLoop, hcur, equal, less, if_true, pslInc_of_lt (by omega : cur.psl < 255),
          bucketOf_of_pos c.pos, and_next]
        exact run
      · obtain ⟨r, run, spec⟩ := ih fuel t maxPsl (next (2 ^ k) slot) x (p + 1) (by omega)
          (by omega) v (c.pass (by rw [pslAt_some hcur]; omega)) (by omega) bounded
          (fun j hj => by rw [shift]; exact ahead (j + 1) (by omega))
          (by rw [shift, free])
        refine ⟨r, ?_, spec⟩
        simp only [insertLoop, hcur, equal, less, if_false, pslInc_of_lt (by omega : p < 255),
          and_next]
        exact run

/-- The loop from the home slot of `x`, in a table that is not full. -/
theorem insertLoop_home (ndebug : Bool) (eq : α → α → Bool) (merge : α → α → α)
    (home_merge : ∀ c x, home (merge c x) = home c)
    (home_lt : ∀ x, home x < 2 ^ k) {t : Table α} (v : Valid (2 ^ k) home t)
    (room : (items (2 ^ k) t).length < 2 ^ k) {bound : Nat} (hb : bound < 255)
    (bounded : ∀ i < 2 ^ k, pslAt t i ≤ bound) (maxPsl : Nat) (x : α) :
    ∃ r, insertLoop ndebug eq merge (2 ^ k) (2 ^ k) t maxPsl (home x) x 1 = some r ∧
      InsertSpec eq merge (2 ^ k) home t x maxPsl (bound + 1) r := by
  obtain ⟨e, he, free⟩ := exists_free room
  have pos : 0 < 2 ^ k := Nat.two_pow_pos k
  have hx := home_lt x
  refine insertLoop_spec home_merge (by omega) ((e + 2 ^ k - home x) % 2 ^ k) (2 ^ k) t maxPsl
    (home x) x 1 (Nat.mod_lt _ pos) (Nat.mod_lt _ pos) v (carried_home hx) (by omega)
    (fun i hi => (bounded i hi).trans (by omega))
    (fun j _ => Nat.lt_succ_of_le (bounded _ (Nat.mod_lt _ pos))) ?_
  rw [Nat.add_mod_mod, show home x + (e + 2 ^ k - home x) = e + 2 ^ k by omega,
    Nat.add_mod_right, Nat.mod_eq_of_lt he, free]

/-- When a key equal to that of `x` is stored at `s`, and nowhere else, the
insertion only merges there. -/
theorem insertLoop_present (ndebug : Bool) (merge : α → α → α) {t : Table α}
    (v : Valid (2 ^ k) home t) {s : Nat} (hs : s < 2 ^ k)
    {c : Cell α} (hc : t s = some c) {x : α} (same : home c.item = home x)
    (equal : eq c.item x = true) (only : ∀ i < 2 ^ k, ∀ b, t i = some b → eq b.item x = true → i = s)
    (hb : c.psl < 256) (maxPsl : Nat) (fuel q : Nat) (hq : 0 < q) (hle : q ≤ c.psl)
    (hf : c.psl < fuel + q) :
    insertLoop ndebug eq merge (2 ^ k) fuel t maxPsl ((home x + (q - 1)) % 2 ^ k) x q =
      some ⟨put t s (some ⟨merge c.item x, c.psl⟩), maxPsl, some (c.item, x)⟩ := by
  induction fuel generalizing q with
  | zero => omega
  | succ fuel ih =>
    have slot_lt : (home x + (q - 1)) % 2 ^ k < 2 ^ k := Nat.mod_lt _ (Nat.two_pow_pos k)
    have far := v.probe hs hc q hq hle
    rw [same] at far
    have place := v.position s hs c hc
    rw [same] at place
    cases hcur : t ((home x + (q - 1)) % 2 ^ k) with
    | none =>
      rw [pslAt_none hcur] at far
      omega
    | some cur =>
      rw [pslAt_some hcur] at far
      by_cases hit : eq cur.item x = true
      · have at_s := only _ slot_lt cur hcur hit
        rw [at_s, hc] at hcur
        obtain rfl := Option.some.inj hcur
        simp [insertLoop, at_s, hc, hit]
      · have less : q < c.psl := by
          refine lt_of_le_of_ne hle fun h => hit ?_
          rw [h, place, hc] at hcur
          exact Option.some.inj hcur ▸ equal
        have step := ih (q + 1) (Nat.succ_pos q) less (by omega)
        have slot' : next (2 ^ k) ((home x + (q - 1)) % 2 ^ k) =
            (home x + (q + 1 - 1)) % 2 ^ k := by
          rw [next_add_mod, show q - 1 + 1 = q + 1 - 1 by omega]
        simp only [insertLoop, hcur, hit, show ¬cur.psl < q by omega, if_false, and_next, slot',
          pslInc_of_lt (by omega : q < 255)]
        exact step

/-- An insertion in which no assert fires is the one that `NDEBUG` compiles. -/
theorem insertLoop_ndebug {eq : α → α → Bool} {merge : α → α → α} {cap : Nat} (fuel : Nat) :
    ∀ {t : Table α} {maxPsl slot : Nat} {x : α} {p : Nat} {r : Inserted α},
      insertLoop false eq merge cap fuel t maxPsl slot x p = some r →
        insertLoop true eq merge cap fuel t maxPsl slot x p = some r := by
  have inc (p : Nat) : pslInc false p = none ∨ pslInc true p = pslInc false p := by
    by_cases h : (p + 1) % 256 = 0 <;> simp [pslInc, h]
  induction fuel with
  | zero => simp [insertLoop]
  | succ fuel ih =>
    intro t maxPsl slot x p r h
    rw [insertLoop] at h ⊢
    cases hcur : t slot with
    | none => simpa [hcur] using h
    | some cur =>
      simp only [hcur] at h ⊢
      by_cases equal : eq cur.item x = true
      · simpa [equal] using h
      by_cases less : cur.psl < p
      · simp only [equal, less, if_true, if_false, Bool.false_eq_true] at h ⊢
        rcases inc cur.psl with stuck | same
        · simp [stuck] at h
        · obtain ⟨q, hq, rest⟩ := Option.bind_eq_some_iff.mp h
          simp [same, hq, ih rest]
      · simp only [equal, less, if_false, Bool.false_eq_true] at h ⊢
        rcases inc p with stuck | same
        · simp [stuck] at h
        · obtain ⟨q, hq, rest⟩ := Option.bind_eq_some_iff.mp h
          simp [same, hq, ih rest]

end Insert

/-! ### Search -/

/-- A search of `fuel` iterations ends when no length exceeds `fuel - 1`, so its
8-bit counter stays at or below `fuel`. It returns a slot that satisfies `eq`,
and none only if no stored item with the sought home does. -/
theorem probeLoop_spec {k : Nat} {home : α → Nat} {t : Table α} (v : Valid (2 ^ k) home t)
    (eq : α → Bool) {h bound : Nat} (hb : bound < 255) (bounded : ∀ i < 2 ^ k, pslAt t i ≤ bound)
    (fuel q : Nat) (hq : 0 < q) (hle : q ≤ bound + 1) (hf : bound + 2 ≤ fuel + q)
    (passed : ∀ p, 0 < p → p < q → ∀ b, t ((h + (p - 1)) % 2 ^ k) = some b → eq b.item = false) :
    ∃ r, probeLoop eq (2 ^ k) t fuel ((h + (q - 1)) % 2 ^ k) q = some r ∧
      (∀ s, r = some s → s < 2 ^ k ∧ ∃ c, t s = some c ∧ eq c.item = true) ∧
      (r = none → ∀ i < 2 ^ k, ∀ b, t i = some b → home b.item = h → eq b.item = false) := by
  induction fuel generalizing q with
  | zero => omega
  | succ fuel ih =>
    have slot_lt : (h + (q - 1)) % 2 ^ k < 2 ^ k := Nat.mod_lt _ (Nat.two_pow_pos k)
    -- A bucket closer to home than the probe ends every cluster with home `h`.
    have missing (short : pslAt t ((h + (q - 1)) % 2 ^ k) < q) (i : Nat) (hi : i < 2 ^ k)
        (b : Cell α) (hbi : t i = some b) (hh : home b.item = h) : eq b.item = false := by
      have pos := v.pos i hi b hbi
      rcases Nat.lt_or_ge b.psl q with near | far
      · refine passed b.psl pos near b ?_
        rw [← hh, v.position i hi b hbi, hbi]
      · have := v.probe hi hbi q hq far
        rw [hh] at this
        omega
    cases hcur : t ((h + (q - 1)) % 2 ^ k) with
    | none =>
      refine ⟨none, by simp [probeLoop, hcur], by simp, fun _ => missing ?_⟩
      rw [pslAt_none hcur]
      exact hq
    | some cur =>
      have full := bounded _ slot_lt
      rw [pslAt_some hcur] at full missing
      by_cases short : cur.psl < q
      · exact ⟨none, by simp [probeLoop, hcur, short], by simp, fun _ => missing short⟩
      by_cases hit : eq cur.item = true
      · refine ⟨some ((h + (q - 1)) % 2 ^ k), by simp [probeLoop, hcur, short, hit], ?_, by simp⟩
        rintro s hs
        obtain rfl := Option.some.inj hs
        exact ⟨slot_lt, cur, hcur, hit⟩
      · obtain ⟨r, run, found, absent⟩ := ih (q + 1) (Nat.succ_pos q) (by omega) (by omega)
          (fun p hp hpq b hbp => by
            rcases Nat.lt_succ_iff_lt_or_eq.mp hpq with before | rfl
            · exact passed p hp before b hbp
            · rw [hcur] at hbp
              obtain rfl := Option.some.inj hbp
              simpa using hit)
        refine ⟨r, ?_, found, absent⟩
        have slot' : next (2 ^ k) ((h + (q - 1)) % 2 ^ k) = (h + (q + 1 - 1)) % 2 ^ k := by
          rw [next_add_mod, show q - 1 + 1 = q + 1 - 1 by omega]
        simp only [probeLoop, hcur, short, hit, if_false, and_next, slot',
          Nat.mod_eq_of_lt (by omega : q + 1 < 256)]
        exact run

/-! ### Backward shift -/

theorem put_put (t : Table α) (i : Nat) (b c : Option (Cell α)) :
    put (put t i b) i c = put t i c := Function.update_idem _ _ _

/-- The two backward shifts do the same to the table. -/
theorem setShift_eq (k fuel : Nat) (t : Table α) (slot : Nat) (hs : slot < 2 ^ k)
    (hk : 1 < 2 ^ k) :
    setShift (2 ^ k) fuel t slot =
      hashmapShift (2 ^ k) fuel (put t slot none) slot (next (2 ^ k) slot) := by
  induction fuel generalizing t slot with
  | zero => rfl
  | succ fuel ih =>
    have ne : next (2 ^ k) slot ≠ slot := add_mod_ne hs Nat.one_pos hk
    simp only [setShift, hashmapShift, and_next, put_ne _ _ ne]
    cases t (next (2 ^ k) slot) with
    | none => rfl
    | some nb =>
      by_cases far : 1 < nb.psl
      · simp only [show ¬nb.psl ≤ 1 by omega, far, if_true, if_false, put_put]
        exact ih _ _ (next_lt (by omega))
      · simp [show nb.psl ≤ 1 by omega, far]

/-- The backward shift ends in a valid table with the same items, and lengthens
no probe. -/
theorem hashmapShift_spec {k : Nat} {home : α → Nat} (bound d : Nat) :
    ∀ (fuel : Nat) (t : Table α) (hole : Nat), d < fuel → Hole (2 ^ k) home t hole →
      (∀ i < 2 ^ k, pslAt t i ≤ bound) → d + 1 < 2 ^ k → t ((hole + (d + 1)) % 2 ^ k) = none →
      ∃ t', hashmapShift (2 ^ k) fuel t hole (next (2 ^ k) hole) = some t' ∧
        Valid (2 ^ k) home t' ∧ (items (2 ^ k) t').Perm (items (2 ^ k) t) ∧
        ∀ i < 2 ^ k, pslAt t' i ≤ bound := by
  induction d with
  | zero =>
    intro fuel t hole hf g bounded _ free
    obtain ⟨fuel, rfl⟩ : ∃ f, fuel = f + 1 := ⟨fuel - 1, by omega⟩
    have stop : t (next (2 ^ k) hole) = none := free
    refine ⟨t, by simp [hashmapShift, stop], g.fill ?_, .refl _, bounded⟩
    rw [pslAt_none stop]
    omega
  | succ d ih =>
    intro fuel t hole hf g bounded hd free
    obtain ⟨fuel, rfl⟩ : ∃ f, fuel = f + 1 := ⟨fuel - 1, by omega⟩
    have hlt : next (2 ^ k) hole < 2 ^ k := next_lt (by omega)
    cases hcur : t (next (2 ^ k) hole) with
    | none =>
      refine ⟨t, by simp [hashmapShift, hcur], g.fill ?_, .refl _, bounded⟩
      rw [pslAt_none hcur]
      omega
    | some cur =>
      by_cases far : 1 < cur.psl
      · have room : (next (2 ^ k) hole + (d + 1)) % 2 ^ k = (hole + (d + 1 + 1)) % 2 ^ k := by
          rw [next, Nat.mod_add_mod]
          congr 1
          omega
        have apart := add_mod_ne g.hole_lt (Nat.succ_pos (d + 1)) hd
        have apart' := add_mod_ne hlt (Nat.succ_pos d) (by omega)
        rw [room] at apart'
        have full := bounded _ hlt
        rw [pslAt_some hcur] at full
        obtain ⟨t', run, valid, perm, small⟩ := ih fuel
          (put (put t hole (some ⟨cur.item, cur.psl - 1⟩)) (next (2 ^ k) hole) none)
          (next (2 ^ k) hole) (by omega) (g.shift hcur far)
          (fun i hi => by
            by_cases h : i = next (2 ^ k) hole
            · simp [h]
            · rw [pslAt_put_ne _ _ h]
              exact pslAt_put_bounded bounded (by omega) i hi)
          (by omega) (by rw [room, put_ne _ _ apart', put_ne _ _ apart, free])
        refine ⟨t', ?_, valid, perm.trans ?_, small⟩
        · simp only [hashmapShift, hcur, far, if_true, and_next]
          exact run
        · have moved := items_put t g.hole_lt (some ⟨cur.item, cur.psl - 1⟩)
          have cleared := items_put (put t hole (some ⟨cur.item, cur.psl - 1⟩)) hlt none
          have ne : next (2 ^ k) hole ≠ hole := by
            rintro h
            rw [h, g.empty] at hcur
            simp at hcur
          simp only [g.empty, put_ne _ _ ne, hcur, Option.map_some, Option.map_none,
            Option.toList_some, Option.toList_none, List.cons_append, List.nil_append]
            at moved cleared
          exact (List.Perm.cons_inv (cleared.trans moved))
      · refine ⟨t, by simp [hashmapShift, hcur, far], g.fill ?_, .refl _, bounded⟩
        rw [pslAt_some hcur]
        omega

/-- Removing the item at `s` and shifting back, in a table with a free slot. -/
theorem hashmapShift_remove {k : Nat} {home : α → Nat} {t : Table α} (v : Valid (2 ^ k) home t)
    (room : (items (2 ^ k) t).length < 2 ^ k) {bound : Nat}
    (bounded : ∀ i < 2 ^ k, pslAt t i ≤ bound) {s : Nat} (hs : s < 2 ^ k) {c : Cell α}
    (hc : t s = some c) :
    ∃ t', hashmapShift (2 ^ k) (2 ^ k) (put t s none) s (next (2 ^ k) s) = some t' ∧
      Valid (2 ^ k) home t' ∧ (c.item :: items (2 ^ k) t').Perm (items (2 ^ k) t) ∧
      ∀ i < 2 ^ k, pslAt t' i ≤ bound := by
  obtain ⟨e, he, free⟩ := exists_free room
  have ne : e ≠ s := by
    rintro rfl
    simp [free] at hc
  have pos : 0 < 2 ^ k := Nat.two_pow_pos k
  have reach : (s + (e + 2 ^ k - s) % 2 ^ k) % 2 ^ k = e := by
    rw [Nat.add_mod_mod, show s + (e + 2 ^ k - s) = e + 2 ^ k by omega, Nat.add_mod_right,
      Nat.mod_eq_of_lt he]
  have lt : (e + 2 ^ k - s) % 2 ^ k < 2 ^ k := Nat.mod_lt _ pos
  obtain ⟨d, hd⟩ : ∃ d, (e + 2 ^ k - s) % 2 ^ k = d + 1 := by
    refine ⟨(e + 2 ^ k - s) % 2 ^ k - 1, ?_⟩
    have : (e + 2 ^ k - s) % 2 ^ k ≠ 0 := by
      intro zero
      rw [zero, Nat.add_zero, Nat.mod_eq_of_lt hs] at reach
      exact ne reach.symm
    omega
  rw [hd] at reach lt
  obtain ⟨t', run, valid, perm, small⟩ := hashmapShift_spec bound d (2 ^ k)
    (put t s none) s (by omega) (v.dig hs)
    (fun i hi => by
      by_cases h : i = s
      · simp [h]
      · rw [pslAt_put_ne _ _ h]
        exact bounded i hi)
    (by omega) (by rw [reach, put_ne _ _ ne, free])
  refine ⟨t', run, valid, (perm.cons _).trans ?_, small⟩
  simpa [hc] using items_put t hs none

end Seqc
