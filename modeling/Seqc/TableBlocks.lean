import Seqc.Holdings
import Seqc.TableInvariants
import Mathlib.Data.Multiset.Bind

/-! The blocks of hashmap.c and set.c: a bucket array and the copies that its buckets point
at. An insertion moves the pointers of the buckets it displaces, and frees what it does not
keep. With the asserts compiled in no bucket is lost, and no run depends on them. -/

namespace Seqc
open RobinHood Runs

variable {α κ ν : Type} {f : KeyFns κ}

/-- The stored items, in no order. -/
def stored (n : Nat) (t : Table α) : Multiset α := items n t

/-- What a bucket holds. -/
def held (b : Option (Cell α)) : Multiset α := (b.map Cell.item).toList

section Stored
variable {n cap slot : Nat} {t t' : Table α} {eq : α → α → Bool} {merge : α → α → α}

@[simp] theorem held_none : held (none : Option (Cell α)) = 0 := rfl

@[simp] theorem held_some (c : Cell α) : held (some c) = {c.item} := rfl

@[simp] theorem stored_empty (n : Nat) : stored n (fun _ => none : Table α) = 0 := by
  simp [stored, items]

theorem stored_put (t : Table α) (hs : slot < n) (b : Option (Cell α)) :
    held (t slot) + stored n (put t slot b) = held b + stored n t :=
  Multiset.coe_eq_coe.mpr (items_put t hs b)

theorem and_pred_lt (x : Nat) (pos : 0 < cap) : x &&& (cap - 1) < cap := by
  have le := Nat.and_le_right (n := x) (m := cap - 1)
  omega

theorem pslInc_pos {psl psl' : Nat} (h : pslInc false psl = some psl') : 0 < psl' := by
  unfold pslInc at h
  split at h
  · simp at h
  · rename_i wrapped
    simp only [and_true] at wrapped
    obtain rfl := Option.some.inj h
    omega

/-- An insertion keeps all items, or two that are equal become one. -/
theorem insertLoop_stored (fuel : Nat) : ∀ (t : Table α) (maxPsl slot : Nat) (x : α) (psl : Nat)
    (r : Inserted α), insertLoop false eq merge cap fuel t maxPsl slot x psl = some r →
      slot < cap → 0 < psl →
      (r.matched = none → stored cap r.buckets = {x} + stored cap t) ∧
      ∀ c y, r.matched = some (c, y) → ∃ rest, {x} + stored cap t = {c} + ({y} + rest) ∧
        stored cap r.buckets = {merge c y} + rest := by
  induction fuel with
  | zero => simp [insertLoop]
  | succ fuel ih =>
    intro t maxPsl slot x psl r h hs pos
    unfold insertLoop at h
    have further := and_pred_lt (slot + 1) (Nat.zero_lt_of_lt hs)
    split at h
    · rename_i free
      obtain rfl := Option.some.inj h
      have filled := stored_put t hs (bucketOf x psl)
      rw [free, held_none, zero_add, bucketOf_of_pos pos, held_some] at filled
      exact ⟨fun _ => by rw [bucketOf_of_pos pos]; exact filled, by simp⟩
    · rename_i cur used
      split at h
      · obtain rfl := Option.some.inj h
        refine ⟨by simp, fun c y matched => ?_⟩
        obtain ⟨rfl, rfl⟩ := Prod.mk.inj (Option.some.inj matched)
        have merged := stored_put t hs (some ⟨merge cur.item x, cur.psl⟩)
        have taken := stored_put t hs none
        rw [used, held_some, held_some] at merged
        rw [used, held_some, held_none, zero_add] at taken
        refine ⟨stored cap (put t slot none), ?_, ?_⟩
        · rw [← taken]
          abel
        · rw [← taken, add_left_comm] at merged
          exact add_left_cancel merged
      split at h
      · obtain ⟨psl', more, h⟩ := Option.bind_eq_some_iff.mp h
        -- The displaced item is the one that is carried on.
        have swapped := stored_put t hs (bucketOf x psl)
        rw [used, held_some, bucketOf_of_pos pos, held_some] at swapped
        rw [bucketOf_of_pos pos] at h
        have later := ih _ _ _ _ _ r h further (pslInc_pos more)
        rwa [swapped] at later
      · obtain ⟨psl', more, h⟩ := Option.bind_eq_some_iff.mp h
        exact ih _ _ _ _ _ r h further (pslInc_pos more)

/-- The blocks of the items of a table after an insertion that started at the item's slot. -/
theorem insertLoop_blocks (blocks : α → Blocks) {fuel maxPsl : Nat} {x : α} {r : Inserted α}
    (run : insertLoop false eq merge cap fuel t maxPsl (slot &&& (cap - 1)) x 1 = some r)
    (same : fuel = cap) :
    (r.matched = none →
      (stored cap r.buckets).bind blocks = blocks x + (stored cap t).bind blocks) ∧
    ∀ c y, r.matched = some (c, y) → ∃ others : Blocks,
      blocks x + (stored cap t).bind blocks = blocks c + (blocks y + others) ∧
      (stored cap r.buckets).bind blocks = blocks (merge c y) + others := by
  subst same
  have room : slot &&& (fuel - 1) < fuel := by
    refine and_pred_lt _ (Nat.pos_of_ne_zero fun none_there => ?_)
    subst none_there
    simp [insertLoop] at run
  obtain ⟨fresh, merged⟩ := insertLoop_stored _ _ _ _ _ _ r run room Nat.one_pos
  constructor
  · intro unmatched
    rw [fresh unmatched, Multiset.add_bind, Multiset.singleton_bind]
  · intro c y matched
    obtain ⟨rest, split, kept⟩ := merged c y matched
    refine ⟨rest.bind blocks, ?_, ?_⟩
    · simpa only [Multiset.add_bind, Multiset.singleton_bind] using
        congrArg (Multiset.bind · blocks) split
    · rw [kept, Multiset.add_bind, Multiset.singleton_bind]

/-- A loop over old buckets hands the blocks of their items to what `owned` holds. -/
theorem rehashLoop_trades {τ : Type} {step : τ × Mem → Nat → Option (τ × Mem)} {J : τ → Prop}
    {owned : τ → Blocks} {blocks : α → Blocks} {old : Table α}
    (free : ∀ {i s r}, old i = none → step s i = some r → s = r)
    (used : ∀ {i c s m s' m'}, J s → old i = some c → step (s, m) i = some (s', m') →
      J s' ∧ m.Trades (blocks c.item + owned s) m' (owned s'))
    (slots : List Nat) {s s' : τ} {m m' : Mem} (start : J s)
    (h : slots.foldlM step (s, m) = some (s', m')) :
    J s' ∧ m.Trades (((slots.filterMap fun i => (old i).map Cell.item : List α) :
      Multiset α).bind blocks + owned s) m' (owned s') := by
  induction slots generalizing s m with
  | nil =>
    obtain ⟨rfl, rfl⟩ := Prod.mk.inj (Option.some.inj h)
    refine ⟨start, ?_⟩
    simp only [List.filterMap_nil, Multiset.coe_nil, Multiset.zero_bind, zero_add]
    exact .refl m _
  | cons i slots ih =>
    rw [List.foldlM_cons] at h
    obtain ⟨⟨s₁, m₁⟩, first, h⟩ := Option.bind_eq_some_iff.mp h
    cases hold : old i with
    | none =>
      obtain ⟨rfl, rfl⟩ := Prod.mk.inj (free hold first)
      simpa [hold] using ih start h
    | some c =>
      obtain ⟨now, stored⟩ := used start hold first
      obtain ⟨after, later⟩ := ih now h
      refine ⟨after, ?_⟩
      simp only [List.filterMap_cons, hold, Option.map_some, ← Multiset.cons_coe,
        Multiset.cons_bind]
      generalize Multiset.bind _ _ = others at later ⊢
      exact (stored.within others (by abel) (add_comm _ _)).trans later

theorem probeLoop_lt {eq : α → Bool} (fuel : Nat) : ∀ slot probe s,
    probeLoop eq cap t fuel slot probe = some (some s) → slot < cap → s < cap := by
  induction fuel with
  | zero => simp [probeLoop]
  | succ fuel ih =>
    intro slot probe s h hs
    unfold probeLoop at h
    split at h
    · simp at h
    split at h
    · simp at h
    split at h
    · obtain rfl := Option.some.inj (Option.some.inj h)
      exact hs
    · exact ih _ _ s h (and_pred_lt _ (Nat.zero_lt_of_lt hs))

/-- The shift of hashmap.c moves items to a vacated slot. -/
theorem hashmapShift_stored (fuel : Nat) : ∀ (t : Table α) (prev slot : Nat) (t' : Table α),
    hashmapShift cap fuel t prev slot = some t' → prev < cap → slot < cap → t prev = none →
      stored cap t' = stored cap t := by
  induction fuel with
  | zero => simp [hashmapShift]
  | succ fuel ih =>
    intro t prev slot t' h hp hs vacant
    unfold hashmapShift at h
    split at h
    · obtain rfl := Option.some.inj h
      rfl
    rename_i cur used
    split at h
    · have apart : slot ≠ prev := fun same => by simp [same, vacant] at used
      have moved := stored_put t hp (some ⟨cur.item, cur.psl - 1⟩)
      have left := stored_put (put t prev (some ⟨cur.item, cur.psl - 1⟩)) hs none
      rw [vacant, held_none, zero_add, held_some] at moved
      rw [put_ne _ _ apart, used, held_some, held_none, zero_add, moved] at left
      rw [ih _ _ _ t' h hs (and_pred_lt _ (Nat.zero_lt_of_lt hs)) (put_self ..)]
      exact add_left_cancel left
    · obtain rfl := Option.some.inj h
      rfl

/-- The shift of set.c drops the item of the slot it starts at. -/
theorem setShift_stored (fuel : Nat) : ∀ (t : Table α) (slot : Nat) (t' : Table α),
    setShift cap fuel t slot = some t' → slot < cap →
      held (t slot) + stored cap t' = stored cap t := by
  induction fuel with
  | zero => simp [setShift]
  | succ fuel ih =>
    intro t slot t' h hs
    have further := and_pred_lt (slot + 1) (Nat.zero_lt_of_lt hs)
    have cleared := stored_put t hs none
    rw [held_none, zero_add] at cleared
    unfold setShift at h
    split at h
    · obtain rfl := Option.some.inj h
      exact cleared
    rename_i nb used
    split at h
    · obtain rfl := Option.some.inj h
      exact cleared
    · have moved := stored_put t hs (some ⟨nb.item, nb.psl - 1⟩)
      have later := ih _ _ t' h further
      have next : held (put t slot (some ⟨nb.item, nb.psl - 1⟩) ((slot + 1) &&& (cap - 1))) =
          {nb.item} := by
        by_cases same : (slot + 1) &&& (cap - 1) = slot
        · rw [same, put_self, held_some]
        · rw [put_ne _ _ same, used, held_some]
      rw [next] at later
      rw [← later, held_some, add_left_comm] at moved
      exact add_left_cancel moved

end Stored

/-! ### hashmap.c -/

/-- The copies an entry points at. -/
def entryBlocks (keySize valSize : Nat) (e : Entry κ ν) : Blocks :=
  {(e.key.addr, keySize)} + {(e.value.addr, valSize)}

/-- The copies of all entries. -/
def Hashmap.copies (map : Hashmap κ ν) : Blocks :=
  (stored map.cap map.buckets).bind (entryBlocks map.keySize map.valSize)

/-- The struct, the bucket array and the copies. -/
def hashmapBlocks (map : Hashmap κ ν) : Blocks :=
  {(map.addr, sizeofHashmap)} + ({(map.bucketsAddr, mulSize map.cap sizeofBucket)} + map.copies)

/-- `map'` has the struct, the bucket array and the sizes of `map`. -/
def Hashmap.Same (map map' : Hashmap κ ν) : Prop :=
  ∃ buckets len maxPsl, map' = { map with buckets := buckets, len := len, maxPsl := maxPsl }

section Map
variable {map map' : Hashmap κ ν} {e : Entry κ ν} {m m' : Mem} {st : Status}

theorem Hashmap.Same.trans {map'' : Hashmap κ ν} (h : map.Same map') (h' : map'.Same map'') :
    map.Same map'' := by
  obtain ⟨_, _, _, rfl⟩ := h
  obtain ⟨buckets, len, maxPsl, rfl⟩ := h'
  exact ⟨buckets, len, maxPsl, rfl⟩

theorem freeEntry_trades (keySize valSize : Nat) (m : Mem) (e : Entry κ ν) :
    m.Trades (entryBlocks keySize valSize e) (freeEntry keySize valSize m e) 0 := by
  refine ((memFree_trades m e.key.addr keySize).within {(e.value.addr, valSize)} rfl
    (zero_add _).symm).trans ?_
  exact memFree_trades _ e.value.addr valSize

theorem freeEntries_trades (keySize valSize : Nat) (es : List (Entry κ ν)) (m : Mem) :
    m.Trades ((es : Multiset (Entry κ ν)).bind (entryBlocks keySize valSize))
      (es.foldl (freeEntry keySize valSize) m) 0 := by
  induction es generalizing m with
  | nil => exact .refl m 0
  | cons e es ih =>
    rw [← Multiset.cons_coe, Multiset.cons_bind]
    exact ((freeEntry_trades keySize valSize m e).within _ rfl (zero_add _).symm).trans (ih _)

/-- The copies of the entry become copies of the map; what an update replaces is freed. -/
theorem hashmapInsertRaw_trades (h : hashmapInsertRaw false f map e m = some (map', m')) :
    map.Same map' ∧
      m.Trades (entryBlocks map.keySize map.valSize e + map.copies) m' map'.copies := by
  unfold hashmapInsertRaw at h
  obtain ⟨r, run, h⟩ := Option.bind_eq_some_iff.mp h
  obtain ⟨fresh, merged⟩ := insertLoop_blocks (entryBlocks map.keySize map.valSize) run rfl
  cases matched : r.matched with
  | none =>
    simp only [matched] at h
    obtain ⟨rfl, rfl⟩ := Prod.mk.inj (Option.some.inj h)
    refine ⟨⟨_, _, _, rfl⟩, ?_⟩
    simp only [Hashmap.copies, fresh matched]
    exact .refl m _
  | some pair =>
    obtain ⟨cur, dropped⟩ := pair
    simp only [matched] at h
    obtain ⟨rfl, rfl⟩ := Prod.mk.inj (Option.some.inj h)
    obtain ⟨others, split, kept⟩ := merged cur dropped matched
    refine ⟨⟨_, _, _, rfl⟩, ?_⟩
    simp only [Hashmap.copies, kept, split]
    refine ((memFree_trades m dropped.key.addr map.keySize).within
      (entryBlocks map.keySize map.valSize cur + ({(dropped.value.addr, map.valSize)} + others))
      ?_ (zero_add _).symm).trans ?_
    · simp only [entryBlocks]
      abel
    · refine (memFree_trades _ cur.value.addr map.valSize).within
        (entryBlocks map.keySize map.valSize (entryUpdate cur dropped) + others) ?_
        (zero_add _).symm
      simp only [entryBlocks, entryUpdate]
      abel

/-- A loop over old buckets hands their copies to the new table. -/
theorem rehash_trades (old : Table (Entry κ ν)) (slots : List Nat)
    (h : slots.foldlM (rehashBucket false f old) (map, m) = some (map', m')) :
    map.Same map' ∧
      m.Trades (((slots.filterMap fun i => (old i).map Cell.item : List (Entry κ ν)) :
        Multiset (Entry κ ν)).bind (entryBlocks map.keySize map.valSize) + map.copies) m'
        map'.copies := by
  refine rehashLoop_trades (J := map.Same) ?_ ?_ slots ⟨_, _, _, rfl⟩ h
  · intro i s r free step
    rw [rehashBucket, free] at step
    exact Option.some.inj step
  · intro i b map₁ m₁ map₂ m₂ same used step
    rw [rehashBucket, used] at step
    obtain ⟨same₁, stored⟩ := hashmapInsertRaw_trades step
    refine ⟨same.trans same₁, ?_⟩
    obtain ⟨_, _, _, rfl⟩ := same
    exact stored

theorem hashmapResizeAndRehash_trades {newCap : Nat}
    (h : hashmapResizeAndRehash false f map newCap m = some (st, map', m')) :
    m.Trades (hashmapBlocks map) m' (hashmapBlocks map') := by
  unfold hashmapResizeAndRehash at h
  split at h
  · rename_i hm
    obtain ⟨-, rfl, rfl⟩ : .oom = st ∧ map = map' ∧ _ = m' := by simpa using h
    exact (memAlloc_refused hm).within _ (zero_add _).symm (zero_add _).symm
  · rename_i addr m₁ hm
    obtain ⟨⟨map₁, m₂⟩, ran, h⟩ := Option.bind_eq_some_iff.mp h
    obtain ⟨-, rfl, rfl⟩ : .ok = st ∧ map₁ = map' ∧ _ = m' := by simpa using h
    obtain ⟨⟨_, _, _, rfl⟩, moved⟩ := rehash_trades map.buckets (List.range map.cap) ran
    have none_yet : ({ map with
        bucketsAddr := addr, buckets := fun _ => none, cap := newCap, len := 0, maxPsl := 0 } :
        Hashmap κ ν).copies = 0 := by simp [Hashmap.copies]
    rw [none_yet, add_zero] at moved
    refine ((memAlloc_trades hm).within (hashmapBlocks map) (zero_add _).symm rfl).trans ?_
    refine (moved.within ({(addr, mulSize newCap sizeofBucket)} + ({(map.addr, sizeofHashmap)} +
      {(map.bucketsAddr, mulSize map.cap sizeofBucket)})) ?_ rfl).trans ?_
    · simp only [hashmapBlocks, Hashmap.copies, stored, items]
      abel
    · refine (memFree_trades m₂ map.bucketsAddr _).within _ ?_ (zero_add _).symm
      simp only [hashmapBlocks]
      abel

theorem hashmapGrow_trades (h : hashmapGrow false f map m = some (st, map', m')) :
    m.Trades (hashmapBlocks map) m' (hashmapBlocks map') := by
  unfold hashmapGrow at h
  split at h
  · exact hashmapResizeAndRehash_trades h
  · obtain ⟨-, rfl, rfl⟩ : .ok = st ∧ map = map' ∧ m = m' := by simpa using h
    exact .refl m _

theorem hashmapStore_trades {key : κ} {value : ν}
    (h : hashmapStore false f map key value m = some (st, map', m')) :
    m.Trades (hashmapBlocks map) m' (hashmapBlocks map') := by
  unfold hashmapStore at h
  split at h
  · rename_i hkey
    obtain ⟨-, rfl, rfl⟩ : .oom = st ∧ map = map' ∧ _ = m' := by simpa using h
    exact (memAlloc_refused hkey).within _ (zero_add _).symm (zero_add _).symm
  rename_i keyCopy m₁ hkey
  have got_key := memAlloc_trades hkey
  split at h
  · rename_i m₂ hval
    obtain ⟨-, rfl, rfl⟩ : .oom = st ∧ map = map' ∧ _ = m' := by simpa using h
    have back := got_key.trans (((memAlloc_refused hval).within {(keyCopy, map.keySize)}
      (zero_add _).symm (zero_add _).symm).trans (memFree_trades m₂ keyCopy map.keySize))
    exact back.within _ (zero_add _).symm (zero_add _).symm
  · rename_i valCopy m₂ hval
    obtain ⟨⟨map₁, m₃⟩, ran, h⟩ := Option.bind_eq_some_iff.mp h
    obtain ⟨-, rfl, rfl⟩ : .ok = st ∧ map₁ = map' ∧ m₃ = m' := by simpa using h
    obtain ⟨⟨_, _, _, rfl⟩, stored⟩ := hashmapInsertRaw_trades ran
    have copies := got_key.trans ((memAlloc_trades hval).within {(keyCopy, map.keySize)}
      (zero_add _).symm rfl)
    refine (copies.within (hashmapBlocks map) (zero_add _).symm rfl).trans ?_
    refine stored.within ({(map.addr, sizeofHashmap)} +
      {(map.bucketsAddr, mulSize map.cap sizeofBucket)}) ?_ ?_
    · simp only [hashmapBlocks, entryBlocks]
      abel
    · simp only [hashmapBlocks]
      abel

theorem hashmapSet_trades {key : Option κ} {value : Option ν}
    (h : hashmapSet false f map key value m = some (st, map', m')) :
    m.Trades (hashmapBlocks map) m' (hashmapBlocks map') := by
  unfold hashmapSet at h
  split at h
  · obtain ⟨⟨rs, map₁, m₁⟩, grown, h⟩ := Option.bind_eq_some_iff.mp h
    have first := hashmapGrow_trades grown
    simp only at h
    split at h
    · exact first.trans (hashmapStore_trades h)
    · obtain ⟨-, rfl, rfl⟩ : rs = st ∧ map₁ = map' ∧ m₁ = m' := by simpa using h
      exact first
  · obtain ⟨-, rfl, rfl⟩ : .invalid = st ∧ map = map' ∧ m = m' := by simpa using h
    exact .refl m _

theorem hashmapFind_lt {key : κ} {slot : Nat} (h : hashmapFind f map key = some (some slot)) :
    slot < map.cap := by
  refine probeLoop_lt _ _ _ slot h (and_pred_lt _ (Nat.pos_of_ne_zero fun none_there => ?_))
  rw [hashmapFind, none_there] at h
  simp [probeLoop] at h

theorem hashmapRemove_trades {key : Option κ}
    (h : hashmapRemove f map key m = some (st, map', m')) :
    m.Trades (hashmapBlocks map) m' (hashmapBlocks map') := by
  unfold hashmapRemove at h
  split at h
  · obtain ⟨-, rfl, rfl⟩ : .invalid = st ∧ map = map' ∧ m = m' := by simpa using h
    exact .refl m _
  obtain ⟨found, search, h⟩ := Option.bind_eq_some_iff.mp h
  cases found with
  | none =>
    obtain ⟨-, rfl, rfl⟩ : .notFound = st ∧ map = map' ∧ m = m' := by simpa using h
    exact .refl m _
  | some slot =>
    have inside := hashmapFind_lt search
    simp only at h
    split at h
    · obtain ⟨-, rfl, rfl⟩ : .notFound = st ∧ map = map' ∧ m = m' := by simpa using h
      exact .refl m _
    · rename_i b used
      obtain ⟨buckets, shifted, h⟩ := Option.bind_eq_some_iff.mp h
      obtain ⟨-, rfl, rfl⟩ : .ok = st ∧ _ = map' ∧ _ = m' := by simpa using h
      have taken := stored_put map.buckets inside none
      rw [used, held_some, held_none, zero_add] at taken
      have kept := hashmapShift_stored _ _ _ _ _ shifted inside
        (and_pred_lt _ (Nat.zero_lt_of_lt inside)) (put_self ..)
      refine (freeEntry_trades map.keySize map.valSize m b.item).within (hashmapBlocks
        { map with buckets := buckets, len := map.len - 1 }) ?_ (zero_add _).symm
      simp only [hashmapBlocks, Hashmap.copies, kept, ← taken, Multiset.add_bind,
        Multiset.singleton_bind]
      abel

theorem hashmapClear_trades (map : Hashmap κ ν) (m : Mem) :
    m.Trades (hashmapBlocks map) (hashmapClear map m).2 (hashmapBlocks (hashmapClear map m).1) := by
  refine (freeEntries_trades map.keySize map.valSize (items map.cap map.buckets) m).within
    ({(map.addr, sizeofHashmap)} + {(map.bucketsAddr, mulSize map.cap sizeofBucket)}) ?_ ?_
  · simp only [hashmapBlocks, Hashmap.copies, stored]
    abel
  · simp only [hashmapBlocks, Hashmap.copies, hashmapClear, stored_empty, Multiset.zero_bind]
    abel

theorem hashmapDestroy_trades (map : Hashmap κ ν) (m : Mem) :
    m.Trades (hashmapBlocks map) (hashmapDestroy map m) 0 := by
  refine ((freeEntries_trades map.keySize map.valSize (items map.cap map.buckets) m).within
    ({(map.bucketsAddr, mulSize map.cap sizeofBucket)} + {(map.addr, sizeofHashmap)}) ?_
    (zero_add _).symm).trans ?_
  · simp only [hashmapBlocks, Hashmap.copies, stored]
    abel
  · exact ((memFree_trades _ map.bucketsAddr _).within _ rfl (zero_add _).symm).trans
      (memFree_trades _ map.addr _)

theorem hashmapStep_trades {op : HashmapOp κ ν} {out : Answer ν}
    (h : hashmapStep false f op (map, m) = some (out, (map', m'))) :
    m.Trades (hashmapBlocks map) m' (hashmapBlocks map') := by
  cases op with
  | set key value =>
    obtain ⟨⟨st, map₁, m₁⟩, call, h⟩ := Option.bind_eq_some_iff.mp h
    obtain ⟨-, rfl, rfl⟩ : .status st = out ∧ map₁ = map' ∧ m₁ = m' := by simpa using h
    exact hashmapSet_trades call
  | remove key =>
    obtain ⟨⟨st, map₁, m₁⟩, call, h⟩ := Option.bind_eq_some_iff.mp h
    obtain ⟨-, rfl, rfl⟩ : .status st = out ∧ map₁ = map' ∧ m₁ = m' := by simpa using h
    exact hashmapRemove_trades call
  | clear =>
    obtain ⟨-, rfl, rfl⟩ : .nothing = out ∧ _ = map' ∧ _ = m' := by
      simpa [hashmapStep, Prod.ext_iff] using h
    exact hashmapClear_trades map m
  | get key _ =>
    obtain ⟨r, -, h⟩ := Option.bind_eq_some_iff.mp h
    obtain ⟨-, rfl, rfl⟩ : _ = out ∧ map = map' ∧ m = m' := by simpa using h
    exact .refl m _
  | getPtr key =>
    obtain ⟨r, -, h⟩ := Option.bind_eq_some_iff.mp h
    obtain ⟨-, rfl, rfl⟩ : _ = out ∧ map = map' ∧ m = m' := by simpa using h
    exact .refl m _
  | contains key =>
    obtain ⟨r, -, h⟩ := Option.bind_eq_some_iff.mp h
    obtain ⟨-, rfl, rfl⟩ : _ = out ∧ map = map' ∧ m = m' := by simpa using h
    exact .refl m _

theorem hashmapCreate_trades {keySize valSize : Nat} {r : Option (Hashmap κ ν)}
    (h : hashmapCreate κ ν keySize valSize m = (r, m')) :
    m.Trades 0 m' (r.elim 0 hashmapBlocks) := by
  unfold hashmapCreate at h
  split at h
  · obtain ⟨rfl, rfl⟩ := Prod.mk.inj h
    exact .refl m 0
  split at h
  · rename_i hm
    obtain ⟨rfl, rfl⟩ := Prod.mk.inj h
    exact memAlloc_refused hm
  rename_i addr m₁ hm
  have got := memAlloc_trades hm
  split at h
  · rename_i m₂ hb
    obtain ⟨rfl, rfl⟩ := Prod.mk.inj h
    exact got.trans (((memAlloc_refused hb).within {(addr, sizeofHashmap)} (zero_add _).symm
      (zero_add _).symm).trans (memFree_trades m₂ addr sizeofHashmap))
  · rename_i bucketsAddr m₂ hb
    obtain ⟨rfl, rfl⟩ := Prod.mk.inj h
    refine got.trans ((memAlloc_trades hb).within {(addr, sizeofHashmap)} (zero_add _).symm ?_)
    simp only [Option.elim_some, hashmapBlocks, Hashmap.copies, stored_empty, Multiset.zero_bind]
    abel

end Map

theorem hashmap_owns (ndebug : Bool) (f : KeyFns κ) (keySize valSize : Nat) :
    OwnsInRuns (hashmapCreate κ ν keySize valSize) Prod.mk (hashmapStep ndebug f) Prod.snd
      (fun s => hashmapBlocks s.1) (fun s => some (hashmapDestroy s.1 s.2)) := by
  refine .of (fun s => ∃ k, HashmapInv f k s.1) (fun m₀ r m₁ created => ?_) (fun op s inv => ?_)
    (fun s _ => ⟨_, rfl, hashmapDestroy_trades s.1 s.2⟩)
  · refine ⟨by cases r <;> exact hashmapCreate_trades created, fun map here => ?_⟩
    subst here
    exact ⟨⟨4, (hashmapCreate_spec f created).1⟩, rfl⟩
  · obtain ⟨out, s', call, inv'⟩ := hashmapStep_inv false op s inv
    refine ⟨out, s', ?_, inv', hashmapStep_trades call⟩
    cases ndebug with
    | false => exact call
    | true => exact hashmapStep_ndebug op s _ call

/-! ### set.c -/

/-- The copies of all keys. -/
def SetT.copies (s : SetT κ) : Blocks :=
  (stored s.cap s.buckets).bind fun b => {(b.addr, s.elemSize)}

/-- The struct, the bucket array if there is one, and the copies. -/
def setBlocks (s : SetT κ) : Blocks :=
  {(s.addr, sizeofSet)} + (bufferBlocks s.bucketsAddr (mulSize s.cap sizeofSetBucket) + s.copies)

/-- `s'` has the struct, the bucket array and the sizes of `s`. -/
def SetT.Same (s s' : SetT κ) : Prop :=
  ∃ buckets len maxPsl, s' = { s with buckets := buckets, len := len, maxPsl := maxPsl }

section Set
variable {s s' : SetT κ} {b : Block κ} {m m' : Mem} {st : Status}

theorem SetT.Same.trans {s'' : SetT κ} (h : s.Same s') (h' : s'.Same s'') : s.Same s'' := by
  obtain ⟨_, _, _, rfl⟩ := h
  obtain ⟨buckets, len, maxPsl, rfl⟩ := h'
  exact ⟨buckets, len, maxPsl, rfl⟩

theorem memFree_buffer (m : Mem) (buffer : Option Nat) (size : Nat) :
    m.Trades (bufferBlocks buffer size) (memFree m buffer size) 0 := by
  cases buffer with
  | none => exact ⟨Mem.Later.refl.free _ _, _, rfl, fun rest => by simp [Ledger.replay, Event.act,
      bufferBlocks]⟩
  | some addr => exact memFree_trades m addr size

theorem freeKeys_trades (elemSize : Nat) (bs : List (Block κ)) (m : Mem) :
    m.Trades ((bs : Multiset (Block κ)).bind fun b => {(b.addr, elemSize)})
      (bs.foldl (fun m b => memFree m (some b.addr) elemSize) m) 0 := by
  induction bs generalizing m with
  | nil => exact .refl m 0
  | cons b bs ih =>
    rw [← Multiset.cons_coe, Multiset.cons_bind]
    exact ((memFree_trades m b.addr elemSize).within _ rfl (zero_add _).symm).trans (ih _)

/-- The copy becomes one of the set; a duplicate is freed. -/
theorem setInsertRaw_trades {inserted : Bool}
    (h : setInsertRaw false f s b m = some (inserted, s', m')) :
    s.Same s' ∧ m.Trades ({(b.addr, s.elemSize)} + s.copies) m' s'.copies := by
  unfold setInsertRaw at h
  obtain ⟨r, run, h⟩ := Option.bind_eq_some_iff.mp h
  obtain ⟨fresh, merged⟩ := insertLoop_blocks (fun b => {(b.addr, s.elemSize)}) run rfl
  cases matched : r.matched with
  | none =>
    simp only [matched] at h
    obtain ⟨-, rfl, rfl⟩ : true = inserted ∧ _ = s' ∧ m = m' := by simpa using h
    refine ⟨⟨_, _, _, rfl⟩, ?_⟩
    simp only [SetT.copies, fresh matched]
    exact .refl m _
  | some pair =>
    obtain ⟨cur, dropped⟩ := pair
    simp only [matched] at h
    obtain ⟨-, rfl, rfl⟩ : false = inserted ∧ _ = s' ∧ _ = m' := by simpa using h
    obtain ⟨others, split, kept⟩ := merged cur dropped matched
    refine ⟨⟨_, _, _, rfl⟩, ?_⟩
    simp only [SetT.copies, kept, split]
    exact (memFree_trades m dropped.addr s.elemSize).within _ (by abel) (zero_add _).symm

/-- A loop over old buckets hands their keys to the new table. -/
theorem setRehash_trades (old : Table (Block κ)) (slots : List Nat)
    (h : slots.foldlM (setRehashBucket false f old) (s, m) = some (s', m')) :
    s.Same s' ∧
      m.Trades (((slots.filterMap fun i => (old i).map Cell.item : List (Block κ)) :
        Multiset (Block κ)).bind (fun b => {(b.addr, s.elemSize)}) + s.copies) m' s'.copies := by
  refine rehashLoop_trades (J := s.Same) ?_ ?_ slots ⟨_, _, _, rfl⟩ h
  · intro i st r free step
    rw [setRehashBucket, free] at step
    exact Option.some.inj step
  · intro i b s₁ m₁ s₂ m₂ same used step
    rw [setRehashBucket, used] at step
    obtain ⟨⟨inserted, s₃, m₃⟩, call, last⟩ := Option.bind_eq_some_iff.mp step
    obtain ⟨rfl, rfl⟩ : s₃ = s₂ ∧ m₃ = m₂ := by simpa using last
    obtain ⟨same₁, stored⟩ := setInsertRaw_trades call
    refine ⟨same.trans same₁, ?_⟩
    obtain ⟨_, _, _, rfl⟩ := same
    exact stored

theorem setResize_trades (h : setResize false f s m = some (st, s', m')) :
    m.Trades (setBlocks s) m' (setBlocks s') := by
  unfold setResize at h
  split at h
  · rename_i hm
    obtain ⟨-, rfl, rfl⟩ : .oom = st ∧ s = s' ∧ _ = m' := by simpa using h
    exact (memAlloc_refused hm).within _ (zero_add _).symm (zero_add _).symm
  · rename_i addr m₁ hm
    obtain ⟨⟨s₁, m₂⟩, ran, h⟩ := Option.bind_eq_some_iff.mp h
    obtain ⟨-, rfl, rfl⟩ : .ok = st ∧ s₁ = s' ∧ _ = m' := by simpa using h
    obtain ⟨⟨_, _, _, rfl⟩, moved⟩ := setRehash_trades s.buckets (List.range s.cap) ran
    have none_yet : ({ s with
        bucketsAddr := some addr, buckets := fun _ => none, cap := mulSize s.cap 2, maxPsl := 0 } :
        SetT κ).copies = 0 := by simp [SetT.copies]
    rw [none_yet, add_zero] at moved
    refine ((memAlloc_trades hm).within (setBlocks s) (zero_add _).symm rfl).trans ?_
    refine (moved.within ({(addr, mulSize (mulSize s.cap 2) sizeofSetBucket)} +
      ({(s.addr, sizeofSet)} + bufferBlocks s.bucketsAddr (mulSize s.cap sizeofSetBucket))) ?_
      rfl).trans ?_
    · simp only [setBlocks, SetT.copies, stored, items]
      abel
    · refine (memFree_buffer m₂ s.bucketsAddr _).within _ ?_ (zero_add _).symm
      simp only [setBlocks, bufferBlocks, Option.elim_some]
      abel

theorem setGrow_trades (h : setGrow false f s m = some (st, s', m')) :
    m.Trades (setBlocks s) m' (setBlocks s') := by
  unfold setGrow at h
  split at h
  · exact setResize_trades h
  · obtain ⟨-, rfl, rfl⟩ : .ok = st ∧ s = s' ∧ m = m' := by simpa using h
    exact .refl m _

theorem setFirstBuckets_trades (unused : s.cap = 0 → s.bucketsAddr = none)
    (h : setFirstBuckets s m = (st, s', m')) : m.Trades (setBlocks s) m' (setBlocks s') := by
  unfold setFirstBuckets at h
  split at h
  · rename_i zero
    split at h
    · rename_i hm
      obtain ⟨-, rfl, rfl⟩ : .oom = st ∧ s = s' ∧ _ = m' := by simpa using h
      exact (memAlloc_refused hm).within _ (zero_add _).symm (zero_add _).symm
    · rename_i addr m₁ hm
      obtain ⟨-, rfl, rfl⟩ : .ok = st ∧ _ = s' ∧ _ = m' := by simpa using h
      refine (memAlloc_trades hm).within (setBlocks s) (zero_add _).symm ?_
      simp only [setBlocks, SetT.copies, Multiset.zero_bind, bufferBlocks, unused zero, zero,
        stored, items, List.range_zero, List.filterMap_nil, Multiset.coe_nil,
        Option.elim_none, Option.elim_some]
      abel
  · obtain ⟨-, rfl, rfl⟩ : .ok = st ∧ s = s' ∧ m = m' := by simpa using h
    exact .refl m _

theorem setStore_trades {elem : κ} (h : setStore false f s elem m = some (st, s', m')) :
    m.Trades (setBlocks s) m' (setBlocks s') := by
  unfold setStore at h
  split at h
  · rename_i hm
    obtain ⟨-, rfl, rfl⟩ : .oom = st ∧ s = s' ∧ _ = m' := by simpa using h
    exact (memAlloc_refused hm).within _ (zero_add _).symm (zero_add _).symm
  · rename_i key m₁ hm
    obtain ⟨⟨inserted, s₁, m₂⟩, ran, h⟩ := Option.bind_eq_some_iff.mp h
    obtain ⟨⟨buckets, len, maxPsl, rfl⟩, stored⟩ := setInsertRaw_trades ran
    have whole : m.Trades (setBlocks s) m₂
        (setBlocks { s with buckets := buckets, len := len, maxPsl := maxPsl }) := by
      refine ((memAlloc_trades hm).within (setBlocks s) (zero_add _).symm rfl).trans
        (stored.within ({(s.addr, sizeofSet)} +
          bufferBlocks s.bucketsAddr (mulSize s.cap sizeofSetBucket)) ?_ ?_)
      · simp only [setBlocks]
        abel
      · simp only [setBlocks]
        abel
    simp only at h
    split at h
    · obtain ⟨-, rfl, rfl⟩ : .ok = st ∧ _ = s' ∧ m₂ = m' := by simpa using h
      exact whole
    · obtain ⟨-, rfl, rfl⟩ : .duplicate = st ∧ _ = s' ∧ m₂ = m' := by simpa using h
      exact whole

theorem setAdd_trades {elem : Option κ} (unused : s.cap = 0 → s.bucketsAddr = none)
    (h : setAdd false f s elem m = some (st, s', m')) :
    m.Trades (setBlocks s) m' (setBlocks s') := by
  unfold setAdd at h
  split at h
  · obtain ⟨-, rfl, rfl⟩ : .invalid = st ∧ s = s' ∧ m = m' := by simpa using h
    exact .refl m _
  split at h
  · rename_i s₁ m₁ hfirst
    have first := setFirstBuckets_trades unused hfirst
    obtain ⟨⟨rs, s₂, m₂⟩, grown, h⟩ := Option.bind_eq_some_iff.mp h
    have second := first.trans (setGrow_trades grown)
    simp only at h
    split at h
    · exact second.trans (setStore_trades h)
    · obtain ⟨-, rfl, rfl⟩ : rs = st ∧ s₂ = s' ∧ m₂ = m' := by simpa using h
      exact second
  · rename_i rs s₁ m₁ _ hfirst
    obtain ⟨-, rfl, rfl⟩ : rs = st ∧ s₁ = s' ∧ m₁ = m' := by simpa using h
    exact setFirstBuckets_trades unused hfirst

theorem setRemove_trades {elem : Option κ} (h : setRemove f s elem m = some (st, s', m')) :
    m.Trades (setBlocks s) m' (setBlocks s') := by
  unfold setRemove at h
  split at h
  · obtain ⟨-, rfl, rfl⟩ : .notFound = st ∧ s = s' ∧ m = m' := by simpa using h
    exact .refl m _
  split at h
  · obtain ⟨-, rfl, rfl⟩ : .notFound = st ∧ s = s' ∧ m = m' := by simpa using h
    exact .refl m _
  obtain ⟨found, search, h⟩ := Option.bind_eq_some_iff.mp h
  cases found with
  | none =>
    obtain ⟨-, rfl, rfl⟩ : .notFound = st ∧ s = s' ∧ m = m' := by simpa using h
    exact .refl m _
  | some slot =>
    have inside : slot < s.cap := by
      refine probeLoop_lt _ _ _ slot search (and_pred_lt _ (Nat.pos_of_ne_zero fun zero => ?_))
      rw [setFind, zero] at search
      simp [probeLoop] at search
    simp only at h
    split at h
    · obtain ⟨-, rfl, rfl⟩ : .notFound = st ∧ s = s' ∧ m = m' := by simpa using h
      exact .refl m _
    · rename_i b used
      obtain ⟨buckets, shifted, h⟩ := Option.bind_eq_some_iff.mp h
      obtain ⟨-, rfl, rfl⟩ : .ok = st ∧ _ = s' ∧ _ = m' := by simpa using h
      have taken := setShift_stored _ _ _ _ shifted inside
      rw [used, held_some] at taken
      refine (memFree_trades m b.item.addr s.elemSize).within (setBlocks
        { s with buckets := buckets, len := s.len - 1 }) ?_ (zero_add _).symm
      simp only [setBlocks, SetT.copies, ← taken, Multiset.add_bind, Multiset.singleton_bind]
      abel

theorem setClear_trades (s : SetT κ) (m : Mem) :
    m.Trades (setBlocks s) (setClear s m).2 (setBlocks (setClear s m).1) := by
  unfold setClear
  split
  · exact .refl m _
  · refine (freeKeys_trades s.elemSize (items s.cap s.buckets) m).within
      ({(s.addr, sizeofSet)} + bufferBlocks s.bucketsAddr (mulSize s.cap sizeofSetBucket)) ?_ ?_
    · simp only [setBlocks, SetT.copies, stored]
      abel
    · simp only [setBlocks, SetT.copies, stored_empty, Multiset.zero_bind]
      abel

theorem setDestroy_trades (unused : s.bucketsAddr = none → s.cap = 0) (m : Mem) :
    m.Trades (setBlocks s) (setDestroy s m) 0 := by
  unfold setDestroy
  cases none_there : s.bucketsAddr with
  | none =>
    simp only [setBlocks, SetT.copies, stored, items, unused none_there, none_there, bufferBlocks,
      Option.elim_none, List.range_zero, List.filterMap_nil, Multiset.coe_nil, Multiset.zero_bind,
      add_zero]
    exact memFree_trades m s.addr sizeofSet
  | some buckets =>
    simp only [setBlocks, SetT.copies, stored, none_there, bufferBlocks, Option.elim_some]
    refine ((freeKeys_trades s.elemSize (items s.cap s.buckets) m).within
      ({(buckets, mulSize s.cap sizeofSetBucket)} + {(s.addr, sizeofSet)}) (by abel)
      (zero_add _).symm).trans ?_
    exact ((memFree_trades _ buckets _).within _ rfl (zero_add _).symm).trans
      (memFree_trades _ s.addr _)

theorem SetState.no_buckets (h : SetState f s) : s.cap = 0 ↔ s.bucketsAddr = none := by
  cases h with
  | fresh h => exact ⟨fun _ => h.no_buckets, fun _ => h.cap_eq⟩
  | table k inv => exact ⟨fun zero => absurd zero inv.cap_ne, fun no => absurd no inv.allocated⟩

theorem setStep_trades (state : SetState f s) {op : SetOp κ} {out : Answer κ}
    (h : setStep false f op (s, m) = some (out, (s', m'))) :
    m.Trades (setBlocks s) m' (setBlocks s') := by
  cases op with
  | add elem =>
    obtain ⟨⟨rs, s₁, m₁⟩, call, h⟩ := Option.bind_eq_some_iff.mp h
    obtain ⟨-, rfl, rfl⟩ : .status rs = out ∧ s₁ = s' ∧ m₁ = m' := by simpa using h
    exact setAdd_trades state.no_buckets.mp call
  | contains elem =>
    obtain ⟨b, -, h⟩ := Option.bind_eq_some_iff.mp h
    obtain ⟨-, rfl, rfl⟩ : _ = out ∧ s = s' ∧ m = m' := by simpa using h
    exact .refl m _
  | remove elem =>
    obtain ⟨⟨rs, s₁, m₁⟩, call, h⟩ := Option.bind_eq_some_iff.mp h
    obtain ⟨-, rfl, rfl⟩ : .status rs = out ∧ s₁ = s' ∧ m₁ = m' := by simpa using h
    exact setRemove_trades call
  | clear =>
    obtain ⟨-, rfl, rfl⟩ : .nothing = out ∧ _ = s' ∧ _ = m' := by
      simpa [setStep, Prod.ext_iff] using h
    exact setClear_trades s m

end Set

theorem set_owns (ndebug : Bool) (f : KeyFns κ) (elemSize : Nat) :
    OwnsInRuns (setCreate κ elemSize) Prod.mk (setStep ndebug f) Prod.snd
      (fun s => setBlocks s.1) (fun s => some (setDestroy s.1 s.2)) := by
  refine .of (fun s => SetState f s.1) (fun m₀ r m₁ created => ?_) (fun op s state => ?_)
    (fun s state => ⟨_, rfl, setDestroy_trades state.no_buckets.mpr s.2⟩)
  · unfold setCreate at created
    split at created <;> rename_i hm <;> obtain ⟨rfl, rfl⟩ := Prod.mk.inj created
    · exact ⟨memAlloc_refused hm, by simp⟩
    · refine ⟨?_, fun s here => ?_⟩
      · simp only [Option.elim_some, setBlocks, SetT.copies, stored_empty, Multiset.zero_bind,
          bufferBlocks, Option.elim_none, add_zero]
        exact memAlloc_trades hm
      · obtain rfl := Option.some.inj here
        exact ⟨.fresh ⟨rfl, rfl, rfl, rfl⟩, rfl⟩
  · obtain ⟨out, s', call, state', -⟩ := setStep_inv false op s state
    refine ⟨out, s', ?_, state', setStep_trades state call⟩
    cases ndebug with
    | false => exact call
    | true => exact setStep_ndebug op s _ call

end Seqc
