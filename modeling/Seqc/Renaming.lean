import Seqc.KeyTable
import Seqc.Hashing

/-! Keys under other names. hashmap.c and set.c look at keys through `hash` and `eq` only, so a
table of renamed keys is, bucket for bucket, the table of the keys, if the two functions do not
tell the names apart. The case-insensitive functions of string.c are the plain ones under the
name `string_to_lowercase` gives. -/

namespace Seqc
open RobinHood Runs

variable {κ κ' ν : Type}

/-- `f'` sees of the new name of a key what `f` sees of the key. -/
structure Renames (name : κ → κ') (f : KeyFns κ) (f' : KeyFns κ') : Prop where
  hash : ∀ a, f'.hash (name a) = f.hash a
  eq : ∀ a b, f'.eq (name a) (name b) = f.eq a b

variable {name : κ → κ'} {f : KeyFns κ} {f' : KeyFns κ'} (ndebug : Bool)

def Block.rename (name : κ → κ') (b : Block κ) : Block κ' := ⟨b.addr, name b.val⟩

/-! ### hashmap.c -/

def Entry.rename (name : κ → κ') (e : Entry κ ν) : Entry κ' ν := ⟨e.key.rename name, e.value⟩

/-- The same buckets with renamed keys. -/
def Hashmap.rename (name : κ → κ') (map : Hashmap κ ν) : Hashmap κ' ν where
  addr := map.addr
  bucketsAddr := map.bucketsAddr
  buckets := relabel (Entry.rename name) map.buckets
  cap := map.cap
  len := map.len
  keySize := map.keySize
  valSize := map.valSize
  maxPsl := map.maxPsl

@[simp] theorem Hashmap.rename_keySize (map : Hashmap κ ν) :
    (map.rename name).keySize = map.keySize := rfl

@[simp] theorem Hashmap.rename_valSize (map : Hashmap κ ν) :
    (map.rename name).valSize = map.valSize := rfl

def HashmapOp.rename (name : κ → κ') : HashmapOp κ ν → HashmapOp κ' ν
  | .set key value => .set (key.map name) value
  | .get key out => .get (key.map name) out
  | .getPtr key => .getPtr (key.map name)
  | .contains key => .contains (key.map name)
  | .remove key => .remove (key.map name)
  | .clear => .clear

section Maps
variable {incoming : Entry κ ν}

theorem hashmapGetSlot_rename (renames : Renames name f f') (map : Hashmap κ ν) (key : κ) :
    hashmapGetSlot f' (map.rename name) (name key) = hashmapGetSlot f map key :=
  congrArg (· &&& (map.cap - 1)) (renames.hash key)

theorem hashmapInsertRaw_rename (renames : Renames name f f') (map : Hashmap κ ν)
    (incoming : Entry κ ν) (m : Mem) :
    hashmapInsertRaw ndebug f' (map.rename name) (incoming.rename name) m =
      (hashmapInsertRaw ndebug f map incoming m).map fun r => (r.1.rename name, r.2) := by
  have home : hashmapGetSlot f' (map.rename name) (incoming.rename name).key.val =
      hashmapGetSlot f map incoming.key.val := hashmapGetSlot_rename renames map _
  have loop := @insertLoop_relabel _ _ ndebug (Entry.rename name) (entryEq f) entryUpdate
    (entryEq f') entryUpdate (fun a b => renames.eq a.key.val b.key.val)
    (fun _ _ => rfl) map.cap map.cap map.buckets map.maxPsl
    (hashmapGetSlot f map incoming.key.val) incoming 1
  rw [hashmapInsertRaw, hashmapInsertRaw, home]
  simp only [Hashmap.rename] at loop ⊢
  rw [loop]
  cases insertLoop ndebug (entryEq f) entryUpdate map.cap map.cap map.buckets map.maxPsl
    (hashmapGetSlot f map incoming.key.val) incoming 1 with
  | none => rfl
  | some r =>
    obtain ⟨buckets, maxPsl, matched⟩ := r
    cases matched <;> rfl

theorem rehashBucket_rename (renames : Renames name f f') (old : Table (Entry κ ν))
    (s : Hashmap κ ν × Mem) (i : Nat) :
    rehashBucket ndebug f' (relabel (Entry.rename name) old) (s.1.rename name, s.2) i =
      (rehashBucket ndebug f old s i).map fun r => (r.1.rename name, r.2) := by
  unfold rehashBucket
  cases h : old i with
  | none => simp [relabel, h]
  | some b =>
    simp only [relabel, h, Option.map_some]
    exact hashmapInsertRaw_rename ndebug renames s.1 b.item s.2

theorem hashmapResizeAndRehash_rename (renames : Renames name f f') (map : Hashmap κ ν)
    (newCap : Nat) (m : Mem) :
    hashmapResizeAndRehash ndebug f' (map.rename name) newCap m =
      (hashmapResizeAndRehash ndebug f map newCap m).map
        fun r => (r.1, r.2.1.rename name, r.2.2) := by
  unfold hashmapResizeAndRehash
  rcases memAlloc m (mulSize newCap sizeofBucket) with ⟨_ | addr, m₁⟩
  · rfl
  · have loop := foldlM_image_eq (fun s : Hashmap κ ν × Mem => (s.1.rename name, s.2))
      (rehashBucket_rename ndebug renames map.buckets) (List.range map.cap)
      ({ map with
        bucketsAddr := addr, buckets := fun _ => none, cap := newCap, len := 0, maxPsl := 0 }, m₁)
    simp only [Hashmap.rename, relabel_empty] at loop ⊢
    rw [loop]
    cases (List.range map.cap).foldlM (rehashBucket ndebug f map.buckets)
      ({ map with
        bucketsAddr := addr, buckets := fun _ => none, cap := newCap, len := 0, maxPsl := 0 }, m₁)
      <;> rfl

theorem hashmapGrow_rename (renames : Renames name f f') (map : Hashmap κ ν) (m : Mem) :
    hashmapGrow ndebug f' (map.rename name) m =
      (hashmapGrow ndebug f map m).map fun r => (r.1, r.2.1.rename name, r.2.2) := by
  unfold hashmapGrow
  by_cases full : mulSize map.cap 3 < mulSize (addSize map.len 1) 4 ∨ hashPslThreshold ≤ map.maxPsl
  · rw [if_pos full]
    exact (if_pos full).trans (hashmapResizeAndRehash_rename ndebug renames map _ m)
  · rw [if_neg full]
    exact if_neg full

theorem hashmapStore_rename (renames : Renames name f f') (map : Hashmap κ ν) (key : κ) (value : ν)
    (m : Mem) :
    hashmapStore ndebug f' (map.rename name) (name key) value m =
      (hashmapStore ndebug f map key value m).map fun r => (r.1, r.2.1.rename name, r.2.2) := by
  unfold hashmapStore
  rw [Hashmap.rename_keySize, Hashmap.rename_valSize]
  rcases memAlloc m map.keySize with ⟨_ | keyCopy, m₁⟩
  · rfl
  · rcases hv : memAlloc m₁ map.valSize with ⟨_ | valCopy, m₂⟩
    · simp only [hv]
      rfl
    · simp only [hv]
      have inserted := hashmapInsertRaw_rename ndebug renames map
        ⟨⟨keyCopy, key⟩, ⟨valCopy, value⟩⟩ m₂
      simp only [Entry.rename, Block.rename] at inserted
      rw [inserted]
      cases hashmapInsertRaw ndebug f map ⟨⟨keyCopy, key⟩, ⟨valCopy, value⟩⟩ m₂ <;> rfl

theorem hashmapSet_rename (renames : Renames name f f') (map : Hashmap κ ν) (key : Option κ)
    (value : Option ν) (m : Mem) :
    hashmapSet ndebug f' (map.rename name) (key.map name) value m =
      (hashmapSet ndebug f map key value m).map fun r => (r.1, r.2.1.rename name, r.2.2) := by
  cases key with
  | none => rfl
  | some key =>
    cases value with
    | none => rfl
    | some value =>
      simp only [hashmapSet, Option.map_some, hashmapGrow_rename ndebug renames]
      cases hashmapGrow ndebug f map m with
      | none => rfl
      | some r =>
        by_cases ok : r.1 = .ok
        · simpa [ok] using hashmapStore_rename ndebug renames r.2.1 key value r.2.2
        · simp [ok]

theorem hashmapFind_rename (renames : Renames name f f') (map : Hashmap κ ν) (key : κ) :
    hashmapFind f' (map.rename name) (name key) = hashmapFind f map key := by
  unfold hashmapFind
  rw [hashmapGetSlot_rename renames map key]
  simp only [Hashmap.rename, probeLoop_relabel, Entry.rename, Block.rename, renames.eq]

theorem hashmapGetPtr_rename (renames : Renames name f f') (map : Hashmap κ ν) (key : Option κ) :
    hashmapGetPtr f' (map.rename name) (key.map name) = hashmapGetPtr f map key := by
  cases key with
  | none => rfl
  | some key =>
    simp only [hashmapGetPtr, Option.map_some, hashmapFind_rename renames map key]
    cases hashmapFind f map key with
    | none => rfl
    | some found =>
      cases found with
      | none => rfl
      | some slot =>
        have value : ((map.rename name).buckets slot).map (fun b => b.item.value) =
            (map.buckets slot).map fun b => b.item.value := by
          simp only [Hashmap.rename, relabel, Option.map_map]
          rfl
        exact congrArg some value

theorem hashmapGet_rename (renames : Renames name f f') (map : Hashmap κ ν) (key : Option κ)
    (out : Bool) :
    hashmapGet f' (map.rename name) (key.map name) out = hashmapGet f map key out := by
  cases key with
  | none => rfl
  | some key =>
    have read := hashmapGetPtr_rename renames map (some key)
    rw [Option.map_some] at read
    simp only [hashmapGet, Option.map_some, read]

theorem hashmapRemove_rename (renames : Renames name f f') (map : Hashmap κ ν) (key : Option κ)
    (m : Mem) :
    hashmapRemove f' (map.rename name) (key.map name) m =
      (hashmapRemove f map key m).map fun r => (r.1, r.2.1.rename name, r.2.2) := by
  cases key with
  | none => rfl
  | some key =>
    simp only [hashmapRemove, Option.map_some, hashmapFind_rename renames map key]
    cases hashmapFind f map key with
    | none => rfl
    | some found =>
      cases found with
      | none => rfl
      | some slot =>
        cases here : map.buckets slot with
        | none => simp [Hashmap.rename, relabel, here]
        | some b =>
          have shift := hashmapShift_relabel (g := Entry.rename name) map.cap map.cap
            (put map.buckets slot none) slot ((slot + 1) &&& (map.cap - 1))
          rw [relabel_put, Option.map_none] at shift
          have there : relabel (Entry.rename name) map.buckets slot =
              some ⟨b.item.rename name, b.psl⟩ := by simp [relabel, here]
          simp only [Hashmap.rename, there, shift, Option.bind_eq_bind, Option.bind_some, here]
          cases hashmapShift map.cap map.cap (put map.buckets slot none) slot
            ((slot + 1) &&& (map.cap - 1)) <;> rfl

theorem hashmapClear_rename (map : Hashmap κ ν) (m : Mem) :
    hashmapClear (map.rename name) m =
      ((hashmapClear map m).1.rename name, (hashmapClear map m).2) := by
  simp only [hashmapClear, Hashmap.rename, relabel_empty, items_relabel, List.foldl_map]
  rfl

theorem hashmapStep_rename (renames : Renames name f f') (op : HashmapOp κ ν)
    (s : Hashmap κ ν × Mem) :
    hashmapStep ndebug f' (op.rename name) (s.1.rename name, s.2) =
      (hashmapStep ndebug f op s).map fun r => (r.1, r.2.1.rename name, r.2.2) := by
  cases op with
  | set key value =>
    simp only [hashmapStep, HashmapOp.rename, hashmapSet_rename ndebug renames]
    cases hashmapSet ndebug f s.1 key value s.2 <;> rfl
  | get key out =>
    simp only [hashmapStep, HashmapOp.rename, hashmapGet_rename renames]
    cases hashmapGet f s.1 key out <;> rfl
  | getPtr key =>
    simp only [hashmapStep, HashmapOp.rename, hashmapGetPtr_rename renames]
    cases hashmapGetPtr f s.1 key <;> rfl
  | contains key =>
    simp only [hashmapStep, HashmapOp.rename, hashmapContains, hashmapGet_rename renames]
    cases hashmapGet f s.1 key false <;> rfl
  | remove key =>
    simp only [hashmapStep, HashmapOp.rename, hashmapRemove_rename renames]
    cases hashmapRemove f s.1 key s.2 <;> rfl
  | clear =>
    simp only [hashmapStep, HashmapOp.rename, hashmapClear_rename, Option.map_some]

end Maps

/-! ### set.c -/

/-- The same buckets with renamed keys. -/
def SetT.rename (name : κ → κ') (s : SetT κ) : SetT κ' where
  addr := s.addr
  bucketsAddr := s.bucketsAddr
  buckets := relabel (Block.rename name) s.buckets
  cap := s.cap
  len := s.len
  elemSize := s.elemSize
  maxPsl := s.maxPsl

@[simp] theorem SetT.rename_cap (s : SetT κ) : (s.rename name).cap = s.cap := rfl

@[simp] theorem SetT.rename_len (s : SetT κ) : (s.rename name).len = s.len := rfl

@[simp] theorem SetT.rename_elemSize (s : SetT κ) : (s.rename name).elemSize = s.elemSize := rfl

def SetOp.rename (name : κ → κ') : SetOp κ → SetOp κ'
  | .add elem => .add (elem.map name)
  | .contains elem => .contains (elem.map name)
  | .remove elem => .remove (elem.map name)
  | .clear => .clear

def Answer.rename (name : κ → κ') : Answer κ → Answer κ'
  | .status st => .status st
  | .read st written => .read st (written.map name)
  | .pointee value => .pointee (value.map name)
  | .answer b => .answer b
  | .nothing => .nothing

theorem setShift_relabel {α β : Type} {g : α → β} (cap fuel : Nat) :
    ∀ (t : Table α) (slot : Nat), setShift cap fuel (relabel g t) slot =
      (setShift cap fuel t slot).map (relabel g) := by
  induction fuel with
  | zero =>
    intros
    rfl
  | succ fuel ih =>
    intro t slot
    have vacated : put (relabel g t) slot none = relabel g (put t slot none) := by
      rw [relabel_put, Option.map_none]
    cases hnb : t ((slot + 1) &&& (cap - 1)) with
    | none => simp [setShift, relabel, hnb, ← vacated]
    | some nb =>
      have there : relabel g t ((slot + 1) &&& (cap - 1)) = some ⟨g nb.item, nb.psl⟩ := by
        simp [relabel, hnb]
      simp only [setShift, there, hnb]
      by_cases home : nb.psl ≤ 1
      · simp [home, vacated]
      · have rest := ih (put t slot (some ⟨nb.item, nb.psl - 1⟩)) ((slot + 1) &&& (cap - 1))
        rw [relabel_put, Option.map_some] at rest
        simpa [home] using rest

section Sets

theorem setSlot_rename (renames : Renames name f f') (s : SetT κ) (elem : κ) :
    setSlot f' (s.rename name) (name elem) = setSlot f s elem :=
  congrArg (· &&& (s.cap - 1)) (renames.hash elem)

theorem setInsertRaw_rename (renames : Renames name f f') (s : SetT κ) (incoming : Block κ)
    (m : Mem) :
    setInsertRaw ndebug f' (s.rename name) (incoming.rename name) m =
      (setInsertRaw ndebug f s incoming m).map fun r => (r.1, r.2.1.rename name, r.2.2) := by
  have home : setSlot f' (s.rename name) (incoming.rename name).val = setSlot f s incoming.val :=
    setSlot_rename renames s _
  have loop := @insertLoop_relabel _ _ ndebug (Block.rename name) (blockEq f)
    (fun cur _ => cur) (blockEq f') (fun cur _ => cur)
    (fun a b => renames.eq a.val b.val) (fun _ _ => rfl) s.cap s.cap s.buckets s.maxPsl
    (setSlot f s incoming.val) incoming 1
  rw [setInsertRaw, setInsertRaw, home]
  simp only [SetT.rename] at loop ⊢
  rw [loop]
  cases insertLoop ndebug (blockEq f) (fun cur _ => cur) s.cap s.cap s.buckets s.maxPsl
    (setSlot f s incoming.val) incoming 1 with
  | none => rfl
  | some r =>
    obtain ⟨buckets, maxPsl, matched⟩ := r
    cases matched <;> rfl

theorem setRehashBucket_rename (renames : Renames name f f') (old : Table (Block κ))
    (st : SetT κ × Mem) (i : Nat) :
    setRehashBucket ndebug f' (relabel (Block.rename name) old) (st.1.rename name, st.2) i =
      (setRehashBucket ndebug f old st i).map fun r => (r.1.rename name, r.2) := by
  unfold setRehashBucket
  cases h : old i with
  | none => simp [relabel, h]
  | some b =>
    simp only [relabel, h, Option.map_some, setInsertRaw_rename ndebug renames]
    cases setInsertRaw ndebug f st.1 b.item st.2 <;> rfl

theorem setResize_rename (renames : Renames name f f') (s : SetT κ) (m : Mem) :
    setResize ndebug f' (s.rename name) m =
      (setResize ndebug f s m).map fun r => (r.1, r.2.1.rename name, r.2.2) := by
  unfold setResize
  rw [SetT.rename_cap]
  rcases memAlloc m (mulSize (mulSize s.cap 2) sizeofSetBucket) with ⟨_ | addr, m₁⟩
  · rfl
  · have loop := foldlM_image_eq (fun st : SetT κ × Mem => (st.1.rename name, st.2))
      (setRehashBucket_rename ndebug renames s.buckets) (List.range s.cap)
      ({ s with
        bucketsAddr := some addr, buckets := fun _ => none, cap := mulSize s.cap 2, maxPsl := 0 },
        m₁)
    simp only [SetT.rename, relabel_empty] at loop ⊢
    rw [loop]
    cases (List.range s.cap).foldlM (setRehashBucket ndebug f s.buckets)
      ({ s with
        bucketsAddr := some addr, buckets := fun _ => none, cap := mulSize s.cap 2, maxPsl := 0 },
        m₁) <;> rfl

theorem setGrow_rename (renames : Renames name f f') (s : SetT κ) (m : Mem) :
    setGrow ndebug f' (s.rename name) m =
      (setGrow ndebug f s m).map fun r => (r.1, r.2.1.rename name, r.2.2) := by
  unfold setGrow
  by_cases full : mulSize s.cap 3 ≤ mulSize s.len 4 ∨ setPslThreshold ≤ s.maxPsl
  · rw [if_pos full]
    exact (if_pos full).trans (setResize_rename ndebug renames s m)
  · rw [if_neg full]
    exact if_neg full

theorem setStore_rename (renames : Renames name f f') (s : SetT κ) (elem : κ) (m : Mem) :
    setStore ndebug f' (s.rename name) (name elem) m =
      (setStore ndebug f s elem m).map fun r => (r.1, r.2.1.rename name, r.2.2) := by
  unfold setStore
  rw [SetT.rename_elemSize]
  rcases memAlloc m s.elemSize with ⟨_ | key, m₁⟩
  · rfl
  · have inserted := setInsertRaw_rename ndebug renames s ⟨key, elem⟩ m₁
    simp only [Block.rename] at inserted
    simp only [inserted]
    cases setInsertRaw ndebug f s ⟨key, elem⟩ m₁ with
    | none => rfl
    | some r =>
      obtain ⟨inserted, s', m₂⟩ := r
      cases inserted <;> rfl

theorem setFirstBuckets_rename (s : SetT κ) (m : Mem) :
    setFirstBuckets (s.rename name) m =
      ((setFirstBuckets s m).1, (setFirstBuckets s m).2.1.rename name,
        (setFirstBuckets s m).2.2) := by
  unfold setFirstBuckets
  rw [SetT.rename_cap]
  split
  · rcases memAlloc m (mulSize setInitialCap sizeofSetBucket) with ⟨_ | addr, m₁⟩ <;> rfl
  · rfl

theorem setAdd_rename (renames : Renames name f f') (s : SetT κ) (elem : Option κ) (m : Mem) :
    setAdd ndebug f' (s.rename name) (elem.map name) m =
      (setAdd ndebug f s elem m).map fun r => (r.1, r.2.1.rename name, r.2.2) := by
  cases elem with
  | none => rfl
  | some elem =>
    simp only [setAdd, Option.map_some, setFirstBuckets_rename]
    rcases setFirstBuckets s m with ⟨st, s₁, m₁⟩
    cases st with
    | ok =>
      simp only [setGrow_rename ndebug renames]
      cases setGrow ndebug f s₁ m₁ with
      | none => rfl
      | some r =>
        by_cases ok : r.1 = .ok
        · simpa [ok] using setStore_rename ndebug renames r.2.1 elem r.2.2
        · simp [ok]
    | _ => rfl

theorem setFind_rename (renames : Renames name f f') (s : SetT κ) (elem : κ) :
    setFind f' (s.rename name) (name elem) = setFind f s elem := by
  unfold setFind
  rw [setSlot_rename renames s elem]
  simp only [SetT.rename, probeLoop_relabel, Block.rename, renames.eq]

theorem setContains_rename (renames : Renames name f f') (s : SetT κ) (elem : Option κ) :
    setContains f' (s.rename name) (elem.map name) = setContains f s elem := by
  cases elem with
  | none => rfl
  | some elem =>
    simp only [setContains, Option.map_some, setFind_rename renames s elem, SetT.rename_len]

theorem setRemove_rename (renames : Renames name f f') (s : SetT κ) (elem : Option κ) (m : Mem) :
    setRemove f' (s.rename name) (elem.map name) m =
      (setRemove f s elem m).map fun r => (r.1, r.2.1.rename name, r.2.2) := by
  cases elem with
  | none => rfl
  | some elem =>
    simp only [setRemove, Option.map_some, setFind_rename renames s elem, SetT.rename_len]
    split
    · rfl
    cases setFind f s elem with
    | none => rfl
    | some found =>
      cases found with
      | none => rfl
      | some slot =>
        cases here : s.buckets slot with
        | none => simp [SetT.rename, relabel, here]
        | some b =>
          have shift := setShift_relabel (g := Block.rename name) s.cap s.cap s.buckets slot
          have there : relabel (Block.rename name) s.buckets slot =
              some ⟨b.item.rename name, b.psl⟩ := by simp [relabel, here]
          simp only [SetT.rename, there, shift, Option.bind_eq_bind, Option.bind_some, here]
          cases setShift s.cap s.cap s.buckets slot <;> rfl

theorem setClear_rename (s : SetT κ) (m : Mem) :
    setClear (s.rename name) m = ((setClear s m).1.rename name, (setClear s m).2) := by
  obtain ⟨addr, bucketsAddr, buckets, cap, len, elemSize, maxPsl⟩ := s
  cases bucketsAddr with
  | none => rfl
  | some bucketsAddr =>
    simp only [setClear, SetT.rename, relabel_empty, items_relabel, List.foldl_map]
    rfl

theorem setStep_rename (renames : Renames name f f') (op : SetOp κ) (s : SetT κ × Mem) :
    setStep ndebug f' (op.rename name) (s.1.rename name, s.2) =
      (setStep ndebug f op s).map fun r => (r.1.rename name, r.2.1.rename name, r.2.2) := by
  cases op with
  | add elem =>
    simp only [setStep, SetOp.rename, setAdd_rename ndebug renames]
    cases setAdd ndebug f s.1 elem s.2 <;> rfl
  | contains elem =>
    simp only [setStep, SetOp.rename, setContains_rename renames]
    cases setContains f s.1 elem <;> rfl
  | remove elem =>
    simp only [setStep, SetOp.rename, setRemove_rename renames]
    cases setRemove f s.1 elem s.2 <;> rfl
  | clear => simp only [setStep, SetOp.rename, setClear_rename, Option.map_some, Answer.rename]

end Sets

/-! ### The case of letters -/

variable {low : Str → Str}

theorem lowercase_renames (memcmp : Memcmp) (lowers : ∀ s, Converts stringToLowercase s (low s)) :
    Renames low stringKeysCaseInsensitive (stringKeys memcmp) := by
  have bytes (s : Str) : (low s).bytes = s.bytes.map asciiLower := converts_bytes (lowers s)
  constructor
  · intro s
    simp only [stringKeys, stringHash, stringKeysCaseInsensitive, stringHashCaseInsensitive,
      stringHashWith_map, bytes, List.map_id]
  · intro a b
    have same : stringEquals memcmp (low a) (low b) = stringEqualsCaseInsensitive a b := by
      rw [Bool.eq_iff_iff, stringEquals_iff, stringEqualsCaseInsensitive_iff, bytes, bytes]
    exact same

/-- Tables that ignore case. In every run, a map or a set with the case-insensitive functions of
string.c holds, bucket for bucket, what one with the plain functions holds that is given the
keys in lower case: both answer every call alike and ask the allocator for the same. -/
theorem tables_ignore_case (memcmp : Memcmp) (low : Str → Str)
    (lowers : ∀ s, Converts stringToLowercase s (low s)) (ndebug : Bool) :
    (∀ (ops : List (HashmapOp Str ν)) (map : Hashmap Str ν) (m : Mem),
      run (hashmapStep ndebug (stringKeys memcmp)) (ops.map (.rename low)) (map.rename low, m) =
        (run (hashmapStep ndebug stringKeysCaseInsensitive) ops (map, m)).map
          fun r => (r.1, r.2.1.rename low, r.2.2)) ∧
    (∀ (ops : List (SetOp Str)) (s : SetT Str) (m : Mem),
      run (setStep ndebug (stringKeys memcmp)) (ops.map (.rename low)) (s.rename low, m) =
        (run (setStep ndebug stringKeysCaseInsensitive) ops (s, m)).map
          fun r => (r.1.map (.rename low), r.2.1.rename low, r.2.2)) := by
  have renames := lowercase_renames memcmp lowers
  refine ⟨fun ops map m => ?_, fun ops s m => ?_⟩
  · simpa using run_image (HashmapOp.rename low) id (fun s : Hashmap Str ν × Mem =>
      (s.1.rename low, s.2)) (hashmapStep_rename ndebug renames) ops (map, m)
  · exact run_image (SetOp.rename low) (Answer.rename low) (fun s : SetT Str × Mem =>
      (s.1.rename low, s.2)) (setStep_rename ndebug renames) ops (s, m)

theorem tables_ignore_case_hi : ∃ low : Str → Str,
    (run (hashmapStep false (stringKeys memcmpBytes))
        ([.set (some ⟨some 7, [72, 105], by simp, by decide⟩) (some 1),
          .get (some ⟨some 9, [104, 73], by simp, by decide⟩) true].map (HashmapOp.rename low))
        (Hashmap.rename low ⟨0, 1, fun _ => none, 16, 0, 16, 8, 0⟩,
          ⟨refusingOnce 9, 2, [.alloc 0 80, .alloc 1 384]⟩)).map Prod.fst =
      some [.status .ok, .read .ok (some 1)] := by
  choose low lowers using exists_converts asciiLower
  refine ⟨low, ?_⟩
  rw [(tables_ignore_case memcmpBytes low lowers false).1, Option.map_map]
  rfl

end Seqc
