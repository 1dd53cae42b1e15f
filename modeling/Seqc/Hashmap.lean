import Seqc.PackedTable
import Seqc.Lib.ClassMap

/-! hashmap.c. Keys and values are copied into blocks of their own; `hash` and
`eq` see the key bytes and never change after `hashmap_create`, so they are
parameters. A NULL key or value pointer is `none`; the map pointer itself is
never NULL here. `none` as the outcome of a call means that it does not return:
a loop ran out of iterations or an assert fired. -/

namespace Seqc
open RobinHood ClassMap

/-- The `hash_fn` and `eq_fn` given to `hashmap_create` or `set_create`. -/
structure KeyFns (κ : Type) where
  hash : κ → Nat
  eq : κ → κ → Bool

structure KeyFns.Lawful {κ : Type} (f : KeyFns κ) : Prop extends EqLaws f.eq where
  hash_eq : ∀ a b, f.eq a b = true → f.hash a = f.hash b

/-- Keys that all collide. -/
def collidingKeys : KeyFns Nat := ⟨fun _ => 0, fun a b => decide (a = b)⟩

theorem collidingKeys_lawful : collidingKeys.Lawful where
  refl a := by simp [collidingKeys]
  symm a b h := by simpa [collidingKeys, eq_comm] using h
  trans a b c h h' := by simp_all [collidingKeys]
  hash_eq _ _ _ := rfl

/-- Numbers with themselves as hashes. -/
def numberKeys : KeyFns Nat := ⟨id, fun a b => decide (a = b)⟩

theorem numberKeys_lawful : numberKeys.Lawful where
  refl a := by simp [numberKeys]
  symm a b h := by simpa [numberKeys, eq_comm] using h
  trans a b c h h' := by simp_all [numberKeys]
  hash_eq a b h := by simpa [numberKeys] using h

/-- A block that holds one copied key, value or element. -/
structure Block (α : Type) where
  addr : Nat
  val : α

structure Entry (κ ν : Type) where
  key : Block κ
  value : Block ν

/-- `hashmap_t`; a bucket is empty or holds an entry and its `psl`. -/
structure Hashmap (κ ν : Type) where
  addr : Nat
  bucketsAddr : Nat
  buckets : Table (Entry κ ν)
  cap : Nat
  len : Nat
  keySize : Nat
  valSize : Nat
  maxPsl : Nat

/-- `HASH_PSL_THRESHOLD`. -/
def hashPslThreshold : Nat := 128
def sizeofBucket : Nat := 24
def sizeofHashmap : Nat := 80

variable {κ ν : Type}

def entryHash (f : KeyFns κ) (e : Entry κ ν) : Nat := f.hash e.key.val
def entryEq (f : KeyFns κ) (a b : Entry κ ν) : Bool := f.eq a.key.val b.key.val

/-- An update in place: the stored key keeps its block, the value is replaced. -/
def entryUpdate (cur incoming : Entry κ ν) : Entry κ ν := { cur with value := incoming.value }

def hashmapGetSlot (f : KeyFns κ) (map : Hashmap κ ν) (key : κ) : Nat :=
  f.hash key &&& (map.cap - 1)

def hashmapInsertRaw (ndebug : Bool) (f : KeyFns κ) (map : Hashmap κ ν) (incoming : Entry κ ν)
    (m : Mem) : Option (Hashmap κ ν × Mem) := do
  let r ← insertLoop ndebug (entryEq f) entryUpdate map.cap map.cap map.buckets map.maxPsl
    (hashmapGetSlot f map incoming.key.val) incoming 1
  match r.matched with
  | none =>
    pure ({ map with buckets := r.buckets, maxPsl := r.maxPsl, len := addSize map.len 1 }, m)
  | some (cur, dropped) =>
    let m := memFree m (some dropped.key.addr) map.keySize
    pure ({ map with buckets := r.buckets, maxPsl := r.maxPsl },
      memFree m (some cur.value.addr) map.valSize)

/-- One turn of the loop over the old buckets. -/
def rehashBucket (ndebug : Bool) (f : KeyFns κ) (old : Table (Entry κ ν))
    (s : Hashmap κ ν × Mem) (i : Nat) : Option (Hashmap κ ν × Mem) :=
  match old i with
  | none => some s
  | some b => hashmapInsertRaw ndebug f s.1 b.item s.2

def hashmapResizeAndRehash (ndebug : Bool) (f : KeyFns κ) (map : Hashmap κ ν) (newCap : Nat)
    (m : Mem) : Option (Status × Hashmap κ ν × Mem) :=
  match memAlloc m (mulSize newCap sizeofBucket) with
  | (none, m) => some (.oom, map, m)
  | (some addr, m) => do
    let fresh : Hashmap κ ν :=
      { map with bucketsAddr := addr, buckets := fun _ => none, cap := newCap, len := 0, maxPsl := 0 }
    let (map', m) ← (List.range map.cap).foldlM (rehashBucket ndebug f map.buckets) (fresh, m)
    pure (.ok, map', memFree m (some map.bucketsAddr) (mulSize map.cap sizeofBucket))

/-- The guard at the head of `hashmap_set`: double when the load or the longest
recorded probe asks for it. -/
def hashmapGrow (ndebug : Bool) (f : KeyFns κ) (map : Hashmap κ ν) (m : Mem) :
    Option (Status × Hashmap κ ν × Mem) :=
  if mulSize map.cap 3 < mulSize (addSize map.len 1) 4 ∨ hashPslThreshold ≤ map.maxPsl then
    hashmapResizeAndRehash ndebug f map (mulSize map.cap 2) m
  else some (.ok, map, m)

/-- The copies are made before anything is stored. -/
def hashmapStore (ndebug : Bool) (f : KeyFns κ) (map : Hashmap κ ν) (key : κ) (value : ν)
    (m : Mem) : Option (Status × Hashmap κ ν × Mem) :=
  match memAlloc m map.keySize with
  | (none, m) => some (.oom, map, m)
  | (some keyCopy, m) =>
    match memAlloc m map.valSize with
    | (none, m) => some (.oom, map, memFree m (some keyCopy) map.keySize)
    | (some valCopy, m) => do
      let (map', m) ← hashmapInsertRaw ndebug f map ⟨⟨keyCopy, key⟩, ⟨valCopy, value⟩⟩ m
      pure (.ok, map', m)

def hashmapSet (ndebug : Bool) (f : KeyFns κ) (map : Hashmap κ ν) (key : Option κ)
    (value : Option ν) (m : Mem) : Option (Status × Hashmap κ ν × Mem) :=
  match key, value with
  | some key, some value => do
    let (rs, map, m) ← hashmapGrow ndebug f map m
    if rs = .ok then hashmapStore ndebug f map key value m else pure (rs, map, m)
  | _, _ => some (.invalid, map, m)

def hashmapCreate (κ ν : Type) (keySize valSize : Nat) (m : Mem) : Option (Hashmap κ ν) × Mem :=
  if keySize = 0 ∨ valSize = 0 then (none, m)
  else
    match memAlloc m sizeofHashmap with
    | (none, m) => (none, m)
    | (some addr, m) =>
      match memAlloc m (mulSize 16 sizeofBucket) with
      | (none, m) => (none, memFree m (some addr) sizeofHashmap)
      | (some bucketsAddr, m) =>
        (some ⟨addr, bucketsAddr, fun _ => none, 16, 0, keySize, valSize, 0⟩, m)

def freeEntry (keySize valSize : Nat) (m : Mem) (e : Entry κ ν) : Mem :=
  memFree (memFree m (some e.key.addr) keySize) (some e.value.addr) valSize

def hashmapClear (map : Hashmap κ ν) (m : Mem) : Hashmap κ ν × Mem :=
  ({ map with buckets := fun _ => none, len := 0, maxPsl := 0 },
    (items map.cap map.buckets).foldl (freeEntry map.keySize map.valSize) m)

def hashmapDestroy (map : Hashmap κ ν) (m : Mem) : Mem :=
  let m := (items map.cap map.buckets).foldl (freeEntry map.keySize map.valSize) m
  memFree (memFree m (some map.bucketsAddr) (mulSize map.cap sizeofBucket)) (some map.addr)
    sizeofHashmap

def hashmapLen (map : Hashmap κ ν) : Nat := map.len

/-- The search from the home slot of `key`. -/
def hashmapFind (f : KeyFns κ) (map : Hashmap κ ν) (key : κ) : Option (Option Nat) :=
  probeLoop (fun e => f.eq e.key.val key) map.cap map.buckets map.cap
    (hashmapGetSlot f map key) 1

def hashmapGetPtr (f : KeyFns κ) (map : Hashmap κ ν) (key : Option κ) :
    Option (Option (Block ν)) :=
  match key with
  | none => some none
  | some key => do
    match ← hashmapFind f map key with
    | none => pure none
    | some slot => pure ((map.buckets slot).map fun b => b.item.value)

def hashmapGet (f : KeyFns κ) (map : Hashmap κ ν) (key : Option κ) (out : Bool) :
    Option (Status × Option ν) :=
  match key with
  | none => some (.invalid, none)
  | some key => do
    let value ← hashmapGetPtr f map (some key)
    pure (seqcCopyOut (value.map Block.val) out)

def hashmapContains (f : KeyFns κ) (map : Hashmap κ ν) (key : Option κ) : Option Bool := do
  let (st, _) ← hashmapGet f map key false
  pure (decide (st = .ok))

def hashmapRemove (f : KeyFns κ) (map : Hashmap κ ν) (key : Option κ) (m : Mem) :
    Option (Status × Hashmap κ ν × Mem) :=
  match key with
  | none => some (.invalid, map, m)
  | some key => do
    match ← hashmapFind f map key with
    | none => pure (.notFound, map, m)
    | some slot =>
      match map.buckets slot with
      | none => pure (.notFound, map, m)
      | some b =>
        let m := freeEntry map.keySize map.valSize m b.item
        let buckets ← hashmapShift map.cap map.cap (put map.buckets slot none) slot
          ((slot + 1) &&& (map.cap - 1))
        pure (.ok, { map with buckets := buckets, len := map.len - 1 }, m)

/-! ### Iteration -/

/-- The scan of `hashmap_iter_next` and `set_iter_next` over the slots left. -/
def scanNext {α : Type} (buckets : Table α) : (left slot : Nat) → Option α × Nat
  | 0, slot => (none, slot)
  | left + 1, slot =>
    match buckets slot with
    | some b => (some b.item, slot + 1)
    | none => scanNext buckets left (slot + 1)

/-- The scan of the reverse iterators, down from `slot`. -/
def scanPrev {α : Type} (buckets : Table α) : (slot : Nat) → Option α × Nat
  | 0 => (none, 0)
  | slot + 1 =>
    match buckets slot with
    | some b => (some b.item, slot)
    | none => scanPrev buckets slot

def hashmapIterNext (map : Hashmap κ ν) (slot : Nat) : Option (Entry κ ν) × Nat :=
  scanNext map.buckets (map.cap - slot) slot

def hashmapIterRevNext (map : Hashmap κ ν) (slot : Nat) : Option (Entry κ ν) × Nat :=
  scanPrev map.buckets slot

/-- The elements of `calls` calls of `next`, up to the first that finds none;
`none` if there is no such call among them. -/
def drain {σ α : Type} (next : σ → Option α × σ) : (calls : Nat) → σ → Option (List α)
  | 0, _ => none
  | calls + 1, s =>
    match next s with
    | (none, _) => some []
    | (some x, s) => (drain next calls s).map (x :: ·)

/-- Everything `hashmap_iter` yields, and everything `hashmap_iter_rev` does. -/
def hashmapIterAll (map : Hashmap κ ν) : Option (List (Entry κ ν)) :=
  drain (hashmapIterNext map) (map.cap + 1) 0

def hashmapIterRevAll (map : Hashmap κ ν) : Option (List (Entry κ ν)) :=
  drain (hashmapIterRevNext map) (map.cap + 1) map.cap

theorem drain_scanNext {α : Type} (buckets : Table α) (cap : Nat) (left : Nat) :
    ∀ slot calls, slot + left = cap → left < calls →
      drain (fun s => scanNext buckets (cap - s) s) calls slot =
        some ((List.range' slot left).filterMap fun i => (buckets i).map Cell.item) := by
  induction left with
  | zero =>
    intro slot calls hs hc
    obtain ⟨calls, rfl⟩ : ∃ c, calls = c + 1 := ⟨calls - 1, by omega⟩
    simp [drain, show cap - slot = 0 by omega, scanNext]
  | succ left ih =>
    intro slot calls hs hc
    obtain ⟨calls, rfl⟩ : ∃ c, calls = c + 1 := ⟨calls - 1, by omega⟩
    have size : cap - slot = left + 1 := by omega
    rw [List.range'_succ]
    cases hb : buckets slot with
    | some b =>
      have := ih (slot + 1) calls (by omega) (by omega)
      simp [drain, size, scanNext, hb, this]
    | none =>
      -- An empty slot is skipped by the same call.
      have rest := ih (slot + 1) (calls + 1) (by omega) (by omega)
      rw [drain, show cap - (slot + 1) = left by omega] at rest
      rw [drain, size, scanNext, hb]
      simpa [hb] using rest

theorem drain_scanPrev {α : Type} (buckets : Table α) (slot : Nat) :
    ∀ calls, slot < calls →
      drain (scanPrev buckets) calls slot = some (items slot buckets).reverse := by
  induction slot with
  | zero =>
    intro calls hc
    obtain ⟨calls, rfl⟩ : ∃ c, calls = c + 1 := ⟨calls - 1, by omega⟩
    simp [drain, scanPrev, items]
  | succ slot ih =>
    intro calls hc
    obtain ⟨calls, rfl⟩ : ∃ c, calls = c + 1 := ⟨calls - 1, by omega⟩
    rw [items_succ]
    cases hb : buckets slot with
    | some b =>
      have := ih calls (by omega)
      simp [drain, scanPrev, hb, this]
    | none =>
      have rest := ih (calls + 1) (by omega)
      rw [drain] at rest
      rw [drain, scanPrev, hb]
      simpa [hb] using rest

theorem hashmapIterAll_eq (map : Hashmap κ ν) :
    hashmapIterAll map = some (items map.cap map.buckets) := by
  have := drain_scanNext map.buckets map.cap map.cap 0 (map.cap + 1) (by omega) (by omega)
  rwa [← List.range_eq_range'] at this

theorem hashmapIterRevAll_eq (map : Hashmap κ ν) :
    hashmapIterRevAll map = some (items map.cap map.buckets).reverse :=
  drain_scanPrev map.buckets map.cap (map.cap + 1) (by omega)

end Seqc
