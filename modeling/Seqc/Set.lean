import Seqc.Hashmap

/-! set.c, the second Robin Hood table: its first bucket array is allocated by the
first `set_add`, a duplicate is dropped instead of stored, and `set_resize` keeps
`len` and ignores what `set_insert_raw` returns. -/

namespace Seqc
open RobinHood ClassMap

/-- `set_t`; `bucketsAddr` is `none` while `buckets` is NULL. -/
structure SetT (κ : Type) where
  addr : Nat
  bucketsAddr : Option Nat
  buckets : Table (Block κ)
  cap : Nat
  len : Nat
  elemSize : Nat
  maxPsl : Nat

/-- `SET_PSL_THRESHOLD`. -/
def setPslThreshold : Nat := 128
def setInitialCap : Nat := 16
def sizeofSetBucket : Nat := 16
def sizeofSet : Nat := 72

variable {κ : Type}

def blockHash (f : KeyFns κ) (b : Block κ) : Nat := f.hash b.val
def blockEq (f : KeyFns κ) (a b : Block κ) : Bool := f.eq a.val b.val

def setSlot (f : KeyFns κ) (s : SetT κ) (key : κ) : Nat := f.hash key &&& (s.cap - 1)

/-- A duplicate leaves the stored key and frees the carried one. -/
def setInsertRaw (ndebug : Bool) (f : KeyFns κ) (s : SetT κ) (incoming : Block κ) (m : Mem) :
    Option (Bool × SetT κ × Mem) := do
  let r ← insertLoop ndebug (blockEq f) (fun cur _ => cur) s.cap s.cap s.buckets s.maxPsl
    (setSlot f s incoming.val) incoming 1
  match r.matched with
  | none => pure (true, { s with buckets := r.buckets, maxPsl := r.maxPsl }, m)
  | some (_, dropped) =>
    pure (false, { s with buckets := r.buckets, maxPsl := r.maxPsl },
      memFree m (some dropped.addr) s.elemSize)

/-- One turn of the loop over the old buckets. -/
def setRehashBucket (ndebug : Bool) (f : KeyFns κ) (old : Table (Block κ)) (st : SetT κ × Mem)
    (i : Nat) : Option (SetT κ × Mem) :=
  match old i with
  | none => some st
  | some b => do
    let (_, s, m) ← setInsertRaw ndebug f st.1 b.item st.2
    pure (s, m)

def setResize (ndebug : Bool) (f : KeyFns κ) (s : SetT κ) (m : Mem) :
    Option (Status × SetT κ × Mem) :=
  match memAlloc m (mulSize (mulSize s.cap 2) sizeofSetBucket) with
  | (none, m) => some (.oom, s, m)
  | (some addr, m) => do
    let fresh : SetT κ :=
      { s with
        bucketsAddr := some addr, buckets := fun _ => none, cap := mulSize s.cap 2, maxPsl := 0 }
    let (s', m) ← (List.range s.cap).foldlM (setRehashBucket ndebug f s.buckets) (fresh, m)
    pure (.ok, s', memFree m s.bucketsAddr (mulSize s.cap sizeofSetBucket))

def setCreate (κ : Type) (elemSize : Nat) (m : Mem) : Option (SetT κ) × Mem :=
  match memAlloc m sizeofSet with
  | (none, m) => (none, m)
  | (some addr, m) => (some ⟨addr, none, fun _ => none, 0, 0, elemSize, 0⟩, m)

/-- The search from the home slot of `elem`. -/
def setFind (f : KeyFns κ) (s : SetT κ) (elem : κ) : Option (Option Nat) :=
  probeLoop (fun b => f.eq b.val elem) s.cap s.buckets s.cap (setSlot f s elem) 1

def setContains (f : KeyFns κ) (s : SetT κ) (elem : Option κ) : Option Bool :=
  match elem with
  | none => some false
  | some elem =>
    if s.len = 0 then some false
    else do
      let found ← setFind f s elem
      pure found.isSome

/-- The first bucket array. -/
def setFirstBuckets (s : SetT κ) (m : Mem) : Status × SetT κ × Mem :=
  if s.cap = 0 then
    match memAlloc m (mulSize setInitialCap sizeofSetBucket) with
    | (none, m) => (.oom, s, m)
    | (some addr, m) =>
      (.ok, { s with bucketsAddr := some addr, buckets := fun _ => none, cap := setInitialCap }, m)
  else (.ok, s, m)

/-- The guard of `set_add`. -/
def setGrow (ndebug : Bool) (f : KeyFns κ) (s : SetT κ) (m : Mem) :
    Option (Status × SetT κ × Mem) :=
  if mulSize s.cap 3 ≤ mulSize s.len 4 ∨ setPslThreshold ≤ s.maxPsl then setResize ndebug f s m
  else some (.ok, s, m)

/-- The copy of the key and its insertion. -/
def setStore (ndebug : Bool) (f : KeyFns κ) (s : SetT κ) (elem : κ) (m : Mem) :
    Option (Status × SetT κ × Mem) :=
  match memAlloc m s.elemSize with
  | (none, m) => some (.oom, s, m)
  | (some key, m) => do
    let (inserted, s, m) ← setInsertRaw ndebug f s ⟨key, elem⟩ m
    if inserted then pure (.ok, { s with len := addSize s.len 1 }, m)
    else pure (.duplicate, s, m)

def setAdd (ndebug : Bool) (f : KeyFns κ) (s : SetT κ) (elem : Option κ) (m : Mem) :
    Option (Status × SetT κ × Mem) :=
  match elem with
  | none => some (.invalid, s, m)
  | some elem =>
    match setFirstBuckets s m with
    | (.ok, s, m) => do
      let (rs, s, m) ← setGrow ndebug f s m
      if rs = .ok then setStore ndebug f s elem m else pure (rs, s, m)
    | (rs, s, m) => some (rs, s, m)

def setRemove (f : KeyFns κ) (s : SetT κ) (elem : Option κ) (m : Mem) :
    Option (Status × SetT κ × Mem) :=
  match elem with
  | none => some (.notFound, s, m)
  | some elem =>
    if s.len = 0 then some (.notFound, s, m)
    else do
      match ← setFind f s elem with
      | none => pure (.notFound, s, m)
      | some slot =>
        match s.buckets slot with
        | none => pure (.notFound, s, m)
        | some b =>
          let m := memFree m (some b.item.addr) s.elemSize
          let buckets ← setShift s.cap s.cap s.buckets slot
          pure (.ok, { s with buckets := buckets, len := s.len - 1 }, m)

def setLen (s : SetT κ) : Nat := s.len

def setClear (s : SetT κ) (m : Mem) : SetT κ × Mem :=
  match s.bucketsAddr with
  | none => (s, m)
  | some _ =>
    ({ s with buckets := fun _ => none, len := 0, maxPsl := 0 },
      (items s.cap s.buckets).foldl (fun m b => memFree m (some b.addr) s.elemSize) m)

def setDestroy (s : SetT κ) (m : Mem) : Mem :=
  let m := match s.bucketsAddr with
    | none => m
    | some buckets =>
      memFree ((items s.cap s.buckets).foldl (fun m b => memFree m (some b.addr) s.elemSize) m)
        (some buckets) (mulSize s.cap sizeofSetBucket)
  memFree m (some s.addr) sizeofSet

end Seqc
