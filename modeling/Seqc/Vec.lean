import Seqc.Allocator

/-! vec.c: the growable array the other collections are built on. A vector is its
elements below `len`, its buffer and the capacity the buffer was asked for; that
the buffer holds them is a fact about bytes and is not stated here. A NULL vector
is `none`. -/

namespace Seqc

/-- `vec_t`. No creation accepts an element size of 0. The length stays below a capacity that is
a `size_t`, so to count it on does not wrap. -/
structure Vec (α : Type) where
  addr : Nat
  dataAddr : Option Nat
  contents : List α
  cap : Nat
  elemSize : Nat
  elem_pos : 0 < elemSize

/-- `slice_t`; its `len` is that of `contents`. -/
structure Slice (α : Type) where
  ptr : Option Nat
  contents : List α
  elemSize : Nat

variable {α : Type}

/-- `INITIAL_CAP`. -/
def vecInitialCap : Nat := 16
def sizeofVec : Nat := 48

def vecCreate (α : Type) (elemSize : Nat) (m : Mem) : Option (Vec α) × Mem :=
  if h : elemSize = 0 then (none, m)
  else
    match memAlloc m sizeofVec with
    | (none, m) => (none, m)
    | (some addr, m) => (some ⟨addr, none, [], 0, elemSize, Nat.pos_of_ne_zero h⟩, m)

def vecCreateWithCap (α : Type) (elemSize capacity : Nat) (m : Mem) : Option (Vec α) × Mem :=
  if h : elemSize = 0 then (none, m)
  else if capacity = 0 then (none, m)
  else
    match memAlloc m sizeofVec with
    | (none, m) => (none, m)
    | (some addr, m) =>
      match memAlloc m (mulSize capacity elemSize) with
      | (none, m) => (none, memFree m (some addr) sizeofVec)
      | (some data, m) =>
        (some ⟨addr, some data, [], capacity, elemSize, Nat.pos_of_ne_zero h⟩, m)

def vecContents : Option (Vec α) → List α
  | none => []
  | some v => v.contents

def vecLen (v : Option (Vec α)) : Nat := (vecContents v).length

def vecElemSize : Option (Vec α) → Nat
  | none => 0
  | some v => v.elemSize

/-- The part of `vec_push` that makes room for one more element. -/
def vecGrow (v : Vec α) (m : Mem) : Status × Vec α × Mem :=
  if v.contents.length = v.cap then
    if sizeMax / 2 < v.cap then (.oom, v, m)
    else
      let newCap := if v.cap = 0 then vecInitialCap else mulSize v.cap 2
      match memRealloc m v.dataAddr (mulSize v.contents.length v.elemSize)
        (mulSize newCap v.elemSize) with
      | (none, m) => (.oom, v, m)
      | (some addr, m) => (.ok, { v with dataAddr := some addr, cap := newCap }, m)
  else (.ok, v, m)

def vecPush (v : Option (Vec α)) (elem : Option α) (m : Mem) : Status × Option (Vec α) × Mem :=
  match v, elem with
  | some v, some x =>
    match vecGrow v m with
    | (.ok, v, m) => (.ok, some { v with contents := v.contents ++ [x] }, m)
    | (st, v, m) => (st, some v, m)
  | v, _ => (.invalid, v, m)

def vecReserve (v : Option (Vec α)) (capacity : Nat) (m : Mem) : Status × Option (Vec α) × Mem :=
  match v with
  | none => (.invalid, none, m)
  | some v =>
    if capacity ≤ v.cap then (.ok, some v, m)
    else
      match memRealloc m v.dataAddr (mulSize v.contents.length v.elemSize)
        (mulSize capacity v.elemSize) with
      | (none, m) => (.oom, some v, m)
      | (some addr, m) => (.ok, some { v with dataAddr := some addr, cap := capacity }, m)

/-- Unlike `vec_push` it doubles any capacity. -/
def vecInsert (v : Option (Vec α)) (i : Nat) (elem : Option α) (m : Mem) :
    Status × Option (Vec α) × Mem :=
  match v, elem with
  | some v, some x =>
    if v.contents.length < i then (.invalid, some v, m)
    else
      let newCap := if v.cap = 0 then vecInitialCap else mulSize v.cap 2
      let grown := if v.contents.length = v.cap then vecReserve (some v) newCap m
        else (.ok, some v, m)
      match grown with
      | (.ok, v, m) => (.ok, v.map fun v => { v with contents := v.contents.insertIdx i x }, m)
      | (st, v, m) => (st, v, m)
  | v, _ => (.invalid, v, m)

/-- The status and what is written through `out`, and the vector after the call. -/
def vecPop (v : Option (Vec α)) (out : Bool) : (Status × Option α) × Option (Vec α) :=
  match (vecContents v).getLast? with
  | none => ((.notFound, none), v)
  | some x => ((.ok, if out then some x else none),
    v.map fun v => { v with contents := v.contents.dropLast })

def vecRemove (v : Option (Vec α)) (i : Nat) : Option (Vec α) :=
  v.map fun v => { v with contents := v.contents.eraseIdx i }

def vecTruncate (v : Option (Vec α)) (len : Nat) : Option (Vec α) :=
  v.map fun v => { v with contents := v.contents.take len }

/-- What the pointer returned by `vec_get_ptr` points at. -/
def vecGetPtr (v : Option (Vec α)) (i : Nat) : Option α := (vecContents v)[i]?

def vecAsSlice : Option (Vec α) → Slice α
  | none => ⟨none, [], 0⟩
  | some v => ⟨v.dataAddr, v.contents, v.elemSize⟩

def vecClear (v : Option (Vec α)) : Option (Vec α) := v.map fun v => { v with contents := [] }

def vecDestroy (v : Option (Vec α)) (m : Mem) : Mem :=
  match v with
  | none => m
  | some v =>
    let m := match v.dataAddr with
      | none => m
      | some data => memFree m (some data) (mulSize v.cap v.elemSize)
    memFree m (some v.addr) sizeofVec

@[simp] theorem vecDestroy_refusals (v : Option (Vec α)) (m : Mem) :
    (vecDestroy v m).refusals = m.refusals := by
  cases v with
  | none => rfl
  | some v =>
    obtain ⟨addr, dataAddr, _, _, _, _⟩ := v
    cases dataAddr <;> simp only [vecDestroy, memFree_refusals]

theorem vecCreate_spec (elemSize : Nat) (m : Mem) :
    ∃ v m', vecCreate α elemSize m = (v, m') ∧ vecContents v = [] ∧ m.refusals ≤ m'.refusals ∧
      (m'.refusals = m.refusals → elemSize ≠ 0 → v.isSome) := by
  unfold vecCreate
  by_cases zero : elemSize = 0
  · rw [dif_pos zero]
    exact ⟨none, m, rfl, rfl, Nat.le_refl _, fun _ ne => absurd zero ne⟩
  · rw [dif_neg zero]
    rcases hm : memAlloc m sizeofVec with ⟨_ | addr, m₁⟩
    · have := memAlloc_none hm
      exact ⟨none, m₁, rfl, rfl, by omega, fun same => by omega⟩
    · exact ⟨_, m₁, rfl, rfl, Nat.le_of_eq (memAlloc_some hm).2.2.symm, fun _ _ => rfl⟩

theorem vecCreate_quiet {v : Vec α} {elemSize : Nat} {m m' : Mem}
    (h : vecCreate α elemSize m = (some v, m')) : m'.refusals = m.refusals := by
  unfold vecCreate at h
  split at h
  · simp at h
  · match hm : memAlloc m sizeofVec with
    | (none, m₁) => simp [hm] at h
    | (some addr, m₁) =>
      rw [hm] at h
      obtain ⟨-, rfl⟩ := Prod.mk.inj h
      exact (memAlloc_some hm).2.2

/-- An append succeeds, or fails and changes nothing. -/
theorem vecPush_spec (v : Vec α) (x : α) (m : Mem) :
    (∃ v' m', vecPush (some v) (some x) m = (.ok, some v', m') ∧
        v'.contents = v.contents ++ [x] ∧ v'.elemSize = v.elemSize ∧ m'.refusals = m.refusals) ∨
      ∃ m', vecPush (some v) (some x) m = (.oom, some v, m') ∧ m.refusals ≤ m'.refusals ∧
        (m.refusals < m'.refusals ∨ sizeMax / 2 < v.contents.length) := by
  simp only [vecPush, vecGrow]
  by_cases full : v.contents.length = v.cap
  · rw [if_pos full]
    by_cases huge : sizeMax / 2 < v.cap
    · rw [if_pos huge]
      exact .inr ⟨m, rfl, Nat.le_refl _, .inr (full ▸ huge)⟩
    · rw [if_neg huge]
      rcases hm : memRealloc m v.dataAddr (mulSize v.contents.length v.elemSize)
        (mulSize (if v.cap = 0 then vecInitialCap else mulSize v.cap 2) v.elemSize) with
        ⟨_ | addr, m₁⟩
      · have := memRealloc_none hm
        exact .inr ⟨m₁, rfl, by omega, .inl (by omega)⟩
      · exact .inl ⟨{ v with
          dataAddr := some addr
          cap := if v.cap = 0 then vecInitialCap else mulSize v.cap 2
          contents := v.contents ++ [x] }, m₁, rfl, rfl, rfl, (memRealloc_some hm).2.2⟩
  · rw [if_neg full]
    exact .inl ⟨_, m, rfl, rfl, rfl, rfl⟩

end Seqc
