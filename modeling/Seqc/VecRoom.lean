import Seqc.VecRun

/-! The buffer of a vector holds its capacity, in bytes counted over the natural numbers. -/

namespace Seqc
open Runs Iteration

variable {σ : Type*} {α : Type} {m m' : Mem} {v v' : Vec α} {rs : Status}

/-! ### The size of a block -/

/-- The byte size an event hands out the block at an address with. -/
def Event.sizeAt (addr : Nat) : Event → Option Nat
  | .alloc new size => if new = addr then some size else none
  | .realloc _ _ new size => if new = addr then some size else none
  | _ => none

/-- The byte size the block at an address was last handed out with. -/
def Mem.blockSize (m : Mem) (addr : Nat) : Nat :=
  (m.events.reverse.findSome? (Event.sizeAt addr)).getD 0

theorem Mem.Later.blockSize_eq (h : m.Later m') {addr : Nat} (old : addr < m.requests) :
    m'.blockSize addr = m.blockSize addr := by
  induction h with
  | refl => rfl
  | @alloc m' size before ih =>
    have fresh : m'.requests ≠ addr := by have := before.requests_le; omega
    rw [← ih]
    unfold memAlloc
    split <;> simp [Mem.blockSize, List.findSome?_cons, Event.sizeAt, fresh]
  | @realloc m' block oldSize size before ih =>
    have fresh : m'.requests ≠ addr := by have := before.requests_le; omega
    rw [← ih]
    unfold memRealloc
    split <;> simp [Mem.blockSize, List.findSome?_cons, Event.sizeAt, fresh]
  | free block size before ih =>
    rw [← ih]
    simp [memFree, Mem.blockSize, List.findSome?_cons, Event.sizeAt]

theorem memAlloc_blockSize {size addr : Nat} (h : memAlloc m size = (some addr, m')) :
    m'.blockSize addr = size := by
  unfold memAlloc at h
  split at h
  · obtain ⟨here, rfl⟩ := Prod.mk.inj h
    obtain rfl := Option.some.inj here
    simp [Mem.blockSize, Event.sizeAt]
  · simp at h

theorem memRealloc_blockSize {old : Option Nat} {oldSize size addr : Nat}
    (h : memRealloc m old oldSize size = (some addr, m')) : m'.blockSize addr = size := by
  unfold memRealloc at h
  split at h
  · obtain ⟨here, rfl⟩ := Prod.mk.inj h
    obtain rfl := Option.some.inj here
    simp [Mem.blockSize, Event.sizeAt]
  · simp at h

/-! ### The buffer of a vector -/

/-- The byte size of the buffer. -/
def Vec.bytes (v : Vec α) (m : Mem) : Nat := v.dataAddr.elim 0 m.blockSize

/-- The elements are below the capacity, and the buffer has the bytes for it. -/
structure Vec.Fits (v : Vec α) (m : Mem) : Prop where
  len_le : v.contents.length ≤ v.cap
  bytes : v.cap * v.elemSize ≤ v.bytes m

/-- A vector that fits, in a buffer no larger than an object can be. -/
structure Vec.Roomy (v : Vec α) (m : Mem) : Prop extends v.Sound m, v.Fits m where
  small : v.cap * v.elemSize ≤ ptrdiffMax

/-- The request for `n` elements wraps to fewer bytes, and is granted. -/
def Mem.Wraps (m : Mem) (n elemSize : Nat) : Prop :=
  2 ^ 64 ≤ n * elemSize ∧ m.allocator.grants m.requests (mulSize n elemSize)

theorem Vec.Roomy.later (h : v.Roomy m) (more : m.Later m') : v.Roomy m' where
  toSound := h.toSound.later more.requests_le
  len_le := h.len_le
  bytes := by
    have bytes := h.bytes
    unfold Vec.bytes at bytes ⊢
    cases hd : v.dataAddr with
    | none => simpa only [hd, Option.elim_none] using bytes
    | some d =>
      rw [hd] at bytes
      rw [Option.elim_some, more.blockSize_eq (h.data_lt d hd).2]
      exact bytes
  small := h.small

/-- Other elements in the same buffer. -/
theorem Vec.Roomy.store (h : v.Roomy m) {xs : List α} (len : xs.length ≤ v.cap) :
    ({ v with contents := xs } : Vec α).Roomy m where
  toSound := h.toSound.store fun null => by
    rw [(h.null null).1] at len
    exact List.length_eq_zero_iff.mp (Nat.le_zero.mp len)
  len_le := len
  bytes := h.bytes
  small := h.small

theorem Vec.Roomy.resize (h : v.Roomy m) {old : Option Nat} {oldSize newCap : Nat} {r : Option Nat}
    (whole : ¬m.Wraps newCap v.elemSize) (len : v.contents.length ≤ newCap)
    (hm : memRealloc m old oldSize (mulSize newCap v.elemSize) = (r, m')) :
    (r.elim v fun addr => { v with dataAddr := some addr, cap := newCap }).Roomy m' := by
  cases r with
  | none => exact h.later (memRealloc_later hm)
  | some addr =>
    obtain ⟨granted, size, -⟩ := memRealloc_some hm
    have fits : newCap * v.elemSize < 2 ^ 64 := by
      by_contra large
      exact whole ⟨Nat.le_of_not_lt large, granted⟩
    rw [mulSize_of_lt fits] at hm size
    exact {
      toSound := h.toSound.moved hm
      len_le := len
      bytes := (memRealloc_blockSize hm).ge
      small := size }

/-- Doubling a capacity does not wrap: no object is that large. -/
theorem Vec.Roomy.double (h : v.Roomy m) :
    mulSize v.cap 2 = v.cap * 2 ∧ v.cap * 2 * v.elemSize < 2 ^ 64 := by
  have small := h.small
  have pos := v.elem_pos
  unfold ptrdiffMax at small
  have cap : v.cap ≤ v.cap * v.elemSize := Nat.le_mul_of_pos_right _ pos
  exact ⟨mulSize_of_lt (by omega), by rw [Nat.mul_right_comm]; omega⟩

/-- The capacity `vec_push` and `vec_insert` ask for when the buffer is full. -/
theorem Vec.Roomy.grown (h : v.Roomy m) (whole : v.cap ≠ 0 ∨ ¬m.Wraps vecInitialCap v.elemSize) :
    v.cap < (if v.cap = 0 then vecInitialCap else mulSize v.cap 2) ∧
      ¬m.Wraps (if v.cap = 0 then vecInitialCap else mulSize v.cap 2) v.elemSize := by
  obtain ⟨twice, fits⟩ := h.double
  by_cases zero : v.cap = 0
  · simp only [if_pos zero]
    exact ⟨by simp [zero, vecInitialCap], whole.resolve_left (by simp [zero])⟩
  · simp only [if_neg zero, twice]
    exact ⟨by omega, fun wraps => by have := wraps.1; omega⟩

theorem vecGrow_roomy (h : v.Roomy m) (whole : v.cap ≠ 0 ∨ ¬m.Wraps vecInitialCap v.elemSize)
    (grow : vecGrow v m = (rs, v', m')) :
    v'.Roomy m' ∧ (rs = .ok → v'.contents.length < v'.cap) := by
  obtain ⟨more, fits⟩ := h.grown whole
  obtain ⟨room, rfl, rfl, rfl⟩ | ⟨-, -, rfl, rfl, rfl⟩ | ⟨full, -, r, hm, rfl, rfl⟩ :=
    vecGrow_cases grow
  · exact ⟨h, fun _ => Nat.lt_of_le_of_ne h.len_le room⟩
  · exact ⟨h, by simp⟩
  · refine ⟨h.resize fits (full.trans_le more.le) hm, fun ok => ?_⟩
    cases r with
    | none => simp at ok
    | some addr => exact full.trans_lt more

theorem vecPush_roomy {v v' : Option (Vec α)} (h : ∀ w ∈ v, w.Roomy m) {elem : Option α}
    (whole : ∀ w ∈ v, elem = none ∨ w.cap ≠ 0 ∨ ¬m.Wraps vecInitialCap w.elemSize)
    (push : vecPush v elem m = (rs, v', m')) : ∀ w ∈ v', w.Roomy m' := by
  match v, elem with
  | some v, some x =>
    rcases hg : vecGrow v m with ⟨rs₁, v₁, m₁⟩
    obtain ⟨grown, room⟩ := vecGrow_roomy (h v rfl) ((whole v rfl).resolve_left (by simp)) hg
    simp only [vecPush, hg] at push
    cases rs₁ with
    | ok =>
      obtain ⟨-, rfl, rfl⟩ := by simpa using push
      intro w hw
      obtain rfl := Option.some.inj hw
      refine grown.store ?_
      rw [List.length_append, List.length_singleton]
      exact room rfl
    | _ =>
      obtain ⟨-, rfl, rfl⟩ := by simpa using push
      intro w hw
      exact Option.some.inj hw ▸ grown
  | some v, none =>
    obtain ⟨-, rfl, rfl⟩ : .invalid = rs ∧ some v = v' ∧ m = m' := by simpa [vecPush] using push
    exact h
  | none, elem =>
    obtain ⟨-, rfl, rfl⟩ : .invalid = rs ∧ none = v' ∧ m = m' := by simpa [vecPush] using push
    exact h

theorem vecReserve_roomy (h : v.Roomy m) {capacity : Nat}
    (whole : capacity ≤ v.cap ∨ ¬m.Wraps capacity v.elemSize) {w : Option (Vec α)}
    (reserve : vecReserve (some v) capacity m = (rs, w, m')) : ∀ u ∈ w, u.Roomy m' := by
  intro u hu
  obtain ⟨-, -, rfl, rfl⟩ | ⟨more, r, hm, -, rfl⟩ := vecReserve_cases reserve
  · exact Option.some.inj hu ▸ h
  · obtain rfl := Option.some.inj hu
    exact h.resize (whole.resolve_left (Nat.not_le.mpr more)) (h.len_le.trans more.le) hm

/-- A granted request that wrapped leaves a buffer that is too small. -/
theorem vecReserve_short {capacity : Nat} (more : v.cap < capacity)
    (wraps : m.Wraps capacity v.elemSize) {w : Option (Vec α)}
    (reserve : vecReserve (some v) capacity m = (rs, w, m')) : ∃ u ∈ w, ¬u.Fits m' := by
  obtain ⟨enough, -⟩ | ⟨-, r, hm, -, rfl⟩ := vecReserve_cases reserve
  · omega
  · obtain ⟨large, granted⟩ := wraps
    cases r with
    | none =>
      unfold memRealloc at hm
      simp [granted] at hm
    | some addr =>
      refine ⟨_, rfl, fun fits => ?_⟩
      have bytes := fits.bytes
      simp only [Option.elim_some, Vec.bytes, memRealloc_blockSize hm] at bytes
      have wrapped : mulSize capacity v.elemSize < 2 ^ 64 := Nat.mod_lt _ (by decide)
      omega

theorem vecInsert_roomy {v v' : Option (Vec α)} (h : ∀ w ∈ v, w.Roomy m) {i : Nat}
    {elem : Option α}
    (whole : ∀ w ∈ v, w.contents.length < i ∨ elem = none ∨ w.cap ≠ 0 ∨
      ¬m.Wraps vecInitialCap w.elemSize)
    (insert : vecInsert v i elem m = (rs, v', m')) : ∀ w ∈ v', w.Roomy m' := by
  match v, elem with
  | some v, some x =>
    have hv := h v rfl
    obtain ⟨-, rfl, rfl⟩ | ⟨inside, room, rfl, rfl⟩ | ⟨inside, full, rs₁, u, reserve, result⟩ :=
      vecInsert_cases insert
    · exact h
    · intro w hw
      obtain rfl := Option.some.inj hw
      have len := hv.len_le
      exact hv.store (by rw [List.length_insertIdx_of_le_length inside]; omega)
    · have whole := ((whole v rfl).resolve_left (Nat.not_lt.mpr inside)).resolve_left (by simp)
      obtain ⟨more, fits⟩ := hv.grown whole
      have grown := vecReserve_roomy hv (.inr fits) reserve u rfl
      obtain ⟨rfl, rfl⟩ | ⟨-, rfl⟩ := result
      · intro w hw
        obtain rfl := Option.some.inj hw
        refine grown.store ?_
        rw [List.length_insertIdx_of_le_length inside]
        obtain ⟨less, -⟩ | ⟨-, r, -, ok, moved⟩ := vecReserve_cases reserve
        · omega
        · obtain rfl := Option.some.inj moved
          cases r with
          | none => simp at ok
          | some addr => exact full.trans_lt more
      · intro w hw
        exact Option.some.inj hw ▸ grown
  | some v, none =>
    obtain ⟨-, rfl, rfl⟩ : .invalid = rs ∧ some v = v' ∧ m = m' := by simpa [vecInsert] using insert
    exact h
  | none, elem =>
    obtain ⟨-, rfl, rfl⟩ : .invalid = rs ∧ none = v' ∧ m = m' := by simpa [vecInsert] using insert
    exact h

/-- Fewer elements in the same buffer. -/
theorem Vec.Roomy.edit {v : Option (Vec α)} (h : ∀ w ∈ v, w.Roomy m) {f : List α → List α}
    (fewer : ∀ xs, (f xs).length ≤ xs.length) :
    ∀ w ∈ v.map fun v => { v with contents := f v.contents }, w.Roomy m := by
  intro w hw
  obtain ⟨u, hu, rfl⟩ := Option.map_eq_some_iff.mp hw
  exact (h u hu).store ((fewer _).trans (h u hu).len_le)

/-- The first request for a buffer cannot wrap. -/
def Vec.Tame (v : Vec α) : Prop := v.cap ≠ 0 ∨ vecInitialCap * v.elemSize < 2 ^ 64

theorem Vec.Tame.whole (h : v.Tame) : v.cap ≠ 0 ∨ ¬m.Wraps vecInitialCap v.elemSize :=
  h.imp_right fun small wraps => by have := wraps.1; omega

theorem vecPush_tame {x : α} (h : v.Roomy m) (tame : v.Tame) {w : Option (Vec α)}
    (push : vecPush (some v) (some x) m = (rs, w, m')) : ∀ u ∈ w, u.Tame := by
  rcases hg : vecGrow v m with ⟨rs₁, v₁, m₁⟩
  have grown : v₁.Tame := by
    obtain ⟨-, -, rfl, -⟩ | ⟨-, -, -, rfl, -⟩ | ⟨-, -, r, -, -, rfl⟩ := vecGrow_cases hg
    · exact tame
    · exact tame
    · cases r with
      | none => exact tame
      | some addr => exact .inl (Nat.ne_zero_of_lt (h.grown (tame.whole (m := m))).1)
  simp only [vecPush, hg] at push
  intro u hu
  cases rs₁ with
  | ok =>
    obtain ⟨-, rfl, -⟩ := by simpa using push
    exact Option.some.inj hu ▸ grown
  | _ =>
    obtain ⟨-, rfl, -⟩ := by simpa using push
    exact Option.some.inj hu ▸ grown

theorem vecExtend_roomy {it : Option (IterT σ α)} {owned : σ → Blocks}
    (custody : ∀ i ∈ it, i.InCustody owned) {v v' : Option (Vec α)} (h : ∀ w ∈ v, w.Roomy m)
    (tame : ∀ w ∈ v, w.Tame) {fuel : Nat} (extend : vecExtend fuel v it m = some (rs, v', m')) :
    ∀ w ∈ v', w.Roomy m' := by
  obtain ⟨rfl, rfl⟩ | ⟨m₁, ha, rfl, rfl⟩ | ⟨elem, m₁, it₁, m₂, ha, hw, rfl⟩ :=
    vecExtend_cases extend
  · exact fun w hw => (h w hw).later (iterDestroy_trades custody m).later
  · exact fun w hw => (h w hw).later
      ((memAlloc_later ha).trans (iterDestroy_trades custody m₁).later)
  · let I (a : Status × Option (Vec α)) (m : Mem) : Prop := ∀ w ∈ a.2, w.Roomy m ∧ w.Tame
    have keep {x : α} {a : Status × Option (Vec α)} {m : Mem} {go : Bool}
        {a' : Status × Option (Vec α)} {m' : Mem} (h : I a m)
        (turn : extendBody x a m = (go, a', m')) :
        I a' m' ∧ m.Trades (vecBlocks a.2) m' (vecBlocks a'.2) := by
      refine ⟨?_, (extendBody_accounted (fun w hw => (h w hw).1.toSound) turn).trades⟩
      obtain ⟨rs, v⟩ := a
      rcases push : vecPush v (some x) m with ⟨rs₁, v₁, m₁⟩
      simp only [extendBody, push] at turn
      obtain ⟨-, rfl, rfl⟩ : _ ∧ (rs₁, v₁) = a' ∧ m₁ = m' := by simpa using turn
      have roomy := vecPush_roomy (fun w hw => (h w hw).1)
        (fun w hw => .inr (h w hw).2.whole) push
      cases v with
      | none =>
        obtain ⟨-, rfl, -⟩ := by simpa [vecPush] using push
        exact fun w hw => by simp at hw
      | some v =>
        have tame := vecPush_tame (h v rfl).1 (h v rfl).2 push
        exact fun w hw => ⟨roomy w hw, tame w hw⟩
    obtain ⟨now, custody₁, -⟩ := iterWhile_trades (I := I) custody
      (fun h later w hw => ⟨(h w hw).1.later later, (h w hw).2⟩) keep
      (fun w hw => ⟨(h w hw).later (memAlloc_later ha), tame w hw⟩) hw
    exact fun w hw => (now w hw).1.later
      ((iterDestroy_trades custody₁ m₂).later.free _ _)

/-! ### Runs -/

/-- No request for a buffer wraps. Reading an iterator to append its elements may take any
number of requests before the first of them. -/
def VecOp.Whole : VecOp σ α → Option (Vec α) × Mem → Prop
  | .reserve capacity, (some v, m) => capacity ≤ v.cap ∨ ¬m.Wraps capacity v.elemSize
  | .push elem, (some v, m) => elem = none ∨ v.cap ≠ 0 ∨ ¬m.Wraps vecInitialCap v.elemSize
  | .insert i elem, (some v, m) =>
    v.contents.length < i ∨ elem = none ∨ v.cap ≠ 0 ∨ ¬m.Wraps vecInitialCap v.elemSize
  | .extend _ _, (some v, _) => v.Tame
  | _, _ => True

/-- The request for the first buffer does not wrap; it follows that for the vector itself. -/
def StartWhole (elemSize : Nat) : Option Nat → Mem → Prop
  | none, _ => True
  | some capacity, m =>
    (memAlloc m sizeofVec).1 = none ∨ ¬(memAlloc m sizeofVec).2.Wraps capacity elemSize

theorem vecStep_roomy {op : VecOp σ α} {v v' : Option (Vec α)} {out : Answer α}
    (h : ∀ w ∈ v, w.Roomy m) (whole : op.Whole (v, m))
    (step : vecStep op (v, m) = some (out, v', m')) : ∀ w ∈ v', w.Roomy m' := by
  refine vecStep_cases (P := fun v m => ∀ w ∈ v, w.Roomy m) step ?_ ?_ ?_ ?_ ?_
  · rintro capacity rs w m₁ rfl reserve
    cases v with
    | none =>
      obtain ⟨-, rfl, rfl⟩ := by simpa [vecReserve] using reserve
      exact h
    | some v => exact vecReserve_roomy (h v rfl) whole reserve
  · rintro elem rs w m₁ rfl push
    exact vecPush_roomy h (fun w hw => by obtain rfl := hw; exact whole) push
  · rintro i elem rs w m₁ rfl insert
    exact vecInsert_roomy h (fun w hw => by obtain rfl := hw; exact whole) insert
  · intro f _ fewer
    exact Vec.Roomy.edit h fewer
  · rintro fuel source it m₁ rs w m₂ rfl made extend
    have trades := source.trades m
    rw [made] at trades
    obtain ⟨owned, custody, -⟩ := OwnedIterT.exists_custody it
    exact vecExtend_roomy custody (fun w hw => (h w hw).later trades.later)
      (fun w hw => by obtain rfl := hw; exact whole) extend

theorem vecStart_roomy {elemSize : Nat} {capacity : Option Nat} {m₀ : Mem}
    {v : Option (Vec α)} (whole : StartWhole elemSize capacity m₀)
    (start : vecStart α elemSize capacity m₀ = (v, m)) : ∀ w ∈ v, w.Roomy m := by
  have sound := (vecStart_accounted start).2
  intro w hw
  obtain rfl := hw
  cases capacity with
  | none =>
    simp only [vecStart, vecCreate] at start
    by_cases zero : elemSize = 0
    · simp [zero] at start
    · rw [dif_neg zero] at start
      rcases ha : memAlloc m₀ sizeofVec with ⟨_ | addr, m₁⟩
      · simp [ha] at start
      · rw [ha] at start
        obtain ⟨made, rfl⟩ := Prod.mk.inj start
        obtain rfl := Option.some.inj made
        exact ⟨sound _ rfl, ⟨Nat.le_refl _, by simp⟩, by simp⟩
  | some capacity =>
    simp only [vecStart, vecCreateWithCap] at start
    by_cases zero : elemSize = 0
    · simp [zero] at start
    · rw [dif_neg zero] at start
      by_cases none : capacity = 0
      · simp [none] at start
      · rw [if_neg none] at start
        rcases ha : memAlloc m₀ sizeofVec with ⟨_ | addr, m₁⟩
        · simp [ha] at start
        · simp only [StartWhole, ha] at start whole
          rcases hd : memAlloc m₁ (mulSize capacity elemSize) with ⟨_ | d, m₂⟩
          · simp [hd] at start
          · rw [hd] at start
            obtain ⟨made, rfl⟩ := Prod.mk.inj start
            obtain rfl := Option.some.inj made
            obtain ⟨granted, size, -⟩ := memAlloc_some hd
            have fits : capacity * elemSize < 2 ^ 64 := by
              by_contra large
              exact whole.resolve_left (by simp) ⟨Nat.le_of_not_lt large, granted⟩
            rw [mulSize_of_lt fits] at hd size
            exact ⟨sound _ rfl, ⟨Nat.zero_le _, (memAlloc_blockSize hd).ge⟩, size⟩

/-- While no granted request has wrapped, the buffer holds the capacity. -/
theorem vec_run_fits (elemSize : Nat) (capacity : Option Nat) (ops : List (VecOp σ α)) (m₀ : Mem)
    {outs : List (Answer α)} {v : Option (Vec α)} (whole : StartWhole elemSize capacity m₀)
    (all : AllSteps vecStep VecOp.Whole ops (vecStart α elemSize capacity m₀))
    (ran : run vecStep ops (vecStart α elemSize capacity m₀) = some (outs, v, m)) :
    ∀ w ∈ v, w.Fits m := by
  have last := run_invariant_of (I := fun st => ∀ w ∈ st.1, w.Roomy st.2)
    (fun op st out st' h whole step => vecStep_roomy h whole step)
    (vecStart_roomy whole (show vecStart α elemSize capacity m₀ = (_, _) from rfl)) all ran
  exact fun w hw => (last w hw).toFits

theorem vec_run_fits_pushed :
    ∃ outs v m, run vecStep ([.push (some 1), .reserve 40] : List (VecOp Unit Nat))
        (vecStart Nat 4 (some 2) (.start .generous)) = some (outs, v, m) ∧ ∀ w ∈ v, w.Fits m :=
  ⟨_, _, _, rfl, vec_run_fits (σ := Unit) (α := Nat) 4 (some 2) [.push (some 1), .reserve 40]
    (.start .generous) (.inr fun wraps => absurd wraps.1 (by decide))
    ⟨.inr (.inl (by decide)), fun out s' step => by
      obtain ⟨-, rfl⟩ := Prod.mk.inj (Option.some.inj step)
      exact ⟨.inr fun wraps => absurd wraps.1 (by decide), fun _ _ _ => trivial⟩⟩ rfl⟩

/-- 2 ^ 62 + 1 elements of 4 bytes are asked for with 4 bytes. -/
theorem vec_run_fits_fails :
    ∃ outs v m, run vecStep ([.reserve (2 ^ 62 + 1)] : List (VecOp Unit Nat))
        (vecStart Nat 4 none (.start .generous)) = some (outs, v, m) ∧ ∃ w ∈ v, ¬w.Fits m := by
  refine ⟨_, _, _, rfl, _, rfl, fun fits => ?_⟩
  exact absurd fits.bytes (by decide)

end Seqc
