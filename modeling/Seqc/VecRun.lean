import Seqc.Custody
import Seqc.Lib.Runs

/-! Runs of the operations of vec.c: the bytes of the buffer, and the byte sizes that are
given to the allocator. -/

namespace Seqc
open Runs Iteration

variable {σ : Type*} {α β : Type} {m m' : Mem} {v v' : Vec α} {rs : Status}

inductive VecOp (σ : Type*) (α : Type) where
  | reserve (capacity : Nat)
  | push (elem : Option α)
  | insert (i : Nat) (elem : Option α)
  | pop (out : Bool)
  | remove (i : Nat)
  | truncate (len : Nat)
  | clear
  | extend (fuel : Nat) (source : IterMaker σ α)

def vecStep (op : VecOp σ α) (st : Option (Vec α) × Mem) :
    Option (Answer α × Option (Vec α) × Mem) :=
  match op with
  | .reserve capacity =>
    let (rs, v, m) := vecReserve st.1 capacity st.2
    some (.status rs, v, m)
  | .push elem =>
    let (rs, v, m) := vecPush st.1 elem st.2
    some (.status rs, v, m)
  | .insert i elem =>
    let (rs, v, m) := vecInsert st.1 i elem st.2
    some (.status rs, v, m)
  | .pop out =>
    let ((rs, written), v) := vecPop st.1 out
    some (.read rs written, v, st.2)
  | .remove i => some (.nothing, vecRemove st.1 i, st.2)
  | .truncate len => some (.nothing, vecTruncate st.1 len, st.2)
  | .clear => some (.nothing, vecClear st.1, st.2)
  | .extend fuel source => do
    let (it, m) := source.make st.2
    let (rs, v, m) ← vecExtend fuel st.1 (it.map OwnedIterT.toIterT) m
    pure (.status rs, v, m)

/-- The vector a run starts with, empty or with room for `capacity` elements. -/
def vecStart (α : Type) (elemSize : Nat) : Option Nat → Mem → Option (Vec α) × Mem
  | none => vecCreate α elemSize
  | some capacity => vecCreateWithCap α elemSize capacity

/-! ### Where the blocks are -/

/-- The blocks of a vector are distinct blocks handed out before. -/
structure Vec.Sound (v : Vec α) (m : Mem) : Prop where
  null : v.dataAddr = none → v.cap = 0 ∧ v.contents = []
  addr_lt : v.addr < m.requests
  data_lt : ∀ d, v.dataAddr = some d → v.addr < d ∧ d < m.requests

theorem Vec.Sound.later (h : v.Sound m) (more : m.requests ≤ m'.requests) : v.Sound m' where
  null := h.null
  addr_lt := h.addr_lt.trans_le more
  data_lt d hd := ⟨(h.data_lt d hd).1, (h.data_lt d hd).2.trans_le more⟩

/-- Other elements in the same buffer. -/
theorem Vec.Sound.store (h : v.Sound m) {xs : List α} (null : v.dataAddr = none → xs = []) :
    ({ v with contents := xs } : Vec α).Sound m where
  null none := ⟨(h.null none).1, null none⟩
  addr_lt := h.addr_lt
  data_lt := h.data_lt

theorem Vec.Sound.moved (h : v.Sound m) {old : Option Nat} {oldSize size addr newCap : Nat}
    (hm : memRealloc m old oldSize size = (some addr, m')) :
    ({ v with dataAddr := some addr, cap := newCap } : Vec α).Sound m' := by
  obtain ⟨more, fresh⟩ := memRealloc_requests hm
  obtain rfl := fresh addr rfl
  have addr_lt := h.addr_lt
  exact ⟨by simp, by simp only; omega, fun d hd => by
    obtain rfl := Option.some.inj hd
    exact ⟨addr_lt, by omega⟩⟩

/-! ### The byte sizes given to the allocator -/

/-- The buffer, with the byte size that was requested for it. -/
def Vec.dataBlock (v : Vec α) : Blocks := bufferBlocks v.dataAddr (mulSize v.cap v.elemSize)

def vecBlocks : Option (Vec α) → Blocks
  | none => 0
  | some v => {(v.addr, sizeofVec)} + v.dataBlock

theorem Vec.Sound.realloc_trades (h : v.Sound m) {size : Nat} {r : Option Nat}
    (hm : memRealloc m v.dataAddr (mulSize v.cap v.elemSize) size = (r, m')) :
    m.Trades v.dataBlock m' (r.elim v.dataBlock fun addr => {(addr, size)}) :=
  memRealloc_buffer (fun none => by simp [(h.null none).1, mulSize]) hm

/-- A step kept to the protocol of the allocator. -/
structure Accounted (v : Option (Vec α)) (m : Mem) (v' : Option (Vec α)) (m' : Mem) : Prop where
  trades : m.Trades (vecBlocks v) m' (vecBlocks v')
  sound : ∀ w ∈ v', w.Sound m'
  elemSize : vecElemSize v' = vecElemSize v

theorem Accounted.same {v : Option (Vec α)} (sound : ∀ w ∈ v, w.Sound m) : Accounted v m v m :=
  ⟨.refl m _, sound, rfl⟩

theorem Vec.Sound.resize (h : v.Sound m) {newCap : Nat} {r : Option Nat}
    (hm : memRealloc m v.dataAddr (mulSize v.cap v.elemSize) (mulSize newCap v.elemSize) =
      (r, m')) :
    Accounted (some v) m
      (some (r.elim v fun addr => { v with dataAddr := some addr, cap := newCap })) m' := by
  have trades := h.realloc_trades hm
  cases r with
  | none =>
    refine ⟨trades.within _ (add_comm _ _) (add_comm _ _), fun w hw => ?_, rfl⟩
    obtain rfl := Option.some.inj hw
    exact h.later trades.later.requests_le
  | some addr =>
    refine ⟨trades.within _ (add_comm _ _) (add_comm _ _), fun _ hw => ?_, rfl⟩
    obtain rfl := Option.some.inj hw
    exact h.moved hm

/-- Either there is room, or the vector may not grow, or the buffer is requested anew. -/
theorem vecGrow_cases (grow : vecGrow v m = (rs, v', m')) :
    (v.contents.length ≠ v.cap ∧ rs = .ok ∧ v' = v ∧ m' = m) ∨
    (v.contents.length = v.cap ∧ sizeMax / 2 < v.cap ∧ rs = .oom ∧ v' = v ∧ m' = m) ∨
    v.contents.length = v.cap ∧ v.cap ≤ sizeMax / 2 ∧ ∃ r,
      memRealloc m v.dataAddr (mulSize v.cap v.elemSize)
        (mulSize (if v.cap = 0 then vecInitialCap else mulSize v.cap 2) v.elemSize) = (r, m') ∧
      rs = (if r.isSome then .ok else .oom) ∧
      v' = r.elim v fun addr => { v with
        dataAddr := some addr
        cap := if v.cap = 0 then vecInitialCap else mulSize v.cap 2 } := by
  unfold vecGrow at grow
  by_cases full : v.contents.length = v.cap
  · rw [if_pos full] at grow
    by_cases huge : sizeMax / 2 < v.cap
    · rw [if_pos huge] at grow
      obtain ⟨rfl, rfl, rfl⟩ : .oom = rs ∧ v = v' ∧ m = m' := by simpa using grow
      exact .inr (.inl ⟨full, huge, rfl, rfl, rfl⟩)
    · rw [if_neg huge, full] at grow
      refine .inr (.inr ⟨full, Nat.le_of_not_lt huge, ?_⟩)
      rcases hm : memRealloc m v.dataAddr (mulSize v.cap v.elemSize)
        (mulSize (if v.cap = 0 then vecInitialCap else mulSize v.cap 2) v.elemSize) with
        ⟨_ | addr, m₁⟩
      · simp only [hm] at grow
        obtain ⟨rfl, rfl, rfl⟩ : .oom = rs ∧ v = v' ∧ m₁ = m' := by simpa using grow
        exact ⟨none, rfl, rfl, rfl⟩
      · simp only [hm] at grow
        obtain ⟨rfl, rfl, rfl⟩ : .ok = rs ∧ _ = v' ∧ m₁ = m' := by simpa using grow
        exact ⟨some addr, rfl, rfl, rfl⟩
  · rw [if_neg full] at grow
    obtain ⟨rfl, rfl, rfl⟩ : .ok = rs ∧ v = v' ∧ m = m' := by simpa using grow
    exact .inl ⟨full, rfl, rfl, rfl⟩

theorem vecReserve_cases {capacity : Nat} {w : Option (Vec α)}
    (reserve : vecReserve (some v) capacity m = (rs, w, m')) :
    (capacity ≤ v.cap ∧ rs = .ok ∧ w = some v ∧ m' = m) ∨
    v.cap < capacity ∧ ∃ r,
      memRealloc m v.dataAddr (mulSize v.contents.length v.elemSize)
        (mulSize capacity v.elemSize) = (r, m') ∧
      rs = (if r.isSome then .ok else .oom) ∧
      w = some (r.elim v fun addr => { v with dataAddr := some addr, cap := capacity }) := by
  simp only [vecReserve] at reserve
  by_cases enough : capacity ≤ v.cap
  · rw [if_pos enough] at reserve
    obtain ⟨rfl, rfl, rfl⟩ : .ok = rs ∧ some v = w ∧ m = m' := by simpa using reserve
    exact .inl ⟨enough, rfl, rfl, rfl⟩
  · rw [if_neg enough] at reserve
    refine .inr ⟨Nat.lt_of_not_le enough, ?_⟩
    rcases hm : memRealloc m v.dataAddr (mulSize v.contents.length v.elemSize)
      (mulSize capacity v.elemSize) with ⟨_ | addr, m₁⟩
    · rw [hm] at reserve
      obtain ⟨rfl, rfl, rfl⟩ : .oom = rs ∧ some v = w ∧ m₁ = m' := by simpa using reserve
      exact ⟨none, rfl, rfl, rfl⟩
    · rw [hm] at reserve
      obtain ⟨rfl, rfl, rfl⟩ : .ok = rs ∧ _ = w ∧ m₁ = m' := by simpa using reserve
      exact ⟨some addr, rfl, rfl, rfl⟩

theorem vecGrow_accounted (h : v.Sound m) (grow : vecGrow v m = (rs, v', m')) :
    Accounted (some v) m (some v') m' ∧ (rs = .ok → v'.dataAddr ≠ none) := by
  have same : Accounted (some v) m (some v) m := .same fun w hw => Option.some.inj hw ▸ h
  obtain ⟨room, rfl, rfl, rfl⟩ | ⟨-, -, rfl, rfl, rfl⟩ | ⟨-, -, r, hm, rfl, rfl⟩ :=
    vecGrow_cases grow
  · refine ⟨same, fun _ null => room ?_⟩
    rw [(h.null null).1, (h.null null).2, List.length_nil]
  · exact ⟨same, by simp⟩
  · refine ⟨h.resize hm, ?_⟩
    cases r <;> simp

/-- Other elements in the same buffer. -/
theorem Accounted.store {v₀ : Option (Vec α)} (a : Accounted v₀ m (some v) m') {xs : List α}
    (null : v.dataAddr = none → xs = []) :
    Accounted v₀ m (some { v with contents := xs }) m' where
  trades := a.trades
  sound _ hw := Option.some.inj hw ▸ (a.sound v rfl).store null
  elemSize := a.elemSize

theorem vecPush_accounted {v v' : Option (Vec α)} (sound : ∀ w ∈ v, w.Sound m) {elem : Option α}
    (push : vecPush v elem m = (rs, v', m')) : Accounted v m v' m' := by
  match v, elem with
  | some v, some x =>
    rcases hg : vecGrow v m with ⟨rs₁, v₁, m₁⟩
    obtain ⟨grown, room⟩ := vecGrow_accounted (sound v rfl) hg
    simp only [vecPush, hg] at push
    cases rs₁ with
    | ok =>
      obtain ⟨-, rfl, rfl⟩ := by simpa using push
      exact grown.store fun none => absurd none (room rfl)
    | _ =>
      obtain ⟨-, rfl, rfl⟩ := by simpa using push
      exact grown
  | some v, none =>
    obtain ⟨-, rfl, rfl⟩ : .invalid = rs ∧ some v = v' ∧ m = m' := by simpa [vecPush] using push
    exact .same sound
  | none, elem =>
    obtain ⟨-, rfl, rfl⟩ : .invalid = rs ∧ none = v' ∧ m = m' := by simpa [vecPush] using push
    exact .same sound

/-- `vec_reserve` passes the size of the elements, not of the buffer. -/
theorem vecReserve_accounted (h : v.Sound m) {capacity : Nat}
    (exact_size : capacity ≤ v.cap ∨
      mulSize v.contents.length v.elemSize = mulSize v.cap v.elemSize) {w : Option (Vec α)}
    (reserve : vecReserve (some v) capacity m = (rs, w, m')) : Accounted (some v) m w m' := by
  obtain ⟨-, -, rfl, rfl⟩ | ⟨more, r, hm, -, rfl⟩ := vecReserve_cases reserve
  · exact .same fun w hw => Option.some.inj hw ▸ h
  · rw [exact_size.resolve_left (Nat.not_le.mpr more)] at hm
    exact h.resize hm

/-- Before `vec_insert` stores, the buffer is there. -/
theorem vecInsert_cases {i : Nat} {x : α} {w : Option (Vec α)}
    (insert : vecInsert (some v) i (some x) m = (rs, w, m')) :
    (rs = .invalid ∧ w = some v ∧ m' = m) ∨
    (i ≤ v.contents.length ∧ v.contents.length ≠ v.cap ∧ m' = m ∧
      w = some { v with contents := v.contents.insertIdx i x }) ∨
    (i ≤ v.contents.length ∧ v.contents.length = v.cap ∧ ∃ rs₁ u,
      vecReserve (some v) (if v.cap = 0 then vecInitialCap else mulSize v.cap 2) m =
        (rs₁, some u, m') ∧
      (rs₁ = .ok ∧ w = some { u with contents := v.contents.insertIdx i x } ∨
        rs₁ ≠ .ok ∧ w = some u)) := by
  simp only [vecInsert] at insert
  by_cases outside : v.contents.length < i
  · rw [if_pos outside] at insert
    obtain ⟨rfl, rfl, rfl⟩ : .invalid = rs ∧ some v = w ∧ m = m' := by simpa using insert
    exact .inl ⟨rfl, rfl, rfl⟩
  · rw [if_neg outside] at insert
    have inside := Nat.le_of_not_lt outside
    by_cases full : v.contents.length = v.cap
    · rw [if_pos full] at insert
      refine .inr (.inr ⟨inside, full, ?_⟩)
      rcases hr : vecReserve (some v) (if v.cap = 0 then vecInitialCap else mulSize v.cap 2) m
        with ⟨rs₁, u, m₁⟩
      rw [hr] at insert
      obtain ⟨-, rfl, rfl, rfl⟩ | ⟨-, r, -, rfl, rfl⟩ := vecReserve_cases hr
      · obtain ⟨-, rfl, rfl⟩ : .ok = rs ∧ _ = w ∧ m₁ = m' := by simpa using insert
        exact ⟨.ok, v, rfl, .inl ⟨rfl, rfl⟩⟩
      · cases r with
        | none =>
          obtain ⟨-, rfl, rfl⟩ : .oom = rs ∧ some v = w ∧ m₁ = m' := by simpa using insert
          exact ⟨.oom, v, rfl, .inr ⟨by simp, rfl⟩⟩
        | some addr =>
          obtain ⟨-, rfl, rfl⟩ : .ok = rs ∧ _ = w ∧ m₁ = m' := by simpa using insert
          exact ⟨.ok, _, rfl, .inl ⟨rfl, rfl⟩⟩
    · rw [if_neg full] at insert
      obtain ⟨-, rfl, rfl⟩ : .ok = rs ∧ _ = w ∧ m = m' := by simpa using insert
      exact .inr (.inl ⟨inside, full, rfl, rfl⟩)

theorem vecInsert_accounted {v v' : Option (Vec α)} (sound : ∀ w ∈ v, w.Sound m) {i : Nat}
    {elem : Option α} (insert : vecInsert v i elem m = (rs, v', m')) : Accounted v m v' m' := by
  match v, elem with
  | some v, some x =>
    have h := sound v rfl
    obtain ⟨-, rfl, rfl⟩ | ⟨-, room, rfl, rfl⟩ | ⟨-, full, rs₁, u, reserve, result⟩ :=
      vecInsert_cases insert
    · exact .same sound
    · refine (Accounted.same sound).store fun null => absurd ?_ room
      rw [(h.null null).1, (h.null null).2, List.length_nil]
    · have grown := vecReserve_accounted h (.inr (by rw [full])) reserve
      obtain ⟨rfl, rfl⟩ | ⟨-, rfl⟩ := result
      · refine grown.store fun null => ?_
        obtain ⟨less, -, same, -⟩ | ⟨-, r, -, ok, moved⟩ := vecReserve_cases reserve
        · obtain rfl := Option.some.inj same
          simp [(h.null null).1, vecInitialCap] at less
        · obtain rfl := Option.some.inj moved
          cases r <;> simp at ok null
      · exact grown
  | some v, none =>
    obtain ⟨-, rfl, rfl⟩ : .invalid = rs ∧ some v = v' ∧ m = m' := by simpa [vecInsert] using insert
    exact .same sound
  | none, elem =>
    obtain ⟨-, rfl, rfl⟩ : .invalid = rs ∧ none = v' ∧ m = m' := by simpa [vecInsert] using insert
    exact .same sound

theorem Accounted.edit {v : Option (Vec α)} (sound : ∀ w ∈ v, w.Sound m) {f : List α → List α}
    (empty : f [] = []) :
    Accounted v m (v.map fun v => { v with contents := f v.contents }) m := by
  cases v with
  | none => exact .same sound
  | some v =>
    exact (Accounted.same sound).store fun null => by rw [((sound v rfl).null null).2, empty]

theorem extendBody_accounted {a a' : Status × Option (Vec α)} (sound : ∀ w ∈ a.2, w.Sound m)
    {x : α} {go : Bool} (turn : extendBody x a m = (go, a', m')) : Accounted a.2 m a'.2 m' := by
  rcases push : vecPush a.2 (some x) m with ⟨rs, v, m₁⟩
  simp only [extendBody, push] at turn
  obtain ⟨-, rfl, rfl⟩ : _ ∧ (rs, v) = a' ∧ m₁ = m' := by simpa using turn
  exact vecPush_accounted sound push

/-- Either the iterator is rejected, or the temporary element is refused, or the loop runs. -/
theorem vecExtend_cases {it : Option (IterT σ α)} {v v' : Option (Vec α)} {fuel : Nat}
    (extend : vecExtend fuel v it m = some (rs, v', m')) :
    (v' = v ∧ m' = iterDestroy it m) ∨
    (∃ m₁, memAlloc m (vecElemSize v) = (none, m₁) ∧ v' = v ∧ m' = iterDestroy it m₁) ∨
    ∃ elem m₁ it₁ m₂, memAlloc m (vecElemSize v) = (some elem, m₁) ∧
      iterWhile fuel it extendBody (.ok, v) m₁ = some ((rs, v'), it₁, m₂) ∧
      m' = memFree (iterDestroy it₁ m₂) (some elem) (vecElemSize v') := by
  unfold vecExtend at extend
  by_cases bad : v.isNone ∨ ¬iterIsValid it ∨ iterElemSize it ≠ vecElemSize v
  · rw [if_pos bad] at extend
    obtain ⟨-, rfl, rfl⟩ : .invalid = rs ∧ v = v' ∧ iterDestroy it m = m' := by simpa using extend
    exact .inl ⟨rfl, rfl⟩
  · rw [if_neg bad] at extend
    rcases ha : memAlloc m (vecElemSize v) with ⟨_ | elem, m₁⟩
    · simp only [ha] at extend
      obtain ⟨-, rfl, rfl⟩ : .oom = rs ∧ v = v' ∧ iterDestroy it m₁ = m' := by simpa using extend
      exact .inr (.inl ⟨m₁, rfl, rfl, rfl⟩)
    · simp only [ha] at extend
      rcases hw : iterWhile fuel it extendBody (.ok, v) m₁ with _ | ⟨⟨rs₁, v₁⟩, it₁, m₂⟩
      · simp [hw] at extend
      · simp only [hw] at extend
        obtain ⟨rfl, rfl, rfl⟩ : rs₁ = rs ∧ v₁ = v' ∧
          memFree (iterDestroy it₁ m₂) (some elem) (vecElemSize v₁) = m' := by simpa using extend
        exact .inr (.inr ⟨elem, m₁, it₁, m₂, rfl, hw, rfl⟩)

theorem vecExtend_accounted {it : Option (IterT σ α)} {owned : σ → Blocks}
    (custody : ∀ i ∈ it, i.InCustody owned) {v v' : Option (Vec α)} (sound : ∀ w ∈ v, w.Sound m)
    {fuel : Nat} (extend : vecExtend fuel v it m = some (rs, v', m')) :
    m.Trades (vecBlocks v + iterBlocks owned it) m' (vecBlocks v') ∧
      (∀ w ∈ v', w.Sound m') ∧ vecElemSize v' = vecElemSize v := by
  have drop {it : Option (IterT σ α)} (custody : ∀ i ∈ it, i.InCustody owned) (m : Mem)
      (v : Option (Vec α)) :
      m.Trades (vecBlocks v + iterBlocks owned it) (iterDestroy it m) (vecBlocks v) :=
    (iterDestroy_trades custody m).within (vecBlocks v) (add_comm _ _) (zero_add _).symm
  obtain ⟨rfl, rfl⟩ | ⟨m₁, ha, rfl, rfl⟩ | ⟨elem, m₁, it₁, m₂, ha, hw, rfl⟩ :=
    vecExtend_cases extend
  · have trades := drop custody m v'
    exact ⟨trades, fun w hw => (sound w hw).later trades.later.requests_le, rfl⟩
  · have trades := ((memAlloc_refused ha).within _ (zero_add _).symm (zero_add _).symm).trans
      (drop custody m₁ v')
    exact ⟨trades, fun w hw => (sound w hw).later trades.later.requests_le, rfl⟩
  · have buffer := memAlloc_trades ha
    let I (a : Status × Option (Vec α)) (m : Mem) : Prop :=
      (∀ w ∈ a.2, w.Sound m) ∧ vecElemSize a.2 = vecElemSize v
    have keep {x : α} {a : Status × Option (Vec α)} {m : Mem} {go : Bool}
        {a' : Status × Option (Vec α)} {m' : Mem} (h : I a m)
        (turn : extendBody x a m = (go, a', m')) :
        I a' m' ∧ m.Trades (vecBlocks a.2) m' (vecBlocks a'.2) := by
      have step := extendBody_accounted h.1 turn
      exact ⟨⟨step.sound, step.elemSize.trans h.2⟩, step.trades⟩
    obtain ⟨⟨sound₁, same⟩, custody₁, loop⟩ := iterWhile_trades (I := I) custody
      (fun h later => ⟨fun w hw => (h.1 w hw).later later.requests_le, h.2⟩) keep
      ⟨fun w hw => (sound w hw).later buffer.later.requests_le, rfl⟩ hw
    simp only at sound₁ same loop
    have finish := (loop.trans (drop custody₁ m₂ v')).within {(elem, vecElemSize v)} rfl rfl
    rw [same]
    have trades := (buffer.within (vecBlocks v + iterBlocks owned it) (zero_add _).symm
      (add_comm _ _)).trans (finish.trans ((memFree_trades (iterDestroy it₁ m₂) elem
        (vecElemSize v)).within (vecBlocks v') (add_comm _ _) (zero_add _).symm))
    refine ⟨trades, fun w hw => (sound₁ w hw).later ?_, rfl⟩
    exact ((drop custody₁ m₂ v').trans (.refl _ _)).later.requests_le

/-! ### Runs -/

/-- A reservation does nothing, or what it takes for the size of the buffer is its size. -/
def VecOp.Exact : VecOp σ α → Option (Vec α) × Mem → Prop
  | .reserve capacity, (some v, _) => capacity ≤ v.cap ∨
    mulSize v.contents.length v.elemSize = mulSize v.cap v.elemSize
  | _, _ => True

/-- Any other reservation gives the allocator a size that the buffer does not have. -/
theorem vecReserve_inexact (h : v.Sound m) {capacity : Nat} {w : Option (Vec α)}
    (inexact : ¬(VecOp.reserve capacity : VecOp σ α).Exact (some v, m))
    (live : liveBlocks m.events = some (vecBlocks (some v)))
    (reserve : vecReserve (some v) capacity m = (rs, w, m')) : liveBlocks m'.events = none := by
  obtain ⟨more, differ⟩ := not_or.mp inexact
  obtain ⟨enough, -⟩ | ⟨-, r, hm, -⟩ := vecReserve_cases reserve
  · exact absurd enough more
  · rcases hd : v.dataAddr with _ | d
    · exact absurd (by rw [(h.null hd).1, (h.null hd).2, List.length_nil]) differ
    · have apart := (h.data_lt d hd).1.ne'
      have missing : (d, mulSize v.contents.length v.elemSize) ∉ vecBlocks (some v) := by
        simp [vecBlocks, Vec.dataBlock, bufferBlocks, hd, apart, differ]
      rw [hd] at hm
      unfold memRealloc at hm
      unfold liveBlocks at live ⊢
      split at hm <;> obtain ⟨-, rfl⟩ := Prod.mk.inj hm <;>
        simp [Ledger.replay_append, live, Ledger.replay, Event.act, missing]

/-- What an operation may do: it reserves, pushes, inserts or extends, or its elements become
others in the same buffer and no more of them. -/
theorem vecStep_cases {P : Option (Vec α) → Mem → Prop} {op : VecOp σ α} {v v' : Option (Vec α)}
    {out : Answer α} (step : vecStep op (v, m) = some (out, v', m'))
    (reserve : ∀ capacity rs w m₁, op = .reserve capacity →
      vecReserve v capacity m = (rs, w, m₁) → P w m₁)
    (push : ∀ elem rs w m₁, op = .push elem → vecPush v elem m = (rs, w, m₁) → P w m₁)
    (insert : ∀ i elem rs w m₁, op = .insert i elem → vecInsert v i elem m = (rs, w, m₁) → P w m₁)
    (edit : ∀ f : List α → List α, f [] = [] → (∀ xs, (f xs).length ≤ xs.length) →
      P (v.map fun v => { v with contents := f v.contents }) m)
    (extend : ∀ fuel source it m₁ rs w m₂, op = .extend fuel source → source.make m = (it, m₁) →
      vecExtend fuel v (it.map OwnedIterT.toIterT) m₁ = some (rs, w, m₂) → P w m₂) : P v' m' := by
  cases op with
  | reserve capacity =>
    rcases call : vecReserve v capacity m with ⟨rs, w, m₁⟩
    obtain ⟨-, rfl, rfl⟩ : _ ∧ w = v' ∧ m₁ = m' := by simpa [vecStep, call] using step
    exact reserve capacity rs w m₁ rfl call
  | push elem =>
    rcases call : vecPush v elem m with ⟨rs, w, m₁⟩
    obtain ⟨-, rfl, rfl⟩ : _ ∧ w = v' ∧ m₁ = m' := by simpa [vecStep, call] using step
    exact push elem rs w m₁ rfl call
  | insert i elem =>
    rcases call : vecInsert v i elem m with ⟨rs, w, m₁⟩
    obtain ⟨-, rfl, rfl⟩ : _ ∧ w = v' ∧ m₁ = m' := by simpa [vecStep, call] using step
    exact insert i elem rs w m₁ rfl call
  | pop out =>
    obtain ⟨-, rfl, rfl⟩ : _ ∧ (vecPop v out).2 = v' ∧ m = m' := by simpa [vecStep] using step
    unfold vecPop
    split
    · simpa using edit id rfl fun _ => le_rfl
    · exact edit List.dropLast rfl fun xs => by simp
  | remove i =>
    obtain ⟨-, rfl, rfl⟩ : _ ∧ vecRemove v i = v' ∧ m = m' := by simpa [vecStep] using step
    exact edit (fun xs => xs.eraseIdx i) rfl fun xs => List.length_eraseIdx_le xs i
  | truncate len =>
    obtain ⟨-, rfl, rfl⟩ : _ ∧ vecTruncate v len = v' ∧ m = m' := by simpa [vecStep] using step
    exact edit (fun xs => xs.take len) List.take_nil fun xs => List.length_take_le' len xs
  | clear =>
    obtain ⟨-, rfl, rfl⟩ : _ ∧ vecClear v = v' ∧ m = m' := by simpa [vecStep] using step
    exact edit (fun _ => []) rfl fun _ => Nat.zero_le _
  | extend fuel source =>
    rcases made : source.make m with ⟨it, m₁⟩
    rcases call : vecExtend fuel v (it.map OwnedIterT.toIterT) m₁ with _ | ⟨rs, w, m₂⟩
    · simp [vecStep, made, call] at step
    · obtain ⟨-, rfl, rfl⟩ : _ ∧ w = v' ∧ m₂ = m' := by simpa [vecStep, made, call] using step
      exact extend fuel source it m₁ rs w m₂ rfl made call

theorem vecStep_accounted {op : VecOp σ α} {v v' : Option (Vec α)} {out : Answer α}
    (sound : ∀ w ∈ v, w.Sound m) (exact_size : op.Exact (v, m))
    (step : vecStep op (v, m) = some (out, v', m')) : Accounted v m v' m' := by
  refine vecStep_cases (P := Accounted v m) step ?_ ?_ ?_ ?_ ?_
  · rintro capacity rs w m₁ rfl reserve
    cases v with
    | none =>
      obtain ⟨-, rfl, rfl⟩ := by simpa [vecReserve] using reserve
      exact .same sound
    | some v => exact vecReserve_accounted (sound v rfl) exact_size reserve
  · rintro elem rs w m₁ rfl push
    exact vecPush_accounted sound push
  · rintro i elem rs w m₁ rfl insert
    exact vecInsert_accounted sound insert
  · intro f empty _
    exact .edit sound empty
  · rintro fuel source it m₁ rs w m₂ rfl made extend
    have trades := source.trades m
    rw [made] at trades
    have sound₁ : ∀ w ∈ v, w.Sound m₁ := fun w hw => (sound w hw).later trades.later.requests_le
    obtain ⟨owned, custody, same⟩ := OwnedIterT.exists_custody it
    rw [← same] at trades
    obtain ⟨rest, sound', same⟩ := vecExtend_accounted custody sound₁ extend
    exact ⟨(trades.within (vecBlocks v) (zero_add _).symm (add_comm _ _)).trans rest, sound', same⟩

theorem vecStart_accounted {elemSize : Nat} {capacity : Option Nat} {m₀ : Mem}
    {v : Option (Vec α)} (start : vecStart α elemSize capacity m₀ = (v, m)) :
    m₀.Trades 0 m (vecBlocks v) ∧ ∀ w ∈ v, w.Sound m := by
  cases capacity with
  | none =>
    simp only [vecStart, vecCreate] at start
    by_cases zero : elemSize = 0
    · rw [dif_pos zero] at start
      obtain ⟨rfl, rfl⟩ := Prod.mk.inj start
      exact ⟨.refl _ _, by simp⟩
    · rw [dif_neg zero] at start
      rcases ha : memAlloc m₀ sizeofVec with ⟨_ | addr, m₁⟩
      · rw [ha] at start
        obtain ⟨rfl, rfl⟩ := Prod.mk.inj start
        exact ⟨memAlloc_refused ha, by simp⟩
      · rw [ha] at start
        obtain ⟨rfl, rfl⟩ := Prod.mk.inj start
        refine ⟨memAlloc_trades ha, fun w hw => ?_⟩
        obtain rfl := Option.some.inj hw
        obtain ⟨more, fresh⟩ := memAlloc_requests ha
        exact ⟨fun _ => ⟨rfl, rfl⟩, by simp only [fresh addr rfl]; omega, by simp⟩
  | some capacity =>
    simp only [vecStart, vecCreateWithCap] at start
    by_cases zero : elemSize = 0
    · rw [dif_pos zero] at start
      obtain ⟨rfl, rfl⟩ := Prod.mk.inj start
      exact ⟨.refl _ _, by simp⟩
    · rw [dif_neg zero] at start
      by_cases none : capacity = 0
      · rw [if_pos none] at start
        obtain ⟨rfl, rfl⟩ := Prod.mk.inj start
        exact ⟨.refl _ _, by simp⟩
      · rw [if_neg none] at start
        rcases ha : memAlloc m₀ sizeofVec with ⟨_ | addr, m₁⟩
        · rw [ha] at start
          obtain ⟨rfl, rfl⟩ := Prod.mk.inj start
          exact ⟨memAlloc_refused ha, by simp⟩
        · simp only [ha] at start
          rcases hd : memAlloc m₁ (mulSize capacity elemSize) with ⟨_ | d, m₂⟩
          · rw [hd] at start
            obtain ⟨rfl, rfl⟩ := Prod.mk.inj start
            have refused := (memAlloc_refused hd).within {(addr, sizeofVec)} (zero_add _).symm
              (zero_add _).symm
            exact ⟨((memAlloc_trades ha).trans refused).trans (memFree_trades _ _ _), by simp⟩
          · rw [hd] at start
            obtain ⟨rfl, rfl⟩ := Prod.mk.inj start
            have data := (memAlloc_trades hd).within {(addr, sizeofVec)} (zero_add _).symm
              (add_comm _ _)
            refine ⟨(memAlloc_trades ha).trans data, fun w hw => ?_⟩
            obtain rfl := Option.some.inj hw
            obtain ⟨more, fresh⟩ := memAlloc_requests ha
            obtain ⟨more', fresh'⟩ := memAlloc_requests hd
            obtain rfl := fresh addr rfl
            obtain rfl := fresh' d rfl
            refine ⟨by simp, by simp only; omega, fun d hd => ?_⟩
            obtain rfl := Option.some.inj hd
            exact ⟨by simp only; omega, by omega⟩

/-- `vec_destroy` gives back what the vector has. -/
theorem vecDestroy_trades {v : Option (Vec α)} (m : Mem) :
    m.Trades (vecBlocks v) (vecDestroy v m) 0 := by
  cases v with
  | none => exact .refl m 0
  | some v =>
    obtain ⟨addr, dataAddr, contents, cap, elemSize, pos⟩ := v
    have last (m : Mem) := memFree_trades m addr sizeofVec
    cases dataAddr with
    | none => exact (last m).within 0 rfl rfl
    | some d =>
      exact ((memFree_trades m d _).within _ (add_comm _ _) (zero_add _).symm).trans (last _)

/-- While every reservation is exact, the allocator is given the sizes the blocks have, and
after `vec_destroy` it has back what it gave. -/
theorem vec_run_accounted (elemSize : Nat) (capacity : Option Nat) (ops : List (VecOp σ α))
    (m₀ : Mem) {others : Blocks} (before : liveBlocks m₀.events = some others)
    {outs : List (Answer α)} {v : Option (Vec α)}
    (all : Runs.AllSteps vecStep VecOp.Exact ops (vecStart α elemSize capacity m₀))
    (ran : run vecStep ops (vecStart α elemSize capacity m₀) = some (outs, v, m)) :
    liveBlocks m.events = some (vecBlocks v + others) ∧
      liveBlocks (vecDestroy v m).events = some others ∧
      liveBytes (vecDestroy v m).events = liveBytes m₀.events := by
  have begin := vecStart_accounted (show vecStart α elemSize capacity m₀ = (_, _) from rfl)
  obtain ⟨trades, -⟩ := run_invariant_of
    (I := fun st => m₀.Trades 0 st.2 (vecBlocks st.1) ∧ ∀ w ∈ st.1, w.Sound st.2)
    (fun op st out st' h exact_size step => by
      have kept := vecStep_accounted h.2 exact_size step
      exact ⟨h.1.trans kept.trades, kept.sound⟩) begin all ran
  have gone := (trades.trans (vecDestroy_trades m)).liveBlocks_eq (by rwa [zero_add])
  rw [zero_add] at gone
  refine ⟨trades.liveBlocks_eq (by rwa [zero_add]), gone, ?_⟩
  rw [liveBytes_eq gone, liveBytes_eq before]

theorem vec_run_accounted_reserved :
    ∃ outs v m, run vecStep ([.reserve 4, .push (some 1), .pop true] : List (VecOp Unit Nat))
        (vecStart Nat 4 none (.start .generous)) = some (outs, v, m) ∧
      liveBytes (vecDestroy v m).events = 0 :=
  ⟨_, _, _, rfl, (vec_run_accounted (σ := Unit) (α := Nat) 4 none
    [.reserve 4, .push (some 1), .pop true] (.start .generous) rfl
    ⟨.inr rfl, fun _ _ _ => ⟨trivial, fun _ _ _ => ⟨trivial, fun _ _ _ => trivial⟩⟩⟩ rfl).2.2⟩

theorem vec_run_accounted_fails :
    ∃ outs v m, run vecStep ([.reserve 4, .reserve 8] : List (VecOp Unit Nat))
        (vecStart Nat 4 none (.start .generous)) = some (outs, v, m) ∧
      liveBlocks m.events = none ∧ liveBytes (vecDestroy v m).events ≠ 0 := by
  refine ⟨_, _, _, rfl, ?_, ?_⟩
  · decide
  · decide

end Seqc
