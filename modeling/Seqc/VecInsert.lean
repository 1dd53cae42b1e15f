import Seqc.Vec

/-! `vec_insert` of an element that lies in the vector itself. The pointer is read after the
elements behind the insertion point have moved up, and after the buffer was enlarged. -/

namespace Seqc

variable {α : Type} {xs : List α} {i j : Nat} {m : Mem}

/-- What `elem` points at: an object outside of the vector, or the slot of its buffer that
`vec_get_ptr` has given. -/
inductive ElemPtr (α : Type) where
  | outside (x : α)
  | inside (j : Nat)

/-- What `mem_realloc` does with the old block: it enlarges it where it is, or frees it, and
then a read through an old pointer gives whatever is there. -/
inductive OldBlock (α : Type) where
  | inPlace
  | freed (stale : Nat → α)

/-- The slots after the `memmove`: slot `i` still has what it had. -/
def insertShift (xs : List α) (i : Nat) : List α := xs.take (i + 1) ++ xs.drop i

/-- The slots after the `memcpy` into slot `i`. -/
def insertCopy (slots : List α) (i : Nat) (x : α) : List α :=
  slots.take i ++ x :: slots.drop (i + 1)

/-- What the `memcpy` reads; `none` for a slot without an element. -/
def ElemPtr.read (elem : ElemPtr α) (old : OldBlock α) (reallocated : Bool) (slots : List α) :
    Option α :=
  match elem with
  | .outside x => some x
  | .inside j =>
    match reallocated, old with
    | true, .freed stale => some (stale j)
    | _, _ => slots[j]?

/-- The capacity that `vec_insert` asks for. -/
def insertCap (v : Vec α) : Nat := if v.cap = 0 then vecInitialCap else mulSize v.cap 2

/-- `vec_reserve` leaves a capacity that is large enough. -/
def insertReallocates (v : Vec α) : Bool :=
  decide (v.contents.length = v.cap) && decide (v.cap < insertCap v)

/-- `vec_insert` with its two copies; `none` if it reads a slot without an element. -/
def vecInsertPtr (old : OldBlock α) (v : Option (Vec α)) (i : Nat) (elem : Option (ElemPtr α))
    (m : Mem) : Option (Status × Option (Vec α) × Mem) :=
  match v, elem with
  | some v, some elem =>
    if v.contents.length < i then some (.invalid, some v, m)
    else
      let grown := if v.contents.length = v.cap then vecReserve (some v) (insertCap v) m
        else (.ok, some v, m)
      match grown with
      | (.ok, some w, m) => do
        let slots := insertShift w.contents i
        let x ← elem.read old (insertReallocates v) slots
        pure (.ok, some { w with contents := insertCopy slots i x }, m)
      | (st, w, m) => some (st, w, m)
  | v, _ => some (.invalid, v, m)

/-! ### The two copies -/

theorem insertShift_getElem? (xs : List α) (i j : Nat) (hj : j < xs.length) :
    (insertShift xs i)[j]? = if j ≤ i then xs[j]? else xs[j - 1]? := by
  unfold insertShift
  by_cases before : j ≤ i
  · rw [if_pos before, List.getElem?_append_left (by simp; omega), List.getElem?_take,
      if_pos (by omega)]
  · rw [if_neg before, List.getElem?_append_right (by simp; omega), List.getElem?_drop,
      List.length_take, Nat.min_eq_left (by omega)]
    congr 1
    omega

theorem insertCopy_shift (hi : i ≤ xs.length) (x : α) :
    insertCopy (insertShift xs i) i x = xs.take i ++ x :: xs.drop i := by
  have first : (insertShift xs i).take i = xs.take i := by
    rw [insertShift, List.take_append_of_le_length (by simp; omega), List.take_take,
      Nat.min_eq_left (Nat.le_succ i)]
  have last : (insertShift xs i).drop (i + 1) = xs.drop i := by
    rw [insertShift, List.drop_append, List.drop_eq_nil_of_le (List.length_take_le _ _),
      List.nil_append, List.length_take, List.drop_drop]
    rcases Nat.lt_or_eq_of_le hi with less | rfl
    · rw [Nat.min_eq_left less, Nat.sub_self, Nat.add_zero]
    · rw [List.drop_eq_nil_of_le (Nat.le_add_right _ _), List.drop_length]
  rw [insertCopy, first, last]

theorem insertIdx_eq (hi : i ≤ xs.length) (x : α) :
    xs.insertIdx i x = xs.take i ++ x :: xs.drop i := by
  induction i generalizing xs with
  | zero => simp
  | succ i ih =>
    cases xs with
    | nil => simp at hi
    | cons y ys => simp [ih (Nat.le_of_succ_le_succ hi)]

theorem insertGrow_spec (v : Vec α) (m : Mem) :
    ∃ st w m', (if v.contents.length = v.cap then vecReserve (some v) (insertCap v) m
      else (.ok, some v, m)) = (st, some w, m') ∧ w.contents = v.contents := by
  by_cases full : v.contents.length = v.cap
  · by_cases enough : insertCap v ≤ v.cap
    · exact ⟨.ok, v, m, by rw [if_pos full, vecReserve, if_pos enough], rfl⟩
    · simp only [if_pos full, vecReserve, if_neg enough]
      rcases memRealloc m v.dataAddr (mulSize v.contents.length v.elemSize)
        (mulSize (insertCap v) v.elemSize) with ⟨_ | addr, m₁⟩
      · exact ⟨.oom, v, m₁, rfl, rfl⟩
      · exact ⟨.ok, _, m₁, rfl, rfl⟩
  · exact ⟨.ok, v, m, by rw [if_neg full], rfl⟩

/-- Of an element outside of the vector, this is `vec_insert` as the collections use it. -/
theorem vecInsertPtr_outside (old : OldBlock α) (v : Option (Vec α)) (i : Nat) (x : α) (m : Mem) :
    vecInsertPtr old v i (some (.outside x)) m = some (vecInsert v i (some x) m) := by
  cases v with
  | none => rfl
  | some v =>
    by_cases far : v.contents.length < i
    · simp only [vecInsertPtr, vecInsert, if_pos far]
    · obtain ⟨st, w, m', grow, same⟩ := insertGrow_spec v m
      have hi : i ≤ w.contents.length := by
        rw [same]
        omega
      have grow' := grow
      simp only [insertCap] at grow'
      simp only [vecInsertPtr, vecInsert, if_neg far, grow, grow']
      cases st <;> simp [ElemPtr.read, insertCopy_shift hi, insertIdx_eq hi]

/-! ### An element of the vector itself -/

/-- The memory at `elem` still has the element when it is read: in a block that was freed
because something keeps it, in the buffer because the element has not moved up, or is equal
to the one before it, which has. -/
def StillThere (old : OldBlock α) (v : Vec α) (i j : Nat) (x : α) : Prop :=
  match insertReallocates v, old with
  | true, .freed stale => stale j = x
  | _, _ => j ≤ i ∨ v.contents[j - 1]? = some x

theorem read_inside_iff {old : OldBlock α} {v : Vec α} {x : α} (hx : v.contents[j]? = some x) :
    ∃ y, ElemPtr.read (.inside j) old (insertReallocates v) (insertShift v.contents i) = some y ∧
      (y = x ↔ StillThere old v i j x) := by
  obtain ⟨hj, -⟩ := List.getElem?_eq_some_iff.mp hx
  have slot : ∃ y, (insertShift v.contents i)[j]? = some y ∧
      (y = x ↔ j ≤ i ∨ v.contents[j - 1]? = some x) := by
    rw [insertShift_getElem? _ _ _ hj]
    by_cases before : j ≤ i
    · exact ⟨x, by rw [if_pos before, hx], by simp [before]⟩
    · have hj' : j - 1 < v.contents.length := by omega
      refine ⟨v.contents[j - 1], by rw [if_neg before, List.getElem?_eq_getElem hj'], ?_⟩
      simp [before, List.getElem?_eq_getElem hj']
  cases hr : insertReallocates v with
  | false => simpa only [ElemPtr.read, StillThere, hr] using slot
  | true =>
    cases old with
    | inPlace => simpa only [ElemPtr.read, StillThere, hr] using slot
    | freed stale => exact ⟨stale j, rfl, by simp only [StillThere, hr]⟩

/-- `vec_insert` of an element of the vector inserts the value it had at the call if and only
if the memory it lay in still has it after the growth and the move. -/
theorem insert_own_iff (old : OldBlock α) (v : Vec α) (i j : Nat) (x : α) (m : Mem)
    (hi : i ≤ v.contents.length) (source : vecGetPtr (some v) j = some x) :
    ∃ st w m', vecInsertPtr old (some v) i (some (.inside j)) m = some (st, some w, m') ∧
      (st = .ok → (w.contents = v.contents.take i ++ x :: v.contents.drop i ↔
        StillThere old v i j x)) := by
  obtain ⟨st, w, m', grow, same⟩ := insertGrow_spec v m
  obtain ⟨y, read, still⟩ : ∃ y, ElemPtr.read (.inside j) old (insertReallocates v)
      (insertShift v.contents i) = some y ∧ (y = x ↔ StillThere old v i j x) :=
    read_inside_iff source
  simp only [vecInsertPtr, if_neg (Nat.not_lt.mpr hi), grow]
  cases st with
  | ok =>
    simp only [same, read, Option.bind_eq_bind, Option.bind_some]
    refine ⟨.ok, _, m', rfl, fun _ => ?_⟩
    rw [insertCopy_shift hi, List.append_cancel_left_eq, List.cons.injEq, ← still]
    exact ⟨And.left, fun h => ⟨h, rfl⟩⟩
  | notFound | duplicate | oom | invalid => exact ⟨_, w, m', rfl, by simp⟩

theorem insert_own_iff_ints : ∃ st w m',
    vecInsertPtr .inPlace (some ⟨0, some 1, [1, 2, 3], 16, 4, by decide⟩) 2 (some (.inside 0))
      (.start .generous) = some (st, some w, m') ∧
      (st = .ok → (w.contents = [1, 2, 1, 3] ↔
        StillThere .inPlace ⟨0, some 1, [1, 2, 3], 16, 4, by decide⟩ 2 0 1)) :=
  insert_own_iff .inPlace ⟨0, some 1, [1, 2, 3], 16, 4, by decide⟩ 2 0 1 (.start .generous)
    (by decide) rfl

/-- The last of three elements, inserted before them into a buffer with room: the second is. -/
theorem insert_own_moved : ∃ w m',
    vecGetPtr (some ⟨0, some 1, [1, 2, 3], 16, 4, by decide⟩) 2 = some 3 ∧
    vecInsertPtr .inPlace (some ⟨0, some 1, [1, 2, 3], 16, 4, by decide⟩) 0 (some (.inside 2))
      (.start .generous) = some (.ok, some w, m') ∧ w.contents = [2, 1, 2, 3] :=
  ⟨_, _, rfl, rfl, rfl⟩

end Seqc
