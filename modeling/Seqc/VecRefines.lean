import Seqc.VecBuffer

/-! The vector as a list with a capacity: which list every call leaves, when the
allocator is called, and that a reservation holds until the length reaches it. -/

namespace Seqc
open Runs Slots

variable {α : Type}

/-- A call of a list with a capacity; `granted` is what the allocator says if it is asked. -/
def vecListStep (granted : Bool) (op : VecCall α) (xs : List α) (cap : Nat) :
    Answer α × List α × Nat :=
  match op with
  | .push none => (.status .invalid, xs, cap)
  | .push (some x) =>
    if xs.length < cap then (.status .ok, xs ++ [x], cap)
    else if granted then (.status .ok, xs ++ [x], grownCap cap)
    else (.status .oom, xs, cap)
  | .pop out =>
    match xs.getLast? with
    | none => (.read .notFound none, xs, cap)
    | some x => (.read .ok (if out then some x else none), xs.dropLast, cap)
  | .get i out =>
    match xs[i]? with
    | none => (.read .notFound none, xs, cap)
    | some x => (.read .ok (if out then some x else none), xs, cap)
  | .set _ none => (.nothing, xs, cap)
  | .set i (some x) => (.nothing, xs.set i x, cap)
  | .insert _ none => (.status .invalid, xs, cap)
  | .insert i (some x) =>
    if xs.length < i then (.status .invalid, xs, cap)
    else if xs.length < cap then (.status .ok, xs.take i ++ [x] ++ xs.drop i, cap)
    else if granted then (.status .ok, xs.take i ++ [x] ++ xs.drop i, grownCap cap)
    else (.status .oom, xs, cap)
  | .remove i => (.nothing, if i < xs.length then xs.take i ++ xs.drop (i + 1) else xs, cap)
  | .truncate n => (.nothing, xs.take n, cap)
  | .clear => (.nothing, [], cap)
  | .reserve c =>
    if c ≤ cap then (.status .ok, xs, cap)
    else if granted then (.status .ok, xs, c)
    else (.status .oom, xs, cap)

/-- What the allocator says to a call, if it is asked. -/
def VecCall.granted (op : VecCall α) (len cap elemSize : Nat) (m : Mem) : Bool :=
  (op.wants len cap).all fun c => m.allocator.grants m.requests (mulSize c elemSize)

section Steps
variable {v v' : Vec α} {m m' : Mem} {out : Answer α}

theorem vecCallStep_spec (room : v.contents.length ≤ v.cap) (cap : v.cap < 2 ^ 63)
    (op : VecCall α) (h : vecCallStep op (some v) m = (out, some v', m')) :
    vecListStep (op.granted v.contents.length v.cap v.elemSize m) op v.contents v.cap =
        (out, v'.contents, v'.cap) ∧
      (op.wants v.contents.length v.cap = none → m' = m) := by
  cases op with
  | push elem =>
    cases elem with
    | none =>
      cases h
      exact ⟨rfl, fun _ => rfl⟩
    | some x =>
      by_cases full : v.contents.length = v.cap
      · have no_room : ¬v.contents.length < v.cap := by omega
        have wants : (VecCall.push (some x)).wants v.contents.length v.cap =
          some (grownCap v.cap) := if_pos full
        have answer := memRealloc_isSome m v.dataAddr (mulSize v.contents.length v.elemSize)
          (mulSize (grownCap v.cap) v.elemSize)
        simp only [vecCallStep, vecPush, vecGrow_full full cap] at h
        simp only [vecListStep, if_neg no_room, VecCall.granted, wants, Option.all_some, ← answer]
        rcases hm : memRealloc m v.dataAddr (mulSize v.contents.length v.elemSize)
          (mulSize (grownCap v.cap) v.elemSize) with ⟨_ | addr, m₁⟩ <;>
          · simp only [hm] at h
            cases h
            exact ⟨by simp, by simp⟩
      · have some_room : v.contents.length < v.cap := by omega
        simp only [vecCallStep, vecPush, vecGrow, if_neg full] at h
        cases h
        exact ⟨by simp [vecListStep, some_room], fun _ => rfl⟩
  | pop out =>
    cases hl : v.contents.getLast? with
    | none =>
      simp only [vecCallStep, vecPop, vecContents, hl] at h
      cases h
      exact ⟨by simp [vecListStep, hl], fun _ => rfl⟩
    | some x =>
      simp only [vecCallStep, vecPop, vecContents, hl] at h
      cases h
      exact ⟨by simp [vecListStep, hl], fun _ => rfl⟩
  | get i out =>
    cases hx : v.contents[i]? with
    | none =>
      simp only [vecCallStep, vecGet, vecGetPtr, vecContents, hx, seqcCopyOut] at h
      cases h
      exact ⟨by simp [vecListStep, hx], fun _ => rfl⟩
    | some x =>
      simp only [vecCallStep, vecGet, vecGetPtr, vecContents, hx, seqcCopyOut] at h
      cases h
      exact ⟨by simp [vecListStep, hx], fun _ => rfl⟩
  | set i elem =>
    cases elem with
    | none =>
      cases h
      exact ⟨rfl, fun _ => rfl⟩
    | some x =>
      cases h
      exact ⟨rfl, fun _ => rfl⟩
  | insert i elem =>
    cases elem with
    | none =>
      cases h
      exact ⟨rfl, fun _ => rfl⟩
    | some x =>
      by_cases outside : v.contents.length < i
      · simp only [vecCallStep, vecInsert, if_pos outside] at h
        cases h
        exact ⟨by simp [vecListStep, outside], fun _ => rfl⟩
      have inside : i ≤ v.contents.length := by omega
      by_cases full : v.contents.length = v.cap
      · have no_room : ¬v.contents.length < v.cap := by omega
        have wants : (VecCall.insert i (some x)).wants v.contents.length v.cap =
          some (grownCap v.cap) := if_pos ⟨inside, full⟩
        have answer := memRealloc_isSome m v.dataAddr (mulSize v.contents.length v.elemSize)
          (mulSize (grownCap v.cap) v.elemSize)
        simp only [vecCallStep, vecInsert_full full cap inside] at h
        simp only [vecListStep, if_neg outside, if_neg no_room, VecCall.granted, wants,
          Option.all_some, ← answer]
        rcases hm : memRealloc m v.dataAddr (mulSize v.contents.length v.elemSize)
          (mulSize (grownCap v.cap) v.elemSize) with ⟨_ | addr, m₁⟩ <;>
          · simp only [hm] at h
            cases h
            exact ⟨by simp [insertIdx_eq inside], by simp⟩
      · have some_room : v.contents.length < v.cap := by omega
        simp only [vecCallStep, vecInsert, if_neg outside, if_neg full, Option.map_some] at h
        cases h
        exact ⟨by simp [vecListStep, outside, some_room, insertIdx_eq inside], fun _ => rfl⟩
  | remove i =>
    cases h
    refine ⟨?_, fun _ => rfl⟩
    by_cases inside : i < v.contents.length
    · simp [vecListStep, inside, List.eraseIdx_eq_take_drop_succ]
    · simp [vecListStep, inside, List.eraseIdx_of_length_le (by omega : v.contents.length ≤ i)]
  | truncate n =>
    cases h
    exact ⟨rfl, fun _ => rfl⟩
  | clear =>
    cases h
    exact ⟨rfl, fun _ => rfl⟩
  | reserve c =>
    by_cases enough : c ≤ v.cap
    · simp only [vecCallStep, vecReserve, if_pos enough] at h
      cases h
      exact ⟨by simp [vecListStep, enough], fun _ => rfl⟩
    · have wants : (VecCall.reserve c : VecCall α).wants v.contents.length v.cap = some c :=
        if_pos (Nat.not_le.mp enough)
      have answer := memRealloc_isSome m v.dataAddr (mulSize v.contents.length v.elemSize)
        (mulSize c v.elemSize)
      simp only [vecCallStep, vecReserve, if_neg enough] at h
      simp only [vecListStep, if_neg enough, VecCall.granted, wants, Option.all_some, ← answer]
      rcases hm : memRealloc m v.dataAddr (mulSize v.contents.length v.elemSize)
        (mulSize c v.elemSize) with ⟨_ | addr, m₁⟩ <;>
        · simp only [hm] at h
          cases h
          exact ⟨by simp, by simp⟩

end Steps

/-! ### One call -/

/-- A status that reports a failure. -/
def Answer.Failed : Answer α → Prop
  | .status st => st ≠ .ok
  | .read st _ => st ≠ .ok
  | _ => False

section Calls
variable {xs ys : List α} {cap cap' : Nat} {out : Answer α} {op : VecCall α} {granted : Bool}

theorem vecListStep_cap (h : vecListStep granted op xs cap = (out, ys, cap')) : cap ≤ cap' := by
  have larger := grownCap_gt cap
  unfold vecListStep at h
  repeat' split at h
  all_goals
    cases h
    omega

theorem vecListStep_failed (h : vecListStep granted op xs cap = (out, ys, cap'))
    (failed : out.Failed) :
    ys = xs ∧ cap' = cap := by
  unfold vecListStep at h
  repeat' split at h
  all_goals
    cases h
    simp_all [Answer.Failed]

/-- What a call does that meets a vector with the elements `xs`, in memory `m`. -/
structure CallSpec (op : VecCall α) (b : VecBuf α) (xs : List α) (m : Mem) (out : Answer α)
    (b' : VecBuf α) (ys : List α) (m' : Mem) : Prop where
  holds : b'.Holds ys
  list : vecListStep (op.granted b.len b.cap b.elemSize m) op xs b.cap = (out, ys, b'.cap)
  quiet : op.wants b.len b.cap = none → m' = m

theorem CallSpec.cap_le {b b' : VecBuf α} {m m' : Mem} (h : CallSpec op b xs m out b' ys m') :
    b.cap ≤ b'.cap := vecListStep_cap h.list

theorem vecBufStep_spec {b : VecBuf α} (h : b.Holds xs) (op : VecCall α) (small : op.Small b)
    (m : Mem) :
    ∃ out b' ys m', vecBufStep op (b, m) = some (out, b', m') ∧
      CallSpec op b xs m out b' ys m' := by
  obtain ⟨out, b', ys, m', run, same, holds⟩ := simulated h op small m
  have room : (b.vec xs).contents.length ≤ (b.vec xs).cap := h.length ▸ h.room
  obtain ⟨list, quiet⟩ := vecCallStep_spec room h.cap_lt op same
  have length : (b.vec xs).contents.length = b.len := h.length.symm
  rw [length] at list quiet
  exact ⟨out, b', ys, m', run, holds, list, quiet⟩

end Calls

/-! ### Runs -/

section VecRuns
variable {b b' : VecBuf α} {xs : List α} {m m' : Mem}

/-- A list with a capacity, whatever the allocator says. -/
def ListSpec (g : List α × Nat) (op : VecCall α) (out : Answer α) (g' : List α × Nat) : Prop :=
  ∃ granted, vecListStep granted op g.1 g.2 = (out, g')

/-- A run in which every requested byte count is below 2^63. -/
abbrev SmallRun (ops : List (VecCall α)) (b : VecBuf α) (m : Mem) : Prop :=
  AllSteps vecBufStep (fun op s => op.Small s.1) ops (b, m)

theorem start_holds {elemSize : Nat} {capacity : Option Nat}
    (small : ∀ c ∈ capacity, c * elemSize < 2 ^ 63)
    (made : VecBuf.start α elemSize capacity m = (some b, m')) : b.Holds [] := by
  cases capacity with
  | none =>
    simp only [VecBuf.start, VecBuf.create] at made
    split at made
    · simp at made
    · rcases hm : memAlloc m sizeofVec with ⟨_ | addr, m₁⟩
      · simp [hm] at made
      · simp only [hm] at made
        cases made
        exact ⟨rfl, Nat.le_refl 0, fun _ => rfl, by simp⟩
  | some c =>
    simp only [VecBuf.start, VecBuf.createWithCap] at made
    split at made
    · simp at made
    split at made
    · simp at made
    · rcases hm : memAlloc m sizeofVec with ⟨_ | addr, m₁⟩
      · simp [hm] at made
      rcases hb : memAlloc m₁ (mulSize c elemSize) with ⟨_ | data, m₂⟩
      · simp [hm, hb] at made
      · simp only [hm, hb] at made
        cases made
        exact ⟨rfl, Nat.zero_le c, by simp, small c rfl⟩

theorem vecRun_spec {ops : List (VecCall α)} (h : b.Holds xs) (small : SmallRun ops b m) :
    ∃ outs b' m' ys, run vecBufStep ops (b, m) = some (outs, b', m') ∧ b'.Holds ys ∧
      SpecRun ListSpec (xs, b.cap) ops outs (ys, b'.cap) ∧ b.cap ≤ b'.cap := by
  have sim (op : VecCall α) (s : VecBuf α × Mem) (g : List α × Nat)
      (rel : s.1.Holds g.1 ∧ s.1.cap = g.2 ∧ b.cap ≤ g.2) (small : op.Small s.1) :
      ∃ out s' g', vecBufStep op s = some (out, s') ∧ ListSpec g op out g' ∧
        s'.1.Holds g'.1 ∧ s'.1.cap = g'.2 ∧ b.cap ≤ g'.2 := by
    obtain ⟨holds, same, more⟩ := rel
    obtain ⟨out, b', ys, m', step, call⟩ := vecBufStep_spec holds op small s.2
    have larger := call.cap_le
    refine ⟨out, (b', m'), (ys, b'.cap), step, ⟨_, same ▸ call.list⟩, call.holds, rfl, ?_⟩
    simp only
    omega
  obtain ⟨outs, ⟨b', m'⟩, ⟨ys, cap'⟩, ran, spec, holds, rfl, more⟩ :=
    run_refines_of sim (g := (xs, b.cap)) ⟨h, rfl, Nat.le_refl _⟩ small
  exact ⟨outs, b', m', ys, ran, holds, spec, more⟩

/-- With room an append or an insertion succeeds and does not call the allocator. -/
theorem room_grants (h : b.Holds xs) (room : b.len < b.cap) (x : α) (m : Mem) :
    (∃ b', vecBufStep (.push (some x)) (b, m) = some (.status .ok, b', m)) ∧
      ∀ i ≤ b.len, ∃ b', vecBufStep (.insert i (some x)) (b, m) = some (.status .ok, b', m) := by
  have length := h.length
  have some_room : xs.length < b.cap := by omega
  have not_full : b.len ≠ b.cap := by omega
  constructor
  · have wants : (VecCall.push (some x)).wants b.len b.cap = none := if_neg not_full
    obtain ⟨out, b', ys, m', step, call⟩ :=
      vecBufStep_spec h (.push (some x)) (by simp [VecCall.Small, wants]) m
    have list := call.list
    simp only [vecListStep, if_pos some_room] at list
    obtain rfl := (Prod.mk.inj list).1
    exact ⟨b', call.quiet wants ▸ step⟩
  · intro i inside
    have wants : (VecCall.insert i (some x)).wants b.len b.cap = none :=
      if_neg fun full => not_full full.2
    obtain ⟨out, b', ys, m', step, call⟩ :=
      vecBufStep_spec h (.insert i (some x)) (by simp [VecCall.Small, wants]) m
    have list := call.list
    simp only [vecListStep, if_neg (by omega : ¬xs.length < i), if_pos some_room] at list
    obtain rfl := (Prod.mk.inj list).1
    exact ⟨b', call.quiet wants ▸ step⟩

/-- A vector with a capacity of `c`: no push and no insertion fails or calls the allocator
before the length is `c`, whatever is called in between. -/
def Reserved (c : Nat) (b : VecBuf α) (m : Mem) : Prop :=
  ∀ ops outs b' m', SmallRun ops b m → run vecBufStep ops (b, m) = some (outs, b', m') →
    b'.len < c → ∀ x : α,
      (∃ b'', vecBufStep (.push (some x)) (b', m') = some (.status .ok, b'', m')) ∧
        ∀ i ≤ b'.len, ∃ b'', vecBufStep (.insert i (some x)) (b', m') = some (.status .ok, b'', m')

theorem reserved (h : b.Holds xs) {c : Nat} (room : c ≤ b.cap) : Reserved c b m := by
  intro ops outs b' m' small ran short x
  obtain ⟨_, b₁, m₁, ys, ran', holds, -, more⟩ := vecRun_spec h small
  obtain ⟨-, rfl, rfl⟩ : _ = outs ∧ b₁ = b' ∧ m₁ = m' := by simpa [ran] using ran'.symm
  exact room_grants holds (by omega) x m₁

/-- `vec_t` refines a list with a capacity over every run from its creation. At every
point of the run every call is answered without touching anything outside the buffer; a
call that fails leaves elements, length and capacity alone, no call lowers the capacity,
only what `wants` lists calls the allocator, and a reservation holds. -/
theorem vec_refines_list {elemSize : Nat} {capacity : Option Nat} {m₀ : Mem}
    (small : ∀ c ∈ capacity, c * elemSize < 2 ^ 63)
    (made : VecBuf.start α elemSize capacity m₀ = (some b, m)) (ops : List (VecCall α))
    (smallRun : SmallRun ops b m) :
    ∃ outs b' m' xs, run vecBufStep ops (b, m) = some (outs, b', m') ∧ b'.Holds xs ∧
      SpecRun ListSpec ([], b.cap) ops outs (xs, b'.cap) ∧
      ∀ op : VecCall α, op.Small b' → ∃ out b'' ys m'',
        vecBufStep op (b', m') = some (out, b'', m'') ∧ CallSpec op b' xs m' out b'' ys m'' ∧
        b'.cap ≤ b''.cap ∧ (out.Failed → ys = xs ∧ b''.len = b'.len ∧ b''.cap = b'.cap) ∧
        ∀ c, op = .reserve c → out = .status .ok → Reserved c b'' m'' := by
  obtain ⟨outs, b', m', xs, ran, holds, spec, -⟩ := vecRun_spec (start_holds small made) smallRun
  refine ⟨outs, b', m', xs, ran, holds, spec, fun op small => ?_⟩
  obtain ⟨out, b'', ys, m'', step, call⟩ := vecBufStep_spec holds op small m'
  refine ⟨out, b'', ys, m'', step, call, call.cap_le, fun failed => ?_, fun c reserve ok => ?_⟩
  · obtain ⟨rfl, same⟩ := vecListStep_failed call.list failed
    exact ⟨rfl, by rw [call.holds.length, holds.length], same⟩
  · subst reserve ok
    apply reserved call.holds
    have list := call.list
    have larger := call.cap_le
    simp only [vecListStep] at list
    split at list
    · omega
    · split at list
      · exact Nat.le_of_eq (Prod.mk.inj (Prod.mk.inj list).2).2
      · simp at list

/-- Room for one element is reserved; an insertion is refused its growth, and the next is not. -/
theorem vec_refines_list_ints :
    ∃ b' m' xs, run vecBufStep [.reserve 1, .push (some (7 : Int)), .insert 0 (some 8),
        .insert 0 (some 9), .remove 1]
        ((⟨0, none, fun _ => none, 0, 0, 4, by decide⟩ : VecBuf Int),
          (⟨refusingOnce 2, 1, [.alloc 0 48]⟩ : Mem)) =
        some ([.status .ok, .status .ok, .status .oom, .status .ok, .nothing], b', m') ∧
      b'.Holds xs ∧
      SpecRun ListSpec ([], 0) [.reserve 1, .push (some 7), .insert 0 (some 8),
        .insert 0 (some 9), .remove 1]
        [.status .ok, .status .ok, .status .oom, .status .ok, .nothing] (xs, b'.cap) := by
  have small : SmallRun [.reserve 1, .push (some (7 : Int)), .insert 0 (some 8),
      .insert 0 (some 9), .remove 1]
      (⟨0, none, fun _ => none, 0, 0, 4, by decide⟩ : VecBuf Int)
      (⟨refusingOnce 2, 1, [.alloc 0 48]⟩ : Mem) := by
    refine ⟨fun c hc => ?_, ?_⟩
    · obtain rfl : 1 = c := Option.some.inj hc
      decide
    rintro _ _ ⟨⟩
    refine ⟨fun c hc => absurd (show none = some c from hc) (by simp), ?_⟩
    rintro _ _ ⟨⟩
    refine ⟨fun c hc => ?_, ?_⟩
    · obtain rfl : 2 = c := Option.some.inj hc
      decide
    rintro _ _ ⟨⟩
    refine ⟨fun c hc => ?_, ?_⟩
    · obtain rfl : 2 = c := Option.some.inj hc
      decide
    rintro _ _ ⟨⟩
    exact ⟨fun c hc => absurd (show none = some c from hc) (by simp), fun _ _ _ => trivial⟩
  have made : VecBuf.start Int 4 none (.start (refusingOnce 2)) =
    (some ⟨0, none, fun _ => none, 0, 0, 4, by decide⟩,
      ⟨refusingOnce 2, 1, [.alloc 0 48]⟩) := rfl
  obtain ⟨outs, b', m', xs, ran, holds, spec, -⟩ := vec_refines_list (by simp) made _ small
  have answers : (run vecBufStep [.reserve 1, .push (some (7 : Int)), .insert 0 (some 8),
      .insert 0 (some 9), .remove 1]
      ((⟨0, none, fun _ => none, 0, 0, 4, by decide⟩ : VecBuf Int),
        (⟨refusingOnce 2, 1, [.alloc 0 48]⟩ : Mem))).map Prod.fst =
      some [.status .ok, .status .ok, .status .oom, .status .ok, .nothing] := rfl
  rw [ran, Option.map_some] at answers
  obtain rfl := Option.some.inj answers
  exact ⟨b', m', xs, ran, holds, spec⟩

end VecRuns

end Seqc
