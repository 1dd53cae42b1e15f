import Mathlib.Algebra.Order.Ring.Int
import Seqc.IterSpec

/-! `iter_range` against the arithmetic sequence it stands for. The cursor is advanced
behind the value just read, so the last call that returns a value computes the first one
that is not in the range. -/

namespace Seqc
open Iteration

variable {start stop step cur : Int} {m m' : Mem} {it it' : Iter .longLong}

/-- The values between the cursor and the end, in the direction of the step. -/
def InRange (stop step x : Int) : Prop := (0 < step ∧ x < stop) ∨ (step < 0 ∧ stop < x)

/-- The number of values in the range, rounded up from the quotient of length and step. -/
def rangeCount (start stop step : Int) : Nat :=
  if 0 < step then ((stop - start + step - 1) / step).toNat
  else if step < 0 then ((start - stop + -step - 1) / -step).toNat
  else 0

/-- The iterator returns the values in the range, in order, then false for ever, and no
call is undefined. -/
def RangeYields (start stop step : Int) (it : Iter .longLong) (m : Mem) : Prop :=
  ∃ n it', Yields (Iter.call .longLong) it m
      ((List.range n).map fun k : Nat => start + k * step) it' m ∧
    (∀ k : Nat, k < n ↔ InRange stop step (start + k * step)) ∧ it'.Ended

theorem lt_ceil_iff {len step : Int} (pos : 0 < step) (k : Nat) :
    k < ((len + step - 1) / step).toNat ↔ k * step < len := by
  rw [Int.lt_toNat, Int.lt_iff_add_one_le, Int.le_ediv_iff_mul_le pos, add_mul, one_mul]
  omega

theorem lt_rangeCount (start stop step : Int) (k : Nat) :
    k < rangeCount start stop step ↔ InRange stop step (start + k * step) := by
  unfold rangeCount InRange
  rcases lt_trichotomy 0 step with up | rfl | down
  · rw [if_pos up, lt_ceil_iff up]
    omega
  · simp
  · rw [if_neg (by omega), if_pos down, lt_ceil_iff (by omega), mul_neg]
    omega

/-! ### Single calls -/

theorem rangeNext_inRange (h : InRange stop step cur) :
    rangeNext ⟨cur, stop, step⟩ =
      if fitsLongLong (cur + step) then some (some cur, ⟨cur + step, stop, step⟩) else none := by
  unfold InRange at h
  simp only [rangeNext]
  rw [if_neg (by omega), if_neg (by omega)]

theorem rangeNext_past (moves : step ≠ 0) (h : ¬InRange stop step cur) :
    rangeNext ⟨cur, stop, step⟩ = some (none, ⟨cur, stop, step⟩) := by
  unfold InRange at h
  simp only [rangeNext]
  split
  · rfl
  · rw [if_pos (by omega)]

theorem range_returns {addr : Nat} {state : RangeState} {out : Option Int} :
    Returns (Iter.call .longLong) (.range addr state) m out it' m' ↔
      ∃ state', rangeNext state = some (out, state') ∧ it' = .range addr state' ∧ m' = m := by
  constructor
  · rintro ⟨fuel, h⟩
    cases fuel with
    | zero => simp [Iter.next] at h
    | succ fuel =>
      rw [Iter.call, Iter.next] at h
      match hn : rangeNext state with
      | none => simp [hn] at h
      | some (x, state') =>
        obtain ⟨rfl, rfl, rfl⟩ : x = out ∧ Iter.range addr state' = it' ∧ m = m' := by
          simpa [hn] using h
        exact ⟨state', rfl, rfl, rfl⟩
  · rintro ⟨state', h, rfl, rfl⟩
    exact ⟨1, by simp [Iter.call, Iter.next, h]⟩

/-- A range past its end stays there. -/
theorem range_ended {addr : Nat} (moves : step ≠ 0) (h : ¬InRange stop step cur) :
    (Iter.range addr ⟨cur, stop, step⟩).Ended := by
  refine ⟨fun it => it = .range addr ⟨cur, stop, step⟩, rfl, ?_⟩
  rintro it rfl m
  exact ⟨_, m, range_returns.mpr ⟨_, rangeNext_past moves h, rfl, rfl⟩, rfl⟩

/-! ### Runs up to the end -/

/-- `cur + k * step` for `k < n`, from the first one on. -/
theorem range_values (cur step : Int) (n : Nat) :
    (List.range (n + 1)).map (fun k : Nat => cur + k * step) =
      cur :: (List.range n).map fun k : Nat => cur + step + k * step := by
  rw [List.range_succ_eq_map, List.map_cons, List.map_map]
  congr 1
  · simp
  · apply List.map_congr_left
    intro k _
    simp only [Function.comp_apply]
    push_cast
    ring

theorem inRange_shift {n : Nat}
    (values : ∀ k : Nat, k < n + 1 ↔ InRange stop step (cur + k * step)) (k : Nat) :
    k < n ↔ InRange stop step (cur + step + k * step) := by
  have next := values (k + 1)
  rw [Nat.add_lt_add_iff_right] at next
  rwa [add_assoc cur, ← one_add_mul, add_comm 1, ← Nat.cast_succ]

/-- If the first value past the end fits, every value before it does, and so the calls are
defined. -/
theorem range_yields (addr n : Nat) (moves : step ≠ 0) :
    ∀ cur, (∀ k : Nat, k < n ↔ InRange stop step (cur + k * step)) → fitsLongLong cur →
      fitsLongLong (cur + n * step) →
      Yields (Iter.call .longLong) (.range addr ⟨cur, stop, step⟩) m
        ((List.range n).map fun k : Nat => cur + k * step)
        (.range addr ⟨cur + n * step, stop, step⟩) m := by
  induction n with
  | zero =>
    intro cur values _ _
    have past : ¬InRange stop step cur := by simpa using values 0
    refine .ended (range_returns.mpr ⟨_, rangeNext_past moves past, ?_, rfl⟩)
    simp
  | succ n ih =>
    intro cur values fits last
    have here : InRange stop step cur := by simpa using values 0
    have split : cur + step + n * step = cur + (n + 1 : Nat) * step := by
      push_cast
      ring
    have fits' : fitsLongLong (cur + step) := by
      unfold fitsLongLong at *
      rw [← split] at last
      rcases lt_or_gt_of_ne moves with down | up
      · have : n * step ≤ 0 := mul_nonpos_of_nonneg_of_nonpos (Int.natCast_nonneg n) down.le
        omega
      · have : 0 ≤ n * step := mul_nonneg (Int.natCast_nonneg n) up.le
        omega
    have first := rangeNext_inRange here
    rw [if_pos fits'] at first
    rw [range_values, ← split]
    refine .item (range_returns.mpr ⟨_, first, rfl, rfl⟩) ?_
    exact ih (cur + step) (inRange_shift values) fits' (by rwa [split])

/-- If the calls are defined, the first value past the end was computed. -/
theorem fits_of_yields {addr : Nat} (n : Nat) :
    ∀ cur, (∀ k : Nat, k < n ↔ InRange stop step (cur + k * step)) → fitsLongLong cur →
      Yields (Iter.call .longLong) (.range addr ⟨cur, stop, step⟩) m
        ((List.range n).map fun k : Nat => cur + k * step) it' m' →
      fitsLongLong (cur + n * step) := by
  induction n with
  | zero =>
    intro cur _ fits _
    simpa using fits
  | succ n ih =>
    intro cur values fits run
    have here : InRange stop step cur := by simpa using values 0
    rw [range_values] at run
    cases run with
    | item returns rest =>
      obtain ⟨state, call, rfl, rfl⟩ := range_returns.mp returns
      rw [rangeNext_inRange here] at call
      split at call
      · rename_i fits'
        obtain ⟨-, rfl⟩ := Prod.mk.inj (Option.some.inj call)
        have later := ih (cur + step) (inRange_shift values) fits' rest
        rwa [add_assoc, ← one_add_mul, add_comm 1, ← Nat.cast_succ] at later
      · cases call

theorem rangeStart_of_ne (moves : step ≠ 0) : rangeStart start stop step = ⟨start, stop, step⟩ :=
  if_neg moves

theorem iterRange_made (made : iterRange start stop step m = (it, m'))
    (valid : it.isValid = true) : ∃ addr, it = .range addr (rangeStart start stop step) := by
  unfold iterRange withState at made
  split at made
  · obtain ⟨rfl, -⟩ := Prod.mk.inj made
    simp [Iter.isValid] at valid
  · rename_i addr _ _
    exact ⟨addr, (Prod.mk.inj made).1.symm⟩

/-- `iter_range` yields the range, without an overflow in any call, exactly if the first
value at or past the end fits in `long long`. -/
theorem iterRange_yields_iff (start stop step : Int) (startFits : fitsLongLong start)
    (m m' : Mem) (it : Iter .longLong) (made : iterRange start stop step m = (it, m'))
    (valid : it.isValid = true) :
    RangeYields start stop step it m' ↔
      fitsLongLong (start + rangeCount start stop step * step) := by
  obtain ⟨addr, rfl⟩ := iterRange_made made valid
  have counted := lt_rangeCount start stop step
  by_cases zero : step = 0
  · subst zero
    have past : ¬InRange start 1 start := by simp [InRange]
    simp only [mul_zero, add_zero, startFits, iff_true]
    refine ⟨0, .range addr ⟨start, start, 1⟩, .ended ?_, fun k => ?_, ?_⟩
    · exact range_returns.mpr ⟨_, rangeNext_past one_ne_zero past, rfl, rfl⟩
    · simp [InRange]
    · exact range_ended one_ne_zero past
  · rw [rangeStart_of_ne zero]
    constructor
    · rintro ⟨n, it', run, values, -⟩
      have same : n = rangeCount start stop step := by
        apply Nat.le_antisymm
        · exact Nat.le_of_not_lt fun less =>
            lt_irrefl _ ((counted _).mpr ((values _).mp less))
        · exact Nat.le_of_not_lt fun less => lt_irrefl _ ((values _).mpr ((counted _).mp less))
      rw [← same]
      exact fits_of_yields n start values startFits run
    · intro fits
      refine ⟨_, _, range_yields addr _ zero start counted startFits fits, counted, ?_⟩
      exact range_ended zero fun past => lt_irrefl _ ((counted _).mpr past)

theorem iterRange_yields_iff_down :
    RangeYields (-2 ^ 63) 5 (-2) (.range 0 ⟨-2 ^ 63, 5, -2⟩)
        (iterRange (-2 ^ 63) 5 (-2) (.start .generous)).2 ↔
      fitsLongLong (-2 ^ 63 + rangeCount (-2 ^ 63) 5 (-2) * -2) :=
  iterRange_yields_iff _ _ _ (by decide) (.start .generous) _ _ rfl rfl

/-- From `LLONG_MAX - 1` by steps of 2, the cursor overflows behind the only value. -/
theorem iterRange_overflows :
    ∃ it m', iterRange (2 ^ 63 - 2) (2 ^ 63 - 1) 2 (.start .generous) = (it, m') ∧
      it.isValid = true ∧ ¬RangeYields (2 ^ 63 - 2) (2 ^ 63 - 1) 2 it m' := by
  refine ⟨_, _, rfl, rfl, ?_⟩
  rintro ⟨n, it', run, values, -⟩
  have undefined (out : Option Int) (it' : Iter .longLong) (m m' : Mem) :
      ¬Returns (Iter.call .longLong) (.range 0 (rangeStart (2 ^ 63 - 2) (2 ^ 63 - 1) 2)) m out it'
        m' := by
    rw [range_returns]
    rintro ⟨state, call, -⟩
    have overflow : rangeNext (rangeStart (2 ^ 63 - 2) (2 ^ 63 - 1) 2) = none := by decide
    rw [overflow] at call
    cases call
  generalize (List.range n).map _ = xs at run
  cases run with
  | ended returns => exact undefined _ _ _ _ returns
  | item returns _ => exact undefined _ _ _ _ returns

end Seqc
