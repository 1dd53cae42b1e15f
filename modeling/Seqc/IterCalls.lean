import Seqc.Iter
import Seqc.Lib.Adaptors

/-! A larger bound changes no call of an iterator, and what one call of each adaptor does
in terms of the calls it makes. -/

namespace Seqc
open Iteration

variable {s t : ElemType}

/-- `next` for one type of elements. -/
abbrev Iter.call (t : ElemType) (fuel : Nat) (it : Iter t) (m : Mem) :
    Option (Option t.Val × Iter t × Mem) := it.next fuel m

/-! ### Larger bounds -/

theorem bind_mono {α β : Type*} {x x' : Option α} {f f' : α → Option β} {r : β}
    (h : x.bind f = some r) (le : ∀ a, x = some a → x' = some a)
    (le' : ∀ a, f a = some r → f' a = some r) : x'.bind f' = some r := by
  obtain ⟨a, hx, ha⟩ := Option.bind_eq_some_iff.mp h
  rw [le a hx]
  exact le' a ha

theorem Iter.next_mono (fuel : Nat) :
    ∀ {t : ElemType} (it : Iter t) (m : Mem) r, it.next fuel m = some r →
      it.next (fuel + 1) m = some r := by
  induction fuel with
  | zero =>
    intro t it m r h
    simp [next] at h
  | succ fuel ih =>
    intro t it m r h
    cases it with
    | failed => exact h
    | fromSlice addr contents pos => exact h
    | fromSliceRev addr contents pos => exact h
    | generate addr fn ctx => exact h
    | range addr state => exact h
    | split addr state => exact h
    | foreign it =>
      rw [next] at h ⊢
      cases hn : it.next fuel it.state m with
      | none => simp [hn] at h
      | some r => simpa only [it.mono _ _ _ _ hn, hn] using h
    | filter addr source pred =>
      rw [next] at h ⊢
      refine bind_mono h (ih source m) ?_
      rintro ⟨x, source, m⟩ h
      cases x with
      | none => exact h
      | some x =>
        cases keep : pred x with
        | true => simpa [keep] using h
        | false => simpa [keep] using ih _ _ _ (by simpa [keep] using h)
    | map addr inBuf source fn =>
      rw [next] at h ⊢
      exact bind_mono h (ih source m) fun _ h => h
    | take addr source remaining =>
      rw [next] at h ⊢
      by_cases zero : remaining = 0
      · rwa [if_pos zero] at h ⊢
      · rw [if_neg zero] at h ⊢
        exact bind_mono h (ih source m) fun _ h => h
    | takeWhile addr source pred =>
      rw [next] at h ⊢
      exact bind_mono h (ih source m) fun _ h => h
    | skip addr source remaining =>
      rw [next] at h ⊢
      refine bind_mono h (ih source m) ?_
      rintro ⟨x, source, m⟩ h
      by_cases zero : remaining = 0
      · simpa [zero] using h
      · cases x with
        | none => exact h
        | some x => simpa [zero] using ih _ _ _ (by simpa [zero] using h)
    | skipWhile addr source pred doneSkipping =>
      rw [next] at h ⊢
      refine bind_mono h (ih source m) ?_
      rintro ⟨x, source, m⟩ h
      cases x with
      | none => exact h
      | some x =>
        cases stop : doneSkipping || !pred x with
        | true => simpa [stop] using h
        | false => simpa [stop] using ih _ _ _ (by simpa [stop] using h)
    | chain addr first second doneFirst =>
      rw [next] at h ⊢
      cases doneFirst with
      | true => exact bind_mono h (ih second m) fun _ h => h
      | false =>
        refine bind_mono h (ih first m) ?_
        rintro ⟨x, first, m⟩ h
        cases x with
        | none => exact ih _ _ _ h
        | some x => exact h
    | zip addr bufA a b =>
      rw [next] at h ⊢
      refine bind_mono h (ih a m) ?_
      rintro ⟨x, a, m⟩ h
      cases x with
      | none => exact h
      | some x => exact bind_mono h (ih b m) fun _ h => h
    | enumerate addr buf source index =>
      rw [next] at h ⊢
      exact bind_mono h (ih source m) fun _ h => h
    | window addr buf source n contents primed =>
      rw [next] at h ⊢
      by_cases zero : n = 0
      · rwa [if_pos zero] at h ⊢
      · rw [if_neg zero] at h ⊢
        cases primed with
        | true => exact bind_mono h (ih source m) fun _ h => h
        | false => exact bind_mono h (readUpTo_le ih n source m) fun _ h => h
    | chunks addr buf source n done =>
      rw [next] at h ⊢
      cases done with
      | true => exact h
      | false => exact bind_mono h (readUpTo_le ih n source m) fun _ h => h
    | peekable addr buf source peeked sourceDone =>
      cases peeked with
      | some x => exact h
      | none =>
        cases sourceDone with
        | true => exact h
        | false =>
          rw [next] at h ⊢
          exact bind_mono h (ih source m) fun _ h => h
    | dedup addr lastBuf source cmp last =>
      rw [next] at h ⊢
      refine bind_mono h (ih source m) ?_
      rintro ⟨x, source, m⟩ h
      cases x with
      | none => exact h
      | some x =>
        cases last with
        | none => exact h
        | some y =>
          by_cases differ : cmp x y ≠ 0
          · simpa [differ] using h
          · simpa [differ] using ih _ _ _ (by simpa [differ] using h)
    | flatMap addr elemBuf source fn after sub subActive =>
      rw [next] at h ⊢
      cases subActive with
      | true =>
        refine bind_mono h (ih sub m) ?_
        rintro ⟨y, sub, m⟩ h
        cases y with
        | none => exact ih _ _ _ h
        | some y => exact h
      | false =>
        refine bind_mono h (ih source m) ?_
        rintro ⟨x, source, m⟩ h
        cases x with
        | none => exact h
        | some x => exact ih _ _ _ h

end Seqc
