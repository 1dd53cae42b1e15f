import Mathlib.Algebra.Order.Group.Multiset

/-! A ledger of what is live: each event of a log takes some of it away and adds to it, or
is impossible. What a part of the log does to its own is stated with any rest besides it,
so that parts compose. -/

namespace Ledger

variable {ε β : Type*} {act : ε → Multiset β → Option (Multiset β)} {es es' : List ε}
  {a b c : Multiset β}

/-- What is live after a log; `none` if some event is impossible. -/
def replay (act : ε → Multiset β → Option (Multiset β)) :
    List ε → Multiset β → Option (Multiset β)
  | [], live => some live
  | e :: es, live => (act e live).bind (replay act es)

/-- The events trade `a` for `b`, whatever else is live. -/
def Trades (act : ε → Multiset β → Option (Multiset β)) (es : List ε) (a b : Multiset β) : Prop :=
  ∀ rest, replay act es (a + rest) = some (b + rest)

theorem replay_append (live : Multiset β) :
    replay act (es ++ es') live = (replay act es live).bind (replay act es') := by
  induction es generalizing live with
  | nil => rfl
  | cons e es ih =>
    rw [List.cons_append, replay, replay, Option.bind_assoc]
    exact congrArg _ (funext ih)

theorem Trades.nil (a : Multiset β) : Trades act [] a a := fun _ => rfl

theorem Trades.append (h : Trades act es a b) (h' : Trades act es' b c) :
    Trades act (es ++ es') a c := by
  intro rest
  rw [replay_append, h rest]
  exact h' rest

theorem Trades.frame (h : Trades act es a b) (kept : Multiset β) :
    Trades act es (a + kept) (b + kept) := by
  intro rest
  rw [add_assoc, add_assoc]
  exact h (kept + rest)

theorem Trades.replay_eq (h : Trades act es a b) : replay act es a = some b := by
  simpa using h 0

end Ledger
