import Seqc.Ledger
import Seqc.Terminals

/-! What an iterator owns: the blocks it has requested and gives back when it is destroyed.
Each call trades the blocks of the state before it for those of the state after it. -/

namespace Seqc
open Iteration

variable {σ : Type*} {α β : Type} {m m₁ m' : Mem} {owned : σ → Blocks}

/-- The calls of an iterator keep to the protocol of the allocator, each with the blocks its
state owns, and `destroy` gives all of them back. -/
structure IterT.Custody (it : IterT σ β) (owned : σ → Blocks) : Prop where
  next : ∀ {fuel s x s'} {m m' : Mem}, it.next fuel s m = some (x, s', m') →
    m.Trades (owned s) m' (owned s')
  destroy : ∀ s (m : Mem), m.Trades (owned s) (it.destroy s m) 0

/-- Custody in the states that the iterator reaches from the one it is in. -/
def IterT.InCustody (it : IterT σ β) (owned : σ → Blocks) : Prop :=
  ∃ Good : σ → Prop, Good it.state ∧
    (∀ {fuel s x s'} {m m' : Mem}, Good s → it.next fuel s m = some (x, s', m') →
      Good s' ∧ m.Trades (owned s) m' (owned s')) ∧
    ∀ s (m : Mem), m.Trades (owned s) (it.destroy s m) 0

theorem IterT.Custody.here {it : IterT σ β} (h : it.Custody owned) : it.InCustody owned :=
  ⟨fun _ => True, trivial, fun _ call => ⟨trivial, h.next call⟩, h.destroy⟩

def iterBlocks (owned : σ → Blocks) : Option (IterT σ β) → Blocks
  | none => 0
  | some it => owned it.state

/-- An iterator with custody of its blocks. -/
structure OwnedIterT (σ : Type*) (β : Type) extends IterT σ β where
  owned : σ → Blocks
  custody : toIterT.Custody owned
  mono : Mono next
  quiet : ∀ s m, (destroy s m).refusals = m.refusals

namespace OwnedIterT

def blocks (it : OwnedIterT σ β) : Blocks := it.owned it.state

/-- The iterator after a call. -/
def after (it : OwnedIterT σ β) (s : σ) : OwnedIterT σ β :=
  { it with
    state := s
    custody := ⟨it.custody.next, it.custody.destroy⟩ }

end OwnedIterT

/-- Code that makes an iterator, or a failed one, with custody of its blocks. -/
structure IterMaker (σ : Type*) (β : Type) where
  make : Mem → Option (OwnedIterT σ β) × Mem
  trades : ∀ m : Mem, m.Trades 0 (make m).2 ((make m).1.elim 0 OwnedIterT.blocks)

theorem OwnedIterT.exists_custody (it : Option (OwnedIterT σ β)) :
    ∃ owned, (∀ i ∈ it.map toIterT, i.InCustody owned) ∧
      iterBlocks owned (it.map toIterT) = it.elim 0 blocks := by
  cases it with
  | none => exact ⟨fun _ => 0, by simp, rfl⟩
  | some it => exact ⟨it.owned, fun i hi => Option.some.inj hi ▸ it.custody.here, rfl⟩

theorem iterDestroy_trades {it : Option (IterT σ β)} (custody : ∀ i ∈ it, i.InCustody owned)
    (m : Mem) : m.Trades (iterBlocks owned it) (iterDestroy it m) 0 := by
  cases it with
  | none => exact .refl m 0
  | some it =>
    obtain ⟨-, -, -, destroy⟩ := custody it rfl
    exact destroy it.state m

/-- A loop over an iterator whose body trades what it holds. `I` may be said of the memory,
as long as it lasts. -/
theorem whileNext_trades {it : IterT σ β} {Good : σ → Prop}
    (calls : ∀ {fuel s x s'} {m m' : Mem}, Good s → it.next fuel s m = some (x, s', m') →
      Good s' ∧ m.Trades (owned s) m' (owned s'))
    {body : β → α → Mem → Bool × α × Mem} {H : α → Blocks} {I : α → Mem → Prop}
    (lasts : ∀ {a m m'}, I a m → m.Later m' → I a m')
    (keep : ∀ {x a m go a' m'}, I a m → body x a m = (go, a', m') →
      I a' m' ∧ m.Trades (H a) m' (H a'))
    {fuel : Nat} {s s' : σ} {a a' : α} (good : Good s) (start : I a m)
    (run : whileNext it.next body fuel s a m = some (a', s', m')) :
    Good s' ∧ I a' m' ∧ m.Trades (H a + owned s) m' (H a' + owned s') := by
  refine whileNext_keeps (J := fun s₁ a₁ m₁ => Good s₁ ∧ I a₁ m₁ ∧
    m.Trades (H a + owned s) m₁ (H a₁ + owned s₁)) ?_ fuel ⟨good, start, .refl m _⟩ run
  intro fuel s₁ a₁ m₁ x s₂ m₂ ⟨good, now, past⟩ call
  obtain ⟨good, step⟩ := calls good call
  have past := past.trans (step.within (H a₁) (add_comm _ _) (add_comm _ _))
  have now := lasts now step.later
  cases x with
  | none => exact ⟨good, now, past⟩
  | some x =>
    obtain ⟨now, turn⟩ := keep now (show body x a₁ m₂ = (_, _, _) from rfl)
    exact ⟨good, now, past.trans (turn.within (owned s₂) rfl rfl)⟩

theorem iterWhile_trades {it it' : Option (IterT σ β)} (custody : ∀ i ∈ it, i.InCustody owned)
    {body : β → α → Mem → Bool × α × Mem} {H : α → Blocks} {I : α → Mem → Prop}
    (lasts : ∀ {a m m'}, I a m → m.Later m' → I a m')
    (keep : ∀ {x a m go a' m'}, I a m → body x a m = (go, a', m') →
      I a' m' ∧ m.Trades (H a) m' (H a'))
    {fuel : Nat} {a a' : α} (start : I a m)
    (run : iterWhile fuel it body a m = some (a', it', m')) :
    I a' m' ∧ (∀ i ∈ it', i.InCustody owned) ∧
      m.Trades (H a + iterBlocks owned it) m' (H a' + iterBlocks owned it') := by
  cases it with
  | none =>
    obtain ⟨rfl, rfl, rfl⟩ : a = a' ∧ none = it' ∧ m = m' := by simpa [iterWhile] using run
    exact ⟨start, custody, .refl m _⟩
  | some it =>
    rcases hw : whileNext it.next body fuel it.state a m with _ | ⟨a₁, s, m₁⟩
    · simp [iterWhile, hw] at run
    · obtain ⟨rfl, rfl, rfl⟩ : a₁ = a' ∧ some { it with state := s } = it' ∧ m₁ = m' := by
        simpa [iterWhile, hw] using run
      obtain ⟨Good, good, calls, destroy⟩ := custody it rfl
      obtain ⟨good, now, trades⟩ := whileNext_trades (I := I) calls lasts keep good start hw
      refine ⟨now, fun i hi => ?_, trades⟩
      obtain rfl := Option.some.inj hi
      exact ⟨Good, good, calls, destroy⟩

end Seqc
