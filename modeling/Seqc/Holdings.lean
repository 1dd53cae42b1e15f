import Seqc.Ledger
import Seqc.Lib.Runs

/-! What a collection holds of the allocator in the runs of its operations: each operation
trades the blocks of the state before it for those of the state after it. -/

namespace Seqc
open Ledger Runs

/-- The blocks lie at different addresses, which were handed out before request `n`. -/
structure Blocks.Distinct (live : Blocks) (n : Nat) : Prop where
  nodup : (live.map Prod.fst).Nodup
  below : ∀ b ∈ live, b.1 < n

def Event.granted : Event → Option Nat
  | .alloc addr _ => some addr
  | .realloc _ _ addr _ => some addr
  | _ => none

section Distinct
variable {live live' : Blocks} {n n' : Nat} {m m' : Mem} {b : Blocks}

theorem Blocks.Distinct.of_le (d : live.Distinct n) (fewer : live' ≤ live) (more : n ≤ n') :
    live'.Distinct n' :=
  ⟨Multiset.nodup_of_le (Multiset.map_le_map fewer) d.nodup,
    fun b mem => (d.below b (Multiset.mem_of_le fewer mem)).trans_le more⟩

theorem Blocks.Distinct.cons (d : live.Distinct n) (size : Nat) :
    Blocks.Distinct ((n, size) ::ₘ live) (n + 1) := by
  refine ⟨?_, fun b mem => ?_⟩
  · rw [Multiset.map_cons, Multiset.nodup_cons]
    refine ⟨fun mem => ?_, d.nodup⟩
    obtain ⟨b, mem, same⟩ := Multiset.mem_map.mp mem
    exact absurd (d.below b mem) (by simp only [same, lt_irrefl, not_false_iff])
  · cases Multiset.mem_cons.mp mem with
    | inl same => simp [same]
    | inr mem => exact (d.below b mem).trans (Nat.lt_succ_self n)

/-- An event that hands out nothing, or the address of its request. -/
theorem Event.act_distinct {e : Event} (h : e.act live = some live') (d : live.Distinct n)
    (more : n ≤ n') (new : ∀ a, e.granted = some a → a = n ∧ n' = n + 1) : live'.Distinct n' := by
  cases e with
  | alloc addr size =>
    obtain ⟨rfl, rfl⟩ := new addr rfl
    obtain rfl := Option.some.inj h
    exact d.cons size
  | realloc old oldSize addr size =>
    obtain ⟨rfl, rfl⟩ := new addr rfl
    cases old with
    | none =>
      simp only [Event.act, Option.ite_none_right_eq_some, Option.some.injEq] at h
      obtain ⟨-, rfl⟩ := h
      exact d.cons size
    | some old =>
      simp only [Event.act, Option.ite_none_right_eq_some, Option.some.injEq] at h
      obtain ⟨-, rfl⟩ := h
      exact (d.of_le (Multiset.erase_le _ _) le_rfl).cons size
  | free addr size =>
    cases addr with
    | none =>
      obtain rfl := Option.some.inj h
      exact d.of_le le_rfl more
    | some addr =>
      simp only [Event.act, Option.ite_none_right_eq_some, Option.some.injEq] at h
      obtain ⟨-, rfl⟩ := h
      exact d.of_le (Multiset.erase_le _ _) more
  | refused size =>
    obtain rfl := Option.some.inj h
    exact d.of_le le_rfl more
  | reallocRefused old oldSize size =>
    cases old with
    | none =>
      simp only [Event.act, Option.ite_none_right_eq_some, Option.some.injEq] at h
      exact h.2 ▸ d.of_le le_rfl more
    | some old =>
      simp only [Event.act, Option.ite_none_right_eq_some, Option.some.injEq] at h
      exact h.2 ▸ d.of_le le_rfl more

/-- The log from `m` to `m'` keeps blocks different. -/
def KeepsDistinct (m m' : Mem) : Prop :=
  ∃ es, m'.events = m.events ++ es ∧ ∀ live live' : Blocks, live.Distinct m.requests →
    replay Event.act es live = some live' → live'.Distinct m'.requests

/-- One more event of the allocator. -/
theorem KeepsDistinct.concat {e : Event} {m₁ : Mem} (before : KeepsDistinct m m₁)
    (log : m'.events = m₁.events ++ [e]) (more : m₁.requests ≤ m'.requests)
    (new : ∀ a, e.granted = some a → a = m₁.requests ∧ m'.requests = m₁.requests + 1) :
    KeepsDistinct m m' := by
  obtain ⟨es, before, keep⟩ := before
  refine ⟨es ++ [e], by rw [log, before, List.append_assoc], fun live live' d ran => ?_⟩
  rw [replay_append] at ran
  obtain ⟨live₁, first, last⟩ := Option.bind_eq_some_iff.mp ran
  obtain ⟨live₂, acted, rfl⟩ : ∃ live₂, e.act live₁ = some live₂ ∧ live₂ = live' := by
    simpa [replay] using last
  exact Event.act_distinct acted (keep live live₁ d first) more new

theorem Mem.Later.distinct (h : m.Later m') : KeepsDistinct m m' := by
  induction h with
  | refl => exact ⟨[], by simp, fun live live' d ran => Option.some.inj ran ▸ d⟩
  | @alloc m₁ size _ ih =>
    by_cases granted : m₁.allocator.grants m₁.requests size
    · exact ih.concat (e := .alloc m₁.requests size) (by simp [memAlloc, granted])
        (by simp [memAlloc, granted]) (by simp [memAlloc, granted, Event.granted])
    · exact ih.concat (e := .refused size) (by simp [memAlloc, granted])
        (by simp [memAlloc, granted]) (by simp [Event.granted])
  | @realloc m₁ old oldSize size _ ih =>
    by_cases granted : m₁.allocator.grants m₁.requests size
    · exact ih.concat (e := .realloc old oldSize m₁.requests size) (by simp [memRealloc, granted])
        (by simp [memRealloc, granted]) (by simp [memRealloc, granted, Event.granted])
    · exact ih.concat (e := .reallocRefused old oldSize size) (by simp [memRealloc, granted])
        (by simp [memRealloc, granted]) (by simp [Event.granted])
  | free addr size _ ih =>
    exact ih.concat (e := .free addr size) rfl le_rfl (by simp [Event.granted])

/-- Blocks that were traded for nothing are all different. -/
theorem Mem.Trades.distinct (h : m.Trades 0 m' b) : b.Distinct m'.requests := by
  obtain ⟨es, log, trades⟩ := h.log
  obtain ⟨es', log', keep⟩ := h.later.distinct
  obtain rfl := List.append_cancel_left (log.symm.trans log')
  exact keep 0 b ⟨Multiset.nodup_zero, by simp⟩ trades.replay_eq

end Distinct

/-! ### Runs -/

variable {σ τ ι ω : Type}

/-- In every run from a creation the blocks got from the allocator are those that the state
refers to, each once, and its destruction gives all of them back. A creation that fails keeps
none. -/
structure OwnsInRuns (create : Mem → Option σ × Mem) (start : σ → Mem → τ)
    (step : ι → τ → Option (ω × τ)) (mem : τ → Mem) (blocks : τ → Blocks)
    (destroy : τ → Option Mem) : Prop where
  failed : ∀ m₀ m₁, create m₀ = (none, m₁) → m₀.Trades 0 m₁ 0
  runs : ∀ m₀ s₀ m₁ ops, create m₀ = (some s₀, m₁) →
    ∃ outs s, run step ops (start s₀ m₁) = some (outs, s) ∧ m₀.Trades 0 (mem s) (blocks s) ∧
      ((blocks s).map Prod.fst).Nodup ∧ ∃ m, destroy s = some m ∧ m₀.Trades 0 m 0

/-- An invariant under which each operation trades the blocks of the states. -/
theorem OwnsInRuns.of {create : Mem → Option σ × Mem} {start : σ → Mem → τ}
    {step : ι → τ → Option (ω × τ)} {mem : τ → Mem} {blocks : τ → Blocks}
    {destroy : τ → Option Mem} (I : τ → Prop)
    (created : ∀ m₀ r m₁, create m₀ = (r, m₁) →
      m₀.Trades 0 m₁ (r.elim 0 fun s => blocks (start s m₁)) ∧
        ∀ s, r = some s → I (start s m₁) ∧ mem (start s m₁) = m₁)
    (keep : ∀ op s, I s → ∃ out s', step op s = some (out, s') ∧ I s' ∧
      (mem s).Trades (blocks s) (mem s') (blocks s'))
    (closes : ∀ s, I s → ∃ m, destroy s = some m ∧ (mem s).Trades (blocks s) m 0) :
    OwnsInRuns create start step mem blocks destroy where
  failed m₀ m₁ h := (created m₀ none m₁ h).1
  runs m₀ s₀ m₁ ops h := by
    obtain ⟨trades₀, fresh⟩ := created m₀ (some s₀) m₁ h
    obtain ⟨inv₀, same⟩ := fresh s₀ rfl
    obtain ⟨outs, s, ran, inv, trades⟩ := run_invariant step
      (I := fun s => I s ∧ m₀.Trades 0 (mem s) (blocks s))
      (fun op s hs => by
        obtain ⟨out, s', call, inv', traded⟩ := keep op s hs.1
        exact ⟨out, s', call, inv', hs.2.trans traded⟩) ops
      (s := start s₀ m₁) ⟨inv₀, by rw [same]; exact trades₀⟩
    obtain ⟨m, destroyed, freed⟩ := closes s inv
    exact ⟨outs, s, ran, trades, trades.distinct.nodup, m, destroyed, trades.trans freed⟩

end Seqc
