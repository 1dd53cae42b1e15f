import Seqc.Allocator
import Seqc.Lib.Ledger
import Mathlib.Algebra.BigOperators.Group.Multiset.Basic
import Mathlib.Tactic.Abel
import Mathlib.Tactic.Ring

/-! The protocol of the sized allocator: a block is given back, or to `mem_realloc`, with the
byte size it was handed out with. A NULL pointer may be freed with any size, and has size 0
for `mem_realloc`. -/

namespace Seqc
open Ledger

/-- Live blocks, each with its address and its byte size. -/
abbrev Blocks := Multiset (Nat × Nat)

/-- What an event does to the live blocks; it is impossible if it gives back a block that is
not live, or with another size. -/
def Event.act : Event → Blocks → Option Blocks
  | .alloc addr size, live => some ((addr, size) ::ₘ live)
  | .realloc none oldSize addr size, live =>
    if oldSize = 0 then some ((addr, size) ::ₘ live) else none
  | .realloc (some old) oldSize addr size, live =>
    if (old, oldSize) ∈ live then some ((addr, size) ::ₘ live.erase (old, oldSize)) else none
  | .free none _, live => some live
  | .free (some addr) size, live =>
    if (addr, size) ∈ live then some (live.erase (addr, size)) else none
  | .refused _, live => some live
  | .reallocRefused none oldSize _, live => if oldSize = 0 then some live else none
  | .reallocRefused (some old) oldSize _, live => if (old, oldSize) ∈ live then some live else none

/-- The live blocks after a log that keeps to the protocol. -/
def liveBlocks (events : List Event) : Option Blocks := replay Event.act events 0

/-- What an event adds to the count of live bytes of an allocator that trusts its callers. -/
def Event.bytes : Event → Int
  | .alloc _ size => size
  | .realloc _ oldSize _ size => size - oldSize
  | .free none _ => 0
  | .free (some _) size => -size
  | .refused _ => 0
  | .reallocRefused .. => 0

def liveBytes (events : List Event) : Int := (events.map Event.bytes).sum

def Blocks.bytes (live : Blocks) : Int := (live.map fun b => (b.2 : Int)).sum

theorem Event.act_bytes {e : Event} {live live' : Blocks} (h : e.act live = some live') :
    Blocks.bytes live' = Blocks.bytes live + e.bytes := by
  have gain (b : Nat × Nat) (rest : Blocks) :
      Blocks.bytes (b ::ₘ rest) = b.2 + Blocks.bytes rest := by simp [Blocks.bytes]
  have lose {b : Nat × Nat} (hb : b ∈ live) :
      Blocks.bytes live = b.2 + Blocks.bytes (live.erase b) := by
    rw [← gain, Multiset.cons_erase hb]
  cases e with
  | alloc addr size =>
    obtain rfl := Option.some.inj h
    rw [gain, Event.bytes]
    ring
  | realloc old oldSize addr size =>
    cases old with
    | none =>
      simp only [Event.act, Option.ite_none_right_eq_some, Option.some.injEq] at h
      obtain ⟨rfl, rfl⟩ := h
      rw [gain, Event.bytes]
      simp only [Nat.cast_zero]
      ring
    | some old =>
      simp only [Event.act, Option.ite_none_right_eq_some, Option.some.injEq] at h
      obtain ⟨there, rfl⟩ := h
      rw [gain, lose there, Event.bytes]
      ring
  | free addr size =>
    cases addr with
    | none =>
      obtain rfl := Option.some.inj h
      simp [Event.bytes]
    | some addr =>
      simp only [Event.act, Option.ite_none_right_eq_some, Option.some.injEq] at h
      obtain ⟨there, rfl⟩ := h
      rw [lose there, Event.bytes]
      ring
  | refused size =>
    obtain rfl := Option.some.inj h
    simp [Event.bytes]
  | reallocRefused old oldSize size =>
    cases old with
    | none =>
      simp only [Event.act, Option.ite_none_right_eq_some, Option.some.injEq] at h
      simp [h.2, Event.bytes]
    | some old =>
      simp only [Event.act, Option.ite_none_right_eq_some, Option.some.injEq] at h
      simp [h.2, Event.bytes]

/-- The count agrees with the live blocks of a log that keeps to the protocol. -/
theorem replay_bytes {events : List Event} {live live' : Blocks}
    (h : replay Event.act events live = some live') :
    Blocks.bytes live' = Blocks.bytes live + liveBytes events := by
  induction events generalizing live with
  | nil =>
    obtain rfl := Option.some.inj h
    simp [liveBytes]
  | cons e events ih =>
    obtain ⟨live₁, first, rest⟩ := Option.bind_eq_some_iff.mp h
    rw [ih rest, Event.act_bytes first]
    simp only [liveBytes, List.map_cons, List.sum_cons]
    ring

theorem liveBytes_eq {events : List Event} {live : Blocks} (h : liveBlocks events = some live) :
    liveBytes events = live.bytes := by
  have count := replay_bytes h
  simpa [Blocks.bytes] using count.symm

/-! ### What the calls do -/

/-- `m'` is reached from `m` by calls of the allocator. -/
inductive Mem.Later (m : Mem) : Mem → Prop
  | refl : Mem.Later m m
  | alloc {m' : Mem} (size : Nat) : Mem.Later m m' → Mem.Later m (memAlloc m' size).2
  | realloc {m' : Mem} (old : Option Nat) (oldSize size : Nat) :
      Mem.Later m m' → Mem.Later m (memRealloc m' old oldSize size).2
  | free {m' : Mem} (addr : Option Nat) (size : Nat) : Mem.Later m m' →
      Mem.Later m (memFree m' addr size)

/-- From `m` to `m'` the blocks `a` are traded for `b`, with any others live besides. -/
structure Mem.Trades (m : Mem) (a : Blocks) (m' : Mem) (b : Blocks) : Prop where
  later : m.Later m'
  log : ∃ events, m'.events = m.events ++ events ∧ Ledger.Trades Event.act events a b

section Trades
variable {m m₁ m' : Mem} {a b c : Blocks} {r : Option Nat}

theorem Mem.Later.trans (h : m.Later m₁) (h' : m₁.Later m') : m.Later m' := by
  induction h' with
  | refl => exact h
  | alloc size _ ih => exact ih.alloc size
  | realloc old oldSize size _ ih => exact ih.realloc old oldSize size
  | free addr size _ ih => exact ih.free addr size

theorem memAlloc_later {size : Nat} (h : memAlloc m size = (r, m')) : m.Later m' := by
  have step := Mem.Later.refl (m := m) |>.alloc size
  rwa [h] at step

theorem memRealloc_later {old : Option Nat} {oldSize size : Nat}
    (h : memRealloc m old oldSize size = (r, m')) : m.Later m' := by
  have step := Mem.Later.refl (m := m) |>.realloc old oldSize size
  rwa [h] at step

theorem memAlloc_requests {size : Nat} (h : memAlloc m size = (r, m')) :
    m'.requests = m.requests + 1 ∧ ∀ addr, r = some addr → addr = m.requests := by
  unfold memAlloc at h
  split at h <;> obtain ⟨rfl, rfl⟩ := Prod.mk.inj h <;> simp

theorem memRealloc_requests {old : Option Nat} {oldSize size : Nat}
    (h : memRealloc m old oldSize size = (r, m')) :
    m'.requests = m.requests + 1 ∧ ∀ addr, r = some addr → addr = m.requests := by
  unfold memRealloc at h
  split at h <;> obtain ⟨rfl, rfl⟩ := Prod.mk.inj h <;> simp

theorem Mem.Later.requests_le (h : m.Later m') : m.requests ≤ m'.requests := by
  induction h with
  | refl => exact Nat.le_refl _
  | alloc size _ ih => exact ih.trans (Nat.le.intro (memAlloc_requests rfl).1.symm)
  | realloc old oldSize size _ ih => exact ih.trans (Nat.le.intro (memRealloc_requests rfl).1.symm)
  | free addr size _ ih => exact ih

theorem Mem.Later.allocator_eq (h : m.Later m') : m'.allocator = m.allocator := by
  induction h with
  | refl => rfl
  | alloc size _ ih => exact (memAlloc_allocator rfl).trans ih
  | realloc old oldSize size _ ih => exact (memRealloc_allocator rfl).trans ih
  | free addr size _ ih => exact ih

theorem Mem.Trades.refl (m : Mem) (a : Blocks) : m.Trades a m a :=
  ⟨.refl, [], by simp, .nil a⟩

theorem Mem.Trades.trans (h : m.Trades a m₁ b) (h' : m₁.Trades b m' c) : m.Trades a m' c := by
  obtain ⟨es, log, trades⟩ := h.log
  obtain ⟨es', log', trades'⟩ := h'.log
  exact ⟨h.later.trans h'.later, es ++ es', by rw [log', log, List.append_assoc],
    trades.append trades'⟩

/-- The same trade among more blocks. -/
theorem Mem.Trades.within (h : m.Trades a m' b) (kept : Blocks) {a' b' : Blocks}
    (before : a' = a + kept) (after : b' = b + kept) : m.Trades a' m' b' := by
  obtain ⟨es, log, trades⟩ := h.log
  rw [before, after]
  exact ⟨h.later, es, log, trades.frame kept⟩

theorem Mem.Trades.liveBlocks_eq (h : m.Trades a m' b) {others : Blocks}
    (before : liveBlocks m.events = some (a + others)) :
    liveBlocks m'.events = some (b + others) := by
  obtain ⟨es, log, trades⟩ := h.log
  rw [liveBlocks, log, replay_append]
  simp only [liveBlocks] at before
  rw [before]
  exact trades others

theorem memAlloc_trades {size addr : Nat} (h : memAlloc m size = (some addr, m')) :
    m.Trades 0 m' {(addr, size)} := by
  refine ⟨memAlloc_later h, ?_⟩
  unfold memAlloc at h
  split at h
  · obtain ⟨here, rfl⟩ := Prod.mk.inj h
    obtain rfl := Option.some.inj here
    exact ⟨_, rfl, fun rest => by simp [replay, Event.act]⟩
  · simp at h

theorem memAlloc_refused {size : Nat} (h : memAlloc m size = (none, m')) : m.Trades 0 m' 0 := by
  refine ⟨memAlloc_later h, ?_⟩
  unfold memAlloc at h
  split at h
  · simp at h
  · obtain ⟨-, rfl⟩ := Prod.mk.inj h
    exact ⟨_, rfl, fun rest => by simp [replay, Event.act]⟩

theorem memFree_trades (m : Mem) (addr size : Nat) :
    m.Trades {(addr, size)} (memFree m (some addr) size) 0 :=
  ⟨Mem.Later.refl.free _ _, _, rfl, fun rest => by simp [replay, Event.act]⟩

theorem memRealloc_trades {old oldSize size addr : Nat}
    (h : memRealloc m (some old) oldSize size = (some addr, m')) :
    m.Trades {(old, oldSize)} m' {(addr, size)} := by
  refine ⟨memRealloc_later h, ?_⟩
  unfold memRealloc at h
  split at h
  · obtain ⟨here, rfl⟩ := Prod.mk.inj h
    obtain rfl := Option.some.inj here
    exact ⟨_, rfl, fun rest => by simp [replay, Event.act]⟩
  · simp at h

theorem memRealloc_null_trades {size addr : Nat} (h : memRealloc m none 0 size = (some addr, m')) :
    m.Trades 0 m' {(addr, size)} := by
  refine ⟨memRealloc_later h, ?_⟩
  unfold memRealloc at h
  split at h
  · obtain ⟨here, rfl⟩ := Prod.mk.inj h
    obtain rfl := Option.some.inj here
    exact ⟨_, rfl, fun rest => by simp [replay, Event.act]⟩
  · simp at h

theorem memRealloc_refused {old oldSize size : Nat}
    (h : memRealloc m (some old) oldSize size = (none, m')) :
    m.Trades {(old, oldSize)} m' {(old, oldSize)} := by
  refine ⟨memRealloc_later h, ?_⟩
  unfold memRealloc at h
  split at h
  · simp at h
  · obtain ⟨-, rfl⟩ := Prod.mk.inj h
    exact ⟨_, rfl, fun rest => by simp [replay, Event.act]⟩

theorem memRealloc_null_refused {size : Nat} (h : memRealloc m none 0 size = (none, m')) :
    m.Trades 0 m' 0 := by
  refine ⟨memRealloc_later h, ?_⟩
  unfold memRealloc at h
  split at h
  · simp at h
  · obtain ⟨-, rfl⟩ := Prod.mk.inj h
    exact ⟨_, rfl, fun rest => by simp [replay, Event.act]⟩

/-- The block of a buffer that may not have been allocated. -/
def bufferBlocks (addr : Option Nat) (size : Nat) : Blocks := addr.elim 0 fun addr => {(addr, size)}

/-- A buffer is requested anew; the size of none is 0. -/
theorem memRealloc_buffer {old : Option Nat} {oldSize size : Nat} {r : Option Nat}
    (null : old = none → oldSize = 0) (h : memRealloc m old oldSize size = (r, m')) :
    m.Trades (bufferBlocks old oldSize) m'
      (r.elim (bufferBlocks old oldSize) fun addr => {(addr, size)}) := by
  cases old with
  | none =>
    rw [null rfl] at h
    cases r with
    | none => exact memRealloc_null_refused h
    | some addr => exact memRealloc_null_trades h
  | some old =>
    cases r with
    | none => exact memRealloc_refused h
    | some addr => exact memRealloc_trades h

end Trades

end Seqc
