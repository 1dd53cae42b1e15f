import Mathlib.Data.Nat.Fib.Basic
import Seqc.Avl
import Seqc.Omap

/-! The height of the balanced trees. A tree of height `h` has at least
`Fib (h + 2) - 1` nodes, which for a length that is a `size_t` gives
`h <= 1.44 * log2(n + 2)`. -/

namespace Seqc
open Comparator Runs ClassMap

variable {δ : Type}

/-- What is documented of the height reported and the length: the second bound is
`h <= 1.44 * log2(n + 2)` without logarithms. -/
structure HeightBounded (h : Int) (n : Nat) : Prop where
  nonneg : 0 ≤ h
  fib : Nat.fib (h.toNat + 2) - 1 ≤ n
  log : n < 2 ^ 64 → 2 ^ (100 * h.toNat) ≤ (n + 2) ^ 144

/-- One subtree has the height below the root, and the other at most one less. -/
theorem Avl.fib_le {t : Tree Int δ} (h : Avl t) : Nat.fib (t.height.toNat + 2) ≤ t.size + 1 := by
  induction t with
  | nil => simp [Tree.size]
  | node a i l d r ihl ihr =>
    obtain ⟨hl, hr, -, left, right⟩ := h
    have fewer := ihl hl
    have fewer' := ihr hr
    have posl := l.height_nonneg
    have posr := r.height_nonneg
    simp only [Tree.height, Tree.size]
    rcases le_total r.height l.height with high | high
    · have top : (1 + max l.height r.height).toNat + 2 = l.height.toNat + 1 + 2 := by omega
      have sum : Nat.fib (l.height.toNat + 1 + 2) =
          Nat.fib (l.height.toNat + 1) + Nat.fib (l.height.toNat + 2) := Nat.fib_add_two
      have below : Nat.fib (l.height.toNat + 1) ≤ Nat.fib (r.height.toNat + 2) :=
        Nat.fib_mono (by omega)
      rw [top, sum]
      omega
    · have top : (1 + max l.height r.height).toNat + 2 = r.height.toNat + 1 + 2 := by omega
      have sum : Nat.fib (r.height.toNat + 1 + 2) =
          Nat.fib (r.height.toNat + 1) + Nat.fib (r.height.toNat + 2) := Nat.fib_add_two
      have below : Nat.fib (r.height.toNat + 1) ≤ Nat.fib (l.height.toNat + 2) :=
        Nat.fib_mono (by omega)
      rw [top, sum]
      omega

/-- Heights that a `size_t` of nodes allows. -/
theorem height_lt_of_fib {h n : Nat} (fib : Nat.fib (h + 2) ≤ n + 1) (small : n < 2 ^ 64) :
    h < 92 := by
  by_contra tall
  have large : Nat.fib 94 ≤ Nat.fib (h + 2) := Nat.fib_mono (by omega)
  have value : 2 ^ 64 < Nat.fib 94 := by decide +kernel
  omega

/-- The numeric step to the logarithm, height by height. -/
theorem two_pow_le_fib : ∀ h < 92, 2 ^ (100 * h) ≤ (Nat.fib (h + 2) + 1) ^ 144 := by
  decide +kernel

theorem Avl.heightBounded {t : Tree Int δ} (h : Avl t) : HeightBounded (nodeHeight t) t.size := by
  rw [h.nodeHeight_eq]
  have fib := h.fib_le
  refine ⟨t.height_nonneg, by omega, fun small => ?_⟩
  calc 2 ^ (100 * t.height.toNat)
      ≤ (Nat.fib (t.height.toNat + 2) + 1) ^ 144 :=
        two_pow_le_fib _ (height_lt_of_fib fib small)
    _ ≤ (t.size + 2) ^ 144 := Nat.pow_le_pow_left (by omega) 144

/-- In every state of a run from `avl_create` or `omap_create`, the height reported is within
the documented bound. -/
theorem heights_bounded {α κ ν : Type} {cmp : α → α → Int} {keyCmp : κ → κ → Int}
    (laws : Laws cmp) (keyLaws : Laws keyCmp) :
    (∀ elemSize m₀ t₀ m₁, avlCreate α elemSize m₀ = (some t₀, m₁) → ∀ ops,
      ∃ outs t m, run (avlStep cmp) ops (t₀, m₁) = some (outs, (t, m)) ∧
        HeightBounded (avlHeight t) (avlLen t)) ∧
    (∀ keySize valSize m₀ map₀ m₁, omapCreate κ ν keySize valSize m₀ = (some map₀, m₁) → ∀ ops,
      ∃ outs map m, run (omapStep keyCmp) ops (map₀, m₁) = some (outs, (map, m)) ∧
        HeightBounded (omapHeight map) (omapLen map)) := by
  constructor
  · intro elemSize m₀ t₀ m₁ created ops
    obtain ⟨inv₀, start⟩ := avlCreate_spec cmp created
    obtain ⟨outs, ⟨t, m⟩, g, ran, -, inv, -⟩ := run_refines (avlStep cmp) (OrderedSetStep cmp)
      (avlStep_refines laws) ops (s := (t₀, m₁)) (g := ([], m₁.refusals)) ⟨inv₀, by rw [start]⟩
    refine ⟨outs, t, m, ran, ?_⟩
    rw [avlLen, inv.counted]
    exact inv.balanced.heightBounded
  · intro keySize valSize m₀ map₀ m₁ created ops
    obtain ⟨outs, map, m, g, ran, -, inv⟩ := omap_runs keyLaws created ops
    refine ⟨outs, map, m, ran, ?_⟩
    rw [omapLen, inv.counted]
    exact inv.balanced.heightBounded

theorem heights_bounded_ints :
    (∃ outs t m, run (avlStep intCmp) [.add (some 1), .add (some 2), .add (some 3)]
        (⟨0, .nil, 0, 8⟩, ⟨refusingOnce 9, 1, [.alloc 0 48]⟩) = some (outs, (t, m)) ∧
      HeightBounded (avlHeight t) (avlLen t)) ∧
    (∃ outs map m, run (omapStep (ν := Nat) intCmp) [.set (some 1) (some 10), .remove (some 1)]
        (⟨0, .nil, 0, 8, 8⟩, ⟨refusingOnce 9, 1, [.alloc 0 56]⟩) = some (outs, (map, m)) ∧
      HeightBounded (omapHeight map) (omapLen map)) :=
  have bounded := heights_bounded (ν := Nat) intCmp_laws intCmp_laws
  ⟨bounded.1 8 (.start (refusingOnce 9)) _ _ rfl _,
    bounded.2 8 8 (.start (refusingOnce 9)) _ _ rfl _⟩

/-- Called on a node whose subtrees are balanced and differ by two at most, whatever
height is stored in it, `rebalance` follows no NULL child. Its tree has the node's data
(an element in avl.c, a key with its value in omap.c) in order, and is at most one
higher than the subtrees. -/
theorem rebalance_restores (addr : Nat) (stored : Int) (l r : Tree Int δ) (d : δ) (hl : Avl l)
    (hr : Avl r) (apart : (l.height - r.height).natAbs ≤ 2) :
    ∃ t, rebalance (.node addr stored l d r) = some t ∧ Avl t ∧
      t.toList = (Tree.node addr stored l d r).toList ∧
      (t.height = max l.height r.height ∨ t.height = max l.height r.height + 1) ∧
      ((l.height - r.height).natAbs ≤ 1 → t.height = max l.height r.height + 1) := by
  obtain ⟨t, run, avl, data, low, high, level⟩ :=
    rebalance_spec addr stored d hl hr (by omega) (by omega)
  refine ⟨t, run, avl, data, by omega, fun close => ?_⟩
  exact level (by omega) (by omega)

theorem rebalance_restores_pairs :
    ∃ t, rebalance (.node 0 7 .nil (1, "a") (.node 1 2 .nil (2, "b")
        (.node 2 1 .nil (3, "c") .nil))) = some t ∧ Avl t ∧
      t.toList = [(1, "a"), (2, "b"), (3, "c")] ∧ t.height = 2 := by
  obtain ⟨t, run, avl, data, high, -⟩ := rebalance_restores 0 7 .nil
    (.node 1 2 .nil (2, "b") (.node 2 1 .nil (3, "c") .nil)) (1, "a") trivial
    (by simp [Avl, Tree.height]) (by decide)
  obtain rfl := Option.some.inj run
  exact ⟨_, rfl, avl, data, rfl⟩

end Seqc
