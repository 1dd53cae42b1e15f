import Seqc.SetRun
import Seqc.Bstree
import Seqc.HashmapRun
import Seqc.Omap
import Seqc.Stack
import Seqc.RingbufRun
import Seqc.QueueRun
import Seqc.List
import Seqc.Dlist
import Mathlib.Data.Multiset.Pairwise

/-! One collection in the place of another. The collections that keep the same thing answer the
same calls alike, whatever their layout, their hash function or the shape of their trees, until
one of them is refused a request. -/

namespace Seqc

open Runs ClassMap Comparator

/-! ### Sets -/

section Sets
variable {α : Type} {cmp : α → α → Int} {xs ys : List α} {n k : Nat}

/-- The same operation on a tree. -/
def SetOp.onAvl : SetOp α → AvlOp α
  | .add elem => .add elem
  | .contains elem => .contains elem
  | .remove elem => .remove elem
  | .clear => .clear

/-- `set_remove` finds no NULL; the trees do not look for one. -/
def SetOp.setAnswer : SetOp α → Answer α → Answer α
  | .remove none, _ => .status .notFound
  | _, out => out

theorem SetOp.setAnswer_ne (op : SetOp α) {out : Answer α} (fine : out ≠ .status .oom) :
    op.setAnswer out ≠ .status .oom := by
  unfold setAnswer
  split
  · simp
  · exact fine

/-- Two sets hold the same elements, of pairwise different classes. -/
def SameClasses (eq : α → α → Bool) (g g' : Multiset α × Nat) : Prop :=
  g'.1 = g.1 ∧ g.1.Pairwise fun a b => eq a b = false

/-- Sets of the same elements answer alike and keep the same elements. -/
theorem ClassSetStep.agree {eq : α → α → Bool} (laws : EqLaws eq) {op : SetOp α}
    {out out' : Answer α} {S : Multiset α} {g g' : Multiset α × Nat}
    (apart : S.Pairwise fun a b => eq a b = false) (h : ClassSetStep eq (S, n) op out g)
    (h' : ClassSetStep eq (S, k) op out' g') (fine : out ≠ .status .oom)
    (fine' : out' ≠ .status .oom) :
    out' = out ∧ g'.1 = g.1 ∧ g.1.Pairwise fun a b => eq a b = false := by
  have contra {x : α} (present : ∃ y ∈ S, eq y x = true) (absent : ∀ y ∈ S, eq y x = false) :
      False := by
    obtain ⟨y, hy, equal⟩ := present
    simp [absent y hy] at equal
  cases h with
  | addOk _ _ x absent =>
    cases h' with
    | addOk =>
      obtain ⟨xs, rfl, pairs⟩ := apart
      exact ⟨rfl, rfl, x :: xs, rfl, List.pairwise_cons.mpr
        ⟨fun y hy => laws.symm_false (absent y (Multiset.mem_coe.mpr hy)), pairs⟩⟩
    | addDuplicate _ _ _ present => exact (contra present absent).elim
    | addOom => exact absurd rfl fine'
  | addDuplicate _ _ x present =>
    cases h' with
    | addOk _ _ _ absent => exact (contra present absent).elim
    | addDuplicate => exact ⟨rfl, rfl, apart⟩
    | addOom => exact absurd rfl fine'
  | addOom => exact absurd rfl fine
  | addInvalid | containsInvalid | removeInvalid =>
    cases h'
    exact ⟨rfl, rfl, apart⟩
  | contains _ _ x b here =>
    cases h' with
    | contains _ _ _ b' here' =>
      have same : b' = b := Bool.eq_iff_iff.mpr (here'.trans here.symm)
      exact ⟨by rw [same], rfl, apart⟩
  | removeHit S₁ _ x y equal =>
    generalize whole : y ::ₘ S₁ = S at h' apart contra
    cases h' with
    | removeHit S₂ _ _ z equal' =>
      have symm : Std.Symm fun a b => eq a b = false := ⟨fun _ _ => laws.symm_false⟩
      have one : y = z := by
        by_contra other
        have unequal := Multiset.Pairwise.forall apart (whole ▸ Multiset.mem_cons_self y S₁)
          (Multiset.mem_cons_self z S₂) other
        simp [laws.trans _ _ _ equal (laws.symm _ _ equal')] at unequal
      subst one
      obtain rfl := (Multiset.cons_inj_right y).mp whole
      obtain ⟨xs, split, pairs⟩ := apart
      obtain ⟨pre, post, rfl⟩ := List.append_of_mem
        (Multiset.mem_coe.mp (split ▸ Multiset.mem_cons_self y S₁))
      refine ⟨rfl, rfl, pre ++ post, ?_, pairs.sublist (by simp)⟩
      rw [← Multiset.cons_inj_right y, split, Multiset.cons_coe, Multiset.coe_eq_coe]
      exact List.perm_middle
    | removeMiss _ _ _ absent =>
      exact (contra ⟨y, whole ▸ Multiset.mem_cons_self y S₁, equal⟩ absent).elim
  | removeMiss _ _ x absent =>
    cases h' with
    | removeHit S₂ _ _ z equal =>
      exact (contra ⟨z, Multiset.mem_cons_self z S₂, equal⟩ absent).elim
    | removeMiss => exact ⟨rfl, rfl, apart⟩
  | clear =>
    cases h'
    exact ⟨rfl, rfl, [], rfl, .nil⟩

/-- What a tree does is what a set of classes does. -/
theorem OrderedSetStep.classes (laws : Laws cmp) {op : SetOp α} {out : Answer α}
    {g : List α × Nat} (h : OrderedSetStep cmp (xs, n) op.onAvl out g) :
    ClassSetStep (sameKey cmp) ((xs : Multiset α), n) op (op.setAnswer out)
      ((g.1 : Multiset α), g.2) := by
  have equal {x y : α} : sameKey cmp y x = true ↔ cmp x y = 0 := by
    simp only [sameKey, decide_eq_true_eq]
    exact ⟨laws.eq_symm, laws.eq_symm⟩
  have unequal {x : α} {zs : List α} (absent : ∀ y ∈ zs, cmp x y ≠ 0) :
      ∀ y ∈ (zs : Multiset α), sameKey cmp y x = false := fun y hy => by
    rw [← Bool.not_eq_true, equal]
    exact absent y (Multiset.mem_coe.mp hy)
  have middle (pre post : List α) (y : α) :
      ((pre ++ y :: post : List α) : Multiset α) = y ::ₘ (pre ++ post : List α) :=
    Multiset.coe_eq_coe.mpr List.perm_middle
  cases op with
  | add elem =>
    cases h with
    | addOk pre post _ x absent =>
      rw [middle]
      exact .addOk _ n x (unequal absent)
    | addOom _ _ n' x _ refused => exact .addOom _ n n' x refused
    | addDuplicate _ _ x present => exact .addDuplicate _ n x (by
        simpa only [Multiset.mem_coe, equal] using present)
    | addInvalid => exact .addInvalid _
  | contains elem =>
    cases h with
    | contains _ _ x b here => exact .contains _ n x b (by
        simpa only [Multiset.mem_coe, equal] using here)
    | containsNull => exact .containsInvalid _
  | remove elem =>
    cases h with
    | removeOk pre post _ x y here =>
      rw [middle]
      exact .removeHit _ n x y (equal.mpr here)
    | removeMiss _ _ x absent => exact .removeMiss _ n x (unequal absent)
    | removeInvalid => exact .removeInvalid _
  | clear =>
    cases h
    exact .clear _ n

theorem unequal_iff (laws : Laws cmp) : Unequal cmp xs ↔
    (xs : Multiset α).Pairwise fun a b => sameKey cmp a b = false := by
  have symm : Std.Symm fun a b => sameKey cmp a b = false :=
    ⟨fun _ _ => laws.eqLaws.symm_false⟩
  rw [Multiset.pairwise_coe_iff_pairwise]
  simp only [Unequal, sameKey, decide_eq_false_iff_not, ne_eq]

/-- Trees of the same elements answer alike and keep the same elements. -/
theorem OrderedSetStep.agree (laws : Laws cmp) {op : AvlOp α} {out out' : Answer α}
    {g g' : List α × Nat} (perm : xs.Perm ys) (unequal : Unequal cmp xs)
    (h : OrderedSetStep cmp (xs, n) op out g) (h' : OrderedSetStep cmp (ys, k) op out' g')
    (fine : out ≠ .status .oom) (fine' : out' ≠ .status .oom) :
    out' = out ∧ g.1.Perm g'.1 ∧ Unequal cmp g.1 := by
  have common (op' : SetOp α) (h : OrderedSetStep cmp (xs, n) op'.onAvl out g)
      (h' : OrderedSetStep cmp (ys, k) op'.onAvl out' g')
      (plain : ∀ answer, op'.setAnswer answer = answer) :
      out' = out ∧ g.1.Perm g'.1 ∧ Unequal cmp g.1 := by
    obtain ⟨same, kept, apart⟩ := ClassSetStep.agree laws.eqLaws ((unequal_iff laws).mp unequal)
      (h.classes laws) (Multiset.coe_eq_coe.mpr perm ▸ h'.classes laws)
      (by rwa [plain]) (by rwa [plain])
    rw [plain, plain] at same
    exact ⟨same, (Multiset.coe_eq_coe.mp kept).symm, (unequal_iff laws).mpr apart⟩
  cases op with
  | add elem => exact common (.add elem) h h' fun _ => rfl
  | contains elem => exact common (.contains elem) h h' fun _ => rfl
  | remove elem =>
    cases elem with
    | none =>
      cases h
      cases h'
      exact ⟨rfl, perm, unequal⟩
    | some x => exact common (.remove (some x)) h h' fun _ => rfl
  | clear => exact common .clear h h' fun _ => rfl
  | min out =>
    cases h with
    | minHit _ _ y out mem least =>
      cases h' with
      | minHit _ _ z _ mem' least' =>
        have down := least z (perm.mem_iff.mpr mem')
        have up := least' y (perm.mem_iff.mp mem)
        have := laws.le_iff z y
        obtain rfl := unequal.same laws mem (perm.mem_iff.mpr mem') (by omega)
        exact ⟨rfl, perm, unequal⟩
      | minMiss => simp [perm.mem_iff] at mem
    | minMiss =>
      cases h' with
      | minHit _ _ z _ mem => simp [← perm.mem_iff] at mem
      | minMiss => exact ⟨rfl, perm, unequal⟩
  | max out =>
    cases h with
    | maxHit _ _ y out mem greatest =>
      cases h' with
      | maxHit _ _ z _ mem' greatest' =>
        have up := greatest z (perm.mem_iff.mpr mem')
        have down := greatest' y (perm.mem_iff.mp mem)
        have := laws.le_iff z y
        obtain rfl := unequal.same laws mem (perm.mem_iff.mpr mem') (by omega)
        exact ⟨rfl, perm, unequal⟩
      | maxMiss => simp [perm.mem_iff] at mem
    | maxMiss =>
      cases h' with
      | maxHit _ _ z _ mem => simp [← perm.mem_iff] at mem
      | maxMiss => exact ⟨rfl, perm, unequal⟩

theorem setOf_create {f : KeyFns α} {elemSize : Nat} {m m' : Mem} {s : SetT α}
    (created : setCreate α elemSize m = (some s, m')) :
    SetOf f (s, m') ((0 : Multiset α), m'.refusals) := by
  obtain ⟨fresh, -⟩ := setCreate_spec created
  exact ⟨.fresh fresh, ⟨by simp [fresh.entries_eq], by simp [fresh.entries_eq, fresh.len_eq]⟩,
    by simp [SetT.members, fresh.entries_eq]⟩

/-- Two runs from empty trees that are refused nothing answer alike, whatever the shape of the
trees, and end with the same elements in the same order. -/
theorem trees_interchangeable (laws : Laws cmp) {elemSize elemSize' : Nat} {m₀ m₁ m₂ m₃ : Mem}
    {t₀ : AvlT α} {b₀ : Bstree α} (avl : avlCreate α elemSize m₀ = (some t₀, m₁))
    (bst : bstreeCreate α elemSize' m₂ = (some b₀, m₃)) (ops : List (AvlOp α)) :
    ∃ outs t m outs' b m', run (avlStep cmp) ops (t₀, m₁) = some (outs, (t, m)) ∧
      run (bstreeStep cmp) ops (b₀, m₃) = some (outs', (b, m')) ∧
      ((∀ out ∈ outs, out ≠ .status .oom) → (∀ out ∈ outs', out ≠ .status .oom) →
        outs' = outs ∧ b.root.toList = t.root.toList) := by
  obtain ⟨inv₀, empty⟩ := avlCreate_spec cmp avl
  obtain ⟨inv₀', empty'⟩ := bstreeCreate_spec cmp bst
  obtain ⟨outs, ⟨t, m⟩, _, ran, spec, inv, rfl⟩ := run_refines (avlStep cmp) (OrderedSetStep cmp)
    (avlStep_refines laws) ops (s := (t₀, m₁)) ⟨inv₀, rfl⟩
  obtain ⟨outs', ⟨b, m'⟩, _, ran', spec', inv', rfl⟩ := run_refines (bstreeStep cmp)
    (OrderedSetStep cmp) (bstreeStep_refines laws) ops (s := (b₀, m₃)) ⟨inv₀', rfl⟩
  refine ⟨outs, t, m, outs', b, m', ran, ran', fun fine fine' => ?_⟩
  obtain ⟨same, perm, -⟩ := SpecRun.agree_map id
    (S := fun g g' : List α × Nat => g.1.Perm g'.1 ∧ Unequal cmp g.1)
    (fun op g out g₁ g' out' g₁' related h h' ok ok' => by
      exact OrderedSetStep.agree laws related.1 related.2 h h' ok ok')
    ⟨by simp [empty, empty'], by simp [empty, Unequal]⟩ spec spec' fine fine'
  exact ⟨same.trans outs.map_id, inv'.ascending.eq_of_perm laws inv.ascending perm.symm⟩

theorem trees_interchangeable_ints :
    ∃ outs t m outs' b m',
      run (avlStep intCmp) [.add (some 3), .add (some 1), .max true, .remove (some 3), .min true]
        (⟨0, .nil, 0, 8⟩, ⟨refusingOnce 9, 1, [.alloc 0 48]⟩) = some (outs, (t, m)) ∧
      run (bstreeStep intCmp) [.add (some 3), .add (some 1), .max true, .remove (some 3), .min true]
        (⟨0, .nil, 0, 4⟩, ⟨refusingOnce 7, 1, [.alloc 0 48]⟩) = some (outs', (b, m')) ∧
      ((∀ out ∈ outs, out ≠ .status .oom) → (∀ out ∈ outs', out ≠ .status .oom) →
        outs' = outs ∧ b.root.toList = t.root.toList) := by
  have avl : avlCreate Int 8 (.start (refusingOnce 9)) =
      (some ⟨0, .nil, 0, 8⟩, ⟨refusingOnce 9, 1, [.alloc 0 48]⟩) := rfl
  have bst : bstreeCreate Int 4 (.start (refusingOnce 7)) =
      (some ⟨0, .nil, 0, 4⟩, ⟨refusingOnce 7, 1, [.alloc 0 48]⟩) := rfl
  exact trees_interchangeable intCmp_laws avl bst
    [.add (some 3), .add (some 1), .max true, .remove (some 3), .min true]

/-- Keys that are compared by `cmp` and hashed by `hash`. -/
def hashedBy (hash : α → Nat) (cmp : α → α → Int) : KeyFns α := ⟨hash, sameKey cmp⟩

theorem hashedBy_lawful {hash : α → Nat} (laws : Laws cmp)
    (respects : ∀ a b, cmp a b = 0 → hash a = hash b) : (hashedBy hash cmp).Lawful where
  toEqLaws := laws.eqLaws
  hash_eq a b h := respects a b (by simpa [hashedBy, sameKey] using h)

theorem hashedBy_intCmp (hash : Int → Nat) : (hashedBy hash intCmp).Lawful :=
  hashedBy_lawful intCmp_laws fun a b same => by
    rw [Int.sub_eq_zero.mp same]

/-- Two runs from empty hash sets that are refused nothing answer alike and end with the same
elements, whatever their hash functions. -/
theorem set_hash_free {f f' : KeyFns α} (law : f.Lawful) (law' : f'.Lawful) (same : f'.eq = f.eq)
    {elemSize elemSize' : Nat} {m₀ m₁ m₂ m₃ : Mem} {s₀ s₀' : SetT α}
    (created : setCreate α elemSize m₀ = (some s₀, m₁))
    (created' : setCreate α elemSize' m₂ = (some s₀', m₃)) (ndebug ndebug' : Bool)
    (ops : List (SetOp α)) :
    ∃ outs s m outs' s' m', run (setStep ndebug f) ops (s₀, m₁) = some (outs, (s, m)) ∧
      run (setStep ndebug' f') ops (s₀', m₃) = some (outs', (s', m')) ∧
      ((∀ out ∈ outs, out ≠ .status .oom) → (∀ out ∈ outs', out ≠ .status .oom) →
        outs' = outs ∧ s'.members.Perm s.members) := by
  obtain ⟨outs, ⟨s, m⟩, _, ran, spec, -, -, rfl⟩ := run_refines (setStep ndebug f)
    (ClassSetStep f.eq) (setStep_refines law) ops (setOf_create created)
  obtain ⟨outs', ⟨s', m'⟩, _, ran', spec', -, -, rfl⟩ := run_refines (setStep ndebug' f')
    (ClassSetStep f'.eq) (setStep_refines law') ops (setOf_create created')
  refine ⟨outs, s, m, outs', s', m', ran, ran', fun fine fine' => ?_⟩
  rw [same] at spec'
  have start : SameClasses f.eq (0, m₁.refusals) (0, m₃.refusals) := ⟨rfl, [], rfl, .nil⟩
  obtain ⟨answers, kept, -⟩ := SpecRun.agree_map id
    (fun op g out g₁ g' out' g₁' related h h' ok ok' => by
      obtain ⟨S, n⟩ := g
      obtain ⟨_, k⟩ := g'
      obtain ⟨rfl, apart⟩ := related
      exact ClassSetStep.agree law.toEqLaws apart h h' ok ok')
    start spec spec' fine fine'
  exact ⟨answers.trans outs.map_id, Multiset.coe_eq_coe.mp kept⟩

/-- One set whose elements all collide, and one whose elements do not. -/
theorem set_hash_free_ints :
    ∃ outs s m outs' s' m',
      run (setStep false (hashedBy (fun _ => 0) intCmp))
        [.add (some 3), .add (some 1), .add (some 3), .remove (some 1), .contains (some 1)]
        (⟨0, none, fun _ => none, 0, 0, 8, 0⟩, ⟨refusingOnce 9, 1, [.alloc 0 72]⟩) =
          some (outs, (s, m)) ∧
      run (setStep true (hashedBy Int.toNat intCmp))
        [.add (some 3), .add (some 1), .add (some 3), .remove (some 1), .contains (some 1)]
        (⟨0, none, fun _ => none, 0, 0, 4, 0⟩, ⟨refusingOnce 7, 1, [.alloc 0 72]⟩) =
          some (outs', (s', m')) ∧
      ((∀ out ∈ outs, out ≠ .status .oom) → (∀ out ∈ outs', out ≠ .status .oom) →
        outs' = outs ∧ s'.members.Perm s.members) := by
  have created : setCreate Int 8 (.start (refusingOnce 9)) =
      (some ⟨0, none, fun _ => none, 0, 0, 8, 0⟩, ⟨refusingOnce 9, 1, [.alloc 0 72]⟩) := rfl
  have created' : setCreate Int 4 (.start (refusingOnce 7)) =
      (some ⟨0, none, fun _ => none, 0, 0, 4, 0⟩, ⟨refusingOnce 7, 1, [.alloc 0 72]⟩) := rfl
  exact set_hash_free (hashedBy_intCmp fun _ => 0) (hashedBy_intCmp Int.toNat) rfl created created'
    false true
    [.add (some 3), .add (some 1), .add (some 3), .remove (some 1), .contains (some 1)]

/-- A hash set and a tree answer alike as long as they are refused nothing, but for NULL, which
the set does not find and the tree does not look for, and end with the same elements. -/
theorem set_tree_interchangeable {f : KeyFns α} (law : f.Lawful) (laws : Laws cmp)
    (same : f.eq = sameKey cmp) {elemSize elemSize' : Nat} {m₀ m₁ m₂ m₃ : Mem} {s₀ : SetT α}
    {t₀ : AvlT α} (created : setCreate α elemSize m₀ = (some s₀, m₁))
    (created' : avlCreate α elemSize' m₂ = (some t₀, m₃)) (ndebug : Bool) (ops : List (SetOp α)) :
    ∃ outs s m outs' t m', run (setStep ndebug f) ops (s₀, m₁) = some (outs, (s, m)) ∧
      run (avlStep cmp) (ops.map SetOp.onAvl) (t₀, m₃) = some (outs', (t, m')) ∧
      ((∀ out ∈ outs, out ≠ .status .oom) → (∀ out ∈ outs', out ≠ .status .oom) →
        outs = List.zipWith SetOp.setAnswer ops outs' ∧ s.members.Perm t.root.toList) := by
  obtain ⟨inv₀, empty⟩ := avlCreate_spec cmp created'
  obtain ⟨outs, ⟨s, m⟩, _, ran, spec, -, -, rfl⟩ := run_refines (setStep ndebug f)
    (ClassSetStep f.eq) (setStep_refines law) ops (setOf_create created)
  obtain ⟨outs', ⟨t, m'⟩, _, ran', spec', -, rfl⟩ := run_refines (avlStep cmp)
    (OrderedSetStep cmp) (avlStep_refines laws) (ops.map SetOp.onAvl) (s := (t₀, m₃)) ⟨inv₀, rfl⟩
  refine ⟨outs, s, m, outs', t, m', ran, ran', fun fine fine' => ?_⟩
  rw [same] at spec
  have start : SameClasses (sameKey cmp) ((t₀.root.toList : Multiset α), m₃.refusals)
      (0, m₁.refusals) := ⟨by rw [empty]; rfl, [], by rw [empty], .nil⟩
  obtain ⟨answers, kept, -⟩ := SpecRun.agree SetOp.setAnswer
    (S := fun (g : List α × Nat) g' => SameClasses (sameKey cmp) ((g.1 : Multiset α), g.2) g')
    (fun op g out g₁ g' out' g₁' related h h' ok ok' => by
      obtain ⟨xs, n⟩ := g
      obtain ⟨_, k⟩ := g'
      obtain ⟨rfl, apart⟩ := related
      exact ClassSetStep.agree laws.eqLaws apart (h.classes laws) h' (op.setAnswer_ne ok) ok')
    start spec'.of_map spec fine' fine
  exact ⟨answers, Multiset.coe_eq_coe.mp kept⟩

theorem set_tree_interchangeable_ints :
    ∃ outs s m outs' t m',
      run (setStep false (hashedBy Int.toNat intCmp))
        [.add (some 3), .remove none, .add (some 1), .remove (some 3)]
        (⟨0, none, fun _ => none, 0, 0, 8, 0⟩, ⟨refusingOnce 9, 1, [.alloc 0 72]⟩) =
          some (outs, (s, m)) ∧
      run (avlStep intCmp) [.add (some 3), .remove none, .add (some 1), .remove (some 3)]
        (⟨0, .nil, 0, 8⟩, ⟨refusingOnce 9, 1, [.alloc 0 48]⟩) = some (outs', (t, m')) ∧
      ((∀ out ∈ outs, out ≠ .status .oom) → (∀ out ∈ outs', out ≠ .status .oom) →
        outs = List.zipWith SetOp.setAnswer
          [.add (some 3), .remove none, .add (some 1), .remove (some 3)] outs' ∧
        s.members.Perm t.root.toList) := by
  have created : setCreate Int 8 (.start (refusingOnce 9)) =
      (some ⟨0, none, fun _ => none, 0, 0, 8, 0⟩, ⟨refusingOnce 9, 1, [.alloc 0 72]⟩) := rfl
  have created' : avlCreate Int 8 (.start (refusingOnce 9)) =
      (some ⟨0, .nil, 0, 8⟩, ⟨refusingOnce 9, 1, [.alloc 0 48]⟩) := rfl
  exact set_tree_interchangeable (hashedBy_intCmp Int.toNat) intCmp_laws rfl created created' false
    [.add (some 3), .remove none, .add (some 1), .remove (some 3)]

end Sets

/-! ### Maps -/

section Maps
variable {κ ν : Type} {cmp : κ → κ → Int} {g : κ → Option ν} {n k : Nat}
  {s₁ s₁' : (κ → Option ν) × Nat}

/-- The same operation on an ordered map. -/
def HashmapOp.onOmap : HashmapOp κ ν → OmapOp κ ν
  | .set key value => .set key value
  | .get key out => .get key out
  | .getPtr key => .getPtr key
  | .contains key => .contains key
  | .remove key => .remove key
  | .clear => .clear

/-- The same entries, up to their order and to the choice of a key in its class. -/
def SameEntries (eq : κ → κ → Bool) (xs ys : List (κ × ν)) : Prop :=
  ∃ zs, zs.Perm ys ∧ List.Forall₂ (fun p q => eq p.1 q.1 = true ∧ p.2 = q.2) xs zs

/-- Maps of the same contents answer alike and keep the same contents. -/
theorem MapStep.agree {eq : κ → κ → Bool} {op : HashmapOp κ ν} {out out' : Answer ν}
    (h : MapStep eq (g, n) op out s₁) (h' : MapStep eq (g, k) op out' s₁')
    (fine : out ≠ .status .oom) (fine' : out' ≠ .status .oom) : out' = out ∧ s₁'.1 = s₁.1 := by
  cases h with
  | setOk =>
    cases h' with
    | setOk => exact ⟨rfl, rfl⟩
    | setOom => exact absurd rfl fine'
    | setInvalid _ _ _ null => simp at null
  | setOom => exact absurd rfl fine
  | setInvalid _ key value null =>
    cases h' with
    | setOk | setOom => simp at null
    | setInvalid => exact ⟨rfl, rfl⟩
  | getHit _ _ key out hit =>
    cases h' with
    | getHit _ _ _ _ hit' =>
      obtain rfl := Option.some.inj (hit.symm.trans hit')
      exact ⟨rfl, rfl⟩
    | getMiss _ _ _ _ miss => simp [hit] at miss
  | getMiss _ _ key out miss =>
    cases h' with
    | getHit _ _ _ _ hit => simp [hit] at miss
    | getMiss => exact ⟨rfl, rfl⟩
  | removeHit _ _ key hit =>
    cases h' with
    | removeHit => exact ⟨rfl, rfl⟩
    | removeMiss _ _ _ miss => simp [miss] at hit
  | removeMiss _ _ key miss =>
    cases h' with
    | removeHit _ _ _ hit => simp [miss] at hit
    | removeMiss => exact ⟨rfl, rfl⟩
  | getInvalid | getPtr | getPtrInvalid | contains | containsInvalid | removeInvalid | clear =>
    cases h'
    exact ⟨rfl, rfl⟩

/-- What an ordered map does is what a map does. -/
theorem OrderedMapStep.classes {op : HashmapOp κ ν} {out : OmapAnswer κ ν}
    (h : OrderedMapStep cmp (g, n) op.onOmap out s₁) :
    ∃ answer, out = .of answer ∧ MapStep (sameKey cmp) (g, n) op answer s₁ := by
  cases op with
  | set key value =>
    cases h with
    | setOk _ _ key value => exact ⟨_, rfl, .setOk g n key value⟩
    | setOom _ _ n' key value _ refused => exact ⟨_, rfl, .setOom g n n' key value refused⟩
    | setInvalid _ _ _ null => exact ⟨_, rfl, .setInvalid _ key value null⟩
  | get key out =>
    cases h with
    | getHit _ _ key _ hit => exact ⟨_, rfl, .getHit g n key out hit⟩
    | getMiss _ _ key _ miss => exact ⟨_, rfl, .getMiss g n key out miss⟩
    | getInvalid => exact ⟨_, rfl, .getInvalid _ out⟩
  | getPtr key =>
    cases h with
    | getPtr _ _ key => exact ⟨_, rfl, .getPtr g n key⟩
    | getPtrInvalid => exact ⟨_, rfl, .getPtrInvalid _⟩
  | contains key =>
    cases h with
    | contains _ _ key => exact ⟨_, rfl, .contains g n key⟩
    | containsInvalid => exact ⟨_, rfl, .containsInvalid _⟩
  | remove key =>
    cases h with
    | removeHit _ _ key hit => exact ⟨_, rfl, .removeHit g n key hit⟩
    | removeMiss _ _ key miss => exact ⟨_, rfl, .removeMiss g n key miss⟩
    | removeInvalid => exact ⟨_, rfl, .removeInvalid _⟩
  | clear =>
    cases h
    exact ⟨_, rfl, .clear g n⟩

/-- Two runs from empty hash maps that are refused nothing answer alike and end with the same
entries, whatever their hash functions and their sizes of keys and values. -/
theorem map_hash_free {f f' : KeyFns κ} (law : f.Lawful) (law' : f'.Lawful) (same : f'.eq = f.eq)
    {keySize keySize' valSize valSize' : Nat} {m₀ m₁ m₂ m₃ : Mem} {map₀ map₀' : Hashmap κ ν}
    (created : hashmapCreate κ ν keySize valSize m₀ = (some map₀, m₁))
    (created' : hashmapCreate κ ν keySize' valSize' m₂ = (some map₀', m₃)) (ndebug ndebug' : Bool)
    (ops : List (HashmapOp κ ν)) :
    ∃ outs map m es outs' map' m' es',
      run (hashmapStep ndebug f) ops (map₀, m₁) = some (outs, (map, m)) ∧
      run (hashmapStep ndebug' f') ops (map₀', m₃) = some (outs', (map', m')) ∧
      hashmapIterAll map = some es ∧ hashmapIterAll map' = some es' ∧
      ((∀ out ∈ outs, out ≠ .status .oom) → (∀ out ∈ outs', out ≠ .status .oom) →
        outs' = outs ∧ SameEntries f.eq (es.map Entry.pair) (es'.map Entry.pair)) := by
  obtain ⟨outs, map, m, g, ran, spec, -, rep⟩ := hashmap_runs law created ndebug ops
  obtain ⟨outs', map', m', g', ran', spec', -, rep'⟩ := hashmap_runs law' created' ndebug' ops
  refine ⟨outs, map, m, map.entries, outs', map', m', map'.entries, ran, ran',
    hashmapIterAll_eq map, hashmapIterAll_eq map', fun fine fine' => ?_⟩
  rw [same] at spec' rep'
  obtain ⟨answers, rfl⟩ : outs' = outs.map id ∧ g' = g := SpecRun.agree_map id
    (S := fun s s' => s'.1 = s.1)
    (fun op s out s₁ s' out' s₁' related h h' ok ok' => by
      obtain ⟨g, n⟩ := s
      obtain ⟨g', n'⟩ := s'
      obtain rfl : g' = g := related
      exact h.agree h' ok ok')
    rfl spec spec' fine fine'
  exact ⟨answers.trans outs.map_id, rep.matching law.toEqLaws rep'⟩

theorem map_hash_free_ints :
    ∃ outs map m es outs' map' m' es',
      run (hashmapStep false (hashedBy (fun _ => 0) intCmp))
        [.set (some 1) (some 10), .set (some 2) (some 20), .remove (some 1), .get (some 2) true]
        (⟨0, 1, fun _ => none, 16, 0, 8, 8, 0⟩,
          ⟨refusingOnce 9, 2, [.alloc 0 80, .alloc 1 384]⟩) = some (outs, (map, m)) ∧
      run (hashmapStep false (hashedBy Int.toNat intCmp))
        [.set (some 1) (some 10), .set (some 2) (some 20), .remove (some 1), .get (some 2) true]
        (⟨0, 1, fun _ => none, 16, 0, 4, 8, 0⟩,
          ⟨refusingOnce 9, 2, [.alloc 0 80, .alloc 1 384]⟩) = some (outs', (map', m')) ∧
      hashmapIterAll map = some es ∧ hashmapIterAll map' = some es' ∧
      ((∀ out ∈ outs, out ≠ .status .oom) → (∀ out ∈ outs', out ≠ .status .oom) →
        outs' = outs ∧ SameEntries (sameKey intCmp) (es.map Entry.pair)
          ((es' : List (Entry Int Nat)).map Entry.pair)) := by
  have created : hashmapCreate Int Nat 8 8 (.start (refusingOnce 9)) =
      (some ⟨0, 1, fun _ => none, 16, 0, 8, 8, 0⟩,
        ⟨refusingOnce 9, 2, [.alloc 0 80, .alloc 1 384]⟩) := rfl
  have created' : hashmapCreate Int Nat 4 8 (.start (refusingOnce 9)) =
      (some ⟨0, 1, fun _ => none, 16, 0, 4, 8, 0⟩,
        ⟨refusingOnce 9, 2, [.alloc 0 80, .alloc 1 384]⟩) := rfl
  exact map_hash_free (hashedBy_intCmp fun _ => 0) (hashedBy_intCmp Int.toNat) rfl created created'
    false false
    [.set (some 1) (some 10), .set (some 2) (some 20), .remove (some 1), .get (some 2) true]

/-- A hash map and an ordered map answer alike as long as they are refused nothing, and end with
the same entries. -/
theorem map_tree_interchangeable {f : KeyFns κ} (law : f.Lawful) (laws : Laws cmp)
    (same : f.eq = sameKey cmp) {keySize keySize' valSize valSize' : Nat} {m₀ m₁ m₂ m₃ : Mem}
    {map₀ : Hashmap κ ν} {omap₀ : Omap κ ν}
    (created : hashmapCreate κ ν keySize valSize m₀ = (some map₀, m₁))
    (created' : omapCreate κ ν keySize' valSize' m₂ = (some omap₀, m₃)) (ndebug : Bool)
    (ops : List (HashmapOp κ ν)) :
    ∃ outs map m es outs' omap m',
      run (hashmapStep ndebug f) ops (map₀, m₁) = some (outs, (map, m)) ∧
      run (omapStep cmp) (ops.map HashmapOp.onOmap) (omap₀, m₃) = some (outs', (omap, m')) ∧
      hashmapIterAll map = some es ∧
      ((∀ out ∈ outs, out ≠ .status .oom) → (∀ out ∈ outs', out ≠ .of (.status .oom)) →
        outs' = outs.map OmapAnswer.of ∧
        SameEntries f.eq (es.map Entry.pair) omap.root.toList) := by
  obtain ⟨outs, map, m, g, ran, spec, -, rep⟩ := hashmap_runs law created ndebug ops
  obtain ⟨outs', omap, m', g', ran', spec', inv⟩ :=
    omap_runs laws created' (ops.map HashmapOp.onOmap)
  refine ⟨outs, map, m, map.entries, outs', omap, m', ran, ran', hashmapIterAll_eq map,
    fun fine fine' => ?_⟩
  rw [same] at spec
  obtain ⟨answers, rfl⟩ : outs' = outs.map OmapAnswer.of ∧ g' = g := SpecRun.agree_map OmapAnswer.of
    (S := fun s s' => s'.1 = s.1)
    (fun op s out s₁ s' out' s₁' related h h' ok ok' => by
      obtain ⟨g, n⟩ := s
      obtain ⟨g', n'⟩ := s'
      obtain rfl : g' = g := related
      obtain ⟨answer, rfl, step⟩ := OrderedMapStep.classes h'
      obtain ⟨rfl, kept⟩ := h.agree step ok fun oom => ok' (congrArg OmapAnswer.of oom)
      exact ⟨rfl, kept⟩)
    rfl spec spec'.of_map fine fine'
  exact ⟨answers, rep.matching law.toEqLaws (same ▸ inv.contents)⟩

theorem map_tree_interchangeable_ints :
    ∃ outs map m es outs' omap m',
      run (hashmapStep false (hashedBy Int.toNat intCmp))
        [.set (some 1) (some 10), .set (some 2) (some 20), .remove (some 1), .get (some 2) true]
        (⟨0, 1, fun _ => none, 16, 0, 8, 8, 0⟩,
          ⟨refusingOnce 9, 2, [.alloc 0 80, .alloc 1 384]⟩) = some (outs, (map, m)) ∧
      run (omapStep intCmp)
        [.set (some 1) (some 10), .set (some 2) (some 20), .remove (some 1), .get (some 2) true]
        (⟨0, .nil, 0, 8, 8⟩, ⟨refusingOnce 9, 1, [.alloc 0 56]⟩) = some (outs', (omap, m')) ∧
      hashmapIterAll map = some es ∧
      ((∀ out ∈ outs, out ≠ .status .oom) → (∀ out ∈ outs', out ≠ .of (.status .oom)) →
        outs' = outs.map OmapAnswer.of ∧ SameEntries (sameKey intCmp) (es.map Entry.pair)
          (omap.root.toList : List (Int × Nat))) := by
  have created : hashmapCreate Int Nat 8 8 (.start (refusingOnce 9)) =
      (some ⟨0, 1, fun _ => none, 16, 0, 8, 8, 0⟩,
        ⟨refusingOnce 9, 2, [.alloc 0 80, .alloc 1 384]⟩) := rfl
  have created' : omapCreate Int Nat 8 8 (.start (refusingOnce 9)) =
      (some ⟨0, .nil, 0, 8, 8⟩, ⟨refusingOnce 9, 1, [.alloc 0 56]⟩) := rfl
  exact map_tree_interchangeable (hashedBy_intCmp Int.toNat) intCmp_laws rfl created created' false
    [.set (some 1) (some 10), .set (some 2) (some 20), .remove (some 1), .get (some 2) true]

end Maps

/-! ### Sequences -/

section Sequences
variable {α : Type} {xs : List α} {n k : Nat}

/-- The same operation on a double-ended list. -/
def LinkedOp.onDeque : LinkedOp α → DequeOp α
  | .pushFront elem => .pushFront elem
  | .pushBack elem => .pushBack elem
  | .popFront out => .popFront out
  | .popBack out => .popBack out
  | .front out => .front out
  | .back out => .back out
  | .clear => .clear

/-- A push or an iterator ran out of memory. -/
def DequeAnswer.Failed (out : DequeAnswer α) : Prop := out = .of (.status .oom) ∨ out = .items none

/-- Lists of the same elements answer alike and keep the same elements. -/
theorem DequeStep.agree {op : DequeOp α} {out out' : DequeAnswer α} {g g' : List α × Nat}
    (h : DequeStep (xs, n) op out g) (h' : DequeStep (xs, k) op out' g') (fine : ¬ out.Failed)
    (fine' : ¬ out'.Failed) : out' = out ∧ g'.1 = g.1 := by
  cases h with
  | pushBackOk =>
    cases h' with
    | pushBackOk => exact ⟨rfl, rfl⟩
    | pushBackOom => exact absurd (.inl rfl) fine'
  | pushFrontOk =>
    cases h' with
    | pushFrontOk => exact ⟨rfl, rfl⟩
    | pushFrontOom => exact absurd (.inl rfl) fine'
  | pushBackOom | pushFrontOom => exact absurd (.inl rfl) fine
  | iter =>
    cases h' with
    | iter => exact ⟨rfl, rfl⟩
    | iterOom => exact absurd (.inr rfl) fine'
  | iterRev =>
    cases h' with
    | iterRev => exact ⟨rfl, rfl⟩
    | iterRevOom => exact absurd (.inr rfl) fine'
  | iterOom | iterRevOom => exact absurd (.inr rfl) fine
  | popFrontHit x xs =>
    generalize whole : x :: xs = ys at h'
    cases h' with
    | popFrontHit =>
      obtain ⟨rfl, rfl⟩ := List.cons.inj whole
      exact ⟨rfl, rfl⟩
    | popFrontMiss => simp at whole
  | popFrontMiss =>
    generalize whole : ([] : List α) = ys at h'
    cases h' with
    | popFrontHit => simp at whole
    | popFrontMiss => exact ⟨rfl, rfl⟩
  | popBackHit xs x =>
    generalize whole : xs ++ [x] = ys at h'
    cases h' with
    | popBackHit =>
      obtain ⟨rfl, last⟩ := List.append_inj' whole rfl
      obtain rfl := List.singleton_inj.mp last
      exact ⟨rfl, rfl⟩
    | popBackMiss => simp at whole
  | popBackMiss =>
    generalize whole : ([] : List α) = ys at h'
    cases h' with
    | popBackHit => simp at whole
    | popBackMiss => exact ⟨rfl, rfl⟩
  | pushBackInvalid | pushFrontInvalid | get | getPtr | front | frontPtr | back | backPtr | len
  | isEmpty | clear =>
    cases h'
    exact ⟨rfl, rfl⟩

/-- What a sequence of nodes does is what a double-ended list does. -/
theorem LinkedStep.deque {items : List (Nat × α)} {op : LinkedOp α} {out : Answer α}
    {g : List (Nat × α) × Nat} (h : LinkedStep (items, n) op out g) :
    DequeStep (items.map Prod.snd, n) op.onDeque (.of out) (g.1.map Prod.snd, g.2) := by
  cases h with
  | pushFrontOk _ _ _ x _ => exact .pushFrontOk _ n x
  | pushFrontOom _ _ n' x refused => exact .pushFrontOom _ n n' x (.inl refused)
  | pushFrontInvalid => exact .pushFrontInvalid _
  | pushBackOk _ _ _ x _ =>
    rw [List.map_append]
    exact .pushBackOk _ n x
  | pushBackOom _ _ n' x refused => exact .pushBackOom _ n n' x (.inl refused)
  | pushBackInvalid => exact .pushBackInvalid _
  | popFrontHit _ x items _ out => exact .popFrontHit x _ n out
  | popFrontMiss _ out => exact .popFrontMiss n out
  | popBackHit items _ x _ out =>
    rw [List.map_append]
    exact .popBackHit _ x n out
  | popBackMiss _ out => exact .popBackMiss n out
  | front _ _ out =>
    rw [← List.head?_map]
    exact .front _ n out
  | back _ _ out =>
    rw [← List.getLast?_map]
    exact .back _ n out
  | clear => exact .clear _ n

/-- From `s₀` on, a ring buffer stands in for the sequence whose operations are `step`: as long as
neither is refused anything, it answers alike and ends with the same elements. -/
def StandsIn {ι ω σ : Type} (r₀ : Option (Ringbuf α) × Mem) (step : ι → σ → Option (ω × σ)) (s₀ : σ)
    (rename : ι → DequeOp α) (answer : ω → DequeAnswer α) (contents : σ → List α → Prop) : Prop :=
  ∀ ops, ∃ outs r m xs outs' s, run ringbufStep (ops.map rename) r₀ = some (outs, (some r, m)) ∧
    (∀ i, readSlot r.slots (ringbufGetPtr (some r) i) = some xs[i]?) ∧
    run step ops s₀ = some (outs', s) ∧
    ((∀ out ∈ outs, ¬ out.Failed) → (∀ out ∈ outs', ¬ (answer out).Failed) →
      outs = outs'.map answer ∧ contents s xs)

theorem stands_in {ι ω σ γ : Type} {step : ι → σ → Option (ω × σ)} {spec : γ → ι → ω → γ → Prop}
    {R : σ → γ → Prop} {rename : ι → DequeOp α} {answer : ω → DequeAnswer α}
    (view : γ → List α × Nat) {contents : σ → List α → Prop}
    (sim : ∀ op s g, R s g → ∃ out s' g', step op s = some (out, s') ∧ spec g op out g' ∧ R s' g')
    (deque : ∀ g op out g', spec g op out g' →
      DequeStep (view g) (rename op) (answer out) (view g'))
    (holds : ∀ s g, R s g → contents s (view g).1) {elemSize : Nat} {m₀ m₁ : Mem} {r₀ : Ringbuf α}
    (created : ringbufCreate α elemSize m₀ = (some r₀, m₁)) {s₀ : σ} (g₀ : γ) (start : R s₀ g₀)
    (empty : (view g₀).1 = []) : StandsIn (some r₀, m₁) step s₀ rename answer contents := by
  intro ops
  obtain ⟨outs, ⟨_, m⟩, ⟨xs, _⟩, ran, spec, r, rfl, inv, rfl⟩ :=
    run_refines ringbufStep DequeStep ringbufStep_refines (ops.map rename) (s := (some r₀, m₁))
      (g := ([], m₁.refusals)) ⟨r₀, rfl, ringbufCreate_spec created, rfl⟩
  obtain ⟨outs', s, g, ran', spec', related⟩ := run_refines step _ sim ops start
  refine ⟨outs, r, m, xs, outs', s, ran, ringbufGetPtr_spec inv, ran', fun fine fine' => ?_⟩
  have first : (([], m₁.refusals) : List α × Nat).1 = (view g₀).1 := empty.symm
  obtain ⟨answers, same⟩ := SpecRun.agree_map answer (S := fun g g' => g'.1 = (view g).1)
    (fun op g out g₁ g' out' g₁' related h h' ok ok' => by
      obtain ⟨_, k⟩ := g'
      subst related
      exact (deque g op out g₁ h).agree h' ok ok')
    first spec' spec.of_map fine' fine
  simp only at same
  exact ⟨answers, same ▸ holds s g related⟩

/-- A ring buffer stands in for a stack, a queue and both lists. -/
theorem ringbuf_stands_in {elemSize : Nat} {m₀ m₁ : Mem} {r₀ : Ringbuf α}
    (created : ringbufCreate α elemSize m₀ = (some r₀, m₁)) :
    (∀ elemSize m m' s₀, stackCreate α elemSize m = (some s₀, m') →
      StandsIn (some r₀, m₁) stackStep (some s₀, m') StackOp.onDeque id fun s xs =>
        ∃ st, s.1 = some st ∧ st.contents = xs) ∧
    (∀ elemSize m m' q₀, queueCreate α elemSize m = (some q₀, m') →
      StandsIn (some r₀, m₁) queueStep (some q₀, m') QueueOp.onDeque id fun s xs =>
        ∃ q, s.1 = some q ∧ q.len = xs.length ∧
          ∀ i x, xs[i]? = some x → q.slots ((q.head + i) % q.cap) = some x) ∧
    (∀ elemSize m m' s₀, listCreate α elemSize m = (some s₀, m') →
      StandsIn (some r₀, m₁) listStep s₀ LinkedOp.onDeque .of fun s xs =>
        ∃ items, LinkedShape ListNode.elem ListNode.next s items ∧ items.map Prod.snd = xs) ∧
    ∀ elemSize m m' s₀, dlistCreate α elemSize m = (some s₀, m') →
      StandsIn (some r₀, m₁) dlistStep s₀ LinkedOp.onDeque .of fun s xs =>
        ∃ items, LinkedShape DlistNode.elem DlistNode.next s items ∧
          items.map Prod.snd = xs := by
  refine ⟨fun size m m' s₀ made => ?_, fun size m m' q₀ made => ?_, fun size m m' s₀ made => ?_,
    fun size m m' s₀ made => ?_⟩
  · obtain ⟨-, -, empty⟩ := stackCreate_spec made
    refine stands_in id stackStep_refines (fun _ _ _ _ h => h) (fun s g related => ?_) created
      ([], m'.refusals) ⟨s₀, rfl, empty s₀ rfl, rfl⟩ rfl
    obtain ⟨st, here, same, -⟩ := related
    exact ⟨st, here, same⟩
  · refine stands_in id queueStep_refines (fun _ _ _ _ h => h) (fun s g related => ?_) created
      ([], m'.refusals) ⟨q₀, rfl, queueCreate_spec made, rfl⟩ rfl
    obtain ⟨q, here, inv, -⟩ := related
    exact ⟨q, here, inv.len_eq, inv.holds.item⟩
  · obtain ⟨inv₀, -⟩ := linkedCreate_inv ListNode.linked made
    exact stands_in (fun g => (g.1.map Prod.snd, g.2)) listStep_refines
      (fun _ _ _ _ h => h.deque) (fun s g h =>
        ⟨g.1, h.1.shape ListNode.elem ListNode.next (fun _ _ _ => rfl) (fun _ _ _ => rfl), rfl⟩)
      created ([], s₀.mem.refusals) ⟨inv₀, rfl⟩ rfl
  · obtain ⟨inv₀, -⟩ := linkedCreate_inv DlistNode.mk made
    exact stands_in (fun g => (g.1.map Prod.snd, g.2)) dlistStep_refines
      (fun _ _ _ _ h => h.deque) (fun s g h =>
        ⟨g.1, h.1.shape DlistNode.elem DlistNode.next (fun _ _ _ => rfl) (fun _ _ _ => rfl), rfl⟩)
      created ([], s₀.mem.refusals) ⟨inv₀, rfl⟩ rfl

/-- A ring buffer in the place of a stack. -/
theorem ringbuf_stands_in_ints :
    StandsIn (some (⟨0, none, fun _ => none, 0, 0, 0, 4⟩ : Ringbuf Int),
        ⟨refusingOnce 9, 1, [.alloc 0 56]⟩) stackStep
      (some (⟨0, some ⟨1, none, [], 0, 4, by decide⟩, rfl⟩ : Stack Int),
        ⟨refusingOnce 9, 2, [.alloc 0 24, .alloc 1 48]⟩) StackOp.onDeque id fun s xs =>
        ∃ st, s.1 = some st ∧ st.contents = xs := by
  have created : ringbufCreate Int 4 (.start (refusingOnce 9)) =
      (some ⟨0, none, fun _ => none, 0, 0, 0, 4⟩, ⟨refusingOnce 9, 1, [.alloc 0 56]⟩) := rfl
  exact (ringbuf_stands_in created).1 4 (.start (refusingOnce 9)) _ _ rfl

end Sequences

end Seqc
