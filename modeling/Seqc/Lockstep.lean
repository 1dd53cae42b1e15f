import Seqc.KeyTable
import Seqc.SetRun

/-! A set and a map driven side by side: set.c and hashmap.c keep their keys in the same
slots, as both do what a table of keys does. -/

namespace Seqc
open RobinHood ClassMap Runs

variable {κ ν : Type} {f : KeyFns κ} {ndebug : Bool}

/-- An operation on a set and a map. -/
inductive BothOp (κ ν : Type) where
  | add (key : κ) (value : ν)
  | remove (key : κ)
  | clear

def BothOp.onSet : BothOp κ ν → SetOp κ
  | .add key _ => .add (some key)
  | .remove key => .remove (some key)
  | .clear => .clear

def BothOp.onMap : BothOp κ ν → HashmapOp κ ν
  | .add key value => .set (some key) (some value)
  | .remove key => .remove (some key)
  | .clear => .clear

/-- Each has its own allocator. -/
structure Both (κ ν : Type) where
  set : SetT κ
  setMem : Mem
  map : Hashmap κ ν
  mapMem : Mem

def bothStep (ndebug : Bool) (f : KeyFns κ) (op : BothOp κ ν) (b : Both κ ν) :
    Option ((Answer κ × Answer ν) × Both κ ν) := do
  let (out, s, m) ← setStep ndebug f op.onSet (b.set, b.setMem)
  let (out', map, m') ← hashmapStep ndebug f op.onMap (b.map, b.mapMem)
  pure ((out, out'), ⟨s, m, map, m'⟩)

def Both.refusals (b : Both κ ν) : Nat := b.setMem.refusals + b.mapMem.refusals

structure TablesAgree (s : SetT κ) (map : Hashmap κ ν) : Prop where
  cap_eq : s.cap = map.cap
  len_eq : s.len = map.len
  maxPsl_eq : s.maxPsl = map.maxPsl
  psl_eq : ∀ i < s.cap, pslAt s.buckets i = pslAt map.buckets i
  key_eq : ∀ i < s.cap, ∀ c d, s.buckets i = some c → map.buckets i = some d →
    c.item.val = d.item.key.val

theorem buckets_of_keys {s : SetT κ} {map : Hashmap κ ν} (same : s.keys = map.keys) :
    relabel Block.val s.buckets = relabel (fun e => e.key.val) map.buckets :=
  congrArg KeyTable.buckets same

theorem TablesAgree.of_keys {k : Nat} {s : SetT κ} {map : Hashmap κ ν} (d : SetDistinct f s)
    (inv : HashmapInv f k map) (same : s.keys = map.keys) : TablesAgree s map where
  cap_eq := congrArg KeyTable.cap same
  len_eq := by rw [← d.keys_length, same, inv.keys_length]
  maxPsl_eq := congrArg KeyTable.maxPsl same
  psl_eq i _ := by
    have here := congrArg (pslAt · i) (buckets_of_keys same)
    rwa [pslAt_relabel, pslAt_relabel] at here
  key_eq i _ c d hc hd := by
    have here := congrFun (buckets_of_keys same) i
    simp only [relabel, hc, hd, Option.map_some, Option.some.injEq, Cell.mk.injEq] at here
    exact here.1

/-- What no operation breaks. -/
structure BothInv (f : KeyFns κ) (b : Both κ ν) : Prop where
  set_state : SetState f b.set
  set_distinct : SetDistinct f b.set
  map_inv : ∃ k, HashmapInv f k b.map

/-- What every operation keeps while no request is refused. -/
structure Twins (past : List (BothOp κ ν)) (b : Both κ ν) : Prop where
  same : b.set.view = b.map.keys
  opened : (∃ key value, BothOp.add key value ∈ past) → b.set.cap ≠ 0

/-- The same status for the removal of a key. -/
def SameRemoval (op : BothOp κ ν) (out : Answer κ × Answer ν) : Prop :=
  ∀ key, op = .remove key → ∃ rs, out = (.status rs, .status rs)

theorem Twins.later {past : List (BothOp κ ν)} {b b' : Both κ ν} {op : BothOp κ ν}
    (t : Twins past b) (same : b'.set.view = b'.map.keys)
    (opened : b.set.cap ≠ 0 ∨ (∃ key value, op = .add key value) → b'.set.cap ≠ 0) :
    Twins (past ++ [op]) b' where
  same := same
  opened := by
    rintro ⟨key, value, h⟩
    refine opened ?_
    rcases List.mem_append.mp h with h | h
    · exact .inl (t.opened ⟨key, value, h⟩)
    · exact .inr ⟨key, value, (List.mem_singleton.mp h).symm⟩

theorem bothStep_agrees (ndebug : Bool) (law : f.Lawful) (op : BothOp κ ν) (b : Both κ ν)
    (h : BothInv f b) :
    ∃ out b', bothStep ndebug f op b = some (out, b') ∧ BothInv f b' ∧
      b.refusals ≤ b'.refusals ∧ (b'.refusals = b.refusals → ∀ past, Twins past b →
        Twins (past ++ [op]) b' ∧ SameRemoval op out) := by
  obtain ⟨s, m, map, m'⟩ := b
  obtain ⟨state, d, k, inv⟩ := h
  simp only at state d inv
  cases op with
  | add key value =>
    obtain ⟨rs, s₁, m₁, add, state₁, stays, outcome⟩ := setAdd_spec ndebug state key m
    obtain ⟨rs', k', map₁, m₁', set, inv₁, -⟩ := hashmapSet_spec ndebug inv key value m'
    have d₁ : SetDistinct f s₁ := by
      rcases outcome with ⟨-, -, kept⟩ | ⟨-, -, added⟩ | ⟨-, -, kept⟩
      · exact (kept law d).1
      · exact (added law d).1
      · exact (kept law d).1
    have onSet := setAdd_view state d add
    have onMap := hashmapSet_keys inv set
    refine ⟨(.status rs, .status rs'), ⟨s₁, m₁, map₁, m₁'⟩, ?_, ⟨state₁, d₁, k', inv₁⟩, ?_, ?_⟩
    · simp [bothStep, BothOp.onSet, BothOp.onMap, setStep, hashmapStep, add, set]
    · simp only [Both.refusals]
      omega
    · intro quiet past t
      simp only [Both.refusals] at quiet
      obtain ⟨-, added⟩ : _ ∧ s.view.add ndebug f key = some s₁.keys :=
        onSet.resolve_left (by omega)
      obtain ⟨-, -, stored⟩ := onMap.resolve_left (by omega)
      have opened : s₁.cap ≠ 0 := by
        intro zero
        obtain ⟨-, rfl⟩ := stays zero
        have refused := outcome.resolve_right (by simp)
        omega
      have same : s₁.keys = map₁.keys := by
        rw [t.same] at added
        exact Option.some.inj (added.symm.trans stored)
      refine ⟨t.later ?_ fun _ => opened, fun _ h => by cases h⟩
      simpa [SetT.view, opened] using same
  | remove key =>
    obtain ⟨rs, s₁, m₁, remove, state₁, quiet, cap, outcome⟩ := setRemove_spec state key m
    obtain ⟨rs', map₁, m₁', remove', inv₁, quiet', -⟩ := hashmapRemove_spec inv key m'
    have d₁ : SetDistinct f s₁ := by
      rcases outcome with ⟨-, rfl, -⟩ | ⟨-, len, c, -, perm⟩
      · exact d
      · exact d.remove len perm
    refine ⟨(.status rs, .status rs'), ⟨s₁, m₁, map₁, m₁'⟩, ?_, ⟨state₁, d₁, k, inv₁⟩, ?_, ?_⟩
    · simp [bothStep, BothOp.onSet, BothOp.onMap, setStep, hashmapStep, remove, remove']
    · simp only [Both.refusals]
      omega
    · intro _ past t
      have keeps : s.cap ≠ 0 ∨ (∃ key' value, (.remove key : BothOp κ ν) = .add key' value) →
          s₁.cap ≠ 0 := by simp [cap]
      rcases setRemove_view state remove with ⟨rfl, rfl, onSet⟩ | ⟨rfl, onSet⟩ <;>
        rcases hashmapRemove_keys inv remove' with ⟨rfl, rfl, onMap⟩ | ⟨rfl, onMap⟩ <;>
        rw [t.same, onMap] at onSet
      · exact ⟨t.later t.same keeps, fun _ _ => ⟨_, rfl⟩⟩
      · simp at onSet
      · simp at onSet
      · simp only [Option.some.injEq] at onSet
        exact ⟨t.later onSet.symm keeps, fun _ _ => ⟨_, rfl⟩⟩
  | clear =>
    obtain ⟨state₁, none_left, len, cap, quiet⟩ := setClear_spec state m
    obtain ⟨inv₁, -, quiet'⟩ := hashmapClear_spec inv m'
    refine ⟨(.nothing, .nothing), ⟨(setClear s m).1, (setClear s m).2, (hashmapClear map m').1,
      (hashmapClear map m').2⟩, rfl,
      ⟨state₁, ⟨by simp [none_left], by simp [none_left, len]⟩, k, inv₁⟩, ?_, ?_⟩
    · simp only [Both.refusals]
      omega
    · intro _ past t
      refine ⟨t.later ?_ (by simp [cap]), fun _ h => by cases h⟩
      rw [setClear_view state, t.same, hashmapClear_keys]

/-- A set and a map that are given the same keys agree after every operation once a key
was added, as long as no request is refused, and their removals return the same. -/
theorem tables_agree (law : f.Lawful) {elemSize keySize valSize : Nat} {m₀ m₀' m₁ m₁' : Mem}
    {s₀ : SetT κ} {map₀ : Hashmap κ ν} (created : setCreate κ elemSize m₀ = (some s₀, m₁))
    (created' : hashmapCreate κ ν keySize valSize m₀' = (some map₀, m₁')) (ndebug : Bool)
    (ops : List (BothOp κ ν)) :
    ∃ outs b, run (bothStep ndebug f) ops ⟨s₀, m₁, map₀, m₁'⟩ = some (outs, b) ∧
      (b.setMem.refusals = m₁.refusals → b.mapMem.refusals = m₁'.refusals →
        List.Forall₂ SameRemoval ops outs ∧
        ((∃ key value, BothOp.add key value ∈ ops) → TablesAgree b.set b.map)) := by
  obtain ⟨fresh, -⟩ := setCreate_spec created
  obtain ⟨inv, none_yet, -⟩ := hashmapCreate_spec f created'
  have start : BothInv f (⟨s₀, m₁, map₀, m₁'⟩ : Both κ ν) :=
    ⟨.fresh fresh, ⟨by simp [fresh.entries_eq], by simp [fresh.entries_eq, fresh.len_eq]⟩, 4, inv⟩
  obtain ⟨outs, b, ran, ⟨state, d, k, inv'⟩, -, quiet⟩ :=
    run_faultless (bothStep ndebug f) Both.refusals (bothStep_agrees ndebug law) ops start
  refine ⟨outs, b, ran, fun quietSet quietMap => ?_⟩
  obtain ⟨t, answers⟩ := quiet (by simp [Both.refusals, quietSet, quietMap]) [] {
    same := fresh.view_eq.trans (hashmapCreate_keys created').symm
    opened := by simp }
  refine ⟨answers, fun added => .of_keys d inv' ?_⟩
  have opened := t.opened (by simpa using added)
  rw [← t.same, SetT.view, if_neg opened]

theorem tables_agree_colliding :
    ∃ outs b, run (bothStep false collidingKeys) [.add 7 1, .add 9 2, .remove 7, .add 9 3]
        ⟨⟨0, none, fun _ => none, 0, 0, 8, 0⟩, ⟨refusingOnce 50, 1, [.alloc 0 72]⟩,
          ⟨0, 1, fun _ => none, 16, 0, 8, 8, 0⟩,
          ⟨refusingOnce 50, 2, [.alloc 0 80, .alloc 1 384]⟩⟩ = some (outs, b) ∧
      TablesAgree b.set (b.map : Hashmap Nat Nat) := by
  have created : setCreate Nat 8 (.start (refusingOnce 50)) =
      (some ⟨0, none, fun _ => none, 0, 0, 8, 0⟩, ⟨refusingOnce 50, 1, [.alloc 0 72]⟩) := rfl
  have created' : hashmapCreate Nat Nat 8 8 (.start (refusingOnce 50)) =
      (some ⟨0, 1, fun _ => none, 16, 0, 8, 8, 0⟩,
        ⟨refusingOnce 50, 2, [.alloc 0 80, .alloc 1 384]⟩) := rfl
  obtain ⟨outs, b, ran, agree⟩ := tables_agree collidingKeys_lawful created created' false
    [.add 7 1, .add 9 2, .remove 7, .add 9 3]
  have same := ran.symm.trans (rfl : run (bothStep false collidingKeys)
    [.add 7 1, .add 9 2, .remove 7, .add 9 3] _ = some (_, _))
  obtain ⟨rfl, rfl⟩ := Prod.mk.inj (Option.some.inj same)
  exact ⟨_, _, ran, (agree rfl rfl).2 ⟨7, 1, by simp⟩⟩

end Seqc
