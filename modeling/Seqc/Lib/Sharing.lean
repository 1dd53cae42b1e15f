import Seqc.Lib.Runs
import Mathlib.Algebra.BigOperators.Group.Finset.Basic
import Mathlib.Data.Fintype.Basic

/-! Objects of different kinds that live on one resource. Each trades what it owns for what
it owns next, and stays what it is while the others trade. A program creates, calls and
destroys them in any order: it never gets stuck, each object answers as it does alone, and
what is owned altogether is what was got from the resource. -/

namespace Sharing
open Runs

/-- A resource from which goods are traded. `tally` is what the specifications of the objects
may see of it. -/
structure Resource (M B N : Type) [AddCommMonoid B] where
  Trades : M → B → M → B → Prop
  refl : ∀ m a, Trades m a m a
  trans : ∀ {m a m₁ b m' c}, Trades m a m₁ b → Trades m₁ b m' c → Trades m a m' c
  frame : ∀ {m a m' b}, Trades m a m' b → ∀ kept, Trades m (a + kept) m' (b + kept)
  tally : M → N

variable {M B N : Type} [AddCommMonoid B] {R : Resource M B N}

/-- A kind of object: its operations on the resource, and the specification they meet. -/
structure Kind (R : Resource M B N) where
  Op : Type
  Ans : Type
  State : Type
  Abs : Type
  create : M → Option State × M
  step : Op → State × M → Option (Ans × State × M)
  destroy : State → M → Option M
  /-- What an object owns. -/
  owned : State → B
  /-- The object is well-formed, and stands for an abstract one. -/
  Rep : State → M → Abs → Prop
  /-- What a creation may make, or whether it may fail. -/
  opens : N → Option Abs → N → Prop
  allows : Abs × N → Op → Ans → Abs × N → Prop
  lasts : ∀ {s m a x m' y}, Rep s m a → R.Trades m x m' y → Rep s m' a
  creates : ∀ m, R.Trades m 0 (create m).2 ((create m).1.elim 0 owned) ∧
    ∃ a, Option.Rel (fun s a => Rep s (create m).2 a) (create m).1 a ∧
      opens (R.tally m) a (R.tally (create m).2)
  steps : ∀ op {s m a}, Rep s m a → ∃ out s' m' a', step op (s, m) = some (out, s', m') ∧
    allows (a, R.tally m) op out (a', R.tally m') ∧ Rep s' m' a' ∧
    R.Trades m (owned s) m' (owned s')
  destroys : ∀ {s m a}, Rep s m a → ∃ m', destroy s m = some m' ∧
    R.Trades m (owned s) m' 0 ∧ R.tally m' = R.tally m

variable {ι : Type}

inductive Action (kind : ι → Kind R) where
  | create (i : ι)
  | call (i : ι) (op : (kind i).Op)
  | destroy (i : ι)

inductive Reply (kind : ι → Kind R) where
  | created (made : Bool)
  | answered (i : ι) (out : (kind i).Ans)
  | destroyed
  /-- There is an object already, or there is none. -/
  | skipped

/-- The objects that there are. -/
abbrev Objects (kind : ι → Kind R) := ∀ i, Option (kind i).State

abbrev Abstracts (kind : ι → Kind R) := ∀ i, Option (kind i).Abs

/-- The objects stand for the abstract ones. -/
def Reps (kind : ι → Kind R) (objs : Objects kind) (m : M) (g : Abstracts kind) : Prop :=
  ∀ i, Option.Rel (fun o a => (kind i).Rep o m a) (objs i) (g i)

section Parts
variable {kind : ι → Kind R} {objs : Objects kind} {g : Abstracts kind} {m : M} {i : ι}

theorem Reps.absent (h : Reps kind objs m g) (none_here : objs i = none) : g i = none := by
  have here := h i
  rw [none_here] at here
  cases hg : g i with
  | none => rfl
  | some a =>
    rw [hg] at here
    cases here

theorem Reps.present (h : Reps kind objs m g) {o : (kind i).State} (there : objs i = some o) :
    ∃ a, g i = some a ∧ (kind i).Rep o m a := by
  have here := h i
  rw [there] at here
  cases hg : g i with
  | none =>
    rw [hg] at here
    cases here
  | some a =>
    rw [hg] at here
    cases here with
    | some rep => exact ⟨a, rfl, rep⟩

/-- The objects stay what they are while others trade. -/
theorem Reps.lasts (h : Reps kind objs m g) {m' : M} {x y : B}
    (traded : R.Trades m x m' y) : Reps kind objs m' g := by
  intro j
  cases ho : objs j with
  | none =>
    rw [h.absent ho]
    exact .none
  | some o =>
    obtain ⟨a, hg, rep⟩ := h.present ho
    rw [hg]
    exact .some ((kind j).lasts rep traded)

/-- What all objects own. -/
def total [Fintype ι] {kind : ι → Kind R} (objs : Objects kind) : B :=
  ∑ i, (objs i).elim 0 (kind i).owned

theorem total_none [Fintype ι] : total (fun _ => none : Objects kind) = 0 :=
  Finset.sum_eq_zero fun _ _ => rfl

end Parts

variable {kind : ι → Kind R} [DecidableEq ι]

def step (kind : ι → Kind R) (act : Action kind) (s : Objects kind × M) :
    Option (Reply kind × Objects kind × M) :=
  match act with
  | .create i =>
    match s.1 i with
    | some _ => some (.skipped, s)
    | none =>
      some (.created ((kind i).create s.2).1.isSome,
        Function.update s.1 i ((kind i).create s.2).1, ((kind i).create s.2).2)
  | .call i op =>
    match s.1 i with
    | none => some (.skipped, s)
    | some o => ((kind i).step op (o, s.2)).map fun r =>
      (.answered i r.1, Function.update s.1 i (some r.2.1), r.2.2)
  | .destroy i =>
    match s.1 i with
    | none => some (.skipped, s)
    | some o => ((kind i).destroy o s.2).map fun m =>
      (.destroyed, Function.update s.1 i none, m)

/-- What the objects may do together: each what it may do alone, while the others stay as
they are. -/
inductive Allows (kind : ι → Kind R) :
    Abstracts kind × N → Action kind → Reply kind → Abstracts kind × N → Prop
  | made {g n n'} (i) {a} (absent : g i = none) (opens : (kind i).opens n (some a) n') :
      Allows kind (g, n) (.create i) (.created true) (Function.update g i (some a), n')
  | refused {g n n'} (i) (absent : g i = none) (opens : (kind i).opens n none n') :
      Allows kind (g, n) (.create i) (.created false) (g, n')
  | answered {g n n'} (i) {a op out a'} (here : g i = some a)
      (step : (kind i).allows (a, n) op out (a', n')) :
      Allows kind (g, n) (.call i op) (.answered i out) (Function.update g i (some a'), n')
  | destroyed {g n} (i) {a} (here : g i = some a) :
      Allows kind (g, n) (.destroy i) .destroyed (Function.update g i none, n)
  | createAgain {g} (i) {a} (here : g.1 i = some a) : Allows kind g (.create i) .skipped g
  | callAbsent {g} (i op) (absent : g.1 i = none) : Allows kind g (.call i op) .skipped g
  | destroyAbsent {g} (i) (absent : g.1 i = none) : Allows kind g (.destroy i) .skipped g

section One
variable {objs : Objects kind} {g : Abstracts kind} {m m' : M} {x y : B} {i : ι}

/-- What one object does changes none of the others. -/
theorem Reps.update (h : Reps kind objs m g) (traded : R.Trades m x m' y)
    {o : Option (kind i).State} {a : Option (kind i).Abs}
    (here : Option.Rel (fun o a => (kind i).Rep o m' a) o a) :
    Reps kind (Function.update objs i o) m' (Function.update g i a) := by
  intro j
  by_cases same : j = i
  · subst same
    simpa using here
  · rw [Function.update_of_ne same, Function.update_of_ne same]
    cases ho : objs j with
    | none =>
      rw [h.absent ho]
      exact .none
    | some o =>
      obtain ⟨a, hg, rep⟩ := h.present ho
      rw [hg]
      exact .some ((kind j).lasts rep traded)

end One

variable [Fintype ι]

/-- One object apart from the others. -/
theorem total_update (objs : Objects kind) (i : ι) (o : Option (kind i).State) :
    total (Function.update objs i o) = o.elim 0 (kind i).owned +
      ∑ j ∈ Finset.univ.erase i, (objs j).elim 0 (kind j).owned := by
  rw [total, ← Finset.add_sum_erase _ _ (Finset.mem_univ i)]
  congr 1
  · rw [Function.update_self]
  · refine Finset.sum_congr rfl fun j hj => ?_
    rw [Function.update_of_ne (Finset.ne_of_mem_erase hj)]

/-- The trade of one object among what all own. -/
theorem trades_update {objs : Objects kind} {m m' : M} {i : ι} {o : Option (kind i).State}
    (h : R.Trades m ((objs i).elim 0 (kind i).owned) m' (o.elim 0 (kind i).owned)) :
    R.Trades m (total objs) m' (total (Function.update objs i o)) := by
  have before := total_update objs i (objs i)
  rw [Function.update_eq_self] at before
  rw [before, total_update]
  exact R.frame h _

/-- An action of the program. -/
theorem step_shares (act : Action kind) {objs : Objects kind} {m : M} {g : Abstracts kind}
    (h : Reps kind objs m g) :
    ∃ out objs' m' g', step kind act (objs, m) = some (out, objs', m') ∧
      Allows kind (g, R.tally m) act out (g', R.tally m') ∧ Reps kind objs' m' g' ∧
      R.Trades m (total objs) m' (total objs') := by
  cases act with
  | create i =>
    cases ho : objs i with
    | some o =>
      obtain ⟨a, hg, -⟩ := h.present ho
      exact ⟨_, objs, m, g, by simp only [step, ho], .createAgain i hg, h, R.refl m _⟩
    | none =>
      obtain ⟨trades, a, rep, opens⟩ := (kind i).creates m
      have traded : R.Trades m (total objs) ((kind i).create m).2
          (total (Function.update objs i ((kind i).create m).1)) := trades_update (by rwa [ho])
      rcases hc : (kind i).create m with ⟨_ | o, m'⟩ <;> rw [hc] at trades rep opens traded
      · have kept : Function.update objs i none = objs := by rw [← ho, Function.update_eq_self]
        cases rep
        refine ⟨_, objs, m', g, by simp only [step, ho, hc, Option.isSome_none, kept],
          .refused i (h.absent ho) opens, h.lasts trades, ?_⟩
        rwa [kept] at traded
      · cases rep with
        | some rep =>
          exact ⟨_, _, m', _, by simp only [step, ho, hc, Option.isSome_some],
            .made i (h.absent ho) opens, h.update trades (.some rep), traded⟩
  | call i op =>
    cases ho : objs i with
    | none =>
      exact ⟨_, objs, m, g, by simp only [step, ho], .callAbsent i op (h.absent ho), h,
        R.refl m _⟩
    | some o =>
      obtain ⟨a, hg, rep⟩ := h.present ho
      obtain ⟨out, o', m', a', run, allowed, rep', trades⟩ := (kind i).steps op rep
      exact ⟨_, _, m', _, by simp only [step, ho, run, Option.map_some],
        .answered i hg allowed, h.update trades (.some rep'), trades_update (by rwa [ho])⟩
  | destroy i =>
    cases ho : objs i with
    | none =>
      exact ⟨_, objs, m, g, by simp only [step, ho], .destroyAbsent i (h.absent ho), h,
        R.refl m _⟩
    | some o =>
      obtain ⟨a, hg, rep⟩ := h.present ho
      obtain ⟨m', run, trades, quiet⟩ := (kind i).destroys rep
      refine ⟨.destroyed, Function.update objs i none, m', Function.update g i none,
        by simp only [step, ho, run, Option.map_some], ?_, h.update trades .none,
        trades_update (by rwa [ho])⟩
      rw [quiet]
      exact .destroyed i hg

/-- What the program does from some objects, and what it gets from the resource. -/
theorem run_shares (acts : List (Action kind)) {objs : Objects kind} {m₀ m : M}
    {g : Abstracts kind} (h : Reps kind objs m g) (owns : R.Trades m₀ 0 m (total objs)) :
    ∃ outs objs' m' g', run (step kind) acts (objs, m) = some (outs, (objs', m')) ∧
      SpecRun (Allows kind) (g, R.tally m) acts outs (g', R.tally m') ∧
      Reps kind objs' m' g' ∧ R.Trades m₀ 0 m' (total objs') := by
  obtain ⟨outs, ⟨objs', m'⟩, ⟨g', n'⟩, ran, spec, ⟨rep, rfl⟩, owns'⟩ :=
    run_refines (step kind) (Allows kind)
      (R := fun s g => (Reps kind s.1 s.2 g.1 ∧ g.2 = R.tally s.2) ∧
        R.Trades m₀ 0 s.2 (total s.1))
      (fun act s g h => by
        obtain ⟨objs, m⟩ := s
        obtain ⟨g, n⟩ := g
        obtain ⟨⟨rep, rfl⟩, owns⟩ := h
        obtain ⟨out, objs', m', g', call, allowed, rep', traded⟩ := step_shares act rep
        exact ⟨out, (objs', m'), (g', R.tally m'), call, allowed, ⟨rep', rfl⟩,
          R.trans owns traded⟩)
      acts (s := (objs, m)) (g := (g, R.tally m)) ⟨⟨h, rfl⟩, owns⟩
  exact ⟨outs, objs', m', g', ran, spec, rep, owns'⟩

/-- When the program destroys every object, in any order, nothing is owned. -/
theorem run_destroys (order : List ι) {objs : Objects kind} {m₀ m : M} {g : Abstracts kind}
    (h : Reps kind objs m g) (owns : R.Trades m₀ 0 m (total objs))
    (all : ∀ i, objs i ≠ none → i ∈ order) :
    ∃ outs m', run (step kind) (order.map .destroy) (objs, m) =
      some (outs, ((fun _ => none), m')) ∧ R.Trades m₀ 0 m' 0 := by
  induction order generalizing objs m g with
  | nil =>
    have none_left : objs = fun _ => none := by
      funext i
      by_contra there
      exact absurd (all i there) (by simp)
    subst none_left
    exact ⟨[], m, rfl, by rwa [total_none] at owns⟩
  | cons i order ih =>
    obtain ⟨out, objs', m', g', call, allowed, rep, traded⟩ := step_shares (.destroy i) h
    have gone : objs' = Function.update objs i none := by
      cases ho : objs i with
      | none =>
        simp only [step, ho] at call
        obtain ⟨-, rfl, -⟩ : _ = out ∧ objs = objs' ∧ m = m' := by simpa using call
        rw [← ho, Function.update_eq_self]
      | some o =>
        simp only [step, ho] at call
        obtain ⟨m₁, -, here⟩ := Option.map_eq_some_iff.mp call
        exact (congrArg (fun r => r.2.1) here).symm
    obtain ⟨outs, m'', ran, nothing⟩ := ih rep (R.trans owns traded) fun j there => by
      rw [gone] at there
      by_cases same : j = i
      · rw [same, Function.update_self] at there
        exact absurd rfl there
      · rw [Function.update_of_ne same] at there
        exact (List.mem_cons.mp (all j there)).resolve_left same
    exact ⟨out :: outs, m'', by simp [run, call, ran], nothing⟩

end Sharing
