import Mathlib.Data.List.Basic

/-! Runs of a machine that answers one operation at a time and may get stuck,
the runs its specification allows, and the rules that carry what one operation
does over to a whole run. -/

namespace Runs

variable {ι ω σ γ : Type*}

/-- The answers and the final state; `none` if some operation gets stuck. -/
def run (step : ι → σ → Option (ω × σ)) : List ι → σ → Option (List ω × σ)
  | [], s => some ([], s)
  | op :: ops, s => do
    let (out, s) ← step op s
    let (outs, s) ← run step ops s
    pure (out :: outs, s)

/-- A specification relates the abstract state before an operation, the operation,
its answer and the abstract state after it. -/
inductive SpecRun (spec : γ → ι → ω → γ → Prop) : γ → List ι → List ω → γ → Prop
  | nil (g : γ) : SpecRun spec g [] [] g
  | cons {g g' g'' : γ} {op : ι} {out : ω} {ops : List ι} {outs : List ω} :
      spec g op out g' → SpecRun spec g' ops outs g'' → SpecRun spec g (op :: ops) (out :: outs) g''

/-- Every step of the run meets a condition on the operation and the state before it. -/
def AllSteps (step : ι → σ → Option (ω × σ)) (cond : ι → σ → Prop) : List ι → σ → Prop
  | [], _ => True
  | op :: ops, s => cond op s ∧ ∀ out s', step op s = some (out, s') → AllSteps step cond ops s'

variable {step step' : ι → σ → Option (ω × σ)} {spec : γ → ι → ω → γ → Prop} {R : σ → γ → Prop}
  {s s' : σ}

/-- A run of at least one operation is its first step and the run of the others. -/
theorem run_cons_eq_some {op : ι} {ops : List ι} {outs : List ω}
    (h : run step (op :: ops) s = some (outs, s')) :
    ∃ out s₁ rest, step op s = some (out, s₁) ∧ run step ops s₁ = some (rest, s') ∧
      outs = out :: rest := by
  obtain ⟨⟨out, s₁⟩, first, later⟩ := Option.bind_eq_some_iff.mp h
  obtain ⟨⟨rest, s₂⟩, second, last⟩ := Option.bind_eq_some_iff.mp later
  obtain ⟨rfl, rfl⟩ : out :: rest = outs ∧ s₂ = s' := by simpa using last
  exact ⟨out, s₁, rest, first, second, rfl⟩

/-- A condition that always holds is met by every run. -/
theorem AllSteps.of_forall {cond : ι → σ → Prop} (always : ∀ op s, cond op s) (ops : List ι) :
    ∀ s, AllSteps step cond ops s := by
  induction ops with
  | nil => exact fun _ => trivial
  | cons op ops ih => exact fun s => ⟨always op s, fun _ s' _ => ih s'⟩

/-- Simulation of a run whose steps meet a condition. -/
theorem run_refines_of {cond : ι → σ → Prop}
    (sim : ∀ op s g, R s g → cond op s →
      ∃ out s' g', step op s = some (out, s') ∧ spec g op out g' ∧ R s' g')
    {ops : List ι} {g : γ} (h : R s g) (all : AllSteps step cond ops s) :
    ∃ outs s' g', run step ops s = some (outs, s') ∧ SpecRun spec g ops outs g' ∧ R s' g' := by
  induction ops generalizing s g with
  | nil => exact ⟨[], s, g, rfl, .nil g, h⟩
  | cons op ops ih =>
    obtain ⟨out, s₁, g₁, hstep, hspec, h₁⟩ := sim op s g h all.1
    obtain ⟨outs, s₂, g₂, hrun, hspecs, h₂⟩ := ih h₁ (all.2 out s₁ hstep)
    exact ⟨out :: outs, s₂, g₂, by simp [run, hstep, hrun], .cons hspec hspecs, h₂⟩

/-- Simulation: if each operation of the machine is one the specification allows, so is each
run. -/
theorem run_refines (step : ι → σ → Option (ω × σ)) (spec : γ → ι → ω → γ → Prop)
    (sim : ∀ op s g, R s g → ∃ out s' g', step op s = some (out, s') ∧ spec g op out g' ∧ R s' g')
    (ops : List ι) {s : σ} {g : γ} (h : R s g) :
    ∃ outs s' g', run step ops s = some (outs, s') ∧ SpecRun spec g ops outs g' ∧ R s' g' :=
  run_refines_of (fun op s g h (_ : True) => sim op s g h) h
    (.of_forall (fun _ _ => trivial) ops s)

/-- What every operation preserves holds at the end of every run, and no run gets stuck. -/
theorem run_invariant (step : ι → σ → Option (ω × σ)) {I : σ → Prop}
    (keep : ∀ op s, I s → ∃ out s', step op s = some (out, s') ∧ I s')
    (ops : List ι) {s : σ} (h : I s) : ∃ outs s', run step ops s = some (outs, s') ∧ I s' := by
  obtain ⟨outs, s', -, hrun, -, h'⟩ := run_refines step (fun (_ : Unit) _ _ _ => True)
    (R := fun s _ => I s) (fun op s _ hs => by
      obtain ⟨out, s', hstep, hs'⟩ := keep op s hs
      exact ⟨out, s', (), hstep, trivial, hs'⟩) ops (g := ()) h
  exact ⟨outs, s', hrun, h'⟩

theorem run_append {before after : List ι} {outs outs' : List ω} {s'' : σ}
    (h : run step before s = some (outs, s')) (h' : run step after s' = some (outs', s'')) :
    run step (before ++ after) s = some (outs ++ outs', s'') := by
  induction before generalizing s outs with
  | nil =>
    obtain ⟨rfl, rfl⟩ : [] = outs ∧ s = s' := by simpa [run] using h
    exact h'
  | cons op before ih =>
    obtain ⟨out, s₁, rest, first, second, rfl⟩ := run_cons_eq_some h
    simp [run, first, ih second]

/-- In a run without faults: what a step that adds no fault preserves, given the operations
so far, holds at its end, and what each such step says of its answer is true of all. -/
theorem run_faultless (step : ι → σ → Option (ω × σ)) (faults : σ → Nat) {I : σ → Prop}
    {R : List ι → σ → Prop} {Q : ι → ω → Prop}
    (keep : ∀ op s, I s → ∃ out s', step op s = some (out, s') ∧ I s' ∧ faults s ≤ faults s' ∧
      (faults s' = faults s → ∀ past, R past s → R (past ++ [op]) s' ∧ Q op out))
    (ops : List ι) {s : σ} (h : I s) :
    ∃ outs s', run step ops s = some (outs, s') ∧ I s' ∧ faults s ≤ faults s' ∧
      (faults s' = faults s → ∀ past, R past s →
        R (past ++ ops) s' ∧ List.Forall₂ Q ops outs) := by
  induction ops generalizing s with
  | nil => exact ⟨[], s, rfl, h, Nat.le_refl _, fun _ past r => ⟨by simpa using r, .nil⟩⟩
  | cons op ops ih =>
    obtain ⟨out, s₁, hstep, h₁, more₁, quiet₁⟩ := keep op s h
    obtain ⟨outs, s₂, hrun, h₂, more₂, quiet₂⟩ := ih h₁
    refine ⟨out :: outs, s₂, by simp [run, hstep, hrun], h₂, Nat.le_trans more₁ more₂,
      fun same past r => ?_⟩
    obtain ⟨r₁, now⟩ := quiet₁ (by omega) past r
    obtain ⟨r₂, later⟩ := quiet₂ (by omega) (past ++ [op]) r₁
    exact ⟨by simpa using r₂, .cons now later⟩

theorem AllSteps.append {cond : ι → σ → Prop} {ops later : List ι} (h : AllSteps step cond ops s)
    (rest : ∀ outs s', run step ops s = some (outs, s') → AllSteps step cond later s') :
    AllSteps step cond (ops ++ later) s := by
  induction ops generalizing s with
  | nil => exact rest [] s rfl
  | cons op ops ih =>
    refine ⟨h.1, fun out s₁ first => ih (h.2 out s₁ first) fun outs s' ran => ?_⟩
    exact rest (out :: outs) s' (by simp [run, first, ran])

/-- What the steps that meet a condition preserve holds at the end of a run of such steps. -/
theorem run_invariant_of {I : σ → Prop} {cond : ι → σ → Prop}
    (keep : ∀ op s out s', I s → cond op s → step op s = some (out, s') → I s')
    {ops : List ι} {outs : List ω} (h : I s) (all : AllSteps step cond ops s)
    (ran : run step ops s = some (outs, s')) : I s' := by
  induction ops generalizing s outs with
  | nil =>
    obtain ⟨-, rfl⟩ : [] = outs ∧ s = s' := by simpa [run] using ran
    exact h
  | cons op ops ih =>
    obtain ⟨out, s₁, rest, first, later, -⟩ := run_cons_eq_some ran
    exact ih (keep op s out s₁ h all.1 first) (all.2 out s₁ first) later

/-- Where an operation keeps `P` exactly when it meets the condition, every state a run
goes through has `P` if and only if all its steps meet it. -/
theorem run_invariant_iff {I P : σ → Prop} {cond : ι → σ → Prop}
    (keep : ∀ op s, I s → ∃ out s', step op s = some (out, s') ∧ I s' ∧
      (P s → (P s' ↔ cond op s))) (ops : List ι) (inv : I s) (start : P s) :
    (∀ before, before <+: ops → ∀ outs s', run step before s = some (outs, s') → P s') ↔
      AllSteps step cond ops s := by
  induction ops generalizing s with
  | nil =>
    refine ⟨fun _ => trivial, fun _ before part outs s' ran => ?_⟩
    obtain rfl := List.prefix_nil.mp part
    obtain ⟨-, rfl⟩ : [] = outs ∧ s = s' := by simpa [run] using ran
    exact start
  | cons op ops ih =>
    obtain ⟨out, s₁, first, inv₁, exact_cond⟩ := keep op s inv
    constructor
    · intro all
      have after : P s₁ := all [op] ⟨ops, rfl⟩ [out] s₁ (by simp [run, first])
      refine ⟨(exact_cond start).mp after, fun out' s' again => ?_⟩
      obtain ⟨rfl, rfl⟩ : out = out' ∧ s₁ = s' := by simpa [first] using again
      refine (ih inv₁ after).mp fun before part outs s' ran => ?_
      exact all (op :: before) (List.cons_prefix_cons.mpr ⟨rfl, part⟩) (out :: outs) s'
        (by simp [run, first, ran])
    · rintro ⟨now, later⟩ before part outs s' ran
      have after : P s₁ := (exact_cond start).mpr now
      cases before with
      | nil =>
        obtain ⟨-, rfl⟩ : [] = outs ∧ s = s' := by simpa [run] using ran
        exact start
      | cons op' before =>
        obtain ⟨rfl, initial⟩ := List.cons_prefix_cons.mp part
        obtain ⟨out', s₁', rest, again, ran, -⟩ := run_cons_eq_some ran
        obtain ⟨rfl, rfl⟩ : out = out' ∧ s₁ = s₁' := by simpa [first] using again
        exact (ih inv₁ after).mpr (later out s₁ first) before initial rest s' ran

/-- What can only hold after an operation if it held before, and then says `P` of the
answer, says `P` of all answers when it holds at the end. -/
theorem SpecRun.backward {J : γ → Prop} {P : ω → Prop}
    (back : ∀ g op out g', spec g op out g' → J g' → J g ∧ P out) {g g' : γ} {ops : List ι}
    {outs : List ω} (h : SpecRun spec g ops outs g') (last : J g') :
    J g ∧ ∀ out ∈ outs, P out := by
  induction h with
  | nil g => exact ⟨last, by simp⟩
  | cons first rest ih =>
    obtain ⟨middle, later⟩ := ih last
    obtain ⟨start, now⟩ := back _ _ _ _ first middle
    exact ⟨start, List.forall_mem_cons.mpr ⟨now, later⟩⟩

/-- A run answers each of its operations. -/
theorem SpecRun.zipWith_answers {ω' : Type*} {f : ω → ω'} {g g' : γ} {ops : List ι}
    {outs : List ω} (h : SpecRun spec g ops outs g') :
    List.zipWith (fun _ out => f out) ops outs = outs.map f := by
  induction h with
  | nil g => rfl
  | cons first rest ih => simp [ih]

/-- A run of renamed operations is one of a specification that renames them. -/
theorem SpecRun.of_map {ι' : Type*} {rename : ι' → ι} {ops : List ι'} {outs : List ω} {g g' : γ}
    (h : SpecRun spec g (ops.map rename) outs g') :
    SpecRun (fun g op => spec g (rename op)) g ops outs g' := by
  induction ops generalizing g outs with
  | nil =>
    cases h
    exact .nil _
  | cons op ops ih =>
    cases h with
    | cons first rest => exact .cons first (ih rest)

/-- Two specifications that agree step by step where neither fails agree over whole runs;
`answer` gives the answers of the second for those of the first. -/
theorem SpecRun.agree {ω' γ' : Type*} {spec' : γ' → ι → ω' → γ' → Prop} (answer : ι → ω → ω')
    {S : γ → γ' → Prop} {Fails : ω → Prop} {Fails' : ω' → Prop}
    (alike : ∀ op g out g₁ g' out' g₁', S g g' → spec g op out g₁ → spec' g' op out' g₁' →
      ¬ Fails out → ¬ Fails' out' → out' = answer op out ∧ S g₁ g₁')
    {ops : List ι} {outs : List ω} {outs' : List ω'} {g g₁ : γ} {g' g₁' : γ'} (start : S g g')
    (h : SpecRun spec g ops outs g₁) (h' : SpecRun spec' g' ops outs' g₁')
    (fine : ∀ out ∈ outs, ¬ Fails out) (fine' : ∀ out ∈ outs', ¬ Fails' out) :
    outs' = List.zipWith answer ops outs ∧ S g₁ g₁' := by
  induction h generalizing outs' g' with
  | nil g =>
    cases h'
    exact ⟨rfl, start⟩
  | @cons g g₁ _ op out ops outs first rest ih =>
    cases h' with
    | @cons _ g₁' _ _ out' _ outs' first' rest' =>
      obtain ⟨now, laters⟩ := List.forall_mem_cons.mp fine
      obtain ⟨now', laters'⟩ := List.forall_mem_cons.mp fine'
      obtain ⟨rfl, related⟩ := alike op g out g₁ g' out' g₁' start first first' now now'
      obtain ⟨rfl, last⟩ := ih related rest' laters laters'
      exact ⟨rfl, last⟩

/-- The agreement of two specifications whose answers correspond whatever the operation. -/
theorem SpecRun.agree_map {ω' γ' : Type*} {spec' : γ' → ι → ω' → γ' → Prop} (answer : ω → ω')
    {S : γ → γ' → Prop} {Fails : ω → Prop} {Fails' : ω' → Prop}
    (alike : ∀ op g out g₁ g' out' g₁', S g g' → spec g op out g₁ → spec' g' op out' g₁' →
      ¬ Fails out → ¬ Fails' out' → out' = answer out ∧ S g₁ g₁')
    {ops : List ι} {outs : List ω} {outs' : List ω'} {g g₁ : γ} {g' g₁' : γ'} (start : S g g')
    (h : SpecRun spec g ops outs g₁) (h' : SpecRun spec' g' ops outs' g₁')
    (fine : ∀ out ∈ outs, ¬ Fails out) (fine' : ∀ out ∈ outs', ¬ Fails' out) :
    outs' = outs.map answer ∧ S g₁ g₁' := by
  obtain ⟨same, last⟩ := h.agree (fun _ out => answer out) alike start h' fine fine'
  exact ⟨same.trans h.zipWith_answers, last⟩

/-- A machine that answers whenever another does has its runs. -/
theorem run_mono (le : ∀ op s r, step op s = some r → step' op s = some r) (ops : List ι)
    {outs : List ω} (h : run step ops s = some (outs, s')) : run step' ops s = some (outs, s') := by
  induction ops generalizing s outs with
  | nil => exact h
  | cons op ops ih =>
    cases hs : step op s with
    | none => simp [run, hs] at h
    | some first =>
      obtain ⟨out, s₁⟩ := first
      cases hr : run step ops s₁ with
      | none => simp [run, hs, hr] at h
      | some rest =>
        obtain ⟨outs₁, s₂⟩ := rest
        simp only [run, hs, hr, Option.bind_eq_bind, Option.bind_some, Option.pure_def,
          Option.some.injEq, Prod.mk.injEq] at h
        obtain ⟨rfl, rfl⟩ := h
        simp [run, le op s _ hs, ih hr]

/-- A machine that does to an image of the state what another does has its runs, and gets stuck
where it does. -/
theorem run_image {ι' ω' σ' : Type*} {step : ι → σ → Option (ω × σ)}
    {step' : ι' → σ' → Option (ω' × σ')} (rename : ι → ι') (answer : ω → ω') (φ : σ → σ')
    (sim : ∀ op s, step' (rename op) (φ s) = (step op s).map fun r => (answer r.1, φ r.2))
    (ops : List ι) (s : σ) :
    run step' (ops.map rename) (φ s) =
      (run step ops s).map fun r => (r.1.map answer, φ r.2) := by
  induction ops generalizing s with
  | nil => rfl
  | cons op ops ih =>
    simp only [List.map_cons, run, sim]
    cases step op s with
    | none => rfl
    | some r =>
      have rest := ih r.2
      cases later : run step ops r.2 with
      | none => simp [rest, later]
      | some r' => simp [rest, later]

/-- The invariant rule for a loop over `0 .. n - 1` that may get stuck. -/
theorem foldlM_range {f : σ → Nat → Option σ} {P : Nat → σ → Prop} (n : Nat)
    (keep : ∀ i < n, ∀ s, P i s → ∃ s', f s i = some s' ∧ P (i + 1) s') {s : σ} (h : P 0 s) :
    ∃ s', (List.range n).foldlM f s = some s' ∧ P n s' := by
  induction n with
  | zero => exact ⟨s, rfl, h⟩
  | succ n ih =>
    obtain ⟨s₁, hs₁, h₁⟩ := ih fun i hi => keep i (by omega)
    obtain ⟨s₂, hs₂, h₂⟩ := keep n (by omega) s₁ h₁
    exact ⟨s₂, by simp [List.range_succ, List.foldlM_append, hs₁, hs₂], h₂⟩

/-- A loop whose body does to an image of the state what another does has its loops. -/
theorem foldlM_image {α τ : Type*} {f : σ → α → Option σ} {f' : τ → α → Option τ} (φ : σ → τ)
    (sim : ∀ s a r, f s a = some r → f' (φ s) a = some (φ r)) (xs : List α)
    (h : xs.foldlM f s = some s') : xs.foldlM f' (φ s) = some (φ s') := by
  induction xs generalizing s with
  | nil =>
    obtain rfl := Option.some.inj h
    rfl
  | cons x xs ih =>
    cases hx : f s x with
    | none => simp [hx] at h
    | some s₁ =>
      rw [List.foldlM_cons, hx] at h
      simpa [List.foldlM_cons, sim s x s₁ hx] using ih h

theorem foldlM_image_eq {α τ : Type*} {f : σ → α → Option σ} {f' : τ → α → Option τ} (φ : σ → τ)
    (sim : ∀ s a, f' (φ s) a = (f s a).map φ) (xs : List α) (s : σ) :
    xs.foldlM f' (φ s) = (xs.foldlM f s).map φ := by
  induction xs generalizing s with
  | nil => rfl
  | cons x xs ih =>
    rw [List.foldlM_cons, List.foldlM_cons, sim]
    cases f s x with
    | none => rfl
    | some s₁ => exact ih s₁

/-- What every turn that answers preserves, the loop does. -/
theorem foldlM_preserves {α : Type*} {f : σ → α → Option σ} {P : σ → Prop}
    (keep : ∀ s a r, P s → f s a = some r → P r) (xs : List α) (start : P s)
    (h : xs.foldlM f s = some s') : P s' := by
  induction xs generalizing s with
  | nil =>
    obtain rfl := Option.some.inj h
    exact start
  | cons x xs ih =>
    cases hx : f s x with
    | none => simp [hx] at h
    | some s₁ =>
      rw [List.foldlM_cons, hx] at h
      exact ih (keep s x s₁ start hx) h

/-- What every turn leaves alone, the loop does. -/
theorem foldlM_keeps {α τ : Type*} {f : σ → α → Option σ} (φ : σ → τ)
    (keep : ∀ s a r, f s a = some r → φ r = φ s) (xs : List α) (h : xs.foldlM f s = some s') :
    φ s' = φ s :=
  foldlM_preserves (P := fun r => φ r = φ s) (fun r a r' same hr => (keep r a r' hr).trans same)
    xs rfl h

/-- A loop body that answers whenever another does has its loops. -/
theorem foldlM_mono {α : Type*} {f f' : σ → α → Option σ}
    (le : ∀ s a r, f s a = some r → f' s a = some r) (xs : List α) (h : xs.foldlM f s = some s') :
    xs.foldlM f' s = some s' :=
  foldlM_image id le xs h

end Runs
