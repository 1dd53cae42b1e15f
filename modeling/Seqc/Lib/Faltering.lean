import Seqc.Lib.Iteration

/-! Iterators that end early when a call of theirs meets a fault, so that whoever calls them
cannot tell a fault from the end. A loop over such an iterator sees all its items exactly if
no call it makes meets a fault while items are left. -/

namespace Iteration

variable {σ β μ α : Type*}

/-- The calls of a loop: the states of the iterator and of the world before each. -/
inductive Visits (next : Nat → σ → μ → Option (Option β × σ × μ))
    (body : β → α → μ → Bool × α × μ) : σ → α → μ → σ → μ → Prop
  | here {s : σ} {a : α} {m : μ} : Visits next body s a m s m
  | later {x : β} {s s₁ s' : σ} {a a₁ : α} {m m₁ m₂ m' : μ}
      (returns : Returns next s m (some x) s₁ m₁) (goes : body x a m₁ = (true, a₁, m₂))
      (rest : Visits next body s₁ a₁ m₂ s' m') : Visits next body s a m s' m'

/-- A call that meets a fault. -/
def Faulty (next : Nat → σ → μ → Option (Option β × σ × μ)) (cost : μ → Nat) (s : σ) (m : μ) :
    Prop := ∃ out s' m', Returns next s m out s' m' ∧ cost m < cost m'

/-- The loop makes a call that meets a fault while there are items left. -/
def Truncated (next : Nat → σ → μ → Option (Option β × σ × μ)) (cost : μ → Nat)
    (rest : σ → List β) (body : β → α → μ → Bool × α × μ) (s : σ) (a : α) (m : μ) : Prop :=
  ∃ s' m', Visits next body s a m s' m' ∧ Faulty next cost s' m' ∧ rest s' ≠ []

/-- What a call does when `rest s` are the items left. -/
inductive Attempt (next : Nat → σ → μ → Option (Option β × σ × μ)) (cost : μ → Nat)
    (Good : σ → Prop) (rest : σ → List β) (s : σ) (m : μ) : Prop
  | fault {s' : σ} {m' : μ} (returns : Returns next s m none s' m') (faulty : cost m < cost m')
  | ended {s' : σ} {m' : μ} (returns : Returns next s m none s' m') (calm : cost m' = cost m)
      (empty : rest s = [])
  | item {x : β} {s' : σ} {m' : μ} (returns : Returns next s m (some x) s' m')
      (calm : cost m' = cost m) (good : Good s') (here : rest s = x :: rest s')

def Falters (next : Nat → σ → μ → Option (Option β × σ × μ)) (cost : μ → Nat) (Good : σ → Prop)
    (rest : σ → List β) : Prop := ∀ s m, Good s → Attempt next cost Good rest s m

variable {next : Nat → σ → μ → Option (Option β × σ × μ)} {cost : μ → Nat} {Good : σ → Prop}
  {rest : σ → List β} {body : β → α → μ → Bool × α × μ} {s s' : σ} {a : α} {m m' : μ}

/-- A call that returns nothing is the last one. -/
theorem truncated_last (mono : Mono next) (returns : Returns next s m none s' m') :
    Truncated next cost rest body s a m ↔ cost m < cost m' ∧ rest s ≠ [] := by
  constructor
  · rintro ⟨s₁, m₁, visits, ⟨_, _, _, call, grows⟩, left⟩
    cases visits with
    | here =>
      obtain ⟨-, rfl, rfl⟩ := returns.unique mono call
      exact ⟨grows, left⟩
    | later returns' _ _ => exact absurd (returns.unique mono returns').1 (by simp)
  · rintro ⟨grows, left⟩
    exact ⟨s, m, .here, ⟨none, s', m', returns, grows⟩, left⟩

/-- A call that returns an item is not the one that loses the rest. -/
theorem truncated_step (mono : Mono next) {x : β} {a' : α} {m₂ : μ}
    (returns : Returns next s m (some x) s' m') (calm : cost m' = cost m)
    (goes : body x a m' = (true, a', m₂)) :
    Truncated next cost rest body s a m ↔ Truncated next cost rest body s' a' m₂ := by
  constructor
  · rintro ⟨s₁, m₁, visits, faulty, left⟩
    cases visits with
    | here =>
      obtain ⟨_, _, _, call, grows⟩ := faulty
      obtain ⟨-, rfl, rfl⟩ := returns.unique mono call
      omega
    | later returns' goes' visits =>
      obtain ⟨same, rfl, rfl⟩ := returns.unique mono returns'
      obtain rfl := Option.some.inj same
      obtain ⟨rfl, rfl⟩ : a' = _ ∧ m₂ = _ := by simpa using goes.symm.trans goes'
      exact ⟨s₁, m₁, visits, faulty, left⟩
  · rintro ⟨s₁, m₁, visits, faulty, left⟩
    exact ⟨s₁, m₁, .later returns goes visits, faulty, left⟩

theorem whileNext_last (mono : Mono next) (returns : Returns next s m none s' m') :
    ∃ n, ∀ fuel, n ≤ fuel → whileNext next body fuel s a m = some (a, s', m') := by
  obtain ⟨k, run⟩ := returns
  have last : whileNext next body (k + 1) s a m = some (a, s', m') := by
    simp only [whileNext, run]
  exact ⟨k + 1, fun fuel le => whileNext_le mono last le⟩

theorem whileNext_left (mono : Mono next) {x : β} {a' : α} {m₂ : μ}
    (returns : Returns next s m (some x) s' m') (stops : body x a m' = (false, a', m₂)) :
    ∃ n, ∀ fuel, n ≤ fuel → whileNext next body fuel s a m = some (a', s', m₂) := by
  obtain ⟨k, run⟩ := returns
  have last : whileNext next body (k + 1) s a m = some (a', s', m₂) := by
    simp only [whileNext, run, stops]
  exact ⟨k + 1, fun fuel le => whileNext_le mono last le⟩

theorem whileNext_goes (mono : Mono next) {x : β} {a₁ : α} {m₁ m₂ : μ} {s₁ : σ} {r : α × σ × μ}
    (returns : Returns next s m (some x) s₁ m₁) (goes : body x a m₁ = (true, a₁, m₂))
    (later : ∃ n, ∀ fuel, n ≤ fuel → whileNext next body fuel s₁ a₁ m₂ = some r) :
    ∃ n, ∀ fuel, n ≤ fuel → whileNext next body fuel s a m = some r := by
  obtain ⟨k, run⟩ := returns
  obtain ⟨n, later⟩ := later
  have first : whileNext next body (max n k + 1) s a m = some r := by
    simp only [whileNext, mono.le run (Nat.le_max_right n k), goes,
      later _ (Nat.le_max_left n k)]
  exact ⟨max n k + 1, fun fuel le => whileNext_le mono first le⟩

/-- The rule for a loop: unless the body leaves it, it has seen all items if and only if it
was not truncated. -/
theorem Falters.while (f : Falters next cost Good rest) (mono : Mono next)
    (body : β → α → μ → Bool × α × μ) {J : List β → α → Prop}
    (keep : ∀ done x a m a' m', J done a → body x a m = (true, a', m') → J (done ++ [x]) a')
    (good : Good s) (done : List β) (a : α) (m : μ) (start : J done a) :
    ∃ a' s' m' zs, (∃ n, ∀ fuel, n ≤ fuel → whileNext next body fuel s a m = some (a', s', m')) ∧
      zs <+: rest s ∧
      ((J (done ++ zs) a' ∧ (zs = rest s ↔ ¬Truncated next cost rest body s a m)) ∨
        ∃ x a₁ m₁, J (done ++ zs) a₁ ∧ body x a₁ m₁ = (false, a', m')) := by
  induction left : rest s generalizing s done a m with
  | nil =>
    have all (s' : σ) (m' : μ) (returns : Returns next s m none s' m') :
        [] = ([] : List β) ↔ ¬Truncated next cost rest body s a m := by
      simp [truncated_last mono returns, left]
    cases f s m good with
    | fault returns _ =>
      exact ⟨a, _, _, [], whileNext_last mono returns, List.nil_prefix,
        .inl ⟨by simpa, all _ _ returns⟩⟩
    | ended returns _ _ =>
      exact ⟨a, _, _, [], whileNext_last mono returns, List.nil_prefix,
        .inl ⟨by simpa, all _ _ returns⟩⟩
    | item _ _ _ here => simp [left] at here
  | cons x xs ih =>
    cases f s m good with
    | fault returns grows =>
      refine ⟨a, _, _, [], whileNext_last mono returns, List.nil_prefix, .inl ⟨by simpa, ?_⟩⟩
      simp [truncated_last mono returns, left, grows]
    | ended returns calm empty => simp [left] at empty
    | @item y s₁ m₁ returns calm good' here =>
      obtain ⟨rfl, rfl⟩ := List.cons.inj (left.symm.trans here)
      match hb : body x a m₁ with
      | (false, a', m₂) =>
        exact ⟨a', s₁, m₂, [], whileNext_left mono returns hb, List.nil_prefix,
          .inr ⟨x, a, m₁, by simpa, hb⟩⟩
      | (true, a₁, m₂) =>
        obtain ⟨a', s', m', zs, run, initial, outcome⟩ :=
          ih good' (done ++ [x]) a₁ m₂ (keep _ _ _ _ _ _ start hb) rfl
        refine ⟨a', s', m', x :: zs, whileNext_goes mono returns hb run,
          List.cons_prefix_cons.mpr ⟨rfl, initial⟩, ?_⟩
        rw [List.append_assoc, List.singleton_append] at outcome
        cases outcome with
        | inl all =>
          obtain ⟨kept, whole⟩ := all
          refine .inl ⟨kept, ?_⟩
          rw [truncated_step mono returns calm hb, ← whole]
          simp
        | inr stopped => exact .inr stopped

/-! ### A number of calls -/

/-- What every call keeps may be added to what makes a state good. -/
theorem Falters.and_keeps (f : Falters next cost Good rest) {I : σ → Prop}
    (keep : ∀ s m out s' m', I s → Returns next s m out s' m' → I s') :
    Falters next cost (fun s => Good s ∧ I s) rest := by
  intro s m good
  cases f s m good.1 with
  | fault returns faulty => exact .fault returns faulty
  | ended returns calm empty => exact .ended returns calm empty
  | item returns calm good' here =>
    exact .item returns calm ⟨good', keep _ _ _ _ _ good.2 returns⟩ here

/-- Up to `count` calls without a fault give the first `count` of the items left; either
the last call found none, or there are as many as asked for. -/
theorem Falters.reads (f : Falters next cost Good rest) (mono : Mono next) (count : Nat)
    (good : Good s) (m : μ) :
    ∃ zs s' m', Reads next count s m zs s' m' ∧ cost m ≤ cost m' ∧
      (cost m' = cost m → zs = (rest s).take count ∧
        ((∃ s₁ m₁, Good s₁ ∧ Returns next s₁ m₁ none s' m' ∧ cost m' = cost m₁) ∨
          (count ≤ (rest s).length ∧ Good s'))) := by
  induction count generalizing s m with
  | zero => exact ⟨[], s, m, .zero, le_rfl, fun _ => ⟨rfl, .inr ⟨Nat.zero_le _, good⟩⟩⟩
  | succ count ih =>
    cases f s m good with
    | fault returns faulty =>
      exact ⟨[], _, _, .ended returns, faulty.le, fun calm => by omega⟩
    | ended returns calm empty =>
      refine ⟨[], _, _, .ended returns, calm.ge, fun _ => ⟨by simp [empty], .inl ?_⟩⟩
      exact ⟨s, m, good, returns, calm⟩
    | @item x _ m₁ returns calm good' here =>
      obtain ⟨zs, s', m', reads, grows, outcome⟩ := ih good' m₁
      refine ⟨x :: zs, s', m', reads.item mono returns, by omega, fun still => ?_⟩
      obtain ⟨first, last⟩ := outcome (by omega)
      rw [here, List.take_succ_cons, ← first, List.length_cons, Nat.succ_le_succ_iff]
      exact ⟨rfl, last⟩

/-- All calls up to the first that returns nothing: what they give is where the items left
begin, and all of them if there was no fault. -/
theorem Falters.yields (f : Falters next cost Good rest) (good : Good s) (m : μ) :
    ∃ zs s' m', Yields next s m zs s' m' ∧ zs <+: rest s ∧ cost m ≤ cost m' ∧
      (cost m' = cost m → zs = rest s) := by
  induction left : rest s generalizing s m with
  | nil =>
    cases f s m good with
    | fault returns faulty =>
      exact ⟨[], _, _, .ended returns, List.nil_prefix, faulty.le, fun calm => by omega⟩
    | ended returns calm empty =>
      exact ⟨[], _, _, .ended returns, List.nil_prefix, calm.ge, fun _ => rfl⟩
    | item _ _ _ here => simp [left] at here
  | cons x xs ih =>
    cases f s m good with
    | fault returns faulty =>
      exact ⟨[], _, _, .ended returns, List.nil_prefix, faulty.le, fun calm => by omega⟩
    | ended _ _ empty => simp [left] at empty
    | item returns calm good' here =>
      obtain ⟨rfl, rfl⟩ := List.cons.inj (left.symm.trans here)
      obtain ⟨zs, s', m', run, initial, grows, whole⟩ := ih good' _ rfl
      refine ⟨x :: zs, s', m', .item returns run, ?_, by omega, fun still => ?_⟩
      · exact List.cons_prefix_cons.mpr ⟨rfl, initial⟩
      · rw [whole (by omega)]

/-- What is delivered is a first part of the items left. -/
theorem Falters.delivers (f : Falters next cost Good rest) (good : Good s) :
    Delivers next cost (fun _ => True) s (rest s) {zs | zs <+: rest s} := by
  generalize hn : (rest s).length = n
  induction n generalizing s with
  | zero =>
    have none_left := List.length_eq_zero_iff.mp hn
    refine .mk fun m => ?_
    cases f s m good with
    | fault returns faulty =>
      exact .ended returns faulty.le List.nil_prefix trivial fun _ => none_left
    | ended returns calm empty =>
      exact .ended returns calm.ge List.nil_prefix trivial fun _ => empty
    | item _ _ _ here => simp [none_left] at here
  | succ n ih =>
    refine .mk fun m => ?_
    cases f s m good with
    | fault returns faulty =>
      exact .ended returns faulty.le List.nil_prefix trivial fun calm => absurd calm faulty.ne'
    | ended returns calm empty =>
      exact .ended returns calm.ge List.nil_prefix trivial fun _ => empty
    | item returns calm good here =>
      rw [here, List.length_cons, Nat.add_right_cancel_iff] at hn
      exact .item returns calm.ge (ih good hn)
        (fun zs part => here ▸ List.cons_prefix_cons.mpr ⟨rfl, part⟩) fun _ => here

end Iteration
