import Mathlib.Data.Set.Basic
import Mathlib.Data.List.Basic

/-! Iterators that are called until they return nothing, in a world that other code
may change between the calls. A call is a function with a bound on the depth of its
recursion; `cost` counts the faults of the world, and a call is calm if it adds none. -/

namespace Iteration

variable {σ β μ α : Type*}

/-- Some bound is enough for the call to return. -/
def Returns (next : Nat → σ → μ → Option (Option β × σ × μ)) (s : σ) (m : μ) (out : Option β)
    (s' : σ) (m' : μ) : Prop := ∃ fuel, next fuel s m = some (out, s', m')

/-- A larger bound changes nothing. -/
def Mono (next : Nat → σ → μ → Option (Option β × σ × μ)) : Prop :=
  ∀ fuel s m r, next fuel s m = some r → next (fuel + 1) s m = some r

/-- What one call does on the way to the list `xs`: it ends, in a state of `E`, or it
returns an item and leaves the rest to `D`. `A` are the lists the faults may make of `xs`. -/
inductive Next (next : Nat → σ → μ → Option (Option β × σ × μ)) (cost : μ → Nat) (E : σ → Prop)
    (D : σ → List β → Set (List β) → Prop) (s : σ) (xs : List β) (A : Set (List β)) (m : μ) :
    Prop
  | ended {s' : σ} {m' : μ} (returns : Returns next s m none s' m') (grows : cost m ≤ cost m')
      (closes : [] ∈ A) (last : E s') (calm : cost m' = cost m → xs = [])
  | item {x : β} {s' : σ} {m' : μ} {ys : List β} {B : Set (List β)}
      (returns : Returns next s m (some x) s' m') (grows : cost m ≤ cost m') (rest : D s' ys B)
      (family : ∀ zs ∈ B, x :: zs ∈ A) (calm : cost m' = cost m → xs = x :: ys)

/-- The iterator ends whatever the world does, in a state of `E`, after a list of `A`, which
is `xs` if all calls are calm. It is the least relation that `Next` allows. -/
def Delivers (next : Nat → σ → μ → Option (Option β × σ × μ)) (cost : μ → Nat) (E : σ → Prop)
    (s : σ) (xs : List β) (A : Set (List β)) : Prop :=
  ∀ D : σ → List β → Set (List β) → Prop,
    (∀ s xs A, (∀ m, Next next cost E D s xs A m) → D s xs A) → D s xs A

/-- A sequence of calls up to the first that returns nothing. -/
inductive Yields (next : Nat → σ → μ → Option (Option β × σ × μ)) :
    σ → μ → List β → σ → μ → Prop
  | ended {s s' : σ} {m m' : μ} (returns : Returns next s m none s' m') : Yields next s m [] s' m'
  | item {s s₁ s' : σ} {m m₁ m' : μ} {x : β} {xs : List β}
      (returns : Returns next s m (some x) s₁ m₁) (rest : Yields next s₁ m₁ xs s' m') :
      Yields next s m (x :: xs) s' m'

/-- Up to `count` items, fewer if the iterator ends. -/
def readUpTo (next : σ → μ → Option (Option β × σ × μ)) :
    (count : Nat) → σ → μ → Option (List β × σ × μ)
  | 0, s, m => some ([], s, m)
  | count + 1, s, m =>
    match next s m with
    | none => none
    | some (none, s, m) => some ([], s, m)
    | some (some x, s, m) =>
      match readUpTo next count s m with
      | none => none
      | some (xs, s, m) => some (x :: xs, s, m)

/-- `while (next(..)) body`, where the body may leave the loop by answering `false`. -/
def whileNext (next : Nat → σ → μ → Option (Option β × σ × μ)) (body : β → α → μ → Bool × α × μ) :
    (fuel : Nat) → σ → α → μ → Option (α × σ × μ)
  | 0, _, _, _ => none
  | fuel + 1, s, a, m =>
    match next fuel s m with
    | none => none
    | some (none, s, m) => some (a, s, m)
    | some (some x, s, m) =>
      match body x a m with
      | (true, a, m) => whileNext next body fuel s a m
      | (false, a, m) => some (a, s, m)

variable {next : Nat → σ → μ → Option (Option β × σ × μ)} {cost : μ → Nat} {E E' : σ → Prop}
  {D D' : σ → List β → Set (List β) → Prop} {s s' : σ} {m m' : μ} {xs zs : List β}
  {A A' : Set (List β)} {out : Option β}

theorem Mono.le (mono : Mono next) {n k : Nat} {r : Option β × σ × μ}
    (h : next n s m = some r) (le : n ≤ k) : next k s m = some r := by
  induction le with
  | refl => exact h
  | step _ ih => exact mono _ _ _ _ ih

/-- A call has one outcome. -/
theorem Returns.unique (mono : Mono next) {out' : Option β} {s₂ : σ} {m₂ : μ}
    (h : Returns next s m out s' m') (h' : Returns next s m out' s₂ m₂) :
    out = out' ∧ s' = s₂ ∧ m' = m₂ := by
  obtain ⟨n, h⟩ := h
  obtain ⟨k, h'⟩ := h'
  have same := (mono.le h (Nat.le_max_left n k)).symm.trans (mono.le h' (Nat.le_max_right n k))
  simpa using same

/-- The calls up to the first that returns nothing are determined. -/
theorem Yields.unique (mono : Mono next) {ys : List β} {s₁ : σ} {m₁ : μ}
    (h : Yields next s m xs s' m') (h' : Yields next s m ys s₁ m₁) : xs = ys := by
  induction h generalizing ys with
  | ended returns =>
    cases h' with
    | ended _ => rfl
    | item returns' _ => cases (returns.unique mono returns').1
  | item returns _ ih =>
    cases h' with
    | ended returns' => cases (returns.unique mono returns').1
    | item returns' rest =>
      obtain ⟨same, rfl, rfl⟩ := returns.unique mono returns'
      rw [Option.some.inj same, ih rest]

/-- Reading with a function that returns whenever another does. -/
theorem readUpTo_le {f g : σ → μ → Option (Option β × σ × μ)}
    (le : ∀ s m r, f s m = some r → g s m = some r) (count : Nat) :
    ∀ (s : σ) (m : μ) r, readUpTo f count s m = some r → readUpTo g count s m = some r := by
  induction count with
  | zero =>
    intro s m r h
    exact h
  | succ count ih =>
    intro s m r h
    rw [readUpTo] at h ⊢
    match hn : f s m with
    | none => simp [hn] at h
    | some (none, s₁, m₁) =>
      rw [le _ _ _ hn]
      simpa only [hn] using h
    | some (some x, s₁, m₁) =>
      rw [le _ _ _ hn]
      simp only [hn] at h ⊢
      match hr : readUpTo f count s₁ m₁ with
      | none => simp [hr] at h
      | some (xs, s₂, m₂) =>
        rw [ih _ _ _ hr]
        simpa only [hr] using h

theorem readUpTo_length {f : σ → μ → Option (Option β × σ × μ)} (count : Nat) :
    ∀ {s s' : σ} {m m' : μ} {xs : List β}, readUpTo f count s m = some (xs, s', m') →
      xs.length ≤ count := by
  induction count with
  | zero =>
    intro s s' m m' xs h
    cases h
    exact Nat.le_refl 0
  | succ count ih =>
    intro s s' m m' xs h
    rw [readUpTo] at h
    match hn : f s m with
    | none => simp [hn] at h
    | some (none, s₁, m₁) =>
      simp only [hn] at h
      cases h
      exact Nat.zero_le _
    | some (some x, s₁, m₁) =>
      simp only [hn] at h
      match hr : readUpTo f count s₁ m₁ with
      | none => simp [hr] at h
      | some (ys, s₂, m₂) =>
        simp only [hr] at h
        cases h
        exact Nat.succ_le_succ (ih hr)

/-- Reading that comes out short has met the end. -/
theorem yields_of_readUpTo (fuel count : Nat) :
    ∀ {s s' : σ} {m m' : μ} {xs : List β}, readUpTo (next fuel) count s m = some (xs, s', m') →
      xs.length < count → Yields next s m xs s' m' := by
  induction count with
  | zero =>
    intro s s' m m' xs _ short
    exact absurd short (Nat.not_lt_zero _)
  | succ count ih =>
    intro s s' m m' xs h short
    rw [readUpTo] at h
    match hn : next fuel s m with
    | none => simp [hn] at h
    | some (none, s₁, m₁) =>
      simp only [hn] at h
      cases h
      exact .ended ⟨fuel, hn⟩
    | some (some x, s₁, m₁) =>
      simp only [hn] at h
      match hr : readUpTo (next fuel) count s₁ m₁ with
      | none => simp [hr] at h
      | some (ys, s₂, m₂) =>
        simp only [hr] at h
        cases h
        exact .item ⟨fuel, hn⟩ (ih hr (Nat.lt_of_succ_lt_succ short))

theorem whileNext_mono (mono : Mono next) {body : β → α → μ → Bool × α × μ} (fuel : Nat) :
    ∀ (s : σ) (a : α) (m : μ) r, whileNext next body fuel s a m = some r →
      whileNext next body (fuel + 1) s a m = some r := by
  induction fuel with
  | zero =>
    intro s a m r h
    simp [whileNext] at h
  | succ fuel ih =>
    intro s a m r h
    rw [whileNext] at h ⊢
    match hn : next fuel s m with
    | none => simp [hn] at h
    | some (none, s₁, m₁) =>
      rw [mono _ _ _ _ hn]
      simpa only [hn] using h
    | some (some x, s₁, m₁) =>
      rw [mono _ _ _ _ hn]
      simp only [hn] at h ⊢
      match hb : body x a m₁ with
      | (true, a₁, m₂) =>
        simp only [hb] at h ⊢
        exact ih _ _ _ _ h
      | (false, a₁, m₂) => simpa only [hb] using h

theorem whileNext_le (mono : Mono next) {body : β → α → μ → Bool × α × μ} {n k : Nat} {a : α}
    {r : α × σ × μ} (h : whileNext next body n s a m = some r) (le : n ≤ k) :
    whileNext next body k s a m = some r := by
  induction le with
  | refl => exact h
  | step _ ih => exact whileNext_mono mono _ _ _ _ _ ih

/-- What every call and every turn of the body keep, the loop keeps. -/
theorem whileNext_keeps {body : β → α → μ → Bool × α × μ} {J : σ → α → μ → Prop}
    (keep : ∀ fuel s a m x s' m', J s a m → next fuel s m = some (x, s', m') →
      match x with
      | none => J s' a m'
      | some x => J s' (body x a m').2.1 (body x a m').2.2) (fuel : Nat) :
    ∀ {s : σ} {a : α} {m : μ} {a' : α} {s' : σ} {m' : μ}, J s a m →
      whileNext next body fuel s a m = some (a', s', m') → J s' a' m' := by
  induction fuel with
  | zero =>
    intro s a m a' s' m' _ h
    simp [whileNext] at h
  | succ fuel ih =>
    intro s a m a' s' m' start h
    rw [whileNext] at h
    match hn : next fuel s m with
    | none => simp [hn] at h
    | some (none, s₁, m₁) =>
      have last := keep fuel s a m none s₁ m₁ start hn
      obtain ⟨rfl, rfl, rfl⟩ : a = a' ∧ s₁ = s' ∧ m₁ = m' := by simpa [hn] using h
      exact last
    | some (some x, s₁, m₁) =>
      have turn := keep fuel s a m (some x) s₁ m₁ start hn
      simp only [hn] at h
      match hb : body x a m₁ with
      | (true, a₁, m₂) =>
        simp only [hb] at h turn
        exact ih turn h
      | (false, a₁, m₂) =>
        simp only [hb] at turn
        obtain ⟨rfl, rfl, rfl⟩ : a₁ = a' ∧ s₁ = s' ∧ m₂ = m' := by simpa [hb] using h
        exact turn

/-- A loop that the iterator never ends, as long as the body does not leave it. -/
theorem whileNext_endless {body : β → α → μ → Bool × α × μ} {I : σ → α → μ → Prop}
    {L : α → Prop}
    (goesOn : ∀ fuel s a m x s' m', I s a m → next fuel s m = some (x, s', m') →
      ∃ y a₁ m₁, x = some y ∧
        (body y a m' = (true, a₁, m₁) ∧ I s' a₁ m₁ ∨ body y a m' = (false, a₁, m₁) ∧ L a₁))
    (fuel : Nat) : ∀ {s : σ} {a : α} {m : μ} {a' : α} {s' : σ} {m' : μ}, I s a m →
      whileNext next body fuel s a m = some (a', s', m') → L a' := by
  induction fuel with
  | zero =>
    intro s a m a' s' m' _ run
    simp [whileNext] at run
  | succ fuel ih =>
    intro s a m a' s' m' start run
    rw [whileNext] at run
    match hn : next fuel s m with
    | none => simp [hn] at run
    | some (x, s₁, m₁) =>
      obtain ⟨y, a₂, m₂, rfl, on | off⟩ := goesOn fuel s a m x s₁ m₁ start hn
      · simp only [hn, on.1] at run
        exact ih on.2 run
      · simp only [hn, off.1] at run
        cases run
        exact off.2

/-- Two loops that stay in step. `R` relates them while they run, and `K` once they have
ended. -/
theorem whileNext_sim {μ' α' : Type*} {next' : Nat → σ → μ' → Option (Option β × σ × μ')}
    {body : β → α → μ → Bool × α × μ} {body' : β → α' → μ' → Bool × α' × μ'}
    {R K : α → μ → α' → μ' → Prop} (ends : ∀ a m a' m', R a m a' m' → K a m a' m')
    (calls : ∀ fuel s a m a' m', R a m a' m' →
      Option.Rel (fun r r' => r.1 = r'.1 ∧ r.2.1 = r'.2.1 ∧ R a r.2.2 a' r'.2.2)
        (next fuel s m) (next' fuel s m'))
    (turns : ∀ x a m a' m', R a m a' m' → ∃ go a₁ m₁ a₁' m₁', body x a m = (go, a₁, m₁) ∧
      body' x a' m' = (go, a₁', m₁') ∧ if go then R a₁ m₁ a₁' m₁' else K a₁ m₁ a₁' m₁')
    (fuel : Nat) : ∀ (s : σ) (a : α) (m : μ) (a' : α') (m' : μ'), R a m a' m' →
      Option.Rel (fun r r' => r.2.1 = r'.2.1 ∧ K r.1 r.2.2 r'.1 r'.2.2)
        (whileNext next body fuel s a m) (whileNext next' body' fuel s a' m') := by
  induction fuel with
  | zero => exact fun _ _ _ _ _ _ => .none
  | succ fuel ih =>
    intro s a m a' m' related
    have call := calls fuel s a m a' m' related
    rw [whileNext, whileNext]
    generalize next fuel s m = r, next' fuel s m' = r' at call ⊢
    cases call with
    | none => exact .none
    | @some r r' call =>
      obtain ⟨x, s₁, m₁⟩ := r
      obtain ⟨x', s₁', m₁'⟩ := r'
      obtain ⟨rfl, rfl, related⟩ : x = x' ∧ s₁ = s₁' ∧ R a m₁ a' m₁' := call
      cases x with
      | none => exact .some ⟨rfl, ends _ _ _ _ related⟩
      | some x =>
        obtain ⟨go, a₂, m₂, a₂', m₂', turn, turn', after⟩ := turns x a m₁ a' m₁' related
        simp only [turn, turn']
        cases go with
        | true => exact ih s₁ a₂ m₂ a₂' m₂' after
        | false => exact .some ⟨rfl, after⟩

theorem Next.mono (le : ∀ s xs A, D s xs A → D' s xs A) (h : Next next cost E D s xs A m) :
    Next next cost E D' s xs A m := by
  cases h with
  | ended returns grows closes last calm => exact .ended returns grows closes last calm
  | item returns grows rest family calm => exact .item returns grows (le _ _ _ rest) family calm

theorem Delivers.mk (h : ∀ m, Next next cost E (Delivers next cost E) s xs A m) :
    Delivers next cost E s xs A := by
  intro D closed
  exact closed s xs A fun m => (h m).mono fun _ _ _ d => d D closed

theorem Delivers.induct
    {P : (s : σ) → (xs : List β) → (A : Set (List β)) → Delivers next cost E s xs A → Prop}
    (step : ∀ s xs A h, (∀ m, Next next cost E (fun s xs A => ∃ h, P s xs A h) s xs A m) →
      P s xs A h)
    {s : σ} {xs : List β} {A : Set (List β)} (h : Delivers next cost E s xs A) : P s xs A h := by
  have holds : ∃ h, P s xs A h := by
    apply h fun s xs A => ∃ h, P s xs A h
    intro s xs A hm
    have here : Delivers next cost E s xs A := .mk fun m => (hm m).mono fun _ _ _ => Exists.fst
    exact ⟨here, step s xs A here hm⟩
  exact holds.2

theorem Delivers.call (h : Delivers next cost E s xs A) (m : μ) :
    Next next cost E (Delivers next cost E) s xs A m := by
  induction h using Delivers.induct with
  | step s xs A _ ih => exact (ih m).mono fun _ _ _ => Exists.fst

theorem Delivers.weaken (ends : ∀ s, E s → E' s) (h : Delivers next cost E s xs A)
    (sub : ∀ zs ∈ A, zs ∈ A') : Delivers next cost E' s xs A' := by
  induction h using Delivers.induct generalizing A' with
  | step s xs A _ ih =>
    apply Delivers.mk
    intro m
    cases ih m with
    | ended returns grows closes last calm =>
      exact .ended returns grows (sub _ closes) (ends _ last) calm
    | item returns grows rest family calm =>
      exact .item returns grows (rest.snd fun _ hz => hz) (fun zs hz => sub _ (family zs hz)) calm

/-- A source that adds no faults and has ended. -/
theorem Delivers.nil (returns : ∀ m, Returns next s m none s' m) (last : E s') :
    Delivers next cost E s [] {[]} :=
  .mk fun m => .ended (returns m) le_rfl rfl last fun _ => rfl

/-- A source that adds no faults and has an item. -/
theorem Delivers.cons {x : β} (returns : ∀ m, Returns next s m (some x) s' m)
    (rest : Delivers next cost E s' xs {xs}) : Delivers next cost E s (x :: xs) {x :: xs} :=
  .mk fun m => .item (returns m) le_rfl rest (fun zs hz => by rw [hz]; rfl) fun _ => rfl

/-- Every delivery can be completed. -/
theorem Delivers.exists_mem [Nonempty μ] (h : Delivers next cost E s xs A) : ∃ zs, zs ∈ A := by
  induction h using Delivers.induct with
  | step s xs A _ ih =>
    cases ih (Classical.arbitrary μ) with
    | ended _ _ closes _ _ => exact ⟨[], closes⟩
    | @item x _ _ _ _ _ _ rest family _ =>
      obtain ⟨zs, hz⟩ := rest.snd
      exact ⟨x :: zs, family zs hz⟩

theorem Delivers.yields (h : Delivers next cost E s xs A) (m : μ) :
    ∃ zs s' m', Yields next s m zs s' m' ∧ cost m ≤ cost m' ∧ zs ∈ A ∧ E s' ∧
      (cost m' = cost m → zs = xs) := by
  induction h using Delivers.induct generalizing m with
  | step s xs A _ ih =>
    cases ih m with
    | ended returns grows closes last calm =>
      exact ⟨[], _, _, .ended returns, grows, closes, last, fun same => (calm same).symm⟩
    | @item x _ m₁ _ _ returns grows rest family calm =>
      obtain ⟨zs, s', m', run, grows', mem, last, calm'⟩ := rest.snd m₁
      refine ⟨x :: zs, s', m', .item returns run, grows.trans grows', family zs mem, last,
        fun same => ?_⟩
      rw [calm (by omega), calm' (by omega)]

/-- If the faults can make one list only, that is the list. -/
theorem Delivers.only [Nonempty μ] (h : Delivers next cost E s xs A) {ys : List β}
    (one : ∀ zs ∈ A, zs = ys) : Delivers next cost E s ys {ys} := by
  induction h using Delivers.induct generalizing ys with
  | step s xs A _ ih =>
    apply Delivers.mk
    intro m
    cases ih m with
    | ended returns grows closes last calm =>
      obtain rfl := one _ closes
      exact .ended returns grows rfl last fun _ => rfl
    | @item x _ _ _ B returns grows rest family calm =>
      obtain ⟨rest, ih⟩ := rest
      obtain ⟨zs, hz⟩ := rest.exists_mem
      obtain rfl := one _ (family zs hz)
      have tail (ws : List β) (hw : ws ∈ B) : ws = zs := (List.cons.inj (one _ (family ws hw))).2
      exact .item returns grows (ih tail) (fun ws hw => by rw [hw]; rfl) fun _ => rfl

/-- One call on the way to the only list. -/
theorem Delivers.call_only [Nonempty μ] (h : Delivers next cost E s xs {xs}) (m : μ) :
    (xs = [] ∧ ∃ s' m', Returns next s m none s' m' ∧ E s') ∨
      ∃ x ys s' m', xs = x :: ys ∧ Returns next s m (some x) s' m' ∧
        Delivers next cost E s' ys {ys} := by
  cases h.call m with
  | ended returns _ closes last _ => exact .inl ⟨closes.symm, _, _, returns, last⟩
  | @item x _ _ _ B returns _ rest family _ =>
    obtain ⟨zs, hz⟩ := rest.exists_mem
    have here : x :: zs = xs := family zs hz
    have tail (ws : List β) (hw : ws ∈ B) : ws = zs :=
      (List.cons.inj ((family ws hw).trans here.symm)).2
    exact .inr ⟨x, zs, _, _, here.symm, returns, rest.only tail⟩

/-- The rule for a loop over an iterator: `J done a` is what the body keeps of the
accumulator `a` after the items `done`. The loop ends with the iterator, or when the body
leaves it. -/
theorem Delivers.while (mono : Mono next) (body : β → α → μ → Bool × α × μ)
    {J : List β → α → Prop}
    (keep : ∀ done x a m go a' m', J done a → body x a m = (go, a', m') →
      cost m ≤ cost m' ∧ (go = true → J (done ++ [x]) a'))
    (h : Delivers next cost E s xs A) (done : List β) (a : α) (m : μ) (start : J done a) :
    ∃ fuel a' s' m', whileNext next body fuel s a m = some (a', s', m') ∧ cost m ≤ cost m' ∧
      ((∃ zs ∈ A, J (done ++ zs) a' ∧ (cost m' = cost m → zs = xs)) ∨
        ∃ zs x a₁ m₁, J (done ++ zs) a₁ ∧ body x a₁ m₁ = (false, a', m') ∧ cost m ≤ cost m₁ ∧
          (cost m₁ = cost m → zs ++ [x] <+: xs)) := by
  induction h using Delivers.induct generalizing done a m with
  | step s xs A _ ih =>
    cases ih m with
    | ended returns grows closes last calm =>
      obtain ⟨fuel, returns⟩ := returns
      refine ⟨fuel + 1, a, _, _, by simp only [whileNext, returns]; rfl, grows,
        .inl ⟨[], closes, ?_, fun same => (calm same).symm⟩⟩
      rwa [List.append_nil]
    | @item x s₁ m₁ ys B returns grows rest family calm =>
      obtain ⟨fuel, returns⟩ := returns
      match hb : body x a m₁ with
      | (false, a', m₂) =>
        refine ⟨fuel + 1, a', s₁, m₂, by simp only [whileNext, returns, hb],
          grows.trans (keep _ _ _ _ _ _ _ start hb).1,
          .inr ⟨[], x, a, m₁, by rwa [List.append_nil], hb, grows, fun same => ?_⟩⟩
        rw [calm same, List.nil_append]
        exact ⟨ys, rfl⟩
      | (true, a₁, m₂) =>
        obtain ⟨grows₂, kept⟩ := keep _ _ _ _ _ _ _ start hb
        obtain ⟨fuel', a', s', m', run, grows', outcome⟩ :=
          rest.snd (done ++ [x]) a₁ m₂ (kept rfl)
        refine ⟨max fuel fuel' + 1, a', s', m', ?_, by omega, ?_⟩
        · simp only [whileNext, mono.le returns (Nat.le_max_left fuel fuel'), hb]
          exact whileNext_le mono run (Nat.le_max_right fuel fuel')
        · cases outcome with
          | inl all =>
            obtain ⟨zs, mem, kept, calm'⟩ := all
            refine .inl ⟨x :: zs, family zs mem, by simpa using kept, fun same => ?_⟩
            rw [calm (by omega), calm' (by omega)]
          | inr left =>
            obtain ⟨zs, y, a₂, m₃, kept, hb', grows'', calm'⟩ := left
            refine .inr ⟨x :: zs, y, a₂, m₃, by simpa using kept, hb', by omega, fun same => ?_⟩
            rw [calm (by omega)]
            exact List.cons_prefix_cons.mpr ⟨rfl, calm' (by omega)⟩

/-- A call that goes on as a call of another state would. -/
theorem Next.before {s₁ : σ} {m₁ : μ} {ys : List β}
    (goesOn : ∀ out s₂ m₂, Returns next s₁ m₁ out s₂ m₂ → Returns next s m out s₂ m₂)
    (grows : cost m ≤ cost m₁) (same : cost m₁ = cost m → xs = ys)
    (h : Next next cost E D s₁ ys A m₁) : Next next cost E D s xs A m := by
  cases h with
  | ended returns grows' closes last calm =>
    exact .ended (goesOn _ _ _ returns) (grows.trans grows') closes last
      fun still => (same (by omega)).trans (calm (by omega))
  | item returns grows' rest family calm =>
    exact .item (goesOn _ _ _ returns) (grows.trans grows') rest family
      fun still => (same (by omega)).trans (calm (by omega))

/-! ### Reading several items -/

/-- Some bound is enough to read up to `count` items. -/
def Reads (next : Nat → σ → μ → Option (Option β × σ × μ)) (count : Nat) (s : σ) (m : μ)
    (zs : List β) (s' : σ) (m' : μ) : Prop :=
  ∃ fuel, readUpTo (next fuel) count s m = some (zs, s', m')

theorem Reads.zero : Reads next 0 s m [] s m := ⟨0, rfl⟩

theorem Reads.ended {count : Nat} (h : Returns next s m none s' m') :
    Reads next (count + 1) s m [] s' m' := by
  obtain ⟨fuel, h⟩ := h
  exact ⟨fuel, by simp only [readUpTo, h]⟩

theorem Reads.item (mono : Mono next) {count : Nat} {x : β} {s₁ : σ} {m₁ : μ}
    (first : Returns next s m (some x) s₁ m₁) (rest : Reads next count s₁ m₁ zs s' m') :
    Reads next (count + 1) s m (x :: zs) s' m' := by
  obtain ⟨n, first⟩ := first
  obtain ⟨k, rest⟩ := rest
  have first' := mono.le first (Nat.le_max_left n k)
  have rest' := readUpTo_le (fun _ _ _ h => mono.le h (Nat.le_max_right n k)) _ _ _ _ rest
  exact ⟨max n k, by simp only [readUpTo, first', rest']⟩

/-- Reading on the way to the end comes out short, or leaves the rest. -/
theorem Yields.reads (mono : Mono next) (h : Yields next s m xs s' m') (count : Nat) :
    (xs.length < count ∧ Reads next count s m xs s' m') ∨
      count ≤ xs.length ∧ ∃ s₁ m₁, Reads next count s m (xs.take count) s₁ m₁ ∧
        Yields next s₁ m₁ (xs.drop count) s' m' := by
  induction h generalizing count with
  | ended returns =>
    cases count with
    | zero => exact .inr ⟨le_rfl, _, _, .zero, .ended returns⟩
    | succ count => exact .inl ⟨Nat.succ_pos count, .ended returns⟩
  | item returns rest ih =>
    cases count with
    | zero => exact .inr ⟨Nat.zero_le _, _, _, .zero, .item returns rest⟩
    | succ count =>
      rcases ih count with ⟨short, reads⟩ | ⟨enough, s₁, m₁, reads, rest⟩
      · exact .inl ⟨Nat.succ_lt_succ short, reads.item mono returns⟩
      · exact .inr ⟨Nat.succ_le_succ enough, s₁, m₁, reads.item mono returns, rest⟩

/-- What reading up to `count` items on the way to `xs` does. -/
inductive Batch (next : Nat → σ → μ → Option (Option β × σ × μ)) (cost : μ → Nat) (E : σ → Prop)
    (D : σ → List β → Set (List β) → Prop) (count : Nat) (s : σ) (xs : List β) (A : Set (List β))
    (m : μ) : Prop
  | short {zs : List β} {s' : σ} {m' : μ} (reads : Reads next count s m zs s' m')
      (length : zs.length < count) (grows : cost m ≤ cost m') (closes : zs ∈ A) (last : E s')
      (calm : cost m' = cost m → xs = zs)
  | full {zs : List β} {s' : σ} {m' : μ} {ys : List β} {B : Set (List β)}
      (reads : Reads next count s m zs s' m') (length : zs.length = count)
      (grows : cost m ≤ cost m') (rest : D s' ys B) (family : ∀ ws ∈ B, zs ++ ws ∈ A)
      (calm : cost m' = cost m → xs = zs ++ ys)

/-- One more item in front. -/
private theorem Batch.cons (mono : Mono next) {count : Nat} {x : β} {s₁ : σ} {m₁ : μ}
    {ys : List β} {B : Set (List β)} (first : Returns next s m (some x) s₁ m₁)
    (grows : cost m ≤ cost m₁) (family : ∀ zs ∈ B, x :: zs ∈ A)
    (calm : cost m₁ = cost m → xs = x :: ys) (h : Batch next cost E D count s₁ ys B m₁) :
    Batch next cost E D (count + 1) s xs A m := by
  cases h with
  | short reads length grows' closes last calm' =>
    exact .short (reads.item mono first) (by simpa using length) (grows.trans grows')
      (family _ closes) last fun still => by rw [calm (by omega), calm' (by omega)]
  | full reads length grows' rest family' calm' =>
    exact .full (reads.item mono first) (by simpa using length) (grows.trans grows') rest
      (fun ws hw => family _ (family' ws hw))
      fun still => by rw [calm (by omega), calm' (by omega)]; rfl

/-- Induction in batches of at least one item. -/
theorem Delivers.batches (mono : Mono next)
    {P : (s : σ) → (xs : List β) → (A : Set (List β)) → Delivers next cost E s xs A → Prop}
    (step : ∀ s xs A h,
      (∀ count m, Batch next cost E (fun s xs A => ∃ h, P s xs A h) (count + 1) s xs A m) →
        P s xs A h)
    {s : σ} {xs : List β} {A : Set (List β)} (h : Delivers next cost E s xs A) : P s xs A h := by
  have all : P s xs A h ∧
      ∀ count m, Batch next cost E (fun s xs A => ∃ h, P s xs A h) count s xs A m := by
    induction h using Delivers.induct with
    | step s xs A h ih =>
      have longer (count : Nat) (m : μ) :
          Batch next cost E (fun s xs A => ∃ h, P s xs A h) (count + 1) s xs A m := by
        cases ih m with
        | ended returns grows closes last calm =>
          exact .short (.ended returns) (Nat.succ_pos count) grows closes last calm
        | item returns grows rest family calm =>
          exact Batch.cons mono returns grows family calm (rest.snd.2 count _)
      have here := step s xs A h longer
      refine ⟨here, fun count m => ?_⟩
      cases count with
      | zero => exact .full .zero rfl le_rfl ⟨h, here⟩ (fun _ hw => hw) fun _ => rfl
      | succ count => exact longer count m
  exact all.1

theorem Delivers.batch (mono : Mono next) (h : Delivers next cost E s xs A) (count : Nat) (m : μ) :
    Batch next cost E (Delivers next cost E) count s xs A m := by
  induction h using Delivers.induct generalizing count m with
  | step s xs A h ih =>
    cases count with
    | zero => exact .full .zero rfl le_rfl h (fun _ hw => hw) fun _ => rfl
    | succ count =>
      cases ih m with
      | ended returns grows closes last calm =>
        exact .short (.ended returns) (Nat.succ_pos count) grows closes last calm
      | item returns grows rest family calm =>
        exact Batch.cons mono returns grows family calm (rest.snd count _)

/-! ### Any number of calls -/

/-- Reached by any number of calls, whatever the world does between them. -/
inductive Called (next : Nat → σ → μ → Option (Option β × σ × μ)) (s : σ) : σ → Prop
  | start : Called next s s
  | call {s₁ s' : σ} {m m' : μ} {out : Option β} (earlier : Called next s s₁)
      (returns : Returns next s₁ m out s' m') : Called next s s'

/-- What every call keeps. -/
theorem Called.keeps {I : σ → Prop} (h : Called next s s') (start : I s)
    (keep : ∀ s m out s' m', I s → Returns next s m out s' m' → I s') : I s' := by
  induction h with
  | start => exact start
  | call _ returns ih => exact keep _ _ _ _ _ ih returns

/-! ### After the end -/

/-- Every later call returns nothing. -/
def Ended (next : Nat → σ → μ → Option (Option β × σ × μ)) (s : σ) : Prop :=
  ∃ I : σ → Prop, I s ∧ ∀ s, I s → ∀ m, ∃ s' m', Returns next s m none s' m' ∧ I s'

theorem Ended.call (h : Ended next s) (m : μ) :
    ∃ s' m', Returns next s m none s' m' ∧ Ended next s' := by
  obtain ⟨I, here, stays⟩ := h
  obtain ⟨s', m', returns, after⟩ := stays s here m
  exact ⟨s', m', returns, I, after, stays⟩

/-- The next `n` calls return nothing. -/
def Silent (next : Nat → σ → μ → Option (Option β × σ × μ)) : Nat → σ → Prop
  | 0, _ => True
  | n + 1, s => ∀ m, ∃ s' m', Returns next s m none s' m' ∧ Silent next n s'

theorem Ended.silent (h : Ended next s) (n : Nat) : Silent next n s := by
  induction n generalizing s with
  | zero => trivial
  | succ n ih =>
    intro m
    obtain ⟨s', m', returns, after⟩ := h.call m
    exact ⟨s', m', returns, ih after⟩

/-- The end that lasts for any number of calls lasts for good. -/
theorem Silent.ended (mono : Mono next) (h : ∀ n, Silent next n s) : Ended next s := by
  refine ⟨fun s => ∀ n, Silent next n s, h, fun s h m => ?_⟩
  obtain ⟨s', m', returns, -⟩ := h 1 m
  refine ⟨s', m', returns, fun n => ?_⟩
  obtain ⟨s₁, m₁, returns', rest⟩ := h (n + 1) m
  obtain ⟨-, rfl, -⟩ := returns.unique mono returns'
  exact rest

end Iteration
