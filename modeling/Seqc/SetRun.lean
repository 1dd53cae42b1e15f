import Seqc.TableInvariants
import Seqc.Terminals
import Mathlib.Data.Multiset.AddSub

/-! The iterators of set.c, and the runs of its operations from `set_create`, with requests
refused at arbitrary points, against a set of classes of keys: a multiset of keys no two of
which are equal. -/

namespace Seqc
open RobinHood ClassMap Runs Iteration

variable {κ : Type} {f : KeyFns κ} {s : SetT κ} {ndebug : Bool} {m : Mem}

/-! ### Iterators -/

/-- `set_iter_state_t` and `set_iter_rev_state_t`. -/
structure SetIterState (κ : Type) where
  buckets : Table (Block κ)
  cap : Nat
  pos : Nat

def sizeofSetIterState : Nat := 32

def setIterNext (st : SetIterState κ) : Option κ × SetIterState κ :=
  let (b, pos) := scanNext st.buckets (st.cap - st.pos) st.pos
  (b.map Block.val, { st with pos := pos })

def setIterRevNext (st : SetIterState κ) : Option κ × SetIterState κ :=
  let (b, pos) := scanPrev st.buckets st.pos
  (b.map Block.val, { st with pos := pos })

/-- `set_iter` and `set_iter_rev` differ in their `next` and where they start. -/
def setIterOf (next : SetIterState κ → Option κ × SetIterState κ) (start : SetT κ → Nat)
    (s : SetT κ) (m : Mem) : Option (IterT (SetIterState κ) κ) × Mem :=
  match memAlloc m sizeofSetIterState with
  | (none, m) => (none, m)
  | (some addr, m) =>
    (some {
      next := fun _ st m => some ((next st).1, (next st).2, m)
      destroy := fun _ m => memFree m (some addr) sizeofSetIterState
      state := ⟨s.buckets, s.cap, start s⟩
      elemSize := s.elemSize }, m)

def setIter (s : SetT κ) (m : Mem) : Option (IterT (SetIterState κ) κ) × Mem :=
  setIterOf setIterNext (fun _ => 0) s m

def setIterRev (s : SetT κ) (m : Mem) : Option (IterT (SetIterState κ) κ) × Mem :=
  setIterOf setIterRevNext SetT.cap s m

/-- A loop over an iterator whose calls are those of a scan. -/
theorem whileNext_drain {σ τ α β : Type} {next : σ → Option α × σ}
    (nextT : Nat → τ → Mem → Option (Option β × τ × Mem)) (wrap : σ → τ) (g : α → β)
    (steps : ∀ s fuel m, nextT fuel (wrap s) m = some ((next s).1.map g, wrap (next s).2, m))
    (calls : Nat) :
    ∀ s acc xs m, drain next calls s = some xs →
      ∃ s', whileNext nextT (fun x xs m => (true, xs ++ [x], m)) calls (wrap s) acc m =
        some (acc ++ xs.map g, wrap s', m) := by
  induction calls with
  | zero =>
    intro s acc xs m h
    simp [drain] at h
  | succ calls ih =>
    intro s acc xs m h
    rw [drain] at h
    rw [whileNext, steps]
    rcases hn : next s with ⟨_ | x, s'⟩
    · obtain rfl : [] = xs := by simpa [hn] using h
      exact ⟨s', by simp⟩
    · obtain ⟨ys, rest, rfl⟩ : ∃ ys, drain next calls s' = some ys ∧ x :: ys = xs := by
        simpa [hn] using h
      obtain ⟨s'', run⟩ := ih s' (acc ++ [g x]) ys m rest
      exact ⟨s'', by simpa using run⟩

/-- The keys that are stored, in slot order. -/
def SetT.members (s : SetT κ) : List κ := s.entries.map Block.val

theorem setIterOf_spec {next : SetIterState κ → Option κ × SetIterState κ} {start : SetT κ → Nat}
    {scan : Nat → Option (Block κ) × Nat} {xs : List (Block κ)}
    (steps : ∀ pos, next ⟨s.buckets, s.cap, pos⟩ =
      ((scan pos).1.map Block.val, ⟨s.buckets, s.cap, (scan pos).2⟩))
    (drained : drain scan (s.cap + 1) (start s) = some xs) (m : Mem) :
    (∃ it m₁ m', setIterOf next start s m = (it, m₁) ∧
        iterItems (s.cap + 1) it m₁ = some (some (xs.map Block.val), m') ∧
        m'.refusals = m.refusals) ∨
      ∃ m', setIterOf next start s m = (none, m') ∧ m.refusals < m'.refusals := by
  have yields (addr : Nat) (m : Mem) : iterItems (s.cap + 1) (some {
      next := fun _ st m => some ((next st).1, (next st).2, m)
      destroy := fun _ m => memFree m (some addr) sizeofSetIterState
      state := (⟨s.buckets, s.cap, start s⟩ : SetIterState κ)
      elemSize := s.elemSize }) m =
        some (some (xs.map Block.val), memFree m (some addr) sizeofSetIterState) := by
    obtain ⟨pos, run⟩ := whileNext_drain (fun _ st m => some ((next st).1, (next st).2, m))
      (fun pos => ⟨s.buckets, s.cap, pos⟩) Block.val (fun pos fuel m => by simp only [steps pos])
      (s.cap + 1) (start s) [] xs m drained
    rw [List.nil_append] at run
    simp only [iterItems, run]
  rcases iterItems_made _ yields m with ⟨addr, m₁, m', hm, run, quiet⟩ | ⟨m', hm, more⟩
  · exact .inl ⟨_, m₁, m', by simp only [setIterOf, hm], run, quiet⟩
  · exact .inr ⟨m', by simp only [setIterOf, hm], more⟩

/-- `set_iter` yields the keys that are stored, or cannot be made. -/
theorem setIter_spec (s : SetT κ) (m : Mem) :
    (∃ it m₁ m', setIter s m = (it, m₁) ∧
        iterItems (s.cap + 1) it m₁ = some (some s.members, m') ∧ m'.refusals = m.refusals) ∨
      ∃ m', setIter s m = (none, m') ∧ m.refusals < m'.refusals := by
  have drained := drain_scanNext s.buckets s.cap s.cap 0 (s.cap + 1) (by omega) (by omega)
  rw [← List.range_eq_range'] at drained
  exact setIterOf_spec (fun pos => rfl) drained m

theorem setIterRev_spec (s : SetT κ) (m : Mem) :
    (∃ it m₁ m', setIterRev s m = (it, m₁) ∧
        iterItems (s.cap + 1) it m₁ = some (some s.members.reverse, m') ∧
        m'.refusals = m.refusals) ∨
      ∃ m', setIterRev s m = (none, m') ∧ m.refusals < m'.refusals := by
  have drained := drain_scanPrev s.buckets s.cap (s.cap + 1) (by omega)
  rw [SetT.members, ← List.map_reverse]
  exact setIterOf_spec (fun pos => rfl) drained m

/-! ### Runs -/

/-- What a set of classes answers; the number counts the requests refused so far. Only an
addition fails, after a refused request. -/
inductive ClassSetStep (eq : κ → κ → Bool) :
    Multiset κ × Nat → SetOp κ → Answer κ → Multiset κ × Nat → Prop
  | addOk (S n x) (absent : ∀ y ∈ S, eq y x = false) :
      ClassSetStep eq (S, n) (.add (some x)) (.status .ok) (x ::ₘ S, n)
  | addDuplicate (S n x) (present : ∃ y ∈ S, eq y x = true) :
      ClassSetStep eq (S, n) (.add (some x)) (.status .duplicate) (S, n)
  | addOom (S n n' x) (h : n < n') :
      ClassSetStep eq (S, n) (.add (some x)) (.status .oom) (S, n')
  | addInvalid (g) : ClassSetStep eq g (.add none) (.status .invalid) g
  | contains (S n x b) (h : b = true ↔ ∃ y ∈ S, eq y x = true) :
      ClassSetStep eq (S, n) (.contains (some x)) (.answer b) (S, n)
  | containsInvalid (g) : ClassSetStep eq g (.contains none) (.answer false) g
  | removeHit (S n x y) (equal : eq y x = true) :
      ClassSetStep eq (y ::ₘ S, n) (.remove (some x)) (.status .ok) (S, n)
  | removeMiss (S n x) (absent : ∀ y ∈ S, eq y x = false) :
      ClassSetStep eq (S, n) (.remove (some x)) (.status .notFound) (S, n)
  | removeInvalid (g) : ClassSetStep eq g (.remove none) (.status .notFound) g
  | clear (S n) : ClassSetStep eq (S, n) .clear .nothing (0, n)

/-- The state of a set that holds the keys `g.1`. -/
def SetOf (f : KeyFns κ) (st : SetT κ × Mem) (g : Multiset κ × Nat) : Prop :=
  SetState f st.1 ∧ SetDistinct f st.1 ∧ g = ((st.1.members : Multiset κ), st.2.refusals)

theorem members_perm {s' : SetT κ} (h : s'.entries.Perm s.entries) :
    (s'.members : Multiset κ) = s.members := Multiset.coe_eq_coe.mpr (h.map Block.val)

theorem exists_member {p : κ → Prop} :
    (∃ y ∈ (s.members : Multiset κ), p y) ↔ ∃ b ∈ s.entries, p b.val := by
  simp [SetT.members]

theorem forall_members {p : κ → Prop} :
    (∀ y ∈ (s.members : Multiset κ), p y) ↔ ∀ b ∈ s.entries, p b.val := by
  simp [SetT.members]

theorem setStep_refines (law : f.Lawful) (op : SetOp κ) (st : SetT κ × Mem)
    (g : Multiset κ × Nat) (h : SetOf f st g) :
    ∃ out st' g', setStep ndebug f op st = some (out, st') ∧ ClassSetStep f.eq g op out g' ∧
      SetOf f st' g' := by
  obtain ⟨s, m⟩ := st
  obtain ⟨state, d, rfl⟩ := h
  simp only at state d ⊢
  have here : SetOf f (s, m) ((s.members : Multiset κ), m.refusals) := ⟨state, d, rfl⟩
  cases op with
  | add elem =>
    cases elem with
    | none => exact ⟨_, (s, m), _, rfl, .addInvalid _, here⟩
    | some x =>
      obtain ⟨rs, s', m', run, state', -, outcome⟩ := setAdd_spec ndebug state x m
      have step : setStep ndebug f (.add (some x)) (s, m) = some (.status rs, (s', m')) := by
        simp [setStep, run]
      rcases outcome with ⟨rfl, more, kept⟩ | ⟨rfl, quiet, added⟩ | ⟨rfl, quiet, kept⟩
      · obtain ⟨d', perm⟩ := kept law d
        refine ⟨_, _, _, step, .addOom _ _ m'.refusals x more, state', d', ?_⟩
        rw [members_perm perm]
      · obtain ⟨d', absent, b, rfl, perm⟩ := added law d
        refine ⟨_, _, _, step, .addOk _ _ _ (forall_members.mpr absent), state', d', ?_⟩
        rw [quiet]
        exact congrArg (·, _) (Multiset.coe_eq_coe.mpr (perm.map Block.val)).symm
      · obtain ⟨d', present, perm⟩ := kept law d
        refine ⟨_, _, _, step, .addDuplicate _ _ x (exists_member.mpr present), state', d', ?_⟩
        rw [members_perm perm, quiet]
  | contains elem =>
    cases elem with
    | none => exact ⟨_, (s, m), _, rfl, .containsInvalid _, here⟩
    | some x =>
      obtain ⟨b, run, found⟩ := setContains_spec state x
      exact ⟨.answer b, (s, m), _, by simp [setStep, run],
        .contains _ _ x b ((found law).trans (exists_member (p := fun y => f.eq y x = true)).symm),
        here⟩
  | remove elem =>
    cases elem with
    | none => exact ⟨_, (s, m), _, rfl, .removeInvalid _, here⟩
    | some x =>
      obtain ⟨rs, s', m', run, state', quiet, -, outcome⟩ := setRemove_spec state x m
      have step : setStep ndebug f (.remove (some x)) (s, m) = some (.status rs, (s', m')) := by
        simp [setStep, run]
      rcases outcome with ⟨rfl, rfl, absent⟩ | ⟨rfl, len, b, equal, perm⟩
      · have none (b : Block κ) (hb : b ∈ s'.entries) : f.eq b.val x = false := by
          cases hit : f.eq b.val x with
          | false => rfl
          | true => exact hit ▸ absent b hb (law.hash_eq _ _ hit)
        exact ⟨_, _, _, step, .removeMiss _ _ x (forall_members.mpr none), state', d, by rw [quiet]⟩
      · have before : (s.members : Multiset κ) = b.val ::ₘ (s'.members : Multiset κ) :=
          (Multiset.coe_eq_coe.mpr (perm.map Block.val)).symm
        rw [before, ← quiet]
        exact ⟨_, _, _, step, .removeHit _ _ x b.val equal, state', d.remove len perm, rfl⟩
  | clear =>
    obtain ⟨state', none_left, len, -, quiet⟩ := setClear_spec state m
    refine ⟨_, _, _, rfl, .clear _ _, state', ⟨by simp [none_left], by simp [none_left, len]⟩, ?_⟩
    rw [SetT.members, none_left, quiet]
    rfl

/-- Every run from `set_create` answers as a set of classes does. In every state it reaches
no two stored keys are equal, `set_len` counts them, `set_iter` yields them and
`set_iter_rev` yields the reverse, unless its state cannot be allocated. -/
theorem set_run_refines (law : f.Lawful) {elemSize : Nat} {m₀ m₁ : Mem} {s₀ : SetT κ}
    (created : setCreate κ elemSize m₀ = (some s₀, m₁)) (ndebug : Bool) (ops : List (SetOp κ)) :
    ∃ outs s m, run (setStep ndebug f) ops (s₀, m₁) = some (outs, (s, m)) ∧
      SpecRun (ClassSetStep f.eq) (0, m₁.refusals) ops outs
        ((s.members : Multiset κ), m.refusals) ∧
      s.members.Pairwise (fun x y => f.eq x y = false) ∧ setLen s = s.members.length ∧
      (∀ mi, (∃ it mj mk, setIter s mi = (it, mj) ∧
          iterItems (s.cap + 1) it mj = some (some s.members, mk)) ∨
        ∃ mj, setIter s mi = (none, mj) ∧ mi.refusals < mj.refusals) ∧
      ∀ mi, (∃ it mj mk, setIterRev s mi = (it, mj) ∧
          iterItems (s.cap + 1) it mj = some (some s.members.reverse, mk)) ∨
        ∃ mj, setIterRev s mi = (none, mj) ∧ mi.refusals < mj.refusals := by
  obtain ⟨fresh, -⟩ := setCreate_spec created
  have start : SetOf f (s₀, m₁) ((0 : Multiset κ), m₁.refusals) := by
    refine ⟨.fresh fresh, ⟨by simp [fresh.entries_eq], by simp [fresh.entries_eq, fresh.len_eq]⟩, ?_⟩
    simp [SetT.members, fresh.entries_eq]
  obtain ⟨outs, ⟨s, m⟩, g, ran, spec, -, d, rfl⟩ :=
    run_refines (setStep ndebug f) (ClassSetStep f.eq) (setStep_refines law) ops start
  refine ⟨outs, s, m, ran, spec, ?_, ?_, fun mi => ?_, fun mi => ?_⟩
  · exact List.pairwise_map.mpr (d.apart.imp And.left)
  · rw [setLen, d.len_eq, SetT.members, List.length_map]
  · refine (setIter_spec s mi).imp_left ?_
    rintro ⟨it, mj, mk, made, items, -⟩
    exact ⟨it, mj, mk, made, items⟩
  · refine (setIterRev_spec s mi).imp_left ?_
    rintro ⟨it, mj, mk, made, items, -⟩
    exact ⟨it, mj, mk, made, items⟩

/-- A run with a constant hash function and a refused request. -/
theorem set_run_refines_colliding :
    ∃ outs s m, run (setStep false collidingKeys)
        [.add (some 7), .add (some 9), .add (some 7), .remove (some 7), .contains (some 9)]
        (⟨0, none, fun _ => none, 0, 0, 8, 0⟩, ⟨refusingOnce 2, 1, [.alloc 0 72]⟩) =
          some (outs, (s, m)) ∧
      SpecRun (ClassSetStep collidingKeys.eq) (0, 0)
        [.add (some 7), .add (some 9), .add (some 7), .remove (some 7), .contains (some 9)] outs
        ((s.members : Multiset Nat), m.refusals) ∧ setLen s = s.members.length := by
  have created : setCreate Nat 8 (.start (refusingOnce 2)) =
      (some ⟨0, none, fun _ => none, 0, 0, 8, 0⟩, ⟨refusingOnce 2, 1, [.alloc 0 72]⟩) := rfl
  obtain ⟨outs, s, m, ran, spec, -, len, -⟩ := set_run_refines collidingKeys_lawful created false
    [.add (some 7), .add (some 9), .add (some 7), .remove (some 7), .contains (some 9)]
  exact ⟨outs, s, m, ran, spec, len⟩

end Seqc
