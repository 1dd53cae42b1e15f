import Seqc.Consumers
import Seqc.IterSpec
import Seqc.Set
import Seqc.Omap

/-! The extend functions: `seqc_extend` of collection.c for any add function, `set_extend`,
`hashmap_extend` and `omap_extend`, over an iterator that may read the collection, and what
all of them and `vec_extend` do with an iterator that does not. -/

namespace Seqc
open Iteration

variable {σ : Type*} {β γ κ ν : Type}

/-- An iterator in front of a collection that its calls may read. -/
structure LiveIter (σ : Type*) (γ β : Type) where
  next : Nat → σ → γ × Mem → Option (Option β × σ × γ × Mem)
  destroy : σ → Mem → Mem
  state : σ
  elemSize : Nat

/-- The calls of an iterator that is not over the collection. -/
def nextApart (γ : Type) (next : Nat → σ → Mem → Option (Option β × σ × Mem)) (fuel : Nat) (s : σ)
    (world : γ × Mem) : Option (Option β × σ × γ × Mem) :=
  match next fuel s world.2 with
  | none => none
  | some (x, s, m) => some (x, s, world.1, m)

def IterT.apart (γ : Type) (it : IterT σ β) : LiveIter σ γ β where
  next := nextApart γ it.next
  destroy := it.destroy
  state := it.state
  elemSize := it.elemSize

def liveDestroy (it : Option (LiveIter σ γ β)) (m : Mem) : Mem :=
  match it with
  | none => m
  | some it => it.destroy it.state m

/-- A `seqc_add_fn`; `none` means that the call does not return. -/
abbrev AddFn (γ β : Type) := γ → β → Mem → Option (Status × γ × Mem)

/-- What a loop with status `st` makes of the status of an add: whether it goes on, and the
status it has then. -/
abbrev Reaction := (st added : Status) → Bool × Status

/-- In `seqc_extend`, which has two variables for them. -/
def seqcReaction : Reaction := fun st added =>
  if added ≠ .ok ∧ added ≠ .duplicate then (false, added) else (true, st)

/-- In `set_extend`, which forgets a duplicate. -/
def setReaction : Reaction := fun _ added =>
  if added ≠ .ok ∧ added ≠ .duplicate then (false, added) else (true, .ok)

/-- In `vec_extend`, `hashmap_extend` and `omap_extend`. -/
def plainReaction : Reaction := fun _ added =>
  if added ≠ .ok then (false, added) else (true, added)

/-- A turn of the loop; the accumulator is `none` once an add has not returned. -/
def extendTurn (add : AddFn γ β) (react : Reaction) (x : β) (st : Option Status)
    (world : γ × Mem) : Bool × Option Status × γ × Mem :=
  match st, add world.1 x world.2 with
  | some st, some (added, c, m) => ((react st added).1, some (react st added).2, c, m)
  | _, _ => (false, none, world)

/-- The element the loop copies to: one of its own block, or one on the stack. -/
def elemAcquire (heap : Bool) (elemSize : Nat) (m : Mem) : Option (Option Nat) × Mem :=
  if heap then
    match memAlloc m elemSize with
    | (none, m) => (none, m)
    | (some elem, m) => (some (some elem), m)
  else (some none, m)

/-- What the extend functions have in common. -/
def extendWith (heap : Bool) (add : AddFn γ β) (react : Reaction) (elemSize : γ → Nat)
    (fuel : Nat) (c : Option γ) (it : Option (LiveIter σ γ β)) (m : Mem) :
    Option (Status × Option γ × Mem) :=
  match c, it with
  | some c, some it =>
    if it.elemSize ≠ elemSize c then some (.invalid, some c, it.destroy it.state m)
    else
      match elemAcquire heap (elemSize c) m with
      | (none, m) => some (.oom, some c, it.destroy it.state m)
      | (some elem, m) =>
        match whileNext it.next (extendTurn add react) fuel it.state (some .ok) (c, m) with
        | some (some st, s, c', m) =>
          some (st, some c', scratchRelease elem (elemSize c) (it.destroy s m))
        | _ => none
  | c, it => some (.invalid, c, liveDestroy it m)

/-- `seqc_extend` with the add function and the element size of a collection; list.c, dlist.c,
queue.c, stack.c, pqueue.c, ringbuf.c, bstree.c and avl.c check for NULL before they call it. -/
def seqcExtendBy (add : AddFn γ β) (elemSize : γ → Nat) (fuel : Nat) (c : Option γ)
    (it : Option (LiveIter σ γ β)) (m : Mem) : Option (Status × Option γ × Mem) :=
  extendWith true add seqcReaction elemSize fuel c it m

def setExtend (ndebug : Bool) (f : KeyFns κ) (fuel : Nat) (s : Option (SetT κ))
    (it : Option (LiveIter σ (SetT κ) κ)) (m : Mem) : Option (Status × Option (SetT κ) × Mem) :=
  extendWith true (fun s x m => setAdd ndebug f s (some x) m) setReaction SetT.elemSize fuel s it m

/-- `map_entry_t`: pointers to a key and to a value. -/
abbrev MapEntry (κ ν : Type) := Option κ × Option ν

def sizeofMapEntry : Nat := 16

def hashmapExtend (ndebug : Bool) (f : KeyFns κ) (fuel : Nat) (map : Option (Hashmap κ ν))
    (it : Option (LiveIter σ (Hashmap κ ν) (MapEntry κ ν))) (m : Mem) :
    Option (Status × Option (Hashmap κ ν) × Mem) :=
  extendWith false (fun map e m => hashmapSet ndebug f map e.1 e.2 m) plainReaction
    (fun _ => sizeofMapEntry) fuel map it m

def omapExtend (cmp : κ → κ → Int) (fuel : Nat) (map : Option (Omap κ ν))
    (it : Option (LiveIter σ (Omap κ ν) (MapEntry κ ν))) (m : Mem) :
    Option (Status × Option (Omap κ ν) × Mem) :=
  extendWith false (fun map e m => omapSet cmp map e.1 e.2 m) plainReaction
    (fun _ => sizeofMapEntry) fuel map it m

/-! ### The law -/

/-- A status that does not stop a loop. -/
def Status.Passes (st : Status) : Prop := st = .ok ∨ st = .duplicate

/-- The operation on the elements that the iterator gives, in order, each with its status. -/
inductive Fed (next : Nat → σ → Mem → Option (Option β × σ × Mem)) (add : AddFn γ β) :
    σ → γ → Mem → List (β × Status) → σ → γ → Mem → Prop
  | none {s c m} : Fed next add s c m [] s c m
  | one {s c m x s₁ m₁ st c₁ m₂ turns s' c' m'} (given : Returns next s m (some x) s₁ m₁)
      (added : add c x m₁ = some (st, c₁, m₂)) (rest : Fed next add s₁ c₁ m₂ turns s' c' m') :
      Fed next add s c m ((x, st) :: turns) s' c' m'

/-- How a loop ends: with the iterator, when no operation has failed, or at once with the
status of the first that fails. -/
inductive Ends (next : Nat → σ → Mem → Option (Option β × σ × Mem)) (add : AddFn γ β) (s : σ)
    (c : γ) (m : Mem) : List (β × Status) → Status → σ → γ → Mem → Prop
  | all {turns s₁ c' m₁ s' m'} (fed : Fed next add s c m turns s₁ c' m₁)
      (passed : ∀ t ∈ turns, t.2.Passes) (stops : Returns next s₁ m₁ none s' m') :
      Ends next add s c m turns .ok s' c' m'
  | first {turns x st s' c' m'} (fed : Fed next add s c m (turns ++ [(x, st)]) s' c' m')
      (passed : ∀ t ∈ turns, t.2.Passes) (failed : ¬st.Passes) :
      Ends next add s c m (turns ++ [(x, st)]) st s' c' m'

/-- What an extend function does: nothing, without a collection or an iterator of its element
size or without room for the element, or what its loop does. The iterator is destroyed once. -/
inductive Extended (heap : Bool) (add : AddFn γ β) (elemSize : γ → Nat) :
    Option γ → Option (IterT σ β) → Mem → Status → Option γ → Mem → Prop
  | rejected {c it m} (bad : ∀ d ∈ c, ∀ i ∈ it, IterT.elemSize i ≠ elemSize d) :
      Extended heap add elemSize c it m .invalid c (iterDestroy it m)
  | refused {c it m m'} (fits : IterT.elemSize it = elemSize c)
      (full : elemAcquire heap (elemSize c) m = (none, m')) :
      Extended heap add elemSize (some c) (some it) m .oom (some c) (it.destroy it.state m')
  | ended {c it m elem m₁ turns st s' c' m'} (fits : IterT.elemSize it = elemSize c)
      (room : elemAcquire heap (elemSize c) m = (some elem, m₁))
      (ends : Ends it.next add it.state c m₁ turns st s' c' m') :
      Extended heap add elemSize (some c) (some it) m st (some c')
        (scratchRelease elem (elemSize c) (it.destroy s' m'))

section Law
variable {next : Nat → σ → Mem → Option (Option β × σ × Mem)} {add : AddFn γ β} {react : Reaction}
  {s s' s₁ : σ} {c c' c₁ : γ} {m m' m₁ m₂ : Mem} {turns : List (β × Status)} {st : Status} {x : β}

/-- A reaction to the statuses an add function has that goes on after those that pass, and
stops with any other. -/
def Reaction.Fits (react : Reaction) (add : AddFn γ β) : Prop :=
  ∀ c x m st c' m', add c x m = some (st, c', m') →
    (st.Passes → react .ok st = (true, .ok)) ∧ (¬st.Passes → react .ok st = (false, st))

theorem seqcReaction_fits (add : AddFn γ β) : seqcReaction.Fits add := by
  intro c x m st c' m' _
  cases st <;> simp [seqcReaction, Status.Passes]

theorem setReaction_fits (add : AddFn γ β) : setReaction.Fits add := by
  intro c x m st c' m' _
  cases st <;> simp [setReaction, Status.Passes]

/-- Without duplicates. -/
theorem plainReaction_fits (distinct : ∀ c x m c' m', add c x m ≠ some (.duplicate, c', m')) :
    plainReaction.Fits add := by
  intro c x m st c' m' added
  cases st with
  | duplicate => exact absurd added (distinct c x m c' m')
  | _ => simp [plainReaction, Status.Passes]

theorem nextApart_mono (mono : Mono next) : Mono (nextApart γ next) := by
  intro fuel s world r h
  match hn : next fuel s world.2 with
  | none => simp [nextApart, hn] at h
  | some (x, s₁, m₁) =>
    simp only [nextApart, hn] at h
    simpa only [nextApart, mono _ _ _ _ hn] using h

/-- An element in front of a loop that goes on. -/
theorem Ends.cons (given : Returns next s m (some x) s₁ m₁) {added : Status}
    (add_eq : add c x m₁ = some (added, c₁, m₂)) (passes : added.Passes)
    (rest : Ends next add s₁ c₁ m₂ turns st s' c' m') :
    Ends next add s c m ((x, added) :: turns) st s' c' m' := by
  cases rest with
  | all fed passed stops =>
    exact .all (.one given add_eq fed) (List.forall_mem_cons.mpr ⟨passes, passed⟩) stops
  | @first turns y _ _ _ _ fed passed failed =>
    have longer : Fed next add s c m (((x, added) :: turns) ++ [(y, st)]) s' c' m' :=
      .one given add_eq fed
    exact .first longer (List.forall_mem_cons.mpr ⟨passes, passed⟩) failed

/-- An element whose operation fails. -/
theorem Ends.failing (given : Returns next s m (some x) s₁ m₁)
    (added : add c x m₁ = some (st, c₁, m₂)) (failed : ¬st.Passes) :
    Ends next add s c m [(x, st)] st s₁ c₁ m₂ := by
  have fed : Fed next add s c m ([] ++ [(x, st)]) s₁ c₁ m₂ := .one given added .none
  exact .first fed (by simp) failed

/-- A loop that returns ends so. -/
theorem ends_of_while (fits : react.Fits add) (fuel : Nat) :
    ∀ {s : σ} {c : γ} {m : Mem}, whileNext (nextApart γ next) (extendTurn add react) fuel s
        (some .ok) (c, m) = some (some st, s', c', m') →
      ∃ turns, Ends next add s c m turns st s' c' m' := by
  induction fuel with
  | zero =>
    intro s c m run
    simp [whileNext] at run
  | succ fuel ih =>
    intro s c m run
    rw [whileNext] at run
    rcases hn : next fuel s m with _ | ⟨_ | x, s₁, m₁⟩
    · simp [nextApart, hn] at run
    · simp only [nextApart, hn] at run
      cases run
      exact ⟨[], .all .none (by simp) ⟨fuel, hn⟩⟩
    · simp only [nextApart, hn] at run
      rcases added : add c x m₁ with _ | ⟨st₁, c₁, m₂⟩
      · simp [extendTurn, added] at run
      · obtain ⟨go, stop⟩ := fits c x m₁ st₁ c₁ m₂ added
        by_cases passes : st₁.Passes
        · simp only [extendTurn, added, go passes] at run
          obtain ⟨turns, ends⟩ := ih run
          exact ⟨(x, st₁) :: turns, ends.cons ⟨fuel, hn⟩ added passes⟩
        · simp only [extendTurn, added, stop passes] at run
          cases run
          exact ⟨_, .failing ⟨fuel, hn⟩ added passes⟩

/-- A turn after which the loop goes on. -/
private theorem while_cons (mono : Mono next) (fits : react.Fits add)
    (given : Returns next s m (some x) s₁ m₁) {added : Status}
    (add_eq : add c x m₁ = some (added, c₁, m₂)) (passes : added.Passes)
    {r : Option Status × σ × γ × Mem} (rest : ∃ fuel, whileNext (nextApart γ next)
      (extendTurn add react) fuel s₁ (some .ok) (c₁, m₂) = some r) :
    ∃ fuel, whileNext (nextApart γ next) (extendTurn add react) fuel s (some .ok) (c, m) =
      some r := by
  obtain ⟨n, given⟩ := given
  obtain ⟨k, rest⟩ := rest
  have go := (fits c x m₁ added c₁ m₂ add_eq).1 passes
  refine ⟨max n k + 1, ?_⟩
  simp only [whileNext, nextApart, mono.le given (Nat.le_max_left n k), extendTurn, add_eq, go]
  exact whileNext_le (nextApart_mono mono) rest (Nat.le_max_right n k)

theorem while_of_ends (mono : Mono next) (fits : react.Fits add)
    (ends : Ends next add s c m turns st s' c' m') :
    ∃ fuel, whileNext (nextApart γ next) (extendTurn add react) fuel s (some .ok) (c, m) =
      some (some st, s', c', m') := by
  cases ends with
  | all fed passed stops =>
    induction fed with
    | none =>
      obtain ⟨n, stops⟩ := stops
      exact ⟨n + 1, by simp only [whileNext, nextApart, stops]⟩
    | one given added _ ih =>
      obtain ⟨passes, passed⟩ := List.forall_mem_cons.mp passed
      exact while_cons mono fits given added passes (ih passed stops)
  | @first turns y _ _ _ _ fed passed failed =>
    induction turns generalizing s c m with
    | nil =>
      cases fed with
      | one given added rest =>
        cases rest
        obtain ⟨n, given⟩ := given
        have stop := (fits _ _ _ _ _ _ added).2 failed
        exact ⟨n + 1, by simp only [whileNext, nextApart, given, extendTurn, added, stop]⟩
    | cons t turns ih =>
      obtain ⟨passes, later⟩ := List.forall_mem_cons.mp passed
      cases fed with
      | one given added rest => exact while_cons mono fits given added passes (ih later rest)

/-- The elements are the first of those that an iterator gives which gives `xs` whatever the
memory. -/
theorem Fed.takes (mono : Mono next) {E : σ → Prop} {xs : List β}
    (fed : Fed next add s c m turns s' c' m') (gives : Delivers next Mem.refusals E s xs {xs}) :
    ∃ ys, xs = turns.map Prod.fst ++ ys ∧ Delivers next Mem.refusals E s' ys {ys} := by
  induction fed generalizing xs with
  | none => exact ⟨xs, rfl, gives⟩
  | one given _ _ ih =>
    cases gives.call_only _ with
    | inl stops =>
      obtain ⟨-, _, _, stops, -⟩ := stops
      cases (given.unique mono stops).1
    | inr item =>
      obtain ⟨x, ys, _, _, rfl, given', rest⟩ := item
      obtain ⟨same, rfl, rfl⟩ := given.unique mono given'
      obtain ⟨zs, rfl, left⟩ := ih rest
      exact ⟨zs, by rw [Option.some.inj same]; rfl, left⟩

/-- Such an iterator gives them all just if the loop ends with it. -/
theorem Ends.takes (mono : Mono next) {E : σ → Prop} {xs : List β}
    (ends : Ends next add s c m turns st s' c' m')
    (gives : Delivers next Mem.refusals E s xs {xs}) :
    turns.map Prod.fst = xs.take turns.length ∧
      (st = .ok ↔ turns.length = xs.length ∧ ∀ t ∈ turns, t.2.Passes) := by
  cases ends with
  | all fed passed stops =>
    obtain ⟨ys, rfl, left⟩ := fed.takes mono gives
    have nothing : ys = [] := by
      cases left.call_only _ with
      | inl ended => exact ended.1
      | inr item =>
        obtain ⟨_, _, _, _, _, given, -⟩ := item
        cases (given.unique mono stops).1
    rw [nothing, List.append_nil]
    refine ⟨?_, fun _ => ⟨by simp, passed⟩, fun _ => rfl⟩
    rw [← List.length_map Prod.fst, List.take_length]
  | @first turns y _ _ _ _ fed passed failed =>
    obtain ⟨ys, rfl, left⟩ := fed.takes mono gives
    refine ⟨?_, fun ok => absurd (.inl ok) failed, fun done => ?_⟩
    · rw [← List.length_map Prod.fst, List.take_left]
    · exact absurd (done.2 (y, st) (by simp)) failed

end Law

/-! ### The extend functions obey it -/

/-- An extend function returns just what the law says. -/
def ObeysLaw (σ : Type) (extend : Nat → Option γ → Option (IterT σ β) → Mem →
    Option (Status × Option γ × Mem)) (heap : Bool) (add : AddFn γ β) (elemSize : γ → Nat) : Prop :=
  ∀ (c : Option γ) (it : Option (IterT σ β)) (m : Mem), (∀ i ∈ it, Mono (IterT.next i)) →
    ∀ st c' m', (∃ fuel, extend fuel c it m = some (st, c', m')) ↔
      Extended heap add elemSize c it m st c' m'

/-- The iterators that the functions of `extendWith` are given here are not over `c`. -/
def extendApart (heap : Bool) (add : AddFn γ β) (react : Reaction) (elemSize : γ → Nat)
    (fuel : Nat) (c : Option γ) (it : Option (IterT σ β)) (m : Mem) :
    Option (Status × Option γ × Mem) :=
  extendWith heap add react elemSize fuel c (it.map (IterT.apart γ)) m

theorem unfit_iff {it : Option (IterT σ β)} {size : Nat} :
    (¬iterIsValid it ∨ iterElemSize it ≠ size) ↔ ∀ i ∈ it, IterT.elemSize i ≠ size := by
  cases it <;> simp [iterIsValid, iterElemSize]

theorem extendApart_rejects {heap : Bool} {add : AddFn γ β} {react : Reaction}
    {elemSize : γ → Nat} {c : Option γ} {it : Option (IterT σ β)}
    (bad : ∀ d ∈ c, ∀ i ∈ it, IterT.elemSize i ≠ elemSize d) (fuel : Nat) (m : Mem) :
    extendApart heap add react elemSize fuel c it m = some (.invalid, c, iterDestroy it m) := by
  cases c with
  | none => cases it <;> rfl
  | some c =>
    cases it with
    | none => rfl
    | some it =>
      have unfit : (it.apart γ).elemSize ≠ elemSize c := bad c rfl it rfl
      simp only [extendApart, extendWith, Option.map_some, if_pos unfit]
      rfl

theorem extendApart_fits {heap : Bool} {add : AddFn γ β} {react : Reaction} {elemSize : γ → Nat}
    {c : γ} {it : IterT σ β} (fits : it.elemSize = elemSize c) (fuel : Nat) (m : Mem) :
    extendApart heap add react elemSize fuel (some c) (some it) m =
      match elemAcquire heap (elemSize c) m with
      | (none, m) => some (.oom, some c, it.destroy it.state m)
      | (some elem, m) =>
        match whileNext (nextApart γ it.next) (extendTurn add react) fuel it.state (some .ok)
          (c, m) with
        | some (some st, s, c', m) =>
          some (st, some c', scratchRelease elem (elemSize c) (it.destroy s m))
        | _ => none := by
  have fit : ¬(it.apart γ).elemSize ≠ elemSize c := not_not.mpr fits
  simp only [extendApart, extendWith, Option.map_some, if_neg fit]
  rfl

theorem extendApart_obeys {σ : Type} {react : Reaction} {add : AddFn γ β} (reacts : react.Fits add)
    (heap : Bool) (elemSize : γ → Nat) :
    ObeysLaw σ (extendApart heap add react elemSize) heap add elemSize := by
  intro c it m mono st c' m'
  constructor
  · rintro ⟨fuel, run⟩
    by_cases bad : ∀ d ∈ c, ∀ i ∈ it, IterT.elemSize i ≠ elemSize d
    · rw [extendApart_rejects bad] at run
      cases run
      exact .rejected bad
    · push Not at bad
      obtain ⟨d, rfl, i, rfl, fits⟩ := bad
      rw [extendApart_fits fits] at run
      match room : elemAcquire heap (elemSize d) m with
      | (none, m₁) =>
        simp only [room] at run
        cases run
        exact .refused fits room
      | (some elem, m₁) =>
        simp only [room] at run
        split at run
        · rename_i loop
          cases run
          obtain ⟨turns, ends⟩ := ends_of_while reacts fuel loop
          exact .ended fits room ends
        · simp at run
  · intro law
    cases law with
    | rejected bad => exact ⟨0, extendApart_rejects bad 0 m⟩
    | refused fits full => exact ⟨0, by simp only [extendApart_fits fits, full]⟩
    | ended fits room ends =>
      obtain ⟨fuel, loop⟩ := while_of_ends (mono _ rfl) reacts ends
      exact ⟨fuel, by simp only [extendApart_fits fits, room, loop]⟩

/-- `hashmap_set` knows no duplicates. -/
theorem hashmapSet_distinct {ndebug : Bool} {f : KeyFns κ} {map map' : Hashmap κ ν}
    {e : MapEntry κ ν} {m m' : Mem} :
    hashmapSet ndebug f map e.1 e.2 m ≠ some (.duplicate, map', m') := by
  intro set
  unfold hashmapSet at set
  split at set
  · obtain ⟨⟨rs, map₁, m₁⟩, grown, set⟩ := Option.bind_eq_some_iff.mp set
    by_cases fine : rs = .ok
    · simp only [if_pos fine] at set
      unfold hashmapStore at set
      split at set
      · simp at set
      · split at set
        · simp at set
        · obtain ⟨_, -, done⟩ := Option.bind_eq_some_iff.mp set
          simp at done
    · simp only [if_neg fine, Option.pure_def, Option.some.injEq, Prod.mk.injEq] at set
      obtain ⟨rfl, rfl, rfl⟩ := set
      unfold hashmapGrow at grown
      split at grown
      · unfold hashmapResizeAndRehash at grown
        split at grown
        · simp at grown
        · obtain ⟨_, -, done⟩ := Option.bind_eq_some_iff.mp grown
          simp at done
      · simp at grown
  · simp at set

theorem omapSet_distinct {cmp : κ → κ → Int} {map map' : Omap κ ν} {e : MapEntry κ ν}
    {m m' : Mem} : omapSet cmp map e.1 e.2 m ≠ some (.duplicate, map', m') := by
  intro set
  unfold omapSet at set
  split at set
  · obtain ⟨⟨newRoot, inserted, oom, m₁⟩, -, set⟩ := Option.bind_eq_some_iff.mp set
    cases oom <;> simp at set
  · simp at set

/-- `vec_push` on a vector that is there. -/
def vecAdd : AddFn (Vec β) β := fun v x m =>
  match vecPush (some v) (some x) m with
  | (st, some v, m) => some (st, v, m)
  | (_, none, _) => none

theorem vecAdd_cases (v : Vec β) (x : β) (m : Mem) : ∃ st v' m',
    vecPush (some v) (some x) m = (st, some v', m') ∧ vecAdd v x m = some (st, v', m') ∧
      v'.elemSize = v.elemSize ∧ st ≠ .duplicate := by
  rcases vecPush_spec v x m with ⟨v', m', push, -, size, -⟩ | ⟨m', push, -⟩
  · exact ⟨.ok, v', m', push, by simp only [vecAdd, push], size, by simp⟩
  · exact ⟨.oom, v, m', push, by simp only [vecAdd, push], rfl, by simp⟩

theorem vecAdd_distinct {v v' : Vec β} {x : β} {m m' : Mem} :
    vecAdd v x m ≠ some (.duplicate, v', m') := by
  intro add
  obtain ⟨st, w, m₁, -, added, -, distinct⟩ := vecAdd_cases v x m
  rw [added] at add
  cases add
  exact distinct rfl

/-- The vector and the status are in the accumulator, or the vector is in the world. -/
def SameVec (size : Nat) (a : Status × Option (Vec β)) (m : Mem) (st : Option Status)
    (world : Vec β × Mem) : Prop :=
  a = (a.1, some world.1) ∧ st = some a.1 ∧ m = world.2 ∧ world.1.elemSize = size

/-- The loop of `vec_extend` and the one the extend functions share stay in step. -/
theorem vecLoop_sim (next : Nat → σ → Mem → Option (Option β × σ × Mem)) (fuel : Nat) (s : σ)
    (v : Vec β) (m : Mem) :
    Option.Rel (fun r r' => r.2.1 = r'.2.1 ∧ SameVec v.elemSize r.1 r.2.2 r'.1 r'.2.2)
      (whileNext next extendBody fuel s (.ok, some v) m)
      (whileNext (nextApart (Vec β) next) (extendTurn vecAdd plainReaction) fuel s (some .ok)
        (v, m)) := by
  apply whileNext_sim (R := SameVec v.elemSize) (K := SameVec v.elemSize) (fun _ _ _ _ h => h)
  · rintro n s₁ a m₁ st world ⟨here, rfl, rfl, size⟩
    match hn : next n s₁ world.2 with
    | none =>
      simp only [nextApart, hn]
      exact .none
    | some (x, s₂, m₂) =>
      simp only [nextApart, hn]
      exact .some ⟨rfl, rfl, here, rfl, rfl, size⟩
  · rintro x a m₁ st ⟨w, _⟩ ⟨here, rfl, rfl, size⟩
    obtain ⟨st₁, w₁, m₂, push, added, size₁, -⟩ := vecAdd_cases w x m₁
    rw [here]
    refine ⟨st₁ = .ok, (st₁, some w₁), m₂, some st₁, (w₁, m₂), ?_, ?_, ?_⟩
    · simp only [extendBody, push]
    · by_cases fine : st₁ = .ok <;> simp [extendTurn, added, plainReaction, fine]
    · rw [ite_self]
      exact ⟨rfl, rfl, rfl, size₁.trans size⟩
  · exact ⟨rfl, rfl, rfl, rfl⟩

/-- `vec_extend` is one of them. -/
theorem vecExtend_eq (fuel : Nat) (v : Option (Vec β)) (it : Option (IterT σ β)) (m : Mem) :
    vecExtend fuel v it m = extendApart true vecAdd plainReaction Vec.elemSize fuel v it m := by
  cases v with
  | none => rw [extendApart_rejects (by simp), vecExtend, if_pos (.inl rfl)]
  | some v =>
    by_cases bad : ∀ i ∈ it, IterT.elemSize i ≠ v.elemSize
    · rw [extendApart_rejects (by simpa using bad), vecExtend,
        if_pos (.inr (unfit_iff.mpr bad))]
    · have fine : ¬((some v).isNone ∨ ¬iterIsValid it ∨ iterElemSize it ≠ vecElemSize (some v)) :=
        not_or.mpr ⟨by simp, mt unfit_iff.mp bad⟩
      rw [vecExtend, if_neg fine]
      push Not at bad
      obtain ⟨it, rfl, fits⟩ := bad
      rw [extendApart_fits fits]
      simp only [vecElemSize, elemAcquire, if_true]
      rcases memAlloc m v.elemSize with ⟨_ | elem, m₁⟩
      · rfl
      · have sim := vecLoop_sim it.next fuel it.state v m₁
        simp only [iterWhile]
        generalize whileNext it.next extendBody fuel it.state (.ok, some v) m₁ = r,
          whileNext (nextApart (Vec β) it.next) (extendTurn vecAdd plainReaction) fuel it.state
            (some .ok) (v, m₁) = r' at sim ⊢
        cases sim with
        | none => rfl
        | @some r r' same =>
          obtain ⟨⟨st, w⟩, s', m₂⟩ := r
          obtain ⟨_, _, w', _⟩ := r'
          obtain ⟨rfl, here, rfl, rfl, size⟩ := same
          obtain rfl : w = some w' := (Prod.mk.inj here).2
          have size : w'.elemSize = v.elemSize := size
          simp only [← size]
          rfl

/-- The collection and the status are in the accumulator, or the collection is in the world. -/
def SameAcc (a : Status × γ) (m : Mem) (st : Option Status) (world : γ × Mem) : Prop :=
  st = some a.1 ∧ world = (a.2, m)

theorem Collection.loop_sim (coll : Collection γ β) {dup : Bool} {react : Reaction}
    (reacts : ∀ st, react .ok st =
      if st = .ok ∨ dup = true ∧ st = .duplicate then (true, .ok) else (false, st))
    (next : Nat → σ → Mem → Option (Option β × σ × Mem)) (fuel : Nat) (s : σ) (c : γ) (m : Mem) :
    Option.Rel (fun r r' => r.2.1 = r'.2.1 ∧ SameAcc r.1 r.2.2 r'.1 r'.2.2)
      (whileNext next (coll.body dup) fuel s (.ok, c) m)
      (whileNext (nextApart γ next) (extendTurn (fun c x m => some (coll.add c x m)) react) fuel s
        (some .ok) (c, m)) := by
  apply whileNext_sim (R := fun a m st world => a.1 = .ok ∧ SameAcc a m st world) (K := SameAcc)
    (fun _ _ _ _ h => h.2)
  · rintro n s₁ ⟨st, d⟩ m₁ _ _ ⟨fine, rfl, rfl⟩
    match hn : next n s₁ m₁ with
    | none =>
      simp only [nextApart, hn]
      exact .none
    | some (x, s₂, m₂) =>
      simp only [nextApart, hn]
      exact .some ⟨rfl, rfl, fine, rfl, rfl⟩
  · rintro x ⟨_, d⟩ m₁ _ _ ⟨rfl, rfl, rfl⟩
    obtain ⟨st, d₁, m₂, added⟩ : ∃ st d₁ m₂, coll.add d x m₁ = (st, d₁, m₂) := ⟨_, _, _, rfl⟩
    have react_eq := reacts st
    by_cases passes : st = .ok ∨ dup = true ∧ st = .duplicate
    · rw [if_pos passes] at react_eq
      exact ⟨true, (.ok, d₁), m₂, some .ok, (d₁, m₂), by simp only [body, added, if_pos passes],
        by simp only [extendTurn, added, react_eq], rfl, rfl, rfl⟩
    · rw [if_neg passes] at react_eq
      exact ⟨false, (st, d₁), m₂, some st, (d₁, m₂), by simp only [body, added, if_neg passes],
        by simp only [extendTurn, added, react_eq], rfl, rfl⟩
  · exact ⟨rfl, rfl, rfl⟩

/-- The loop over a collection whose add function always returns. -/
theorem Collection.loop_eq (coll : Collection γ β) {dup : Bool} {react : Reaction}
    (reacts : ∀ st, react .ok st =
      if st = .ok ∨ dup = true ∧ st = .duplicate then (true, .ok) else (false, st))
    (next : Nat → σ → Mem → Option (Option β × σ × Mem)) (fuel : Nat) (s : σ) (c : γ) (m : Mem) :
    whileNext (nextApart γ next) (extendTurn (fun c x m => some (coll.add c x m)) react) fuel s
        (some .ok) (c, m) =
      (whileNext next (coll.body dup) fuel s (.ok, c) m).map
        fun r => (some r.1.1, r.2.1, r.1.2, r.2.2) := by
  have sim := coll.loop_sim reacts next fuel s c m
  generalize whileNext next (coll.body dup) fuel s (.ok, c) m = r,
    whileNext (nextApart γ next) (extendTurn (fun c x m => some (coll.add c x m)) react) fuel s
      (some .ok) (c, m) = r' at sim ⊢
  cases sim with
  | none => rfl
  | some same =>
    obtain ⟨here, st, world⟩ := same
    exact congrArg some (Prod.ext st (Prod.ext here.symm world))

/-- Where the add function always returns, `seqc_extend` is the one of before. -/
theorem seqcExtend_eq (coll : Collection γ β) (elemSize fuel : Nat) (c : Option γ)
    (it : Option (IterT σ β)) (m : Mem) :
    seqcExtend coll elemSize fuel c it m = extendApart true (fun c x m => some (coll.add c x m))
      seqcReaction (fun _ => elemSize) fuel c it m := by
  cases c with
  | none => rw [extendApart_rejects (by simp), seqcExtend]
  | some c =>
    by_cases bad : ∀ i ∈ it, IterT.elemSize i ≠ elemSize
    · rw [extendApart_rejects (by simpa using bad), seqcExtend, if_pos (unfit_iff.mpr bad)]
    · rw [seqcExtend, if_neg (mt unfit_iff.mp bad)]
      push Not at bad
      obtain ⟨it, rfl, fits⟩ := bad
      rw [extendApart_fits fits]
      simp only [elemAcquire, if_true]
      rcases memAlloc m elemSize with ⟨_ | elem, m₁⟩
      · rfl
      · have reacts (st : Status) : seqcReaction .ok st =
            if st = .ok ∨ true = true ∧ st = .duplicate then (true, .ok) else (false, st) := by
          cases st <;> simp [seqcReaction]
        simp only [iterWhile, coll.loop_eq reacts]
        cases whileNext it.next (coll.body true) fuel it.state (.ok, c) m₁ <;> rfl

theorem entryExtend_eq (coll : Collection γ β) (elemSize fuel : Nat) (c : Option γ)
    (it : Option (IterT σ β)) (m : Mem) :
    entryExtend coll elemSize fuel c it m = extendApart false (fun c x m => some (coll.add c x m))
      plainReaction (fun _ => elemSize) fuel c it m := by
  cases c with
  | none => rw [extendApart_rejects (by simp), entryExtend]
  | some c =>
    by_cases bad : ∀ i ∈ it, IterT.elemSize i ≠ elemSize
    · rw [extendApart_rejects (by simpa using bad), entryExtend, if_pos (unfit_iff.mpr bad)]
    · rw [entryExtend, if_neg (mt unfit_iff.mp bad)]
      push Not at bad
      obtain ⟨it, rfl, fits⟩ := bad
      rw [extendApart_fits fits]
      have reacts (st : Status) : plainReaction .ok st =
          if st = .ok ∨ false = true ∧ st = .duplicate then (true, .ok) else (false, st) := by
        cases st <;> simp [plainReaction]
      simp only [elemAcquire, Bool.false_eq_true, if_false, iterWhile, coll.loop_eq reacts]
      cases whileNext it.next (coll.body false) fuel it.state (.ok, c) m <;> rfl

/-- The prefix law of all extend functions, for every iterator that is not over the
collection. -/
theorem extend_prefix {σ : Type} :
    (∀ {γ β : Type} (add : AddFn γ β) (elemSize : γ → Nat),
      ObeysLaw σ (fun fuel c it m => seqcExtendBy add elemSize fuel c (it.map (IterT.apart γ)) m)
        true add elemSize) ∧
    (∀ {β : Type}, ObeysLaw σ (vecExtend (β := β)) true vecAdd Vec.elemSize) ∧
    (∀ {κ : Type} (ndebug : Bool) (f : KeyFns κ),
      ObeysLaw σ (fun fuel s it m => setExtend ndebug f fuel s (it.map (IterT.apart (SetT κ))) m)
        true (fun s x m => setAdd ndebug f s (some x) m) SetT.elemSize) ∧
    (∀ {κ ν : Type} (ndebug : Bool) (f : KeyFns κ),
      ObeysLaw σ (fun fuel map it m =>
          hashmapExtend ndebug f fuel map (it.map (IterT.apart (Hashmap κ ν))) m)
        false (fun map e m => hashmapSet ndebug f map e.1 e.2 m) fun _ => sizeofMapEntry) ∧
    (∀ {κ ν : Type} (cmp : κ → κ → Int),
      ObeysLaw σ (fun fuel map it m =>
          omapExtend cmp fuel map (it.map (IterT.apart (Omap κ ν))) m)
        false (fun map e m => omapSet cmp map e.1 e.2 m) fun _ => sizeofMapEntry) ∧
    ∀ {γ β : Type} {next : Nat → σ → Mem → Option (Option β × σ × Mem)} {add : AddFn γ β}
      {E : σ → Prop} {s s' : σ} {c c' : γ} {m m' : Mem} {st : Status} {turns : List (β × Status)}
      {xs : List β}, Mono next → Delivers next Mem.refusals E s xs {xs} →
      Ends next add s c m turns st s' c' m' → turns.map Prod.fst = xs.take turns.length ∧
        (st = .ok ↔ turns.length = xs.length ∧ ∀ t ∈ turns, t.2.Passes) := by
  refine ⟨fun add elemSize => extendApart_obeys (seqcReaction_fits add) true elemSize, ?_,
    fun ndebug f => extendApart_obeys (setReaction_fits _) true _, fun ndebug f => ?_,
    fun cmp => ?_, fun mono gives ends => ends.takes mono gives⟩
  · intro β c it m
    simp only [vecExtend_eq]
    exact extendApart_obeys (plainReaction_fits fun _ _ _ _ _ => vecAdd_distinct) true _ c it m
  · exact extendApart_obeys (plainReaction_fits fun _ _ _ _ _ => hashmapSet_distinct) false _
  · exact extendApart_obeys (plainReaction_fits fun _ _ _ _ _ => omapSet_distinct) false _

/-- An iterator over a list of numbers. -/
def listedIter (elemSize : Nat) (xs : List Nat) : IterT (List Nat) Nat where
  next _ s m := some (s.head?, s.tail, m)
  destroy _ m := m
  state := xs
  elemSize := elemSize

theorem listedIter_gives (elemSize : Nat) (xs : List Nat) :
    Delivers (listedIter elemSize xs).next Mem.refusals (fun _ => True) xs xs {xs} := by
  change Delivers (fun _ (s : List Nat) (m : Mem) => some (s.head?, s.tail, m)) _ _ _ _ _
  induction xs with
  | nil => exact .nil (fun _ => ⟨0, rfl⟩) trivial
  | cons x xs ih => exact .cons (fun _ => ⟨0, rfl⟩) ih

/-- A set takes 7, refuses another 7 as a duplicate, and stops at 9, for which there is no
room; with room for all it takes in all four elements. -/
theorem extend_prefix_refused :
    (∃ s c m, Ends (listedIter 8 [7, 7, 9, 5]).next
        (fun s x m => setAdd false numberKeys s (some x) m) [7, 7, 9, 5]
        ⟨0, none, fun _ => none, 0, 0, 8, 0⟩ ⟨refusingOnce 5, 2, [.alloc 1 8]⟩
        [(7, .ok), (7, .duplicate), (9, .oom)] .oom s c m ∧ c.len = 1 ∧
      (∃ fuel, setExtend false numberKeys fuel (some ⟨0, none, fun _ => none, 0, 0, 8, 0⟩)
        (some ((listedIter 8 [7, 7, 9, 5]).apart _)) ⟨refusingOnce 5, 1, []⟩ =
          some (.oom, some c, memFree m (some 1) 8)) ∧
      [7, 7, 9] = [7, 7, 9, 5].take 3) ∧
    ∃ turns s c m m', Ends (listedIter 8 [7, 7, 9, 5]).next
        (fun s x m => setAdd false numberKeys s (some x) m) [7, 7, 9, 5]
        ⟨0, none, fun _ => none, 0, 0, 8, 0⟩ m turns .ok s c m' ∧
      turns.map Prod.fst = [7, 7, 9, 5] ∧ c.len = 3 := by
  obtain ⟨-, -, sets, -, -, takes⟩ := extend_prefix (σ := List Nat)
  have mono : Mono (listedIter 8 [7, 7, 9, 5]).next := fun _ _ _ _ h => h
  have monos : ∀ i ∈ some (listedIter 8 [7, 7, 9, 5]), Mono i.next := by
    rintro _ ⟨⟩
    exact mono
  constructor
  · obtain ⟨s, c, m, ends, count⟩ : ∃ s c m, Ends (listedIter 8 [7, 7, 9, 5]).next
        (fun s x m => setAdd false numberKeys s (some x) m) [7, 7, 9, 5]
        ⟨0, none, fun _ => none, 0, 0, 8, 0⟩ ⟨refusingOnce 5, 2, [.alloc 1 8]⟩
        ([(7, .ok), (7, .duplicate)] ++ [(9, .oom)]) .oom s c m ∧ c.len = 1 := by
      refine ⟨_, _, _, .first (.one ⟨0, rfl⟩ rfl (.one ⟨0, rfl⟩ rfl (.one ⟨0, rfl⟩ rfl .none)))
        ?_ ?_, rfl⟩ <;> simp [Status.Passes]
    have extended : Extended true (fun s x m => setAdd false numberKeys s (some x) m)
        SetT.elemSize (some ⟨0, none, fun _ => none, 0, 0, 8, 0⟩)
        (some (listedIter 8 [7, 7, 9, 5])) ⟨refusingOnce 5, 1, []⟩ .oom (some c)
        (scratchRelease (some 1) 8 m) := .ended rfl rfl ends
    exact ⟨s, c, m, ends, count, (sets false numberKeys _ _ _ monos _ _ _).mpr extended,
      (takes mono (listedIter_gives 8 _) ends).1⟩
  · obtain ⟨c, m, ran, count⟩ : ∃ c m, setExtend false numberKeys 9
        (some ⟨0, none, fun _ => none, 0, 0, 8, 0⟩)
        (some ((listedIter 8 [7, 7, 9, 5]).apart _)) ⟨refusingOnce 50, 1, []⟩ =
          some (.ok, some c, m) ∧ c.len = 3 := ⟨_, _, rfl, rfl⟩
    cases (sets false numberKeys _ _ _ monos _ _ _).mp ⟨9, ran⟩ with
    | ended fits room ends =>
      obtain ⟨taken, whole⟩ := takes mono (listedIter_gives 8 _) ends
      rw [(whole.mp rfl).1] at taken
      exact ⟨_, _, c, _, _, ends, taken, count⟩

/-- An iterator that has ended. -/
def endedIter (elemSize : Nat) : IterT Unit Nat where
  next _ s m := some (none, s, m)
  destroy _ m := m
  state := ()
  elemSize := elemSize

/-- Without room for the element the status is none that the elements account for. -/
theorem vecExtend_no_room :
    (∃ m', vecExtend 1 (some ⟨100, none, [], 0, 4, by decide⟩) (some (endedIter 4))
      (Mem.start (refusingOnce 0)) = some (.oom, some ⟨100, none, [], 0, 4, by decide⟩, m')) ∧
      ¬∃ turns s' c' m m', Ends (endedIter 4).next vecAdd (endedIter 4).state
        ⟨100, none, [], 0, 4, by decide⟩ m turns .oom s' c' m' := by
  refine ⟨⟨_, rfl⟩, ?_⟩
  rintro ⟨turns, s', c', m, m', ends⟩
  have never {x s₁ m₁} : ¬Returns (endedIter 4).next (endedIter 4).state m (some x) s₁ m₁ := by
    rintro ⟨_, given⟩
    cases given
  cases ends with
  | @first turns _ _ _ _ _ fed _ _ =>
    cases turns with
    | nil =>
      cases fed with
      | one given _ _ => exact never given
    | cons t turns =>
      cases fed with
      | one given _ _ => exact never given

end Seqc
