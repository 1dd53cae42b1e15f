import Seqc.SelfExtend
import Seqc.Stack
import Seqc.Drains
import Seqc.QueueRun
import Seqc.Interchange

/-! The extend functions of all collections, for any iterator that is not over the collection:
each takes in, one after the other, the elements that the iterator gives. -/

namespace Seqc
open Iteration ClassMap Comparator Heap

variable {σ α β γ δ κ ν : Type}

/-! ### The calls -/

/-- `add_push` of queue.c. -/
def queueAdd : AddFn (Queue α) α := fun q x m =>
  match queuePush (some q) (some x) m with
  | some (st, some q, m) => some (st, q, m)
  | _ => none

def queueExtend (fuel : Nat) (q : Option (Queue α)) (it : Option (LiveIter σ (Queue α) α))
    (m : Mem) : Option (Status × Option (Queue α) × Mem) :=
  seqcExtendBy queueAdd Queue.elemSize fuel q it m

/-- `add_add` of avl.c. -/
def avlAddAdd (cmp : α → α → Int) : AddFn (AvlT α) α := fun t x m => avlAdd cmp t (some x) m

def avlExtend (cmp : α → α → Int) (fuel : Nat) (t : Option (AvlT α))
    (it : Option (LiveIter σ (AvlT α) α)) (m : Mem) : Option (Status × Option (AvlT α) × Mem) :=
  seqcExtendBy (avlAddAdd cmp) AvlT.elemSize fuel t it m

/-- `add_add` of bstree.c. -/
def bstreeAddAdd (cmp : α → α → Int) : AddFn (Bstree α) α := fun t x m =>
  some (bstreeAdd cmp t (some x) m)

def bstreeExtend (cmp : α → α → Int) (fuel : Nat) (t : Option (Bstree α))
    (it : Option (LiveIter σ (Bstree α) α)) (m : Mem) :
    Option (Status × Option (Bstree α) × Mem) :=
  seqcExtendBy (bstreeAddAdd cmp) Bstree.elemSize fuel t it m

/-! ### What an add function does -/

/-- A collection keeps what it holds while others use the memory, and an add takes the element in
or runs out of memory: `Full` collections do so without a refused request. -/
structure TakesIn (add : AddFn γ β) (Holds : γ → Mem → δ → Prop) (absorb : δ → β → δ)
    (Full : δ → Prop) (Fine : β → Prop) : Prop where
  lasts : ∀ {c m m' d}, Holds c m d → m.Later m' → Holds c m' d
  add : ∀ {c m d} x, Holds c m d → Fine x → ∃ st c' m', add c x m = some (st, c', m') ∧
    (st.Passes ∧ m'.refusals = m.refusals ∧ Holds c' m' (absorb d x) ∨
      st = .oom ∧ Holds c' m' d ∧ (m.refusals < m'.refusals ∨ m.refusals = m'.refusals ∧ Full d))

/-- The iterator gives `xs`, or less if a request of its own is refused. -/
def OwnedIterT.Gives (it : OwnedIterT σ β) (xs : List β) : Prop :=
  Delivers it.next Mem.refusals (fun _ => True) it.state xs {zs | zs <+: xs}

/-- What is left of `d` when a collection was to take in `xs`: it has taken in the first of them,
and all of them if nothing was refused and it did not become full. -/
structure Filled (absorb : δ → β → δ) (Full : δ → Prop) (xs : List β) (d : δ) (m : Mem)
    (st : Status) (d' : δ) (m' : Mem) : Prop where
  grows : m.refusals ≤ m'.refusals
  status : st = .ok ∨ st = .oom
  part : ∃ ys rest, xs = ys ++ rest ∧ d' = ys.foldl absorb d ∧
    (m'.refusals = m.refusals → st = .ok ∧ rest = [] ∨ st = .oom ∧ Full d')

/-- `extend` fills collections that hold something with whatever an iterator gives. -/
def Fills (extend : ∀ {σ : Type}, Nat → Option γ → Option (IterT σ β) → Mem →
      Option (Status × Option γ × Mem)) (elemSize : γ → Nat) (Holds : γ → Mem → δ → Prop)
    (absorb : δ → β → δ) (Full : δ → Prop) (Fine : β → Prop) : Prop :=
  ∀ (σ : Type) (c : γ) (m : Mem) (d : δ) (it : OwnedIterT σ β) (xs : List β), Holds c m d →
    it.elemSize = elemSize c → it.Gives xs → (∀ x ∈ xs, Fine x) →
    ∃ fuel st c' m' d', extend fuel (some c) (some it.toIterT) m = some (st, some c', m') ∧
      Holds c' m' d' ∧ Filled absorb Full xs d m st d' m'

section Law
variable {add : AddFn γ β} {Holds : γ → Mem → δ → Prop} {absorb : δ → β → δ} {Full : δ → Prop}
  {Fine : β → Prop}

theorem TakesIn.ends (takes : TakesIn add Holds absorb Full Fine)
    {next : Nat → σ → Mem → Option (Option β × σ × Mem)}
    (later : ∀ {fuel s x s' m m'}, next fuel s m = some (x, s', m') → m.Later m') {s : σ}
    {xs : List β} {A : Set (List β)}
    (gives : Delivers next Mem.refusals (fun _ => True) s xs A) (fine : ∀ zs ∈ A, ∀ x ∈ zs, Fine x)
    {c : γ} {m : Mem} {d : δ} (holds : Holds c m d) :
    ∃ turns st s' c' m' ys, Ends next add s c m turns st s' c' m' ∧
      m.refusals ≤ m'.refusals ∧ Holds c' m' (ys.foldl absorb d) ∧
      (st = .ok ∧ ys ∈ A ∧ (m'.refusals = m.refusals → ys = xs) ∨
        st = .oom ∧ (∃ zs ∈ A, ys <+: zs) ∧
          (m'.refusals = m.refusals → Full (ys.foldl absorb d))) := by
  induction gives using Delivers.induct generalizing c m d with
  | step s xs A _ ih =>
    cases ih m with
    | ended returns grows closes _ calm =>
      obtain ⟨fuel, call⟩ := returns
      exact ⟨[], .ok, _, c, _, [], .all .none (by simp) ⟨fuel, call⟩, grows,
        takes.lasts holds (later call), .inl ⟨rfl, closes, fun same => (calm same).symm⟩⟩
    | @item x s₁ m₁ xs' B returns grows rest family calm =>
      obtain ⟨rest, ih⟩ := rest
      obtain ⟨fuel, call⟩ := returns
      obtain ⟨zs, hz⟩ := rest.exists_mem
      obtain ⟨st, c₁, m₂, added, outcome⟩ := takes.add x (takes.lasts holds (later call))
        (fine _ (family zs hz) x (by simp))
      rcases outcome with ⟨passes, quiet, holds₁⟩ | ⟨rfl, holds₁, why⟩
      · obtain ⟨turns, st', s', c', m', ys, ends, grows', holds', outcome⟩ :=
          ih (fun ws hw y hy => fine _ (family ws hw) y (List.mem_cons_of_mem x hy)) holds₁
        refine ⟨(x, st) :: turns, st', s', c', m', x :: ys, ends.cons ⟨fuel, call⟩ added passes,
          by omega, holds', ?_⟩
        rcases outcome with ⟨rfl, mem, whole⟩ | ⟨rfl, ⟨ws, hw, part⟩, full⟩
        · refine .inl ⟨rfl, family ys mem, fun same => ?_⟩
          rw [calm (by omega), whole (by omega)]
        · exact .inr ⟨rfl, ⟨x :: ws, family ws hw, List.cons_prefix_cons.mpr ⟨rfl, part⟩⟩,
            fun same => full (by omega)⟩
      · refine ⟨[(x, .oom)], .oom, s₁, c₁, m₂, [], .failing ⟨fuel, call⟩ added (by
          simp [Status.Passes]), by omega, holds₁,
          .inr ⟨rfl, ⟨x :: zs, family zs hz, List.nil_prefix⟩, fun same => ?_⟩⟩
        rcases why with refused | ⟨-, full⟩
        · omega
        · exact full

theorem elemAcquire_later (heap : Bool) (elemSize : Nat) (m : Mem) :
    m.Later (elemAcquire heap elemSize m).2 ∧
      ((elemAcquire heap elemSize m).1 = none ∧
          m.refusals < (elemAcquire heap elemSize m).2.refusals ∨
        (elemAcquire heap elemSize m).1 ≠ none ∧
          (elemAcquire heap elemSize m).2.refusals = m.refusals) := by
  cases heap with
  | false => exact ⟨.refl, .inr ⟨by simp [elemAcquire], rfl⟩⟩
  | true =>
    rcases hm : memAlloc m elemSize with ⟨_ | elem, m₁⟩
    · have refused := memAlloc_none hm
      simp only [elemAcquire, hm, if_true]
      exact ⟨memAlloc_later hm, .inl ⟨by simp, by omega⟩⟩
    · simp only [elemAcquire, hm, if_true]
      exact ⟨memAlloc_later hm, .inr ⟨by simp, (memAlloc_some hm).2.2⟩⟩

/-- An extend function that obeys the law fills with what its add function takes. -/
theorem TakesIn.fills (takes : TakesIn add Holds absorb Full Fine) {react : Reaction}
    (reacts : react.Fits add) (heap : Bool) (elemSize : γ → Nat) :
    Fills (extendApart heap add react elemSize) elemSize Holds absorb Full Fine := by
  intro σ c m d it xs holds fits gives fine
  have obeys := extendApart_obeys (σ := σ) reacts heap elemSize (some c) (some it.toIterT) m
    (fun i hi => Option.some.inj hi ▸ it.mono)
  have destroyed (s : σ) (m : Mem) : m.Later (it.destroy s m) := (it.custody.destroy s m).later
  rcases room : elemAcquire heap (elemSize c) m with ⟨_ | elem, m₁⟩
  · obtain ⟨later, ⟨-, refused⟩ | ⟨real, -⟩⟩ := elemAcquire_later heap (elemSize c) m
    · obtain ⟨fuel, run⟩ := (obeys _ _ _).mpr (.refused fits room)
      simp only [room] at later refused
      refine ⟨fuel, _, _, _, d, run, takes.lasts holds (later.trans (destroyed _ _)),
        ⟨by rw [it.quiet]; exact refused.le, .inr rfl, [], xs, rfl, rfl, fun same => ?_⟩⟩
      rw [it.quiet] at same
      omega
    · simp [room] at real
  · obtain ⟨later, ⟨none, -⟩ | ⟨-, quiet⟩⟩ := elemAcquire_later heap (elemSize c) m
    · simp [room] at none
    simp only [room] at later quiet
    obtain ⟨turns, st, s', c', m₂, ys, ends, grows, holds', outcome⟩ :=
      takes.ends (fun call => (it.custody.next call).later) gives
        (fun zs part x hx => fine x (part.subset hx)) (takes.lasts holds later)
    obtain ⟨fuel, run⟩ := (obeys _ _ _).mpr (.ended fits room ends)
    have released : (scratchRelease elem (elemSize c) (it.destroy s' m₂)).refusals =
        m₂.refusals := by
      rw [scratchRelease_refusals, it.quiet]
    refine ⟨fuel, st, c', _, _, run, takes.lasts holds' ((destroyed s' m₂).trans
      (scratchRelease_trades elem (elemSize c) _).later), by omega, ?_, ?_⟩
    · rcases outcome with ⟨ok, -⟩ | ⟨oom, -⟩
      · exact .inl ok
      · exact .inr oom
    · rcases outcome with ⟨rfl, ⟨rest, whole⟩, all⟩ | ⟨rfl, ⟨zs, ⟨rest, whole⟩, part⟩, full⟩
      · refine ⟨ys, rest, whole.symm, rfl, fun same => .inl ⟨rfl, ?_⟩⟩
        have everything := all (by omega)
        rw [everything] at whole
        simpa using whole
      · obtain ⟨more, rfl⟩ := part
        exact ⟨ys, more ++ rest, by rw [← whole, List.append_assoc], rfl,
          fun same => .inr ⟨rfl, full (by omega)⟩⟩

end Law

/-! ### What each add function takes -/

/-- An element goes to the end of a sequence. -/
def appended (xs : List α) (x : α) : List α := xs ++ [x]

/-- An element joins the others unless one of them is equal to it. -/
def joined (eq : α → α → Bool) (S : Multiset α) (x : α) : Multiset α :=
  if S.countP (fun y => eq y x) = 0 then x ::ₘ S else S

/-- An entry without a NULL replaces the value of its key. -/
def entered (eq : κ → κ → Bool) (g : κ → Option ν) (e : MapEntry κ ν) : κ → Option ν :=
  match e with
  | (some k, some v) => insert eq g k v
  | _ => g

/-- Both pointers of an entry are there. -/
def Whole (e : MapEntry κ ν) : Prop := e.1.isSome ∧ e.2.isSome

theorem foldl_appended (xs ys : List α) : ys.foldl appended xs = xs ++ ys := by
  induction ys generalizing xs with
  | nil => simp
  | cons y ys ih => simp [appended, ih]

theorem foldl_cons (S : Multiset α) (ys : List α) :
    ys.foldl (fun S x => x ::ₘ S) S = S + (ys : Multiset α) := by
  induction ys generalizing S with
  | nil => simp
  | cons y ys ih =>
    rw [List.foldl_cons, ih, ← Multiset.cons_coe, Multiset.add_cons, Multiset.cons_add]

theorem vecAdd_takes : TakesIn (vecAdd (β := α)) (fun v _ xs => v.contents = xs) appended
    (fun xs => sizeMax / 2 < xs.length) fun _ => True where
  lasts here _ := here
  add := by
    rintro v m _ x rfl -
    rcases vecPush_spec v x m with ⟨v', m', push, stored, -, quiet⟩ | ⟨m', push, more, why⟩
    · exact ⟨.ok, v', m', by simp only [vecAdd, push], .inl ⟨.inl rfl, quiet, stored⟩⟩
    · refine ⟨.oom, v, m', by simp only [vecAdd, push], .inr ⟨rfl, rfl, ?_⟩⟩
      rcases more.lt_or_eq with less | same
      · exact .inl less
      · exact .inr ⟨same, why.resolve_left (by omega)⟩

theorem stackAdd_takes : TakesIn (stackAdd (α := α)) (fun s _ xs => s.contents = xs) appended
    (fun xs => sizeMax / 2 < xs.length) fun _ => True where
  lasts here _ := here
  add := by
    rintro s m _ x rfl -
    rcases stackPush_spec s x m with ⟨s', m', push, stored, quiet⟩ | ⟨m', push, why⟩
    · exact ⟨.ok, s', m', by simp only [stackAdd, push], .inl ⟨.inl rfl, quiet, stored⟩⟩
    · exact ⟨.oom, s, m', by simp only [stackAdd, push], .inr ⟨rfl, rfl, why⟩⟩

theorem queueAdd_takes : TakesIn (queueAdd (α := α)) (fun q _ xs => QueueInv q xs) appended
    (fun xs => sizeMax / 2 < xs.length) fun _ => True where
  lasts inv _ := inv
  add := by
    intro q m xs x inv _
    rcases queuePush_spec inv x m with ⟨q', m', push, inv', quiet⟩ | ⟨m', push, why⟩
    · exact ⟨.ok, q', m', by simp only [queueAdd, push], .inl ⟨.inl rfl, quiet, inv'⟩⟩
    · exact ⟨.oom, q, m', by simp only [queueAdd, push], .inr ⟨rfl, inv, why⟩⟩

theorem ringbufAdd_takes : TakesIn (ringbufAdd (α := α)) (fun r _ xs => RingbufInv r xs) appended
    (fun xs => sizeMax / 2 < xs.length) fun _ => True where
  lasts inv _ := inv
  add := by
    intro r m xs x inv _
    rcases ringbufPushBack_spec inv x m with ⟨r', m', push, inv', quiet⟩ | ⟨m', push, why⟩
    · exact ⟨.ok, r', m', by simp only [ringbufAdd, push], .inl ⟨.inl rfl, quiet, inv'⟩⟩
    · exact ⟨.oom, r, m', by simp only [ringbufAdd, push], .inr ⟨rfl, inv, why⟩⟩

/-- The nodes of a list are those of the elements, below the requests of the memory. -/
def ListHolds (mk : Option Nat → Option Nat → α → γ) (s : ListState γ) (m : Mem) (xs : List α) :
    Prop :=
  ∃ items, LinkedInv mk { s with mem := m } items ∧ items.map Prod.snd = xs

theorem nodeAdd_takes {mk : Option Nat → Option Nat → α → γ}
    {pushBack : ListState γ → Option α → Option (Status × ListState γ)}
    (pushes : ∀ {s items} x, LinkedInv mk s items → ∃ st s' items',
      pushBack s (some x) = some (st, s') ∧
        LinkedTo mk (.pushBack (some x)) s items (.status st) s' items') :
    TakesIn (nodeAdd pushBack) (ListHolds mk) appended (fun _ => False) fun _ => True where
  lasts := by
    rintro s m m' _ ⟨items, inv, rfl⟩ later
    exact ⟨items, inv.atMem later.requests_le, rfl⟩
  add := by
    rintro s m _ x ⟨items, inv, rfl⟩ -
    obtain ⟨st, s', items', push, linked⟩ := pushes x inv
    refine ⟨st, s', s'.mem, by simp [nodeAdd, push], ?_⟩
    have inv' : LinkedInv mk { s' with mem := s'.mem } items' := linked.inv
    have step := linked.step
    generalize s'.mem.refusals = n at step ⊢
    cases step with
    | pushBackOk _ _ a _ _ => exact .inl ⟨.inl rfl, rfl, _, inv', by simp [appended]⟩
    | pushBackOom _ _ _ _ refused => exact .inr ⟨rfl, ⟨_, inv', rfl⟩, .inl refused⟩

theorem pqueueAdd_takes {cmp : α → α → Int} (laws : Laws cmp) :
    TakesIn (pqueueAdd cmp) (fun q _ S => q.data ≠ none ∧ Ordered cmp q.contents ∧
      (q.contents : Multiset α) = S) (fun S x => x ::ₘ S) (fun S => sizeMax / 2 < S.card)
      fun _ => True where
  lasts here _ := here
  add := by
    rintro q m _ x ⟨real, ordered, rfl⟩ -
    obtain ⟨v, hv⟩ := Option.ne_none_iff_exists'.mp real
    rcases pqueuePush_spec laws hv ordered x m with
      ⟨q', m', push, ⟨v', hv'⟩, ordered', perm, quiet⟩ | ⟨m', push, more, why⟩
    · exact ⟨.ok, q', m', push, .inl ⟨.inl rfl, quiet, by simp [hv'], ordered',
        Multiset.coe_eq_coe.mpr perm⟩⟩
    · refine ⟨.oom, q, m', push, .inr ⟨rfl, ⟨real, ordered, rfl⟩, ?_⟩⟩
      rcases more.lt_or_eq with less | same
      · exact .inl less
      · exact .inr ⟨same, why.resolve_left (by omega)⟩

/-- An addition to a set of classes. -/
theorem ClassSetStep.joins {eq : α → α → Bool} {S : Multiset α} {n : Nat} {x : α} {st : Status}
    {g : Multiset α × Nat} (h : ClassSetStep eq (S, n) (.add (some x)) (.status st) g) :
    st.Passes ∧ g.2 = n ∧ g.1 = joined eq S x ∨ st = .oom ∧ g.1 = S ∧ n < g.2 := by
  cases h with
  | addOk _ _ _ absent =>
    exact .inl ⟨.inl rfl, rfl, (if_pos (by simpa [Multiset.countP_eq_zero] using absent)).symm⟩
  | addDuplicate _ _ _ present =>
    exact .inl ⟨.inr rfl, rfl, (if_neg (by simpa [Multiset.countP_eq_zero] using present)).symm⟩
  | addOom _ _ _ _ refused => exact .inr ⟨rfl, rfl, refused⟩

/-- The same of a tree. -/
theorem treeAdd_joins {cmp : α → α → Int} (laws : Laws cmp) {xs : List α} {n : Nat} {x : α}
    {st : Status} {g : List α × Nat}
    (h : OrderedSetStep cmp (xs, n) (.add (some x)) (.status st) g) :
    st.Passes ∧ g.2 = n ∧ (g.1 : Multiset α) = joined (sameKey cmp) xs x ∨
      st = .oom ∧ (g.1 : Multiset α) = xs ∧ n < g.2 := by
  have step : OrderedSetStep cmp (xs, n) (SetOp.add (some x)).onAvl (.status st) g := h
  exact (step.classes laws).joins

theorem setAdd_takes {f : KeyFns α} (law : f.Lawful) (ndebug : Bool) :
    TakesIn (fun s x m => setAdd ndebug f s (some x) m)
      (fun s _ S => SetState f s ∧ SetDistinct f s ∧ (s.members : Multiset α) = S)
      (joined f.eq) (fun _ => False) fun _ => True where
  lasts here _ := here
  add := by
    rintro s m _ x ⟨state, distinct, rfl⟩ -
    obtain ⟨out, ⟨s', m'⟩, g, ran, step, state', distinct', rfl⟩ :=
      @setStep_refines _ f ndebug law (.add (some x)) (s, m) _ ⟨state, distinct, rfl⟩
    obtain ⟨st, added, rfl⟩ : ∃ st, setAdd ndebug f s (some x) m = some (st, s', m') ∧
        Answer.status st = out := by
      obtain ⟨⟨st, s₁, m₁⟩, added, ran⟩ := Option.bind_eq_some_iff.mp ran
      cases ran
      exact ⟨st, added, rfl⟩
    refine ⟨st, s', m', added, ?_⟩
    rcases step.joins with ⟨passes, quiet, here⟩ | ⟨oom, here, refused⟩
    · exact .inl ⟨passes, quiet, state', distinct', here⟩
    · exact .inr ⟨oom, ⟨state', distinct', here⟩, .inl refused⟩

theorem avlAddAdd_takes {cmp : α → α → Int} (laws : Laws cmp) :
    TakesIn (avlAddAdd cmp) (fun t _ S => AvlInv cmp t ∧ (t.root.toList : Multiset α) = S)
      (joined (sameKey cmp)) (fun _ => False) fun _ => True where
  lasts here _ := here
  add := by
    rintro t m _ x ⟨inv, rfl⟩ -
    obtain ⟨st, t', m', added, inv', step⟩ := avlAdd_spec laws inv x m
    refine ⟨st, t', m', added, ?_⟩
    rcases treeAdd_joins laws step with
      ⟨passes, quiet, here⟩ | ⟨oom, here, refused⟩
    · exact .inl ⟨passes, quiet, inv', here⟩
    · exact .inr ⟨oom, ⟨inv', here⟩, .inl refused⟩

theorem bstreeAddAdd_takes {cmp : α → α → Int} (laws : Laws cmp) :
    TakesIn (bstreeAddAdd cmp) (fun t _ S => BstreeInv cmp t ∧ (t.root.toList : Multiset α) = S)
      (joined (sameKey cmp)) (fun _ => False) fun _ => True where
  lasts here _ := here
  add := by
    rintro t m _ x ⟨inv, rfl⟩ -
    obtain ⟨st, t', m', added⟩ : ∃ st t' m', bstreeAdd cmp t (some x) m = (st, t', m') :=
      ⟨_, _, _, rfl⟩
    obtain ⟨inv', step⟩ := bstreeAdd_spec laws inv x m added
    refine ⟨st, t', m', congrArg some added, ?_⟩
    rcases treeAdd_joins laws step with
      ⟨passes, quiet, here⟩ | ⟨oom, here, refused⟩
    · exact .inl ⟨passes, quiet, inv', here⟩
    · exact .inr ⟨oom, ⟨inv', here⟩, .inl refused⟩

theorem hashmapSet_takes {f : KeyFns κ} (law : f.Lawful) (ndebug : Bool) :
    TakesIn (fun map (e : MapEntry κ ν) m => hashmapSet ndebug f map e.1 e.2 m)
      (fun map _ g => ∃ k, HashmapInv f k map ∧ Represents f.eq map.contents g)
      (entered f.eq) (fun _ => False) Whole where
  lasts here _ := here
  add := by
    rintro map m g ⟨key, value⟩ ⟨k, inv, rep⟩ ⟨hk, hv⟩
    obtain ⟨key, rfl⟩ := Option.isSome_iff_exists.mp hk
    obtain ⟨value, rfl⟩ := Option.isSome_iff_exists.mp hv
    obtain ⟨st, k', map', m', stored, inv', ⟨rfl, refused, perm⟩ | ⟨rfl, quiet, stores⟩⟩ :=
      hashmapSet_spec ndebug inv key value m
    · have same := (perm (distinct_of_represents law rep)).map Entry.pair
      exact ⟨.oom, map', m', stored, .inr ⟨rfl, ⟨k', inv', rep.perm law.toEqLaws same.symm⟩,
        .inl refused⟩⟩
    · exact ⟨.ok, map', m', stored, .inl ⟨.inl rfl, quiet, k', inv', stores g law rep⟩⟩

theorem omapSet_takes {cmp : κ → κ → Int} (laws : Laws cmp) :
    TakesIn (fun map (e : MapEntry κ ν) m => omapSet cmp map e.1 e.2 m)
      (fun map _ g => OmapInv cmp map g) (entered (sameKey cmp)) (fun _ => False) Whole where
  lasts here _ := here
  add := by
    rintro map m g ⟨key, value⟩ inv ⟨hk, hv⟩
    obtain ⟨key, rfl⟩ := Option.isSome_iff_exists.mp hk
    obtain ⟨value, rfl⟩ := Option.isSome_iff_exists.mp hv
    obtain ⟨st, map', m', g', set, inv', step, -⟩ := omapSet_spec laws inv key value m
    refine ⟨st, map', m', set, ?_⟩
    generalize m'.refusals = n at step ⊢
    cases step with
    | setOk => exact .inl ⟨.inl rfl, rfl, inv'⟩
    | setOom _ _ _ _ _ _ refused => exact .inr ⟨rfl, inv', .inl refused⟩
    | setInvalid _ _ _ null => simp at null

/-! ### All collections -/

/-- Every extend function takes in what an iterator gives, in its order: a sequence at its end,
a queue of priorities among the others, a set unless it has an equal element, a map in place of
the value that the key had. If it stops early, a request was refused or the array was as large
as it can be, and what it has taken in came first. -/
theorem extends_fill {cmp : κ → κ → Int} (laws : Laws cmp) {f : KeyFns κ} (law : f.Lawful)
    (ν : Type) (ndebug : Bool) :
    Fills (β := κ) vecExtend Vec.elemSize (fun v _ xs => v.contents = xs) appended
      (fun xs => sizeMax / 2 < xs.length) (fun _ => True) ∧
    Fills (fun fuel s it m => stackExtend fuel s (it.map (IterT.apart (Stack κ))) m)
      (fun s => vecElemSize s.vec) (fun s _ xs => s.contents = xs) appended
      (fun xs => sizeMax / 2 < xs.length) (fun _ => True) ∧
    Fills (fun fuel q it m => queueExtend fuel q (it.map (IterT.apart (Queue κ))) m)
      Queue.elemSize (fun q _ xs => QueueInv q xs) appended
      (fun xs => sizeMax / 2 < xs.length) (fun _ => True) ∧
    Fills (fun fuel r it m => ringbufExtend fuel r (it.map (IterT.apart (Ringbuf κ))) m)
      Ringbuf.elemSize (fun r _ xs => RingbufInv r xs) appended
      (fun xs => sizeMax / 2 < xs.length) (fun _ => True) ∧
    Fills (fun fuel s it m => listExtend fuel s (it.map (IterT.apart (ListT κ))) m)
      ListState.elemSize (ListHolds ListNode.linked) appended (fun _ => False) (fun _ => True) ∧
    Fills (fun fuel s it m => dlistExtend fuel s (it.map (IterT.apart (DlistT κ))) m)
      ListState.elemSize (ListHolds DlistNode.mk) appended (fun _ => False) (fun _ => True) ∧
    Fills (fun fuel q it m => pqueueExtend cmp fuel q (it.map (IterT.apart (Pqueue κ))) m)
      (fun q => vecElemSize q.data) (fun q _ S => q.data ≠ none ∧ Ordered cmp q.contents ∧
        (q.contents : Multiset κ) = S) (fun S x => x ::ₘ S) (fun S => sizeMax / 2 < S.card)
      (fun _ => True) ∧
    Fills (fun fuel s it m => setExtend ndebug f fuel s (it.map (IterT.apart (SetT κ))) m)
      SetT.elemSize (fun s _ S => SetState f s ∧ SetDistinct f s ∧ (s.members : Multiset κ) = S)
      (joined f.eq) (fun _ => False) (fun _ => True) ∧
    Fills (fun fuel t it m => avlExtend cmp fuel t (it.map (IterT.apart (AvlT κ))) m)
      AvlT.elemSize (fun t _ S => AvlInv cmp t ∧ (t.root.toList : Multiset κ) = S)
      (joined (sameKey cmp)) (fun _ => False) (fun _ => True) ∧
    Fills (fun fuel t it m => bstreeExtend cmp fuel t (it.map (IterT.apart (Bstree κ))) m)
      Bstree.elemSize (fun t _ S => BstreeInv cmp t ∧ (t.root.toList : Multiset κ) = S)
      (joined (sameKey cmp)) (fun _ => False) (fun _ => True) ∧
    Fills (fun fuel map it m =>
        hashmapExtend ndebug f fuel map (it.map (IterT.apart (Hashmap κ ν))) m)
      (fun _ => sizeofMapEntry) (fun map _ g => ∃ k, HashmapInv f k map ∧
        Represents f.eq map.contents g) (entered f.eq) (fun _ => False) Whole ∧
    Fills (fun fuel map it m => omapExtend cmp fuel map (it.map (IterT.apart (Omap κ ν))) m)
      (fun _ => sizeofMapEntry) (fun map _ g => OmapInv cmp map g) (entered (sameKey cmp))
      (fun _ => False) Whole := by
  refine ⟨?_, stackAdd_takes.fills (seqcReaction_fits _) true _,
    queueAdd_takes.fills (seqcReaction_fits _) true _,
    ringbufAdd_takes.fills (seqcReaction_fits _) true _,
    (nodeAdd_takes fun x inv => listPushBack_spec inv x).fills (seqcReaction_fits _) true _,
    (nodeAdd_takes fun x inv => dlistPushBack_spec inv x).fills (seqcReaction_fits _) true _,
    (pqueueAdd_takes laws).fills (seqcReaction_fits _) true _,
    (setAdd_takes law ndebug).fills (setReaction_fits _) true _,
    (avlAddAdd_takes laws).fills (seqcReaction_fits _) true _,
    (bstreeAddAdd_takes laws).fills (seqcReaction_fits _) true _,
    (hashmapSet_takes law ndebug).fills (plainReaction_fits fun _ _ _ _ _ => hashmapSet_distinct)
      false fun _ => sizeofMapEntry,
    (omapSet_takes laws).fills (plainReaction_fits fun _ _ _ _ _ => omapSet_distinct) false
      fun _ => sizeofMapEntry⟩
  intro σ v m d it xs
  simp only [vecExtend_eq]
  exact vecAdd_takes.fills (plainReaction_fits fun _ _ _ _ _ => vecAdd_distinct) true _ σ v m d it
    xs

/-- A tree takes in 3, 5 and another 3. -/
theorem extends_fill_ints :
    ∃ fuel st t m S, avlExtend intCmp fuel (some ⟨9, .nil, 0, 4⟩)
        (some ((cursorIterT sliceNext Iter.sizeofSliceState 4 0 ⟨[3, 5, 3], 0⟩).toIterT.apart _))
        (.start (refusingOnce 9)) = some (st, some t, m) ∧
      AvlInv intCmp t ∧ (t.root.toList : Multiset Int) = S ∧
      Filled (joined (sameKey intCmp)) (fun _ => False) [3, 5, 3] 0 (.start (refusingOnce 9)) st S
        m := by
  have gives : (cursorIterT sliceNext Iter.sizeofSliceState 4 0 ⟨([3, 5, 3] : List Int), 0⟩).Gives
      [3, 5, 3] := by
    have all : Delivers (fun _ => cursorNext sliceNext) Mem.refusals (fun _ => True)
        ⟨([3, 5, 3] : List Int), 0⟩ [3, 5, 3] {[3, 5, 3]} :=
      .cons (fun _ => ⟨0, rfl⟩) (.cons (fun _ => ⟨0, rfl⟩) (.cons (fun _ => ⟨0, rfl⟩)
        (.nil (fun _ => ⟨0, rfl⟩) trivial)))
    exact all.weaken (fun _ => id) fun _ same => same ▸ List.prefix_rfl
  obtain ⟨fuel, st, t, m, S, run, ⟨inv, holds⟩, filled⟩ :=
    (extends_fill intCmp_laws (hashedBy_intCmp Int.toNat) Unit false).2.2.2.2.2.2.2.2.1 _
      ⟨9, .nil, 0, 4⟩ (.start (refusingOnce 9)) 0 _ _ ⟨⟨.nil, trivial, rfl⟩, rfl⟩ rfl gives
      fun _ _ => trivial
  exact ⟨fuel, st, t, m, S, run, inv, holds, filled⟩

end Seqc
