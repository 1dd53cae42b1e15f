import Seqc.SetRun
import Seqc.Reachable

/-! `set_union`, `set_intersection` and `set_difference`. The sets a program holds are a
function from their handles, so that two arguments may be the same set. -/

namespace Seqc
open RobinHood ClassMap Runs

variable {κ : Type} {f : KeyFns κ} {ndebug : Bool}

/-- The loop of all three: over the buckets of `src`, adding to `dest` the keys it keeps. -/
def algebraLoop (ndebug : Bool) (f : KeyFns κ) (keep : (Nat → SetT κ) → κ → Option Bool)
    (dest src : Nat) :
    (fuel i : Nat) → (Nat → SetT κ) → Mem → Option (Status × (Nat → SetT κ) × Mem)
  | 0, _, _, _ => none
  | fuel + 1, i, sets, m =>
    if i < (sets src).cap then
      match (sets src).buckets i with
      | none => algebraLoop ndebug f keep dest src fuel (i + 1) sets m
      | some b => do
        if ← keep sets b.item.val then
          let (st, s, m) ← setAdd ndebug f (sets dest) (some b.item.val) m
          if st ≠ .ok ∧ st ≠ .duplicate then pure (st, Function.update sets dest s, m)
          else algebraLoop ndebug f keep dest src fuel (i + 1) (Function.update sets dest s) m
        else algebraLoop ndebug f keep dest src fuel (i + 1) sets m
    else some (.ok, sets, m)

def setUnion (ndebug : Bool) (f : KeyFns κ) (dest a b : Option Nat) (sets : Nat → SetT κ)
    (m : Mem) : Option (Status × (Nat → SetT κ) × Mem) :=
  match dest, a, b with
  | some dest, some a, some b => do
    let (st, sets, m) ←
      algebraLoop ndebug f (fun _ _ => some true) dest a ((sets a).cap + 1) 0 sets m
    if st = .ok then
      algebraLoop ndebug f (fun _ _ => some true) dest b ((sets b).cap + 1) 0 sets m
    else pure (st, sets, m)
  | _, _, _ => some (.invalid, sets, m)

/-- The smaller set is iterated. -/
def setIntersection (ndebug : Bool) (f : KeyFns κ) (dest a b : Option Nat)
    (sets : Nat → SetT κ) (m : Mem) : Option (Status × (Nat → SetT κ) × Mem) :=
  match dest, a, b with
  | some dest, some a, some b =>
    let src := if (sets a).len ≤ (sets b).len then a else b
    let other := if (sets a).len ≤ (sets b).len then b else a
    algebraLoop ndebug f (fun sets x => setContains f (sets other) (some x)) dest src
      ((sets src).cap + 1) 0 sets m
  | _, _, _ => some (.invalid, sets, m)

def setDifference (ndebug : Bool) (f : KeyFns κ) (dest a b : Option Nat) (sets : Nat → SetT κ)
    (m : Mem) : Option (Status × (Nat → SetT κ) × Mem) :=
  match dest, a, b with
  | some dest, some a, some b =>
    algebraLoop ndebug f (fun sets x => (setContains f (sets b) (some x)).map not) dest a
      ((sets a).cap + 1) 0 sets m
  | _, _, _ => some (.invalid, sets, m)

/-! ### Keys of sets -/

/-- `n` is the number of classes of the keys that satisfy `p`. -/
def ClassCount (eq : κ → κ → Bool) (p : κ → Prop) (n : Nat) : Prop :=
  ∃ xs : List κ, xs.Pairwise (fun x y => eq x y = false) ∧
    (∀ x, p x ↔ ∃ y ∈ xs, eq y x = true) ∧ xs.length = n

theorem SetReachable.counted {s : SetT κ} (h : SetReachable f s) (law : f.Lawful) :
    ClassCount f.eq (s.Has f) (setLen s) := by
  have d := h.inv.2 law
  refine ⟨s.members, List.pairwise_map.mpr (d.apart.imp And.left), fun x => ?_, ?_⟩
  · rw [h.has_iff law]
    simp [SetT.members]
  · rw [SetT.members, List.length_map, setLen, d.len_eq]

/-! ### One addition and the loop -/

theorem setAdd_has (law : f.Lawful) (ndebug : Bool) {s : SetT κ} (h : SetReachable f s) (x : κ)
    (m : Mem) :
    ∃ st s' m', setAdd ndebug f s (some x) m = some (st, s', m') ∧ SetReachable f s' ∧
      m.refusals ≤ m'.refusals ∧
      (((st = .ok ∨ st = .duplicate) ∧ ∀ y, s'.Has f y ↔ s.Has f y ∨ f.eq x y = true) ∨
        (st = .oom ∧ m.refusals < m'.refusals ∧ ∀ y, s'.Has f y ↔ s.Has f y)) := by
  obtain ⟨state, distinct⟩ := h.inv
  have d := distinct law
  obtain ⟨st, s', m', run, -, -, outcome⟩ := setAdd_spec ndebug state x m
  have step : setStep ndebug f (.add (some x)) (s, m) = some (.status st, s', m') := by
    simp [setStep, run]
  have h' : SetReachable f s' := .step ndebug h step
  refine ⟨st, s', m', run, h', ?_⟩
  rcases outcome with ⟨rfl, more, kept⟩ | ⟨rfl, quiet, added⟩ | ⟨rfl, quiet, kept⟩
  · obtain ⟨-, perm⟩ := kept law d
    refine ⟨more.le, .inr ⟨rfl, more, fun y => ?_⟩⟩
    rw [h'.has_iff law, h.has_iff law]
    exact exists_congr fun b => and_congr_left fun _ => perm.mem_iff
  · obtain ⟨-, -, b, rfl, perm⟩ := added law d
    refine ⟨quiet.ge, .inl ⟨.inl rfl, fun y => ?_⟩⟩
    rw [h'.has_iff law, h.has_iff law]
    simp [perm.mem_iff, or_and_right, exists_or, or_comm]
  · obtain ⟨-, ⟨c, hc, equal⟩, perm⟩ := kept law d
    refine ⟨quiet.ge, .inl ⟨.inr rfl, fun y => ?_⟩⟩
    rw [h'.has_iff law, h.has_iff law]
    constructor
    · rintro ⟨b, hb, hit⟩
      exact .inl ⟨b, perm.mem_iff.mp hb, hit⟩
    · rintro (⟨b, hb, hit⟩ | hit)
      · exact ⟨b, perm.mem_iff.mpr hb, hit⟩
      · exact ⟨c, perm.mem_iff.mpr hc, law.trans _ _ _ equal hit⟩

/-- What an operation on sets leaves: the others are unchanged, `dest` has gained the keys
that satisfy `R`, or some of them after a refused request. -/
structure Gained (f : KeyFns κ) (dest : Nat) (sets : Nat → SetT κ) (m : Mem) (R : κ → Prop)
    (st : Status) (sets' : Nat → SetT κ) (m' : Mem) : Prop where
  unchanged : ∀ j, j ≠ dest → sets' j = sets j
  reachable : SetReachable f (sets' dest)
  lower : ∀ x, (sets dest).Has f x → (sets' dest).Has f x
  upper : ∀ x, (sets' dest).Has f x → (sets dest).Has f x ∨ R x
  outcome : (st = .ok ∧ ∀ x, (sets' dest).Has f x ↔ (sets dest).Has f x ∨ R x) ∨
    (st = .oom ∧ m.refusals < m'.refusals)
  grows : m.refusals ≤ m'.refusals

theorem Gained.weaken {dest : Nat} {sets sets' : Nat → SetT κ} {m m' : Mem} {R R' : κ → Prop}
    {st : Status} (g : Gained f dest sets m R st sets' m') (same : ∀ x, R x ↔ R' x) :
    Gained f dest sets m R' st sets' m' := by
  have equal : R = R' := funext fun x => propext (same x)
  exact equal ▸ g

/-- First the keys of `R`, then those of `R'`. -/
theorem Gained.trans {dest : Nat} {sets sets₁ sets' : Nat → SetT κ} {m m₁ m' : Mem}
    {R R' : κ → Prop} {st : Status} (g : Gained f dest sets m R .ok sets₁ m₁)
    (g' : Gained f dest sets₁ m₁ R' st sets' m') :
    Gained f dest sets m (fun x => R x ∨ R' x) st sets' m' where
  unchanged j ne := (g'.unchanged j ne).trans (g.unchanged j ne)
  reachable := g'.reachable
  lower x h := g'.lower x (g.lower x h)
  upper x h := by
    rcases g'.upper x h with h | h
    · exact (g.upper x h).imp_right .inl
    · exact .inr (.inr h)
  outcome := by
    rcases g.outcome with ⟨-, first⟩ | ⟨bad, -⟩
    · refine g'.outcome.imp (And.imp_right fun second x => ?_) (And.imp_right fun more => ?_)
      · rw [second, first, or_assoc]
      · exact g.grows.trans_lt more
    · simp at bad
  grows := g.grows.trans g'.grows

theorem Gained.refl {dest : Nat} {sets : Nat → SetT κ} (m : Mem) {R : κ → Prop}
    (none : ∀ x, ¬R x) (h : SetReachable f (sets dest)) : Gained f dest sets m R .ok sets m where
  unchanged _ _ := rfl
  reachable := h
  lower _ h := h
  upper _ h := .inl h
  outcome := .inl ⟨rfl, fun x => by simp [none x]⟩
  grows := le_rfl

/-- The keys of the `left` slots from `i` on. -/
def keysFrom (s : SetT κ) (i left : Nat) : List κ :=
  (List.range' i left).filterMap fun j => (s.buckets j).map fun c => c.item.val

/-- `P` is what `keep` decides; it does not look at `dest`. -/
theorem algebraLoop_spec (law : f.Lawful) (ndebug : Bool) {dest src : Nat} (ne : src ≠ dest)
    {P : κ → Prop} {keep : (Nat → SetT κ) → κ → Option Bool} {s : SetT κ} (left : Nat) :
    ∀ (i : Nat) (sets : Nat → SetT κ) (m : Mem), sets src = s → i + left = s.cap →
      SetReachable f (sets dest) →
      (∀ sets', (∀ j, j ≠ dest → sets' j = sets j) →
        ∀ x, ∃ b, keep sets' x = some b ∧ (b = true ↔ P x)) →
      ∃ st sets' m', algebraLoop ndebug f keep dest src (left + 1) i sets m =
          some (st, sets', m') ∧
        Gained f dest sets m (fun x => ∃ y ∈ keysFrom s i left, P y ∧ f.eq y x = true) st sets'
          m' := by
  induction left with
  | zero =>
    intro i sets m same size h decided
    refine ⟨.ok, sets, m, ?_, Gained.refl m (by simp [keysFrom]) h⟩
    rw [algebraLoop, if_neg (by rw [same]; omega)]
  | succ left ih =>
    intro i sets m same size h decided
    have inside : i < (sets src).cap := by
      rw [same]
      omega
    rw [algebraLoop, if_pos inside, same]
    cases hb : s.buckets i with
    | none =>
      obtain ⟨st, sets', m', run, g⟩ := ih (i + 1) sets m same (by omega) h decided
      refine ⟨st, sets', m', run, g.weaken fun x => ?_⟩
      simp [keysFrom, List.range'_succ, hb]
    | some c =>
      obtain ⟨b, kept, chosen⟩ := decided sets (fun _ _ => rfl) c.item.val
      have keys : keysFrom s i (left + 1) = c.item.val :: keysFrom s (i + 1) left := by
        simp [keysFrom, List.range'_succ, hb]
      simp only [kept, Option.bind_eq_bind, Option.bind_some]
      cases b with
      | false =>
        obtain ⟨st, sets', m', run, g⟩ := ih (i + 1) sets m same (by omega) h decided
        refine ⟨st, sets', m', run, g.weaken fun x => ?_⟩
        have dropped : ¬P c.item.val := mt chosen.mpr Bool.false_ne_true
        simp [keys, dropped]
      | true =>
        obtain ⟨st, s', m₁, run, h', grows, outcome⟩ := setAdd_has law ndebug h c.item.val m
        have taken : P c.item.val := chosen.mp rfl
        have frame (j : Nat) (hj : j ≠ dest) : Function.update sets dest s' j = sets j :=
          Function.update_of_ne hj _ _
        have here : Function.update sets dest s' dest = s' := Function.update_self _ _ _
        have h'' : SetReachable f (Function.update sets dest s' dest) := by rwa [here]
        simp only [run, if_true, Option.bind_some]
        rcases outcome with ⟨done, has⟩ | ⟨rfl, more, has⟩ <;> rw [← here] at has
        · rw [if_neg (by simpa [or_iff_not_imp_left] using done)]
          have first : Gained f dest sets m (fun x => f.eq c.item.val x = true) .ok
              (Function.update sets dest s') m₁ := by
            refine ⟨frame, h'', ?_, ?_, .inl ⟨rfl, has⟩, grows⟩
            · exact fun x hx => (has x).mpr (.inl hx)
            · exact fun x hx => (has x).mp hx
          obtain ⟨st', sets', m', run', g⟩ := ih (i + 1) (Function.update sets dest s') m₁
            (by rw [frame src ne, same]) (by omega) h''
            fun sets' agree => decided sets' fun j hj => (agree j hj).trans (frame j hj)
          refine ⟨st', sets', m', run', (first.trans g).weaken fun x => ?_⟩
          simp [keys, taken]
        · refine ⟨.oom, Function.update sets dest s', m₁, by simp, frame, h'', ?_, ?_,
            .inr ⟨rfl, more⟩, grows⟩
          · exact fun x hx => (has x).mpr hx
          · exact fun x hx => .inl ((has x).mp hx)

theorem keysFrom_all {s : SetT κ} (h : SetReachable f s) (law : f.Lawful) (P : κ → Prop)
    (closed : ∀ x y, f.eq x y = true → (P x ↔ P y)) (x : κ) :
    (∃ y ∈ keysFrom s 0 s.cap, P y ∧ f.eq y x = true) ↔ s.Has f x ∧ P x := by
  have keys : keysFrom s 0 s.cap = s.members := by
    rw [keysFrom, ← List.range_eq_range', SetT.members, SetT.entries, items, List.map_filterMap]
    simp only [Option.map_map]
    rfl
  rw [keys, h.has_iff law]
  constructor
  · rintro ⟨y, hy, hp, equal⟩
    obtain ⟨b, hb, rfl⟩ := List.mem_map.mp hy
    exact ⟨⟨b, hb, equal⟩, (closed _ _ equal).mp hp⟩
  · rintro ⟨⟨b, hb, equal⟩, hp⟩
    exact ⟨b.val, List.mem_map_of_mem hb, (closed _ _ equal).mpr hp, equal⟩

/-- The loop over all of a set. -/
theorem algebraLoop_all (law : f.Lawful) (ndebug : Bool) {dest src : Nat} (ne : src ≠ dest)
    {P : κ → Prop} (closed : ∀ x y, f.eq x y = true → (P x ↔ P y))
    (keep : (Nat → SetT κ) → κ → Option Bool) {sets : Nat → SetT κ} (m : Mem)
    (hs : SetReachable f (sets src)) (h : SetReachable f (sets dest))
    (decided : ∀ sets', (∀ j, j ≠ dest → sets' j = sets j) →
      ∀ x, ∃ b, keep sets' x = some b ∧ (b = true ↔ P x)) :
    ∃ st sets' m', algebraLoop ndebug f keep dest src ((sets src).cap + 1) 0 sets m =
        some (st, sets', m') ∧
      Gained f dest sets m (fun x => (sets src).Has f x ∧ P x) st sets' m' := by
  obtain ⟨st, sets', m', run, g⟩ := algebraLoop_spec law ndebug ne (sets src).cap 0 sets m rfl
    (Nat.zero_add _) h decided
  exact ⟨st, sets', m', run, g.weaken (keysFrom_all hs law P closed)⟩

/-! ### The three operations -/

section Operations
variable {dest a b : Nat} {sets : Nat → SetT κ}

theorem setUnion_spec (law : f.Lawful) (ndebug : Bool) (m : Mem) (na : a ≠ dest) (nb : b ≠ dest)
    (ha : SetReachable f (sets a)) (hb : SetReachable f (sets b))
    (hd : SetReachable f (sets dest)) :
    ∃ st sets' m', setUnion ndebug f (some dest) (some a) (some b) sets m =
        some (st, sets', m') ∧
      Gained f dest sets m (fun x => (sets a).Has f x ∨ (sets b).Has f x) st sets' m' := by
  have always (x y : κ) (_ : f.eq x y = true) : True ↔ True := Iff.rfl
  obtain ⟨st, sets₁, m₁, run, g⟩ := algebraLoop_all law ndebug na (P := fun _ => True) always _ m ha
    hd fun _ _ _ => ⟨true, rfl, by simp⟩
  rcases g.outcome with ⟨rfl, -⟩ | ⟨rfl, more⟩
  · have other : sets₁ b = sets b := g.unchanged b nb
    obtain ⟨st, sets', m', run', g'⟩ := algebraLoop_all law ndebug nb (P := fun _ => True) always _ m₁
      (other ▸ hb) g.reachable fun _ _ _ => ⟨true, rfl, by simp⟩
    refine ⟨st, sets', m', by simp [setUnion, run, run'], (g.trans g').weaken fun x => ?_⟩
    rw [other]
    simp
  · refine ⟨.oom, sets₁, m₁, by simp [setUnion, run], g.unchanged, g.reachable, g.lower,
      fun x hx => (g.upper x hx).imp_right fun hx => .inl hx.1, .inr ⟨rfl, more⟩, g.grows⟩

theorem setIntersection_spec (law : f.Lawful) (ndebug : Bool) (m : Mem) (na : a ≠ dest)
    (nb : b ≠ dest) (ha : SetReachable f (sets a)) (hb : SetReachable f (sets b))
    (hd : SetReachable f (sets dest)) :
    ∃ st sets' m', setIntersection ndebug f (some dest) (some a) (some b) sets m =
        some (st, sets', m') ∧
      Gained f dest sets m (fun x => (sets a).Has f x ∧ (sets b).Has f x) st sets' m' := by
  have go {src other : Nat} (ns : src ≠ dest) (no : other ≠ dest) (hs : SetReachable f (sets src))
      (ho : SetReachable f (sets other)) :=
    algebraLoop_all law ndebug ns (fun x y same => ho.has_congr law same)
      (fun sets x => setContains f (sets other) (some x)) m hs hd fun sets' agree x => by
        obtain ⟨r, run, -⟩ := setContains_spec ho.inv.1 x
        rw [agree other no]
        exact ⟨r, run, by simp [SetT.Has, run]⟩
  simp only [setIntersection]
  by_cases smaller : (sets a).len ≤ (sets b).len
  · simp only [if_pos smaller]
    exact go na nb ha hb
  · simp only [if_neg smaller]
    obtain ⟨st, sets', m', run, g⟩ := go nb na hb ha
    exact ⟨st, sets', m', run, g.weaken fun x => and_comm⟩

theorem setDifference_spec (law : f.Lawful) (ndebug : Bool) (m : Mem) (na : a ≠ dest)
    (nb : b ≠ dest) (ha : SetReachable f (sets a)) (hb : SetReachable f (sets b))
    (hd : SetReachable f (sets dest)) :
    ∃ st sets' m', setDifference ndebug f (some dest) (some a) (some b) sets m =
        some (st, sets', m') ∧
      Gained f dest sets m (fun x => (sets a).Has f x ∧ ¬(sets b).Has f x) st sets' m' := by
  refine algebraLoop_all law ndebug na (fun x y same => not_congr (hb.has_congr law same)) _ m ha hd
    fun sets' agree x => ?_
  obtain ⟨r, run, -⟩ := setContains_spec hb.inv.1 x
  rw [agree b nb]
  exact ⟨!r, by simp [run], by simp [SetT.Has, run]⟩

end Operations

/-- The three operations for all reachable sets `a` and `b`, equal or not, and a third
`dest`; into empty sets union and intersection are commutative. -/
theorem set_algebra (law : f.Lawful) (ndebug : Bool) {sets : Nat → SetT κ} {dest a b : Nat}
    (m : Mem) (na : a ≠ dest) (nb : b ≠ dest) (ha : SetReachable f (sets a))
    (hb : SetReachable f (sets b)) (hd : SetReachable f (sets dest)) :
    (∃ st sets' m', setUnion ndebug f (some dest) (some a) (some b) sets m =
        some (st, sets', m') ∧
      Gained f dest sets m (fun x => (sets a).Has f x ∨ (sets b).Has f x) st sets' m' ∧
      ClassCount f.eq ((sets' dest).Has f) (setLen (sets' dest))) ∧
    (∃ st sets' m', setIntersection ndebug f (some dest) (some a) (some b) sets m =
        some (st, sets', m') ∧
      Gained f dest sets m (fun x => (sets a).Has f x ∧ (sets b).Has f x) st sets' m' ∧
      ClassCount f.eq ((sets' dest).Has f) (setLen (sets' dest))) ∧
    (∃ st sets' m', setDifference ndebug f (some dest) (some a) (some b) sets m =
        some (st, sets', m') ∧
      Gained f dest sets m (fun x => (sets a).Has f x ∧ ¬(sets b).Has f x) st sets' m' ∧
      ClassCount f.eq ((sets' dest).Has f) (setLen (sets' dest))) ∧
    ∀ op ∈ [setUnion ndebug f, setIntersection ndebug f], ∀ dest' m₁ sets₁ m₂ m₃ sets₂ m₄,
      a ≠ dest' → b ≠ dest' → SetReachable f (sets dest') →
      (∀ x, ¬(sets dest).Has f x) → (∀ x, ¬(sets dest').Has f x) →
      op (some dest) (some a) (some b) sets m₁ = some (.ok, sets₁, m₂) →
      op (some dest') (some b) (some a) sets m₃ = some (.ok, sets₂, m₄) →
      ∀ x, (sets₁ dest).Has f x ↔ (sets₂ dest').Has f x := by
  have result {sets₁ sets' : Nat → SetT κ} {dest : Nat} {m m' : Mem} {R : κ → Prop}
      (g : Gained f dest sets₁ m R .ok sets' m') (empty : ∀ x, ¬(sets₁ dest).Has f x) (x : κ) :
      (sets' dest).Has f x ↔ R x := by
    rcases g.outcome with ⟨-, has⟩ | ⟨bad, -⟩
    · rw [has x, or_iff_right (empty x)]
    · simp at bad
  refine ⟨?_, ?_, ?_, ?_⟩
  · obtain ⟨st, sets', m', run, g⟩ := setUnion_spec law ndebug m na nb ha hb hd
    exact ⟨st, sets', m', run, g, g.reachable.counted law⟩
  · obtain ⟨st, sets', m', run, g⟩ := setIntersection_spec law ndebug m na nb ha hb hd
    exact ⟨st, sets', m', run, g, g.reachable.counted law⟩
  · obtain ⟨st, sets', m', run, g⟩ := setDifference_spec law ndebug m na nb ha hb hd
    exact ⟨st, sets', m', run, g, g.reachable.counted law⟩
  · intro op hop dest' m₁ sets₁ m₂ m₃ sets₂ m₄ na' nb' hd' empty empty' run run' x
    simp only [List.mem_cons, List.not_mem_nil, or_false] at hop
    rcases hop with rfl | rfl
    · obtain ⟨_, _, _, ran, g⟩ := setUnion_spec law ndebug m₁ na nb ha hb hd
      obtain ⟨_, _, _, ran', g'⟩ := setUnion_spec law ndebug m₃ nb' na' hb ha hd'
      obtain ⟨rfl, rfl, rfl⟩ := by simpa using run.symm.trans ran
      obtain ⟨rfl, rfl, rfl⟩ := by simpa using run'.symm.trans ran'
      rw [result g empty, result g' empty', or_comm]
    · obtain ⟨_, _, _, ran, g⟩ := setIntersection_spec law ndebug m₁ na nb ha hb hd
      obtain ⟨_, _, _, ran', g'⟩ := setIntersection_spec law ndebug m₃ nb' na' hb ha hd'
      obtain ⟨rfl, rfl, rfl⟩ := by simpa using run.symm.trans ran
      obtain ⟨rfl, rfl, rfl⟩ := by simpa using run'.symm.trans ran'
      rw [result g empty, result g' empty', and_comm]

/-- The union of a set of one key with itself, into an empty set. -/
theorem set_algebra_self :
    ∃ st sets' m', setUnion false collidingKeys (some 1) (some 0) (some 0)
        (fun j => if j = 0 then
          ⟨0, some 1, put (fun _ => none) 0 (some ⟨⟨2, 7⟩, 1⟩), 16, 1, 8, 1⟩
          else ⟨0, none, fun _ => none, 0, 0, 8, 0⟩) (.start (refusingOnce 9)) =
        some (st, sets', m') ∧
      ClassCount collidingKeys.eq ((sets' 1).Has collidingKeys) (setLen (sets' 1)) := by
  have empty : SetReachable collidingKeys ⟨0, none, fun _ => none, 0, 0, 8, 0⟩ :=
    .create (rfl : setCreate Nat 8 (.start (refusingOnce 9)) = (some _, _))
  have one : SetReachable collidingKeys
      ⟨0, some 1, put (fun _ => none) 0 (some ⟨⟨2, 7⟩, 1⟩), 16, 1, 8, 1⟩ :=
    .step false empty (rfl : setStep false collidingKeys (.add (some 7))
      (_, ⟨refusingOnce 9, 1, [.alloc 0 72]⟩) = some (.status .ok, _, _))
  obtain ⟨⟨st, sets', m', run, -, count⟩, -⟩ := @set_algebra Nat collidingKeys
    collidingKeys_lawful false
    (fun j => if j = 0 then
      ⟨0, some 1, put (fun _ => none) 0 (some ⟨⟨2, 7⟩, 1⟩), 16, 1, 8, 1⟩
      else ⟨0, none, fun _ => none, 0, 0, 8, 0⟩) 1 0 0 (.start (refusingOnce 9)) (by decide)
    (by decide) one one empty
  exact ⟨st, sets', m', run, count⟩

end Seqc
