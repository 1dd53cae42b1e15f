import Seqc.HashmapSpec

/-! Runs of the operations of hashmap.c from `hashmap_create`, with requests
refused at arbitrary points, against a finite map on classes of keys. -/

namespace Seqc
open RobinHood ClassMap Runs

variable {κ ν : Type} {f : KeyFns κ} {k : Nat} {map : Hashmap κ ν} {ndebug : Bool} {m : Mem}

inductive HashmapOp (κ ν : Type) where
  | set (key : Option κ) (value : Option ν)
  | get (key : Option κ) (out : Bool)
  | getPtr (key : Option κ)
  | contains (key : Option κ)
  | remove (key : Option κ)
  | clear

def hashmapStep (ndebug : Bool) (f : KeyFns κ) (op : HashmapOp κ ν) (s : Hashmap κ ν × Mem) :
    Option (Answer ν × Hashmap κ ν × Mem) :=
  match op with
  | .set key value => do
    let (st, map, m) ← hashmapSet ndebug f s.1 key value s.2
    pure (.status st, map, m)
  | .get key out => do
    let (st, written) ← hashmapGet f s.1 key out
    pure (.read st written, s)
  | .getPtr key => do
    let value ← hashmapGetPtr f s.1 key
    pure (.pointee (value.map Block.val), s)
  | .contains key => do
    let b ← hashmapContains f s.1 key
    pure (.answer b, s)
  | .remove key => do
    let (st, map, m) ← hashmapRemove f s.1 key s.2
    pure (.status st, map, m)
  | .clear => some (.nothing, hashmapClear s.1 s.2)

/-- What a map on classes of keys answers; the number counts the requests refused so far. Only
`set` may run out of memory, after a refused request, and then nothing changes; no operation
accepts NULL. -/
inductive MapStep (eq : κ → κ → Bool) :
    (κ → Option ν) × Nat → HashmapOp κ ν → Answer ν → (κ → Option ν) × Nat → Prop
  | setOk (g n key value) :
      MapStep eq (g, n) (.set (some key) (some value)) (.status .ok) (insert eq g key value, n)
  | setOom (g n n' key value) (refused : n < n') :
      MapStep eq (g, n) (.set (some key) (some value)) (.status .oom) (g, n')
  | setInvalid (s key value) (h : key = none ∨ value = none) :
      MapStep eq s (.set key value) (.status .invalid) s
  | getHit (g n key out) {value} (h : g key = some value) :
      MapStep eq (g, n) (.get (some key) out) (.read .ok (if out then some value else none)) (g, n)
  | getMiss (g n key out) (h : g key = none) :
      MapStep eq (g, n) (.get (some key) out) (.read .notFound none) (g, n)
  | getInvalid (s out) : MapStep eq s (.get none out) (.read .invalid none) s
  | getPtr (g n key) : MapStep eq (g, n) (.getPtr (some key)) (.pointee (g key)) (g, n)
  | getPtrInvalid (s) : MapStep eq s (.getPtr none) (.pointee none) s
  | contains (g n key) :
      MapStep eq (g, n) (.contains (some key)) (.answer (g key).isSome) (g, n)
  | containsInvalid (s) : MapStep eq s (.contains none) (.answer false) s
  | removeHit (g n key) (h : (g key).isSome) :
      MapStep eq (g, n) (.remove (some key)) (.status .ok) (erase eq g key, n)
  | removeMiss (g n key) (h : g key = none) :
      MapStep eq (g, n) (.remove (some key)) (.status .notFound) (g, n)
  | removeInvalid (s) : MapStep eq s (.remove none) (.status .invalid) s
  | clear (g n) : MapStep eq (g, n) .clear .nothing (empty, n)

/-- The state of a map whose contents are `g`. -/
def MapState (f : KeyFns κ) (s : Hashmap κ ν × Mem) (g : κ → Option ν) : Prop :=
  (∃ k, HashmapInv f k s.1) ∧ Represents f.eq s.1.contents g

theorem hashmapGet_represents (inv : HashmapInv f k map) (law : f.Lawful) {g : κ → Option ν}
    (rep : Represents f.eq map.contents g) (key : κ) (out : Bool) :
    hashmapGet f map (some key) out = some (seqcCopyOut (g key) out) := by
  obtain ⟨r, run, value⟩ := hashmapGetPtr_represents inv law rep key
  simp [hashmapGet, run, value]

theorem hashmapRemove_represents (inv : HashmapInv f k map) (law : f.Lawful) {g : κ → Option ν}
    (rep : Represents f.eq map.contents g) (key : κ) (m : Mem) :
    ∃ st map' m', hashmapRemove f map (some key) m = some (st, map', m') ∧ HashmapInv f k map' ∧
      m'.refusals = m.refusals ∧
      ((st = .notFound ∧ g key = none ∧ map' = map) ∨
        (st = .ok ∧ (g key).isSome ∧ Represents f.eq map'.contents (erase f.eq g key))) := by
  obtain ⟨st, map', m', run, inv', quiet, ⟨rfl, rfl, absent⟩ | ⟨rfl, e, equal, perm⟩⟩ :=
    hashmapRemove_spec inv key m
  · refine ⟨_, _, m', run, inv', quiet, .inl ⟨rfl, (rep.eq_none_iff key).mpr fun p hp => ?_, rfl⟩⟩
    obtain ⟨e, he, rfl⟩ := List.mem_map.mp hp
    by_contra hit
    rw [Bool.not_eq_false] at hit
    exact hit ▸ absent e he (law.hash_eq _ _ hit) |> Bool.noConfusion
  · have whole := rep.perm law.toEqLaws (perm.map Entry.pair).symm
    refine ⟨_, map', m', run, inv', quiet, .inr ⟨rfl, ?_, whole.erase law.toEqLaws equal⟩⟩
    rw [rep.get (List.mem_map_of_mem (perm.subset (by simp))) equal]
    rfl

theorem hashmapStep_refines (ndebug : Bool) (law : f.Lawful) (op : HashmapOp κ ν)
    (s : Hashmap κ ν × Mem) (g : κ → Option ν) (h : MapState f s g) :
    ∃ out s' g', hashmapStep ndebug f op s = some (out, s') ∧
      MapStep f.eq (g, s.2.refusals) op out (g', s'.2.refusals) ∧ MapState f s' g' := by
  obtain ⟨map, m⟩ := s
  obtain ⟨⟨k, inv⟩, rep⟩ := h
  have state : MapState f (map, m) g := ⟨⟨k, inv⟩, rep⟩
  cases op with
  | set key value =>
    cases key with
    | none => exact ⟨_, _, g, rfl, .setInvalid _ none value (.inl rfl), state⟩
    | some key =>
      cases value with
      | none => exact ⟨_, _, g, rfl, .setInvalid _ (some key) none (.inr rfl), state⟩
      | some value =>
        obtain ⟨st, k', map', m', run, inv', ⟨rfl, refused, perm⟩ | ⟨rfl, quiet, stored⟩⟩ :=
          hashmapSet_spec ndebug inv key value m
        · have same := (perm (distinct_of_represents law rep)).map Entry.pair
          exact ⟨_, (map', m'), g, by simp [hashmapStep, run], .setOom g _ _ key value refused,
            ⟨k', inv'⟩, rep.perm law.toEqLaws same.symm⟩
        · refine ⟨.status .ok, (map', m'), _, by simp [hashmapStep, run], ?_, ⟨k', inv'⟩,
            stored g law rep⟩
          exact quiet ▸ .setOk g _ key value
  | get key out =>
    cases key with
    | none => exact ⟨_, _, g, rfl, .getInvalid _ out, state⟩
    | some key =>
      have run := hashmapGet_represents inv law rep key out
      cases hg : g key with
      | none =>
        exact ⟨_, _, g, by simp [hashmapStep, run, hg, seqcCopyOut], .getMiss g _ key out hg,
          state⟩
      | some v =>
        exact ⟨_, _, g, by simp [hashmapStep, run, hg, seqcCopyOut], .getHit g _ key out hg, state⟩
  | getPtr key =>
    cases key with
    | none => exact ⟨_, _, g, rfl, .getPtrInvalid _, state⟩
    | some key =>
      obtain ⟨r, run, value⟩ := hashmapGetPtr_represents inv law rep key
      exact ⟨_, _, g, by simp [hashmapStep, run, value], .getPtr g _ key, state⟩
  | contains key =>
    cases key with
    | none => exact ⟨_, _, g, rfl, .containsInvalid _, state⟩
    | some key =>
      have run := hashmapGet_represents inv law rep key false
      refine ⟨_, _, g, ?_, .contains g _ key, state⟩
      cases hg : g key <;> simp [hashmapStep, hashmapContains, run, hg, seqcCopyOut]
  | remove key =>
    cases key with
    | none => exact ⟨_, _, g, rfl, .removeInvalid _, state⟩
    | some key =>
      obtain ⟨st, map', m', run, inv', quiet, ⟨rfl, absent, rfl⟩ | ⟨rfl, present, erased⟩⟩ :=
        hashmapRemove_represents inv law rep key m
      · refine ⟨.status .notFound, (map', m'), g, by simp [hashmapStep, run], ?_, ⟨k, inv'⟩, rep⟩
        exact quiet ▸ .removeMiss g _ key absent
      · refine ⟨.status .ok, (map', m'), _, by simp [hashmapStep, run], ?_, ⟨k, inv'⟩, erased⟩
        exact quiet ▸ .removeHit g _ key present
  | clear =>
    obtain ⟨inv', none_left, quiet⟩ := hashmapClear_spec inv m
    refine ⟨.nothing, hashmapClear map m, empty, rfl, ?_, ⟨k, inv'⟩, ?_⟩
    · rw [quiet]
      exact .clear g _
    · rw [Hashmap.contents, none_left]
      exact represents_nil

theorem hashmapCreate_state {keySize valSize : Nat} {m₀ m₁ : Mem} {map₀ : Hashmap κ ν}
    (created : hashmapCreate κ ν keySize valSize m₀ = (some map₀, m₁)) :
    MapState f (map₀, m₁) empty := by
  obtain ⟨inv, none_yet, -⟩ := hashmapCreate_spec f created
  refine ⟨⟨4, inv⟩, ?_⟩
  rw [Hashmap.contents, none_yet]
  exact represents_nil

theorem hashmap_runs (law : f.Lawful) {keySize valSize : Nat} {m₀ m₁ : Mem} {map₀ : Hashmap κ ν}
    (created : hashmapCreate κ ν keySize valSize m₀ = (some map₀, m₁)) (ndebug : Bool)
    (ops : List (HashmapOp κ ν)) :
    ∃ outs map m g, run (hashmapStep ndebug f) ops (map₀, m₁) = some (outs, (map, m)) ∧
      SpecRun (MapStep f.eq) (empty, m₁.refusals) ops outs (g, m.refusals) ∧
      MapState f (map, m) g := by
  obtain ⟨outs, ⟨map, m⟩, ⟨g, _⟩, ran, spec, state, rfl⟩ := run_refines (hashmapStep ndebug f)
    (MapStep f.eq) (R := fun s g => MapState f s g.1 ∧ s.2.refusals = g.2)
    (fun op s g h => by
      obtain ⟨g, _⟩ := g
      obtain ⟨state, rfl⟩ := h
      obtain ⟨out, s', g', step, allowed, state'⟩ := hashmapStep_refines ndebug law op s g state
      exact ⟨out, s', (g', _), step, allowed, state', rfl⟩)
    ops (s := (map₀, m₁)) (g := (empty, m₁.refusals)) ⟨hashmapCreate_state created, rfl⟩
  exact ⟨outs, map, m, g, ran, spec, state⟩

/-- Two maps with the same entries answer every lookup alike. -/
theorem hashmapGetPtr_congr {map' : Hashmap κ ν} {k' : Nat} (law : f.Lawful)
    (inv : HashmapInv f k map) (inv' : HashmapInv f k' map') (perm : map'.entries.Perm map.entries)
    (distinct : map.entries.Pairwise (Apart (entryEq f))) (key : Option κ) :
    hashmapGetPtr f map' key = hashmapGetPtr f map key := by
  cases key with
  | none => rfl
  | some key =>
    obtain ⟨r, run, unique⟩ := hashmapGetPtr_spec inv law distinct key
    obtain ⟨r', run', unique'⟩ :=
      hashmapGetPtr_spec inv' law ((pairwise_apart_perm perm).mpr distinct) key
    rw [run, run']
    congr 1
    ext b
    rw [unique, unique']
    simp only [perm.mem_iff]

/-- A `hashmap_set` that fails to allocate is not seen by any later lookup. -/
theorem hashmapSet_oom (law : f.Lawful) (inv : HashmapInv f k map) {g : κ → Option ν}
    (rep : Represents f.eq map.contents g) {key : Option κ} {value : Option ν}
    {map' : Hashmap κ ν} {m' : Mem}
    (h : hashmapSet ndebug f map key value m = some (.oom, map', m')) :
    (∀ x, hashmapGetPtr f map' x = hashmapGetPtr f map x) ∧
      hashmapLen map' = hashmapLen map ∧ map'.entries.Perm map.entries := by
  cases key with
  | none => simp [hashmapSet] at h
  | some key =>
    cases value with
    | none => simp [hashmapSet] at h
    | some value =>
      obtain ⟨st, k', map₁, m₁, run, inv₁, outcome⟩ := hashmapSet_spec ndebug inv key
        value m
      simp only [run, Option.some.injEq, Prod.mk.injEq] at h
      obtain ⟨rfl, rfl, rfl⟩ := h
      have distinct := distinct_of_represents law rep
      obtain ⟨-, -, perm⟩ | ⟨bad, -⟩ := outcome
      · have same := perm distinct
        refine ⟨hashmapGetPtr_congr law inv inv₁ same distinct, ?_, same⟩
        rw [hashmapLen, hashmapLen, inv₁.len_eq, inv.len_eq, ← inv₁.entries_eq, ← inv.entries_eq]
        exact same.length_eq
      · simp at bad

/-- Every run from `hashmap_create` is one of a finite map. In the state it ends
in, the iterators yield each entry once, in opposite orders, and a further `hashmap_set`
that runs out of memory changes no lookup, not the length and no iterated entry. -/
theorem hashmap_run_refines (law : f.Lawful) {keySize valSize : Nat} {m₀ m₁ : Mem}
    {map₀ : Hashmap κ ν} (created : hashmapCreate κ ν keySize valSize m₀ = (some map₀, m₁))
    (ndebug : Bool) (ops : List (HashmapOp κ ν)) :
    ∃ outs map m g, run (hashmapStep ndebug f) ops (map₀, m₁) = some (outs, (map, m)) ∧
      SpecRun (MapStep f.eq) (empty, m₁.refusals) ops outs (g, m.refusals) ∧
      (∃ es, hashmapIterAll map = some es ∧ hashmapIterRevAll map = some es.reverse ∧
        Represents f.eq (es.map Entry.pair) g ∧ hashmapLen map = es.length) ∧
      ∀ key value map' m', hashmapSet ndebug f map key value m = some (.oom, map', m') →
        (∀ x, hashmapGetPtr f map' x = hashmapGetPtr f map x) ∧
        (∀ x out, hashmapGet f map' x out = hashmapGet f map x out) ∧
        (∀ x, hashmapContains f map' x = hashmapContains f map x) ∧
        hashmapLen map' = hashmapLen map ∧
        ∃ es es', hashmapIterAll map = some es ∧ hashmapIterAll map' = some es' ∧ es'.Perm es := by
  obtain ⟨outs, map, m, g, ran, spec, ⟨k, inv⟩, rep⟩ := hashmap_runs law created ndebug ops
  refine ⟨outs, map, m, g, ran, spec, ⟨map.entries, hashmapIterAll_eq map,
    hashmapIterRevAll_eq map, rep, ?_⟩, fun key value map' m' oom => ?_⟩
  · rw [inv.entries_eq]
    exact inv.len_eq
  · obtain ⟨lookup, len, perm⟩ := hashmapSet_oom law inv rep oom
    have read (x : Option κ) (out : Bool) : hashmapGet f map' x out = hashmapGet f map x out := by
      cases x <;> simp [hashmapGet, lookup]
    exact ⟨lookup, read, fun x => by simp [hashmapContains, read], len, map.entries,
      map'.entries, hashmapIterAll_eq map, hashmapIterAll_eq map', perm⟩

/-- A run over colliding keys in which the second `hashmap_set` fails. -/
theorem hashmap_run_refines_colliding :
    ∃ outs map m g, run (hashmapStep false collidingKeys)
        [.set (some 1) (some 10), .set (some 2) (some 20), .remove (some 1), .get (some 2) true]
        (⟨0, 1, fun _ => none, 16, 0, 8, 8, 0⟩,
          ⟨refusingOnce 5, 2, [.alloc 0 80, .alloc 1 384]⟩) = some (outs, (map, m)) ∧
      SpecRun (MapStep collidingKeys.eq) (empty, 0)
        [.set (some 1) (some 10), .set (some 2) (some 20), .remove (some 1), .get (some 2) true]
        outs (g, 1) := by
  have created : hashmapCreate Nat Nat 8 8 (.start (refusingOnce 5)) =
      (some ⟨0, 1, fun _ => none, 16, 0, 8, 8, 0⟩,
        ⟨refusingOnce 5, 2, [.alloc 0 80, .alloc 1 384]⟩) := rfl
  obtain ⟨outs, map, m, g, ran, spec, -⟩ := hashmap_run_refines collidingKeys_lawful created false
    [.set (some 1) (some 10), .set (some 2) (some 20), .remove (some 1), .get (some 2) true]
  obtain ⟨outs', map', m', ran', once⟩ : ∃ outs map m, run (hashmapStep false collidingKeys)
      [.set (some 1) (some 10), .set (some 2) (some 20), .remove (some 1), .get (some 2) true]
      (⟨0, 1, fun _ => none, 16, 0, 8, 8, 0⟩,
        ⟨refusingOnce 5, 2, [.alloc 0 80, .alloc 1 384]⟩) =
          some (outs, ((map : Hashmap Nat Nat), m)) ∧ m.refusals = 1 := ⟨_, _, _, rfl, rfl⟩
  obtain ⟨-, same⟩ := Prod.mk.inj (Option.some.inj (ran.symm.trans ran'))
  obtain ⟨-, rfl⟩ := Prod.mk.inj same
  exact ⟨outs, map, m, g, ran, once ▸ spec⟩

end Seqc
