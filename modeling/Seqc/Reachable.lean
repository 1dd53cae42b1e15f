import Seqc.TableInvariants

/-! The states of a map and of a set that operations reach, each operation with whatever
memory it finds: between two operations on a table its allocator may have served others. -/

namespace Seqc
open RobinHood ClassMap Runs

variable {κ ν : Type} {f : KeyFns κ}

/-- A set that operations make, each with whatever memory it finds. -/
inductive SetReachable (f : KeyFns κ) : SetT κ → Prop
  | create {elemSize : Nat} {m m' : Mem} {s : SetT κ} (h : setCreate κ elemSize m = (some s, m')) :
      SetReachable f s
  | step (ndebug : Bool) {s s' : SetT κ} {op : SetOp κ} {out : Answer κ} {m m' : Mem}
      (before : SetReachable f s) (h : setStep ndebug f op (s, m) = some (out, s', m')) :
      SetReachable f s'

theorem SetReachable.after {s s' : SetT κ} (h : SetReachable f s) {ndebug : Bool}
    {ops : List (SetOp κ)} {outs : List (Answer κ)} {m m' : Mem}
    (ran : run (setStep ndebug f) ops (s, m) = some (outs, (s', m'))) : SetReachable f s' := by
  induction ops generalizing s m outs with
  | nil =>
    obtain ⟨-, rfl, -⟩ : [] = outs ∧ s = s' ∧ m = m' := by simpa [run] using ran
    exact h
  | cons op ops ih =>
    obtain ⟨out, st, rest, first, later, rfl⟩ := run_cons_eq_some ran
    exact ih (.step ndebug h first) later

theorem SetReachable.inv {s : SetT κ} (h : SetReachable f s) :
    SetState f s ∧ (f.Lawful → SetDistinct f s) := by
  induction h with
  | create h =>
    obtain ⟨fresh, -⟩ := setCreate_spec h
    exact ⟨.fresh fresh, fun _ =>
      ⟨by simp [fresh.entries_eq], by simp [fresh.entries_eq, fresh.len_eq]⟩⟩
  | @step ndebug s s' op out m m' before h ih =>
    obtain ⟨state, distinct⟩ := ih
    obtain ⟨out, st', run, state', distinct', -⟩ := setStep_inv ndebug op (s, m) state
    obtain ⟨rfl, rfl⟩ := Prod.mk.inj (Option.some.inj (run.symm.trans h))
    exact ⟨state', fun law => distinct' law (distinct law)⟩

/-- `set_contains` finds the key. -/
def SetT.Has (f : KeyFns κ) (s : SetT κ) (x : κ) : Prop := setContains f s (some x) = some true

theorem SetReachable.has_iff {s : SetT κ} (h : SetReachable f s) (law : f.Lawful) (x : κ) :
    s.Has f x ↔ ∃ b ∈ s.entries, f.eq b.val x = true := by
  obtain ⟨r, run, found⟩ := setContains_spec h.inv.1 x
  rw [SetT.Has, run, ← found law, Option.some.injEq]

/-- A key is in the set as any equal key is. -/
theorem SetReachable.has_congr {s : SetT κ} (h : SetReachable f s) (law : f.Lawful) {x y : κ}
    (same : f.eq x y = true) : s.Has f x ↔ s.Has f y := by
  rw [h.has_iff law, h.has_iff law]
  exact exists_congr fun b => and_congr_right fun _ =>
    ⟨fun hx => law.trans _ _ _ hx same, fun hy => law.trans _ _ _ hy (law.symm _ _ same)⟩

/-- A map that operations make, each with whatever memory it finds. -/
inductive HashmapReachable (f : KeyFns κ) : Hashmap κ ν → Prop
  | create {keySize valSize : Nat} {m m' : Mem} {map : Hashmap κ ν}
      (h : hashmapCreate κ ν keySize valSize m = (some map, m')) : HashmapReachable f map
  | step (ndebug : Bool) {map map' : Hashmap κ ν} {op : HashmapOp κ ν} {out : Answer ν}
      {m m' : Mem} (before : HashmapReachable f map)
      (h : hashmapStep ndebug f op (map, m) = some (out, map', m')) : HashmapReachable f map'

theorem HashmapReachable.after {map map' : Hashmap κ ν} (h : HashmapReachable f map)
    {ndebug : Bool} {ops : List (HashmapOp κ ν)} {outs : List (Answer ν)} {m m' : Mem}
    (ran : run (hashmapStep ndebug f) ops (map, m) = some (outs, (map', m'))) :
    HashmapReachable f map' := by
  induction ops generalizing map m outs with
  | nil =>
    obtain ⟨-, rfl, -⟩ : [] = outs ∧ map = map' ∧ m = m' := by simpa [run] using ran
    exact h
  | cons op ops ih =>
    obtain ⟨out, st, rest, first, later, rfl⟩ := run_cons_eq_some ran
    exact ih (.step ndebug h first) later

theorem HashmapReachable.inv {map : Hashmap κ ν} (h : HashmapReachable f map) :
    ∃ k, HashmapInv f k map := by
  induction h with
  | create h => exact ⟨4, (hashmapCreate_spec f h).1⟩
  | @step ndebug map map' op out m m' before h ih =>
    obtain ⟨out, st', run, inv'⟩ := hashmapStep_inv ndebug op (map, m) ih
    obtain ⟨rfl, rfl⟩ := Prod.mk.inj (Option.some.inj (run.symm.trans h))
    exact inv'

theorem HashmapReachable.represents {map : Hashmap κ ν} (h : HashmapReachable f map)
    (law : f.Lawful) : ∃ g, Represents f.eq map.contents g := by
  induction h with
  | create h => exact ⟨empty, (hashmapCreate_state h).2⟩
  | @step ndebug map map' op out m m' before h ih =>
    obtain ⟨g, rep⟩ := ih
    obtain ⟨out, st', g', run, -, -, rep'⟩ :=
      hashmapStep_refines ndebug law op (map, m) g ⟨before.inv, rep⟩
    obtain ⟨rfl, rfl⟩ := Prod.mk.inj (Option.some.inj (run.symm.trans h))
    exact ⟨g', rep'⟩

theorem HashmapReachable.apart {map : Hashmap κ ν} (h : HashmapReachable f map)
    (law : f.Lawful) : map.entries.Pairwise (Apart (entryEq f)) := by
  obtain ⟨g, rep⟩ := h.represents law
  exact distinct_of_represents law rep

/-- `hashmap_contains` finds the key. -/
def Hashmap.Has (f : KeyFns κ) (map : Hashmap κ ν) (x : κ) : Prop :=
  hashmapContains f map (some x) = some true

theorem HashmapReachable.has_iff {map : Hashmap κ ν} (h : HashmapReachable f map)
    (law : f.Lawful) (x : κ) : map.Has f x ↔ ∃ e ∈ map.entries, f.eq e.key.val x = true := by
  obtain ⟨k, inv⟩ := h.inv
  obtain ⟨r, run, found⟩ := hashmapGetPtr_spec inv law (h.apart law) x
  cases r with
  | none =>
    have missing : ¬∃ e ∈ map.entries, f.eq e.key.val x = true := by
      rintro ⟨e, he, hit⟩
      simpa using (found e.value).mpr ⟨e, he, hit, rfl⟩
    simp [Hashmap.Has, hashmapContains, hashmapGet, run, seqcCopyOut, missing]
  | some b =>
    obtain ⟨e, he, hit, -⟩ := (found b).mp rfl
    have present : ∃ e ∈ map.entries, f.eq e.key.val x = true := ⟨e, he, hit⟩
    simp [Hashmap.Has, hashmapContains, hashmapGet, run, seqcCopyOut, present]

end Seqc
