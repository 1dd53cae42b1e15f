import Seqc.IterSpec

/-! The blocks an iterator of iter.c owns. A constructor takes over those of its sources, a
call trades the blocks of the iterator before it for those of the one after it, and
`iter_destroy` gives all of them back. -/

namespace Seqc
open Iteration

variable {s t : ElemType} {m m₁ m' : Mem}

namespace Iter

/-- The blocks an iterator has to give back, those of its sources included. -/
def owned : {t : ElemType} → Iter t → Blocks
  | _, failed => 0
  | _, fromSlice addr _ _ => {(addr, sizeofSliceState)}
  | _, fromSliceRev addr _ _ => {(addr, sizeofSliceState)}
  | _, generate addr _ _ => {(addr, sizeofGenerateState)}
  | _, range addr _ => {(addr, sizeofRangeState)}
  | _, split addr _ => {(addr, sizeofSplitState)}
  | _, foreign it => it.blocks
  | _, filter addr source _ => owned source + {(addr, sizeofFilterState)}
  | _, map (s := s) addr inBuf source _ =>
    owned source + {(inBuf, s.size)} + {(addr, sizeofMapState)}
  | _, take addr source _ => owned source + {(addr, sizeofTakeState)}
  | _, takeWhile addr source _ => owned source + {(addr, sizeofTakeWhileState)}
  | _, skip addr source _ => owned source + {(addr, sizeofSkipState)}
  | _, skipWhile addr source _ _ => owned source + {(addr, sizeofSkipWhileState)}
  | _, chain addr first second _ => owned first + owned second + {(addr, sizeofChainState)}
  | _, zip (s := s) addr bufA a b =>
    owned a + owned b + {(bufA, s.size)} + {(addr, sizeofZipState)}
  | _, enumerate (t := t) addr buf source _ =>
    owned source + {(buf, t.size)} + {(addr, sizeofEnumState)}
  | _, window (t := t) addr buf source n _ _ =>
    owned source + bufferBlocks buf (mulSize n t.size) + {(addr, sizeofWindowState)}
  | _, chunks (t := t) addr buf source n _ =>
    owned source + bufferBlocks buf (mulSize n t.size) + {(addr, sizeofChunkState)}
  | t, peekable addr buf source _ _ =>
    owned source + {(buf, t.size)} + {(addr, sizeofPeekableState)}
  | t, dedup addr lastBuf source _ _ =>
    owned source + {(lastBuf, t.size)} + {(addr, sizeofDedupState)}
  | _, flatMap (s := s) addr elemBuf source _ _ sub subActive =>
    (if subActive then owned sub else 0) + owned source + {(elemBuf, s.size)} +
      {(addr, sizeofFlatMapState)}

/-- The functions given to `iter_flat_map` hand over iterators with all they own. -/
def Kept : {t : ElemType} → Iter t → Prop
  | _, failed => True
  | _, fromSlice .. => True
  | _, fromSliceRev .. => True
  | _, generate .. => True
  | _, range .. => True
  | _, split .. => True
  | _, foreign _ => True
  | _, filter _ source _ => Kept source
  | _, map _ _ source _ => Kept source
  | _, take _ source _ => Kept source
  | _, takeWhile _ source _ => Kept source
  | _, skip _ source _ => Kept source
  | _, skipWhile _ source _ _ => Kept source
  | _, chain _ first second _ => Kept first ∧ Kept second
  | _, zip _ _ a b => Kept a ∧ Kept b
  | _, enumerate _ _ source _ => Kept source
  | _, window _ _ source _ _ _ => Kept source
  | _, chunks _ _ source _ _ => Kept source
  | _, peekable _ _ source _ _ => Kept source
  | _, dedup _ _ source _ _ => Kept source
  | _, flatMap _ _ source fn after sub _ => Kept source ∧ Kept sub ∧
    ∀ x m, Kept (fn x m) ∧ m.Trades 0 (after x m) (owned (fn x m))

end Iter

/-! ### `iter_destroy` -/

theorem freeIf_trades (m : Mem) (addr : Option Nat) (size : Nat) :
    m.Trades (bufferBlocks addr size) (Iter.freeIf m addr size) 0 := by
  cases addr with
  | none => exact .refl m 0
  | some addr => exact memFree_trades m addr size

section Free
variable {a b : Blocks} {addr size : Nat}

/-- What is dropped first, and then the block freed. -/
theorem Mem.Trades.free (h : m.Trades a m' 0) :
    m.Trades (a + {(addr, size)}) (memFree m' (some addr) size) 0 :=
  (h.within {(addr, size)} rfl (zero_add _).symm).trans (memFree_trades m' addr size)

theorem Mem.Trades.freeIf {buf : Option Nat} (h : m.Trades a m' 0) :
    m.Trades (a + bufferBlocks buf size) (Iter.freeIf m' buf size) 0 :=
  (h.within (bufferBlocks buf size) rfl (zero_add _).symm).trans (freeIf_trades m' buf size)

/-- Two that are dropped one after the other. -/
theorem Mem.Trades.both (h : m.Trades a m₁ 0) (h' : m₁.Trades b m' 0) : m.Trades (a + b) m' 0 :=
  (h.within b rfl (zero_add _).symm).trans h'

end Free

/-- `iter_destroy` gives back exactly what the iterator owns. -/
theorem Iter.destroy_trades (it : Iter t) (m : Mem) : m.Trades it.owned (it.destroy m) 0 := by
  induction it generalizing m with
  | failed => exact .refl m 0
  | fromSlice addr contents pos => exact memFree_trades m addr _
  | fromSliceRev addr contents pos => exact memFree_trades m addr _
  | generate addr fn ctx => exact memFree_trades m addr _
  | range addr state => exact memFree_trades m addr _
  | split addr state => exact memFree_trades m addr _
  | foreign it => exact it.custody.destroy it.state m
  | filter addr source pred ih => exact (ih m).free
  | map addr inBuf source fn ih => exact (ih m).free.free
  | take addr source remaining ih => exact (ih m).free
  | takeWhile addr source pred ih => exact (ih m).free
  | skip addr source remaining ih => exact (ih m).free
  | skipWhile addr source pred doneSkipping ih => exact (ih m).free
  | chain addr first second doneFirst ih ih' => exact ((ih m).both (ih' _)).free
  | zip addr bufA a b ih ih' => exact ((ih m).both (ih' _)).free.free
  | enumerate addr buf source index ih => exact (ih m).free.free
  | window addr buf source n contents primed ih => exact (ih m).freeIf.free
  | chunks addr buf source n done ih => exact (ih m).freeIf.free
  | peekable addr buf source peeked sourceDone ih => exact (ih m).free.free
  | dedup addr lastBuf source cmp last ih => exact (ih m).free.free
  | flatMap addr elemBuf source fn after sub subActive ih _ ih' =>
    cases subActive with
    | true => exact ((ih' m).both (ih _)).free.free
    | false => exact ((Mem.Trades.refl m 0).both (ih m)).free.free

/-! ### `iter_next` -/

/-- A call took the iterator and the memory to others. -/
structure Iter.Steps (it : Iter t) (m : Mem) (it' : Iter t) (m' : Mem) : Prop where
  kept : it'.Kept
  trades : m.Trades it.owned m' it'.owned

section Steps
variable {it it₁ it' : Iter t} {src src' : Iter s}

theorem Iter.Steps.refl (kept : it.Kept) : it.Steps m it m := ⟨kept, .refl m _⟩

theorem Iter.Steps.trans (h : it.Steps m it₁ m₁) (h' : it₁.Steps m₁ it' m') : it.Steps m it' m' :=
  ⟨h'.kept, h.trades.trans h'.trades⟩

/-- An adaptor whose source has stepped. -/
theorem Iter.Steps.above (h : src.Steps m src' m') (kept : src'.Kept → it'.Kept) (own : Blocks)
    (before : it.owned = src.owned + own) (after : it'.owned = src'.owned + own) :
    it.Steps m it' m' :=
  ⟨kept h.kept, h.trades.within own before after⟩

theorem readUpTo_steps {fuel : Nat}
    (steps : ∀ (it : Iter t) {it' : Iter t} {m m' : Mem} {x}, it.Kept →
      it.next fuel m = some (x, it', m') → it.Steps m it' m') {count : Nat} {xs : List t.Val} (kept : it.Kept)
    (reads : readUpTo (Iter.next fuel) count it m = some (xs, it', m')) : it.Steps m it' m' := by
  induction count generalizing it m xs with
  | zero =>
    obtain ⟨-, rfl, rfl⟩ : [] = xs ∧ it = it' ∧ m = m' := by simpa [readUpTo] using reads
    exact .refl kept
  | succ count ih =>
    rcases call : it.next fuel m with _ | ⟨_ | x, it₁, m₁⟩
    · simp [readUpTo, call] at reads
    · obtain ⟨-, rfl, rfl⟩ : [] = xs ∧ it₁ = it' ∧ m₁ = m' := by
        simpa [readUpTo, call] using reads
      exact steps it kept call
    · have first := steps it kept call
      rcases rest : readUpTo (Iter.next fuel) count it₁ m₁ with _ | ⟨ys, it₂, m₂⟩
      · simp [readUpTo, call, rest] at reads
      · obtain ⟨-, rfl, rfl⟩ : x :: ys = xs ∧ it₂ = it' ∧ m₂ = m' := by
          simpa [readUpTo, call, rest] using reads
        exact first.trans (ih first.kept rest)

/-- A call that returns keeps custody. -/
def Iter.CallKeeps (fuel : Nat) (it : Iter t) : Prop :=
  ∀ {it' : Iter t} {m m' : Mem} {x : Option t.Val},
    it.Kept → it.next fuel m = some (x, it', m') → it.Steps m it' m'

section Adaptors
variable {fuel addr n : Nat} {source : Iter t}

theorem Iter.filter_steps (ih : ∀ {u : ElemType} (it : Iter u), it.CallKeeps fuel)
    {pred : t.Val → Bool} : (filter addr source pred).CallKeeps (fuel + 1) := by
  intro it' m m' x kept run
  rw [next] at run
  obtain ⟨⟨y, source', m₁⟩, call, rest⟩ := Option.bind_eq_some_iff.mp run
  have step : (filter addr source pred).Steps m (filter addr source' pred) m₁ :=
    (ih source kept call).above id _ rfl rfl
  cases y with
  | none =>
    cases rest
    exact step
  | some y =>
    cases hp : pred y with
    | true =>
      simp only [hp] at rest
      cases rest
      exact step
    | false =>
      simp only [hp] at rest
      exact step.trans (ih _ step.kept rest)

theorem Iter.map_steps (ih : ∀ {u : ElemType} (it : Iter u), it.CallKeeps fuel) {u : ElemType}
    {inBuf : Nat} {source : Iter u} {fn : u.Val → t.Val} :
    (map addr inBuf source fn).CallKeeps (fuel + 1) := by
  intro it' m m' x kept run
  rw [next] at run
  obtain ⟨⟨y, source', m₁⟩, call, rest⟩ := Option.bind_eq_some_iff.mp run
  cases rest
  exact (ih source kept call).above id ({(inBuf, _)} + {(addr, _)}) (add_assoc ..) (add_assoc ..)

theorem Iter.take_steps (ih : ∀ {u : ElemType} (it : Iter u), it.CallKeeps fuel)
    {remaining : Nat} : (take addr source remaining).CallKeeps (fuel + 1) := by
  intro it' m m' x kept run
  rw [next] at run
  by_cases zero : remaining = 0
  · rw [if_pos zero] at run
    cases run
    exact .refl kept
  · rw [if_neg zero] at run
    obtain ⟨⟨y, source', m₁⟩, call, rest⟩ := Option.bind_eq_some_iff.mp run
    have step := ih source kept call
    cases y with
    | none =>
      cases rest
      exact step.above id _ rfl rfl
    | some y =>
      cases rest
      exact step.above id _ rfl rfl

theorem Iter.takeWhile_steps (ih : ∀ {u : ElemType} (it : Iter u), it.CallKeeps fuel)
    {pred : t.Val → Bool} : (takeWhile addr source pred).CallKeeps (fuel + 1) := by
  intro it' m m' x kept run
  rw [next] at run
  obtain ⟨⟨y, source', m₁⟩, call, rest⟩ := Option.bind_eq_some_iff.mp run
  have step : (takeWhile addr source pred).Steps m (takeWhile addr source' pred) m₁ :=
    (ih source kept call).above id _ rfl rfl
  cases y with
  | none =>
    cases rest
    exact step
  | some y =>
    cases hp : pred y with
    | true =>
      simp only [hp] at rest
      cases rest
      exact step
    | false =>
      simp only [hp] at rest
      cases rest
      exact step

theorem Iter.skip_steps (ih : ∀ {u : ElemType} (it : Iter u), it.CallKeeps fuel)
    {remaining : Nat} : (skip addr source remaining).CallKeeps (fuel + 1) := by
  intro it' m m' x kept run
  rw [next] at run
  obtain ⟨⟨y, source', m₁⟩, call, rest⟩ := Option.bind_eq_some_iff.mp run
  have step (n : Nat) : (skip addr source remaining).Steps m (skip addr source' n) m₁ :=
    (ih source kept call).above id _ rfl rfl
  by_cases zero : remaining = 0
  · simp only [if_pos zero] at rest
    cases rest
    exact step _
  · simp only [if_neg zero] at rest
    cases y with
    | none =>
      cases rest
      exact step _
    | some y => exact (step _).trans (ih _ (step (remaining - 1)).kept rest)

theorem Iter.skipWhile_steps (ih : ∀ {u : ElemType} (it : Iter u), it.CallKeeps fuel)
    {pred : t.Val → Bool} {doneSkipping : Bool} :
    (skipWhile addr source pred doneSkipping).CallKeeps (fuel + 1) := by
  intro it' m m' x kept run
  rw [next] at run
  obtain ⟨⟨y, source', m₁⟩, call, rest⟩ := Option.bind_eq_some_iff.mp run
  have step (d : Bool) : (skipWhile addr source pred doneSkipping).Steps m
      (skipWhile addr source' pred d) m₁ := (ih source kept call).above id _ rfl rfl
  cases y with
  | none =>
    cases rest
    exact step _
  | some y =>
    cases stop : doneSkipping || !pred y with
    | true =>
      simp only [stop] at rest
      cases rest
      exact step _
    | false =>
      simp only [stop] at rest
      exact (step _).trans (ih _ (step doneSkipping).kept rest)

theorem Iter.chain_steps (ih : ∀ {u : ElemType} (it : Iter u), it.CallKeeps fuel)
    {first second : Iter t} {doneFirst : Bool} :
    (chain addr first second doneFirst).CallKeeps (fuel + 1) := by
  intro it' m m' x kept run
  obtain ⟨keptFirst, keptSecond⟩ := kept
  rw [next] at run
  cases doneFirst with
  | true =>
    obtain ⟨⟨y, second', m₁⟩, call, rest⟩ := Option.bind_eq_some_iff.mp run
    cases rest
    refine (ih second keptSecond call).above (fun kept => ⟨keptFirst, kept⟩)
      (first.owned + {(addr, sizeofChainState)}) ?_ ?_ <;>
    · simp only [owned]
      abel
  | false =>
    obtain ⟨⟨y, first', m₁⟩, call, rest⟩ := Option.bind_eq_some_iff.mp run
    have step (d : Bool) : (chain addr first second false).Steps m
        (chain addr first' second d) m₁ :=
      (ih first keptFirst call).above (fun kept => ⟨kept, keptSecond⟩)
        (second.owned + {(addr, sizeofChainState)}) (add_assoc ..) (add_assoc ..)
    cases y with
    | some y =>
      cases rest
      exact step _
    | none => exact (step _).trans (ih _ (step true).kept rest)

theorem Iter.zip_steps (ih : ∀ {u : ElemType} (it : Iter u), it.CallKeeps fuel) {u : ElemType}
    {bufA : Nat} {a : Iter u} {b : Iter t} : (zip addr bufA a b).CallKeeps (fuel + 1) := by
  intro it' m m' x kept run
  obtain ⟨keptA, keptB⟩ := kept
  rw [next] at run
  obtain ⟨⟨y, a', m₁⟩, call, rest⟩ := Option.bind_eq_some_iff.mp run
  have step : (zip addr bufA a b).Steps m (zip addr bufA a' b) m₁ := by
    refine (ih a keptA call).above (fun kept => ⟨kept, keptB⟩)
      (b.owned + {(bufA, u.size)} + {(addr, sizeofZipState)}) ?_ ?_ <;>
    · simp only [owned]
      abel
  cases y with
  | none =>
    cases rest
    exact step
  | some y =>
    obtain ⟨⟨z, b', m₂⟩, call', rest⟩ := Option.bind_eq_some_iff.mp rest
    have step' : (zip addr bufA a' b).Steps m₁ (zip addr bufA a' b') m₂ := by
      refine (ih b keptB call').above (fun kept => ⟨step.kept.1, kept⟩)
        (a'.owned + {(bufA, u.size)} + {(addr, sizeofZipState)}) ?_ ?_ <;>
      · simp only [owned]
        abel
    cases z with
    | none =>
      cases rest
      exact step.trans step'
    | some z =>
      cases rest
      exact step.trans step'

theorem Iter.enumerate_steps (ih : ∀ {u : ElemType} (it : Iter u), it.CallKeeps fuel)
    {buf index : Nat} : (enumerate addr buf source index).CallKeeps (fuel + 1) := by
  intro it' m m' x kept run
  rw [next] at run
  obtain ⟨⟨y, source', m₁⟩, call, rest⟩ := Option.bind_eq_some_iff.mp run
  have step := ih source kept call
  cases y with
  | none =>
    cases rest
    exact step.above id ({(buf, _)} + {(addr, _)}) (add_assoc ..) (add_assoc ..)
  | some y =>
    cases rest
    exact step.above id ({(buf, _)} + {(addr, _)}) (add_assoc ..) (add_assoc ..)

theorem Iter.window_steps (ih : ∀ {u : ElemType} (it : Iter u), it.CallKeeps fuel)
    {buf : Option Nat} {contents : List t.Val} {primed : Bool} :
    (window addr buf source n contents primed).CallKeeps (fuel + 1) := by
  intro it' m m' x kept run
  rw [next] at run
  by_cases zero : n = 0
  · rw [if_pos zero] at run
    cases run
    exact .refl kept
  · rw [if_neg zero] at run
    cases primed with
    | true =>
      obtain ⟨⟨y, source', m₁⟩, call, rest⟩ := Option.bind_eq_some_iff.mp run
      have step := ih source kept call
      cases y with
      | none =>
        cases rest
        exact step.above id (bufferBlocks buf _ + {(addr, _)}) (add_assoc ..) (add_assoc ..)
      | some y =>
        cases rest
        exact step.above id (bufferBlocks buf _ + {(addr, _)}) (add_assoc ..) (add_assoc ..)
    | false =>
      obtain ⟨⟨ys, source', m₁⟩, reads, rest⟩ := Option.bind_eq_some_iff.mp run
      have step := readUpTo_steps ih (show source.Kept from kept) reads
      by_cases short : ys.length < n
      · simp only [if_pos short] at rest
        cases rest
        exact step.above id (bufferBlocks buf _ + {(addr, _)}) (add_assoc ..) (add_assoc ..)
      · simp only [if_neg short] at rest
        cases rest
        exact step.above id (bufferBlocks buf _ + {(addr, _)}) (add_assoc ..) (add_assoc ..)

theorem Iter.chunks_steps (ih : ∀ {u : ElemType} (it : Iter u), it.CallKeeps fuel)
    {buf : Option Nat} {done : Bool} : (chunks addr buf source n done).CallKeeps (fuel + 1) := by
  intro it' m m' x kept run
  rw [next] at run
  cases done with
  | true =>
    cases run
    exact .refl kept
  | false =>
    obtain ⟨⟨ys, source', m₁⟩, reads, rest⟩ := Option.bind_eq_some_iff.mp run
    have step := readUpTo_steps ih (show source.Kept from kept) reads
    by_cases empty : ys.length = 0
    · simp only [if_pos empty] at rest
      cases rest
      exact step.above id (bufferBlocks buf _ + {(addr, _)}) (add_assoc ..) (add_assoc ..)
    · simp only [if_neg empty] at rest
      cases rest
      exact step.above id (bufferBlocks buf _ + {(addr, _)}) (add_assoc ..) (add_assoc ..)

theorem Iter.peekable_steps (ih : ∀ {u : ElemType} (it : Iter u), it.CallKeeps fuel) {buf : Nat}
    {peeked : Option t.Val} {sourceDone : Bool} :
    (peekable addr buf source peeked sourceDone).CallKeeps (fuel + 1) := by
  intro it' m m' x kept run
  match peeked, sourceDone with
  | some y, _ =>
    cases run
    exact ⟨kept, .refl m _⟩
  | none, true =>
    cases run
    exact .refl kept
  | none, false =>
    simp only [next] at run
    obtain ⟨⟨y, source', m₁⟩, call, rest⟩ := Option.bind_eq_some_iff.mp run
    cases rest
    exact (ih source kept call).above id ({(buf, _)} + {(addr, _)}) (add_assoc ..)
      (add_assoc ..)

theorem Iter.dedup_steps (ih : ∀ {u : ElemType} (it : Iter u), it.CallKeeps fuel) {lastBuf : Nat}
    {cmp : t.Val → t.Val → Int} {last : Option t.Val} :
    (dedup addr lastBuf source cmp last).CallKeeps (fuel + 1) := by
  intro it' m m' x kept run
  rw [next] at run
  obtain ⟨⟨y, source', m₁⟩, call, rest⟩ := Option.bind_eq_some_iff.mp run
  have step (l : Option t.Val) : (dedup addr lastBuf source cmp last).Steps m
      (dedup addr lastBuf source' cmp l) m₁ :=
    (ih source kept call).above id ({(lastBuf, _)} + {(addr, _)}) (add_assoc ..) (add_assoc ..)
  cases y with
  | none =>
    cases rest
    exact step _
  | some y =>
    cases last with
    | none =>
      cases rest
      exact step _
    | some l =>
      by_cases differ : cmp y l ≠ 0
      · simp only [if_pos differ] at rest
        cases rest
        exact step _
      · simp only [if_neg differ] at rest
        exact (step _).trans (ih _ (step (some l)).kept rest)

theorem Iter.flatMap_steps (ih : ∀ {u : ElemType} (it : Iter u), it.CallKeeps fuel)
    {u : ElemType} {elemBuf : Nat} {source : Iter u} {fn : u.Val → Mem → Iter t}
    {after : u.Val → Mem → Mem} {sub : Iter t} {subActive : Bool} :
    (flatMap addr elemBuf source fn after sub subActive).CallKeeps (fuel + 1) := by
  intro it' m m' x kept run
  obtain ⟨keptSource, keptSub, handsOver⟩ := kept
  rw [next] at run
  cases subActive with
  | true =>
    obtain ⟨⟨y, sub', m₁⟩, call, rest⟩ := Option.bind_eq_some_iff.mp run
    have inner := ih sub keptSub call
    cases y with
    | some y =>
      cases rest
      refine inner.above (fun kept => ⟨keptSource, kept, handsOver⟩)
        (source.owned + {(elemBuf, u.size)} + {(addr, sizeofFlatMapState)}) ?_ ?_ <;>
      · simp only [owned, if_true]
        abel
    | none =>
      -- the sub-iterator is spent and destroyed
      have closed : (flatMap addr elemBuf source fn after sub true).Steps m
          (flatMap addr elemBuf source fn after sub' false) (sub'.destroy m₁) := by
        refine ⟨⟨keptSource, inner.kept, handsOver⟩,
          (inner.trades.trans (sub'.destroy_trades m₁)).within
            (source.owned + {(elemBuf, u.size)} + {(addr, sizeofFlatMapState)}) ?_ ?_⟩
        · simp only [owned, if_true]
          abel
        · simp only [owned, Bool.false_eq_true, if_false]
          abel
      exact closed.trans (ih _ closed.kept rest)
  | false =>
    obtain ⟨⟨y, source', m₁⟩, call, rest⟩ := Option.bind_eq_some_iff.mp run
    have step : (flatMap addr elemBuf source fn after sub false).Steps m
        (flatMap addr elemBuf source' fn after sub false) m₁ := by
      refine (ih source keptSource call).above (fun kept => ⟨kept, keptSub, handsOver⟩)
        ({(elemBuf, u.size)} + {(addr, sizeofFlatMapState)}) ?_ ?_ <;>
      · simp only [owned, Bool.false_eq_true, if_false]
        abel
    cases y with
    | none =>
      cases rest
      exact step
    | some y =>
      obtain ⟨keptNew, handed⟩ := handsOver y m₁
      have opened : (flatMap addr elemBuf source' fn after sub false).Steps m₁
          (flatMap addr elemBuf source' fn after (fn y m₁) true) (after y m₁) := by
        refine ⟨⟨step.kept.1, keptNew, handsOver⟩, handed.within
          (source'.owned + {(elemBuf, u.size)} + {(addr, sizeofFlatMapState)}) ?_ ?_⟩
        · simp only [owned, Bool.false_eq_true, if_false]
          abel
        · simp only [owned, if_true]
          abel
      exact (step.trans opened).trans (ih _ opened.kept rest)

end Adaptors

/-- A call keeps custody: induction on the depth of the calls. -/
theorem Iter.next_steps (fuel : Nat) : ∀ {t : ElemType} (it : Iter t) {it' : Iter t} {m m' : Mem}
    {x : Option t.Val}, it.Kept → it.next fuel m = some (x, it', m') → it.Steps m it' m' := by
  induction fuel with
  | zero =>
    intro t it it' m m' x kept run
    simp [next] at run
  | succ fuel ih =>
    intro t it it' m m' x kept run
    cases it with
    | failed =>
      cases run
      exact .refl kept
    | fromSlice addr contents pos =>
      rw [next] at run
      cases ahead : (contents.drop pos).head? with
      | none =>
        rw [ahead] at run
        cases run
        exact .refl kept
      | some y =>
        rw [ahead] at run
        cases run
        exact ⟨trivial, .refl m _⟩
    | fromSliceRev addr contents pos =>
      rw [next] at run
      by_cases zero : pos = 0
      · rw [if_pos zero] at run
        cases run
        exact .refl kept
      · rw [if_neg zero] at run
        cases ahead : (contents.drop (pos - 1)).head? with
        | none => simp [ahead] at run
        | some y =>
          rw [ahead] at run
          cases run
          exact ⟨trivial, .refl m _⟩
    | generate addr fn ctx =>
      cases run
      exact ⟨trivial, .refl m _⟩
    | range addr state =>
      rw [next] at run
      rcases call : rangeNext state with _ | ⟨y, state'⟩
      · simp [call] at run
      · rw [call] at run
        cases run
        exact ⟨trivial, .refl m _⟩
    | split addr state =>
      cases run
      exact ⟨trivial, .refl m _⟩
    | foreign it =>
      rw [next] at run
      rcases call : it.next fuel it.state m with _ | ⟨y, s, m₁⟩
      · simp [call] at run
      · rw [call] at run
        cases run
        exact ⟨trivial, it.custody.next call⟩
    | filter => exact filter_steps ih kept run
    | map => exact map_steps ih kept run
    | take => exact take_steps ih kept run
    | takeWhile => exact takeWhile_steps ih kept run
    | skip => exact skip_steps ih kept run
    | skipWhile => exact skipWhile_steps ih kept run
    | chain => exact chain_steps ih kept run
    | zip => exact zip_steps ih kept run
    | enumerate => exact enumerate_steps ih kept run
    | window => exact window_steps ih kept run
    | chunks => exact chunks_steps ih kept run
    | peekable => exact peekable_steps ih kept run
    | dedup => exact dedup_steps ih kept run
    | flatMap => exact flatMap_steps ih kept run

theorem Iter.peek_steps {fuel : Nat} {x : Option t.Val} (kept : it.Kept)
    (run : it.peek fuel m = some (x, it', m')) : it.Steps m it' m' := by
  cases it with
  | peekable addr buf source peeked sourceDone =>
    match peeked, sourceDone with
    | some y, _ =>
      cases run
      exact .refl kept
    | none, true =>
      cases run
      exact .refl kept
    | none, false =>
      simp only [peek] at run
      obtain ⟨⟨y, source', m₁⟩, call, rest⟩ := Option.bind_eq_some_iff.mp run
      have step := source.next_steps fuel kept call
      cases y with
      | none =>
        cases rest
        exact step.above id ({(buf, _)} + {(addr, _)}) (add_assoc ..) (add_assoc ..)
      | some y =>
        cases rest
        exact step.above id ({(buf, _)} + {(addr, _)}) (add_assoc ..) (add_assoc ..)
  | _ =>
    cases run
    exact .refl kept

end Steps

/-! ### Constructors -/

/-- A constructor that is handed the blocks `given` passes them on to the iterator it makes,
or gives them back. -/
structure Takes (m : Mem) (given : Blocks) (r : Iter t × Mem) : Prop where
  kept : r.1.Kept
  trades : m.Trades given r.2 r.1.owned

section Constructors
variable {given : Blocks} {drop : Mem → Mem} {size bufSize : Nat}

theorem Takes.fail {r : Mem} (trades : m.Trades given r 0) :
    Takes m given ((.failed, r) : Iter t × Mem) :=
  ⟨trivial, trades⟩

theorem withState_takes {make : Nat → Iter t} (dropped : ∀ m : Mem, m.Trades given (drop m) 0)
    (kept : ∀ addr, (make addr).Kept) (owns : ∀ addr, (make addr).owned = given + {(addr, size)})
    (m : Mem) : Takes m given (withState m size drop make) := by
  rcases hm : memAlloc m size with ⟨_ | addr, m₁⟩
  · have refused := (memAlloc_refused hm).within given (zero_add _).symm (zero_add _).symm
    simp only [withState, hm]
    exact .fail (refused.trans (dropped m₁))
  · have state := (memAlloc_trades hm).within given (zero_add _).symm (add_comm _ _)
    simp only [withState, hm]
    exact ⟨kept addr, (owns addr).symm ▸ state⟩

theorem withBuffer_takes {make : Nat → Nat → Iter t} (dropped : ∀ m : Mem, m.Trades given (drop m) 0)
    (kept : ∀ addr buf, (make addr buf).Kept)
    (owns : ∀ addr buf, (make addr buf).owned = given + {(buf, bufSize)} + {(addr, size)})
    (m : Mem) : Takes m given (withBuffer m size bufSize drop make) := by
  rcases hm : memAlloc m size with ⟨_ | addr, m₁⟩ <;>
  rcases hm' : memAlloc m₁ bufSize with ⟨_ | buf, m₂⟩
  · have refused := (memAlloc_refused hm).trans (memAlloc_refused hm')
    simp only [withBuffer, hm, hm']
    exact .fail ((refused.within given (zero_add _).symm (zero_add _).symm).trans (dropped m₂))
  · have buffer := ((memAlloc_refused hm).trans (memAlloc_trades hm')).trans
      (memFree_trades m₂ buf bufSize)
    simp only [withBuffer, hm, hm', Iter.freeIf]
    exact .fail ((buffer.within given (zero_add _).symm (zero_add _).symm).trans (dropped _))
  · have refused := (memAlloc_refused hm').within {(addr, size)} rfl rfl
    have state := ((memAlloc_trades hm).trans refused).trans (memFree_trades m₂ addr size)
    simp only [withBuffer, hm, hm', Iter.freeIf]
    exact .fail ((state.within given (zero_add _).symm (zero_add _).symm).trans (dropped _))
  · have both := (memAlloc_trades hm).trans
      ((memAlloc_trades hm').within {(addr, size)} (zero_add _).symm rfl)
    simp only [withBuffer, hm, hm']
    refine ⟨kept addr buf, both.within given (zero_add _).symm ?_⟩
    rw [owns]
    abel

/-- A valid iterator has been refused nothing. -/
theorem withState_granted {make : Nat → Iter t}
    (valid : (withState m size drop make).1.isValid = true) :
    (withState m size drop make).2.refusals = m.refusals := by
  rcases hm : memAlloc m size with ⟨_ | addr, m₁⟩
  · simp [withState, hm, Iter.isValid] at valid
  · simpa only [withState, hm] using (memAlloc_some hm).2.2

theorem withBuffer_granted {make : Nat → Nat → Iter t}
    (valid : (withBuffer m size bufSize drop make).1.isValid = true) :
    (withBuffer m size bufSize drop make).2.refusals = m.refusals := by
  rcases hm : memAlloc m size with ⟨_ | addr, m₁⟩ <;>
  rcases hm' : memAlloc m₁ bufSize with ⟨_ | buf, m₂⟩
  · simp [withBuffer, hm, hm', Iter.isValid] at valid
  · simp [withBuffer, hm, hm', Iter.isValid] at valid
  · simp [withBuffer, hm, hm', Iter.isValid] at valid
  · simpa only [withBuffer, hm, hm'] using (memAlloc_some hm').2.2.trans (memAlloc_some hm).2.2

end Constructors

end Seqc
