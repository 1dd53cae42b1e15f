import Seqc.Str
import Seqc.Custody

/-! iter.c: the sources and the adaptors. An iterator is its state; the zero `iter_t` is
`failed`. Elements are values of the types below, and an element that points into a
buffer stands for what it points at when it is handed out: `iter_dedup`, `iter_window`
and `iter_chunks` keep elements between calls, so they take elements held by value only.
What a call that returns false leaves in `out` or in a buffer is not modelled: only a window
whose source goes on after its end reads it again. `next` has a bound on the depth of its
calls; with enough of it, it is `iter_next`. -/

namespace Seqc
open Iteration

/-! ### Elements -/

/-- The types of elements: held by value, pairs of `iter_zip`, `enum_entry_t` and
`slice_t`. -/
inductive ElemType : Type 1 where
  | value (α : Type) (size : Nat)
  | pair (a b : ElemType)
  | entry (a : ElemType)
  | slice (a : ElemType)

namespace ElemType

@[reducible] def Val : ElemType → Type
  | value α _ => α
  | pair a b => Val a × Val b
  | entry a => Nat × Val a
  | slice a => List (Val a)

/-- `elem_size`. -/
def size : ElemType → Nat
  | value _ size => size
  | pair a b => addSize a.size b.size
  | entry _ => 16
  | slice _ => 24

def byValue : ElemType → Bool
  | value _ _ => true
  | pair a b => a.byValue && b.byValue
  | entry _ => false
  | slice _ => false

@[reducible] def longLong : ElemType := value Int 8
@[reducible] def string : ElemType := value Str sizeofString

end ElemType

variable {s t : ElemType}

/-! ### Sources with a state of their own -/

/-- The values of a source that ends within `n` calls, none of them undefined, and the
state it then is in. -/
def listWithin {σ β : Type} (call : σ → Option (Option β × σ)) :
    (n : Nat) → σ → Option (List β × σ)
  | 0, _ => none
  | n + 1, s =>
    match call s with
    | none => none
    | some (none, s) => some ([], s)
    | some (some x, s) => (listWithin call n s).map fun r => (x :: r.1, r.2)

/-- `generate_state_t` with a function that returns false at some point: after `values`,
and it leaves the context `last`. -/
structure FiniteGenerator (β : Type) where
  σ : Type
  fn : σ → Option β × σ
  ctx : σ
  calls : Nat
  values : List β
  last : σ
  ends : listWithin (fun c => some (fn c)) calls ctx = some (values, last)

/-- `range_state_t`. -/
structure RangeState where
  cur : Int
  stop : Int
  step : Int

/-- The signed 64-bit range of `long long`. -/
def fitsLongLong (x : Int) : Prop := -2 ^ 63 ≤ x ∧ x < 2 ^ 63

instance (x : Int) : Decidable (fitsLongLong x) := by
  unfold fitsLongLong
  infer_instance

/-- `none` if `s->cur += s->step` overflows, which is undefined. -/
def rangeNext (s : RangeState) : Option (Option Int × RangeState) :=
  if 0 < s.step ∧ s.stop ≤ s.cur then some (none, s)
  else if s.step < 0 ∧ s.cur ≤ s.stop then some (none, s)
  else if fitsLongLong (s.cur + s.step) then
    some (some s.cur, { s with cur := s.cur + s.step })
  else none

/-- The state `iter_range` makes; a step of 0 gives an empty range. -/
def rangeStart (start stop step : Int) : RangeState :=
  if step = 0 then ⟨start, start, 1⟩ else ⟨start, stop, step⟩

/-- Arguments of `iter_range` for which no call overflows. -/
structure DefinedRange where
  start : Int
  stop : Int
  step : Int
  calls : Nat
  values : List Int
  last : RangeState
  ends : listWithin rangeNext calls (rangeStart start stop step) = some (values, last)

/-! ### Expressions and iterators -/

/-- An expression that makes an iterator. -/
inductive IterExpr : ElemType → Type 1 where
  | fromSlice {t : ElemType} (contents : List t.Val) : IterExpr t
  | fromSliceRev {t : ElemType} (contents : List t.Val) : IterExpr t
  | generate {t : ElemType} (g : FiniteGenerator t.Val) : IterExpr t
  | range (r : DefinedRange) : IterExpr .longLong
  | splitSubstr (str delim : Str) : IterExpr .string
  | splitAny (str set : Str) : IterExpr .string
  | filter {t : ElemType} (source : IterExpr t) (pred : t.Val → Bool) : IterExpr t
  | map {s t : ElemType} (source : IterExpr s) (fn : s.Val → t.Val) : IterExpr t
  | take {t : ElemType} (source : IterExpr t) (n : Nat) : IterExpr t
  | takeWhile {t : ElemType} (source : IterExpr t) (pred : t.Val → Bool) : IterExpr t
  | skip {t : ElemType} (source : IterExpr t) (n : Nat) : IterExpr t
  | skipWhile {t : ElemType} (source : IterExpr t) (pred : t.Val → Bool) : IterExpr t
  | chain {t : ElemType} (a b : IterExpr t) : IterExpr t
  | zip {s t : ElemType} (a : IterExpr s) (b : IterExpr t) : IterExpr (.pair s t)
  | enumerate {t : ElemType} (source : IterExpr t) : IterExpr (.entry t)
  | window {t : ElemType} (held : t.byValue = true) (source : IterExpr t) (n : Nat) :
      IterExpr (.slice t)
  | chunks {t : ElemType} (held : t.byValue = true) (source : IterExpr t) (n : Nat) :
      IterExpr (.slice t)
  | peekable {t : ElemType} (source : IterExpr t) : IterExpr t
  | dedup {t : ElemType} (held : t.byValue = true) (source : IterExpr t)
      (cmp : t.Val → t.Val → Int) : IterExpr t
  | flatMap {s t : ElemType} (source : IterExpr s) (fn : s.Val → IterExpr t) : IterExpr t

/-- An iterator: the state behind `iter_t`, with the address of its block and of its
buffer, or one of another module. The function of `iter_flat_map` is the iterator it makes
and the memory `after`. -/
inductive Iter : ElemType → Type 1 where
  | failed {t : ElemType} : Iter t
  | fromSlice {t : ElemType} (addr : Nat) (contents : List t.Val) (pos : Nat) : Iter t
  | fromSliceRev {t : ElemType} (addr : Nat) (contents : List t.Val) (pos : Nat) : Iter t
  | generate {t : ElemType} (addr : Nat) {σ : Type} (fn : σ → Option t.Val × σ) (ctx : σ) : Iter t
  | range (addr : Nat) (state : RangeState) : Iter .longLong
  | split (addr : Nat) (state : SplitState) : Iter .string
  | foreign {t : ElemType} {σ : Type} (it : OwnedIterT σ t.Val) : Iter t
  | filter {t : ElemType} (addr : Nat) (source : Iter t) (pred : t.Val → Bool) : Iter t
  | map {s t : ElemType} (addr inBuf : Nat) (source : Iter s) (fn : s.Val → t.Val) : Iter t
  | take {t : ElemType} (addr : Nat) (source : Iter t) (remaining : Nat) : Iter t
  | takeWhile {t : ElemType} (addr : Nat) (source : Iter t) (pred : t.Val → Bool) : Iter t
  | skip {t : ElemType} (addr : Nat) (source : Iter t) (remaining : Nat) : Iter t
  | skipWhile {t : ElemType} (addr : Nat) (source : Iter t) (pred : t.Val → Bool)
      (doneSkipping : Bool) : Iter t
  | chain {t : ElemType} (addr : Nat) (first second : Iter t) (doneFirst : Bool) : Iter t
  | zip {s t : ElemType} (addr bufA : Nat) (a : Iter s) (b : Iter t) : Iter (.pair s t)
  | enumerate {t : ElemType} (addr buf : Nat) (source : Iter t) (index : Nat) : Iter (.entry t)
  | window {t : ElemType} (addr : Nat) (buf : Option Nat) (source : Iter t) (n : Nat)
      (contents : List t.Val) (primed : Bool) : Iter (.slice t)
  | chunks {t : ElemType} (addr : Nat) (buf : Option Nat) (source : Iter t) (n : Nat)
      (done : Bool) : Iter (.slice t)
  | peekable {t : ElemType} (addr buf : Nat) (source : Iter t) (peeked : Option t.Val)
      (sourceDone : Bool) : Iter t
  | dedup {t : ElemType} (addr lastBuf : Nat) (source : Iter t) (cmp : t.Val → t.Val → Int)
      (last : Option t.Val) : Iter t
  | flatMap {s t : ElemType} (addr elemBuf : Nat) (source : Iter s) (fn : s.Val → Mem → Iter t)
      (after : s.Val → Mem → Mem) (sub : Iter t) (subActive : Bool) : Iter t

namespace Iter

/-- `iter_is_valid`. -/
def isValid : Iter t → Bool
  | failed => false
  | _ => true

def sizeofSliceState : Nat := 32
def sizeofGenerateState : Nat := 16
def sizeofRangeState : Nat := 24
def sizeofFilterState : Nat := 72
def sizeofMapState : Nat := 80
def sizeofTakeState : Nat := 64
def sizeofTakeWhileState : Nat := 72
def sizeofSkipState : Nat := 64
def sizeofSkipWhileState : Nat := 80
def sizeofChainState : Nat := 120
def sizeofZipState : Nat := 128
def sizeofEnumState : Nat := 72
def sizeofWindowState : Nat := 104
def sizeofChunkState : Nat := 104
def sizeofPeekableState : Nat := 72
def sizeofDedupState : Nat := 80
def sizeofFlatMapState : Nat := 168

/-- A block that may not have been allocated. -/
def freeIf (m : Mem) (addr : Option Nat) (size : Nat) : Mem :=
  match addr with
  | none => m
  | some addr => memFree m (some addr) size

/-- `iter_destroy`. -/
def destroy : {t : ElemType} → Iter t → Mem → Mem
  | _, failed, m => m
  | _, fromSlice addr _ _, m => memFree m (some addr) sizeofSliceState
  | _, fromSliceRev addr _ _, m => memFree m (some addr) sizeofSliceState
  | _, generate addr _ _, m => memFree m (some addr) sizeofGenerateState
  | _, range addr _, m => memFree m (some addr) sizeofRangeState
  | _, split addr _, m => memFree m (some addr) sizeofSplitState
  | _, foreign it, m => it.destroy it.state m
  | _, filter addr source _, m => memFree (destroy source m) (some addr) sizeofFilterState
  | _, map (s := s) addr inBuf source _, m =>
    memFree (memFree (destroy source m) (some inBuf) s.size) (some addr) sizeofMapState
  | _, take addr source _, m => memFree (destroy source m) (some addr) sizeofTakeState
  | _, takeWhile addr source _, m => memFree (destroy source m) (some addr) sizeofTakeWhileState
  | _, skip addr source _, m => memFree (destroy source m) (some addr) sizeofSkipState
  | _, skipWhile addr source _ _, m => memFree (destroy source m) (some addr) sizeofSkipWhileState
  | _, chain addr first second _, m =>
    memFree (destroy second (destroy first m)) (some addr) sizeofChainState
  | _, zip (s := s) addr bufA a b, m =>
    memFree (memFree (destroy b (destroy a m)) (some bufA) s.size) (some addr) sizeofZipState
  | _, enumerate (t := t) addr buf source _, m =>
    memFree (memFree (destroy source m) (some buf) t.size) (some addr) sizeofEnumState
  | _, window (t := t) addr buf source n _ _, m =>
    memFree (freeIf (destroy source m) buf (mulSize n t.size)) (some addr) sizeofWindowState
  | _, chunks (t := t) addr buf source n _, m =>
    memFree (freeIf (destroy source m) buf (mulSize n t.size)) (some addr) sizeofChunkState
  | t, peekable addr buf source _ _, m =>
    memFree (memFree (destroy source m) (some buf) t.size) (some addr) sizeofPeekableState
  | t, dedup addr lastBuf source _ _, m =>
    memFree (memFree (destroy source m) (some lastBuf) t.size) (some addr) sizeofDedupState
  | _, flatMap (s := s) addr elemBuf source _ _ sub subActive, m =>
    let m := if subActive then destroy sub m else m
    memFree (memFree (destroy source m) (some elemBuf) s.size) (some addr) sizeofFlatMapState

end Iter

open Iter

/-! ### Construction -/

/-- A source, or an adaptor that needs a state block only: if it cannot have it, it
drops its sources and fails. -/
def withState (m : Mem) (size : Nat) (drop : Mem → Mem) (make : Nat → Iter t) : Iter t × Mem :=
  match memAlloc m size with
  | (none, m) => (.failed, drop m)
  | (some addr, m) => (make addr, m)

/-- An adaptor that requests its state block and its buffer and then looks at both. -/
def withBuffer (m : Mem) (size bufSize : Nat) (drop : Mem → Mem) (make : Nat → Nat → Iter t) :
    Iter t × Mem :=
  match memAlloc m size with
  | (state, m) =>
    match state, memAlloc m bufSize with
    | some addr, (some buf, m) => (make addr buf, m)
    | state, (buf, m) => (.failed, drop (freeIf (freeIf m state size) buf bufSize))

def iterFromSlice (contents : List t.Val) (m : Mem) : Iter t × Mem :=
  withState m sizeofSliceState id fun addr => .fromSlice addr contents 0

def iterFromSliceRev (contents : List t.Val) (m : Mem) : Iter t × Mem :=
  withState m sizeofSliceState id fun addr => .fromSliceRev addr contents contents.length

def iterGenerate {σ : Type} (fn : σ → Option t.Val × σ) (ctx : σ) (m : Mem) : Iter t × Mem :=
  withState m sizeofGenerateState id fun addr => .generate addr fn ctx

def iterRange (start stop step : Int) (m : Mem) : Iter .longLong × Mem :=
  withState m sizeofRangeState id fun addr => .range addr (rangeStart start stop step)

/-- `split_make`, here as an iterator that adaptors can take. -/
def iterSplit (str delim : Str) (anychar : Bool) (m : Mem) : Iter .string × Mem :=
  withState m sizeofSplitState id fun addr => .split addr ⟨str, delim, 0, anychar⟩

def iterFilter (source : Iter t) (pred : t.Val → Bool) (m : Mem) : Iter t × Mem :=
  if source.isValid then
    withState m sizeofFilterState source.destroy fun addr => .filter addr source pred
  else (.failed, m)

def iterMap (source : Iter s) (fn : s.Val → t.Val) (m : Mem) : Iter t × Mem :=
  if source.isValid then
    match memAlloc m sizeofMapState with
    | (none, m) => (.failed, source.destroy m)
    | (some addr, m) =>
      match memAlloc m s.size with
      | (none, m) => (.failed, source.destroy (memFree m (some addr) sizeofMapState))
      | (some inBuf, m) => (.map addr inBuf source fn, m)
  else (.failed, m)

def iterTake (source : Iter t) (n : Nat) (m : Mem) : Iter t × Mem :=
  if source.isValid then withState m sizeofTakeState source.destroy fun addr => .take addr source n
  else (.failed, m)

def iterTakeWhile (source : Iter t) (pred : t.Val → Bool) (m : Mem) : Iter t × Mem :=
  if source.isValid then
    withState m sizeofTakeWhileState source.destroy fun addr => .takeWhile addr source pred
  else (.failed, m)

def iterSkip (source : Iter t) (n : Nat) (m : Mem) : Iter t × Mem :=
  if source.isValid then withState m sizeofSkipState source.destroy fun addr => .skip addr source n
  else (.failed, m)

def iterSkipWhile (source : Iter t) (pred : t.Val → Bool) (m : Mem) : Iter t × Mem :=
  if source.isValid then
    withState m sizeofSkipWhileState source.destroy fun addr => .skipWhile addr source pred false
  else (.failed, m)

def iterChain (a b : Iter t) (m : Mem) : Iter t × Mem :=
  let drop := fun m => b.destroy (a.destroy m)
  if a.isValid ∧ b.isValid then
    withState m sizeofChainState drop fun addr => .chain addr a b false
  else (.failed, drop m)

def iterZip (a : Iter s) (b : Iter t) (m : Mem) : Iter (.pair s t) × Mem :=
  let drop := fun m => b.destroy (a.destroy m)
  if a.isValid ∧ b.isValid then
    withBuffer m sizeofZipState s.size drop fun addr bufA => .zip addr bufA a b
  else (.failed, drop m)

def iterEnumerate (source : Iter t) (m : Mem) : Iter (.entry t) × Mem :=
  if source.isValid then
    withBuffer m sizeofEnumState t.size source.destroy fun addr buf => .enumerate addr buf source 0
  else (.failed, m)

/-- `n = 0` needs no buffer. -/
def iterWindow (source : Iter t) (n : Nat) (m : Mem) : Iter (.slice t) × Mem :=
  if source.isValid then
    if n = 0 then
      withState m sizeofWindowState source.destroy fun addr =>
        .window addr none source n [] false
    else
      withBuffer m sizeofWindowState (mulSize n t.size) source.destroy fun addr buf =>
        .window addr (some buf) source n [] false
  else (.failed, m)

def iterChunks (source : Iter t) (n : Nat) (m : Mem) : Iter (.slice t) × Mem :=
  if source.isValid then
    if n = 0 then
      withState m sizeofChunkState source.destroy fun addr => .chunks addr none source n false
    else
      withBuffer m sizeofChunkState (mulSize n t.size) source.destroy fun addr buf =>
        .chunks addr (some buf) source n false
  else (.failed, m)

def iterPeekable (source : Iter t) (m : Mem) : Iter t × Mem :=
  if source.isValid then
    withBuffer m sizeofPeekableState t.size source.destroy fun addr buf =>
      .peekable addr buf source none false
  else (.failed, m)

def iterDedup (source : Iter t) (cmp : t.Val → t.Val → Int) (m : Mem) : Iter t × Mem :=
  if source.isValid then
    withBuffer m sizeofDedupState t.size source.destroy fun addr lastBuf =>
      .dedup addr lastBuf source cmp none
  else (.failed, m)

def iterFlatMap (source : Iter s) (fn : s.Val → Mem → Iter t × Mem) (m : Mem) : Iter t × Mem :=
  if source.isValid then
    withBuffer m sizeofFlatMapState s.size source.destroy fun addr elemBuf =>
      .flatMap addr elemBuf source (fun x m => (fn x m).1) (fun x m => (fn x m).2) .failed false
  else (.failed, m)

/-- What evaluating the expression makes. -/
def IterExpr.build : {t : ElemType} → IterExpr t → Mem → Iter t × Mem
  | _, .fromSlice contents, m => iterFromSlice contents m
  | _, .fromSliceRev contents, m => iterFromSliceRev contents m
  | _, .generate g, m => iterGenerate g.fn g.ctx m
  | _, .range r, m => iterRange r.start r.stop r.step m
  | _, .splitSubstr str delim, m => iterSplit str delim false m
  | _, .splitAny str set, m => iterSplit str set true m
  | _, .filter source pred, m => iterFilter (source.build m).1 pred (source.build m).2
  | _, .map source fn, m => iterMap (source.build m).1 fn (source.build m).2
  | _, .take source n, m => iterTake (source.build m).1 n (source.build m).2
  | _, .takeWhile source pred, m => iterTakeWhile (source.build m).1 pred (source.build m).2
  | _, .skip source n, m => iterSkip (source.build m).1 n (source.build m).2
  | _, .skipWhile source pred, m => iterSkipWhile (source.build m).1 pred (source.build m).2
  | _, .chain a b, m =>
    let (a, m) := a.build m
    let (b, m) := b.build m
    iterChain a b m
  | _, .zip a b, m =>
    let (a, m) := a.build m
    let (b, m) := b.build m
    iterZip a b m
  | _, .enumerate source, m => iterEnumerate (source.build m).1 (source.build m).2
  | _, .window _ source n, m => iterWindow (source.build m).1 n (source.build m).2
  | _, .chunks _ source n, m => iterChunks (source.build m).1 n (source.build m).2
  | _, .peekable source, m => iterPeekable (source.build m).1 (source.build m).2
  | _, .dedup _ source cmp, m => iterDedup (source.build m).1 cmp (source.build m).2
  | _, .flatMap source fn, m =>
    iterFlatMap (source.build m).1 (fun x => (fn x).build) (source.build m).2

/-! ### `iter_next` -/

namespace Iter

/-- One call; a loop is a call on the iterator as the pass before left it. -/
def next : (fuel : Nat) → {t : ElemType} → Iter t → Mem → Option (Option t.Val × Iter t × Mem)
  | 0, _, _, _ => none
  | fuel + 1, _, it, m =>
    match it with
    | failed => some (none, failed, m)
    | fromSlice addr contents pos =>
      match (contents.drop pos).head? with
      | none => some (none, fromSlice addr contents pos, m)
      | some x => some (some x, fromSlice addr contents (pos + 1), m)
    | fromSliceRev addr contents pos =>
      if pos = 0 then some (none, fromSliceRev addr contents pos, m)
      else
        match (contents.drop (pos - 1)).head? with
        | none => none
        | some x => some (some x, fromSliceRev addr contents (pos - 1), m)
    | generate addr fn ctx => some ((fn ctx).1, generate addr fn (fn ctx).2, m)
    | range addr state =>
      match rangeNext state with
      | none => none
      | some (x, state) => some (x, range addr state, m)
    | split addr state => some ((splitNext state).1, split addr (splitNext state).2, m)
    | foreign it =>
      match it.next fuel it.state m with
      | none => none
      | some (x, s, m) => some (x, foreign (it.after s), m)
    | filter addr source pred => do
      let (x, source, m) ← next fuel source m
      match x with
      | none => pure (none, filter addr source pred, m)
      | some x =>
        if pred x then pure (some x, filter addr source pred, m)
        else next fuel (filter addr source pred) m
    | map addr inBuf source fn => do
      let (x, source, m) ← next fuel source m
      pure (x.map fn, map addr inBuf source fn, m)
    | take addr source remaining =>
      if remaining = 0 then some (none, take addr source remaining, m)
      else do
        let (x, source, m) ← next fuel source m
        match x with
        | none => pure (none, take addr source remaining, m)
        | some x => pure (some x, take addr source (remaining - 1), m)
    | takeWhile addr source pred => do
      let (x, source, m) ← next fuel source m
      match x with
      | none => pure (none, takeWhile addr source pred, m)
      | some x =>
        if pred x then pure (some x, takeWhile addr source pred, m)
        else pure (none, takeWhile addr source pred, m)
    | skip addr source remaining => do
      let (x, source, m) ← next fuel source m
      if remaining = 0 then pure (x, skip addr source remaining, m)
      else
        match x with
        | none => pure (none, skip addr source remaining, m)
        | some _ => next fuel (skip addr source (remaining - 1)) m
    | skipWhile addr source pred doneSkipping => do
      let (x, source, m) ← next fuel source m
      match x with
      | none => pure (none, skipWhile addr source pred doneSkipping, m)
      | some x =>
        if doneSkipping || !pred x then pure (some x, skipWhile addr source pred true, m)
        else next fuel (skipWhile addr source pred doneSkipping) m
    | chain addr first second doneFirst =>
      if doneFirst then do
        let (x, second, m) ← next fuel second m
        pure (x, chain addr first second true, m)
      else do
        let (x, first, m) ← next fuel first m
        match x with
        | some x => pure (some x, chain addr first second false, m)
        | none => next fuel (chain addr first second true) m
    | zip addr bufA a b => do
      let (x, a, m) ← next fuel a m
      match x with
      | none => pure (none, zip addr bufA a b, m)
      | some x =>
        let (y, b, m) ← next fuel b m
        match y with
        | none => pure (none, zip addr bufA a b, m)
        | some y => pure (some (x, y), zip addr bufA a b, m)
    | enumerate addr buf source index => do
      let (x, source, m) ← next fuel source m
      match x with
      | none => pure (none, enumerate addr buf source index, m)
      | some x => pure (some (index, x), enumerate addr buf source (addSize index 1), m)
    | window addr buf source n contents primed =>
      if n = 0 then some (none, window addr buf source n contents primed, m)
      else if primed then do
        let (x, source, m) ← next fuel source m
        match x with
        -- The buffer keeps a stale last slot here, left out of `contents`: only a window called
        -- again over a source that goes on after its end would read it.
        | none => pure (none, window addr buf source n contents.tail primed, m)
        | some x =>
          pure (some (contents.tail ++ [x]), window addr buf source n (contents.tail ++ [x]) primed, m)
      else do
        let (xs, source, m) ← readUpTo (next fuel) n source m
        if xs.length < n then pure (none, window addr buf source n xs false, m)
        else pure (some xs, window addr buf source n xs true, m)
    | chunks addr buf source n done =>
      if done then some (none, chunks addr buf source n done, m)
      else do
        let (xs, source, m) ← readUpTo (next fuel) n source m
        if xs.length = 0 then pure (none, chunks addr buf source n done, m)
        else pure (some xs, chunks addr buf source n (decide (xs.length < n)), m)
    | peekable addr buf source peeked sourceDone =>
      match peeked with
      | some x => some (some x, peekable addr buf source none sourceDone, m)
      | none =>
        if sourceDone then some (none, peekable addr buf source none sourceDone, m)
        else do
          let (x, source, m) ← next fuel source m
          pure (x, peekable addr buf source none sourceDone, m)
    | dedup addr lastBuf source cmp last => do
      let (x, source, m) ← next fuel source m
      match x with
      | none => pure (none, dedup addr lastBuf source cmp last, m)
      | some x =>
        match last with
        | none => pure (some x, dedup addr lastBuf source cmp (some x), m)
        | some y =>
          if cmp x y ≠ 0 then pure (some x, dedup addr lastBuf source cmp (some x), m)
          else next fuel (dedup addr lastBuf source cmp (some y)) m
    | flatMap addr elemBuf source fn after sub subActive =>
      if subActive then do
        let (y, sub, m) ← next fuel sub m
        match y with
        | some y => pure (some y, flatMap addr elemBuf source fn after sub true, m)
        | none => next fuel (flatMap addr elemBuf source fn after sub false) (sub.destroy m)
      else do
        let (x, source, m) ← next fuel source m
        match x with
        | none => pure (none, flatMap addr elemBuf source fn after sub false, m)
        | some x => next fuel (flatMap addr elemBuf source fn after (fn x m) true) (after x m)

attribute [simp] next

/-- `iter_peek`: false, unless the iterator is peekable. -/
def peek (fuel : Nat) (it : Iter t) (m : Mem) : Option (Option t.Val × Iter t × Mem) :=
  match it with
  | peekable addr buf source peeked sourceDone =>
    match peeked with
    | some x => some (some x, peekable addr buf source (some x) sourceDone, m)
    | none =>
      if sourceDone then some (none, peekable addr buf source none sourceDone, m)
      else do
        let (x, source, m) ← source.next fuel m
        match x with
        | none => pure (none, peekable addr buf source none true, m)
        | some x => pure (some x, peekable addr buf source (some x) sourceDone, m)
  | it => some (none, it, m)

/-- The iterator as its consumers see it: an element is read when it is handed out. -/
def asIterT : Iter t → Option (IterT (Iter t) t.Val)
  | failed => none
  | it => some { next := fun fuel it => it.next fuel, destroy := destroy, state := it, elemSize := t.size }

end Iter

end Seqc
