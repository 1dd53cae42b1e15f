import Seqc.Terminals

/-! string.c: byte strings, the splitting iterators, the builder and `string_join`.
`vec_t` of a builder holds single bytes, so its capacity is its size in bytes, and no
object is larger than `PTRDIFF_MAX`. -/

namespace Seqc
open Iteration

/-- `string_t`: `len` is the length of `bytes`, which are those of one object. -/
structure Str where
  ptr : Option Nat
  bytes : List UInt8
  null_empty : ptr = none → bytes = []
  len_le : bytes.length ≤ ptrdiffMax

def sizeofString : Nat := 16
def sizeofSplitState : Nat := 48
def sizeofStrbuf : Nat := 24

/-- `STRING_NOT_FOUND`. -/
def stringNotFound : Nat := sizeMax

namespace Str

/-- `{NULL, 0}`. -/
def null : Str := ⟨none, [], fun _ => rfl, Nat.zero_le _⟩

def len (s : Str) : Nat := s.bytes.length

/-- `{s.ptr + n, s.len - n}`. -/
def drop (s : Str) (n : Nat) : Str where
  ptr := s.ptr.map (· + n)
  bytes := s.bytes.drop n
  null_empty h := by simp [s.null_empty (Option.map_eq_none_iff.mp h)]
  len_le := by
    have := s.len_le
    simp only [List.length_drop]
    omega

/-- `{s.ptr, n}`. -/
def take (s : Str) (n : Nat) : Str where
  ptr := s.ptr
  bytes := s.bytes.take n
  null_empty h := by simp [s.null_empty h]
  len_le := by
    have := s.len_le
    simp only [List.length_take]
    omega

@[simp] theorem bytes_drop (s : Str) (n : Nat) : (s.drop n).bytes = s.bytes.drop n := rfl
@[simp] theorem bytes_take (s : Str) (n : Nat) : (s.take n).bytes = s.bytes.take n := rfl
@[simp] theorem len_drop (s : Str) (n : Nat) : (s.drop n).len = s.len - n := List.length_drop

end Str

/-! ### Searching -/

/-- The loop of `string_find` over `i .. i + count - 1`. -/
def stringFindFrom (s needle : List UInt8) : (count i : Nat) → Nat
  | 0, _ => stringNotFound
  | count + 1, i =>
    if (s.drop i).take needle.length = needle then i else stringFindFrom s needle count (i + 1)

def stringFind (s needle : Str) : Nat :=
  if needle.len = 0 then 0
  else if s.len < needle.len then stringNotFound
  else stringFindFrom s.bytes needle.bytes (s.len - needle.len + 1) 0

/-- The loop of `charset_find` from `i` on. -/
def charsetFindFrom (set : List UInt8) : List UInt8 → (i : Nat) → Nat
  | [], _ => stringNotFound
  | b :: bs, i => if set.any (fun c => b = c) then i else charsetFindFrom set bs (i + 1)

def charsetFind (s set : Str) : Nat := charsetFindFrom set.bytes s.bytes 0

/-! ### The splitting iterators -/

/-- `split_state_t`; `pos` is `src.len + 1` when the tokens are exhausted. -/
structure SplitState where
  src : Str
  delim : Str
  pos : Nat
  anychar : Bool

/-- The offset and the length of the next boundary. -/
def splitBoundary (s : SplitState) (remaining : Str) : Nat × Nat :=
  if 0 < s.delim.len then
    if s.anychar then (charsetFind remaining s.delim, 1)
    else (stringFind remaining s.delim, s.delim.len)
  else (stringNotFound, s.delim.len)

def splitNext (s : SplitState) : Option Str × SplitState :=
  if s.src.len < s.pos then (none, s)
  else
    let remaining := s.src.drop s.pos
    let (off, blen) := splitBoundary s remaining
    if off = stringNotFound then (some remaining, { s with pos := s.src.len + 1 })
    else (some (remaining.take off), { s with pos := s.pos + (off + blen) })

/-- `split_next` allocates nothing and has no loop of its own. -/
def splitCall (_ : Nat) (s : Nat × SplitState) (m : Mem) :
    Option (Option Str × (Nat × SplitState) × Mem) :=
  some ((splitNext s.2).1, (s.1, (splitNext s.2).2), m)

/-- The state block is what the iterator owns; its address goes with the state. -/
def splitMake (s delim : Str) (anychar : Bool) (m : Mem) :
    Option (IterT (Nat × SplitState) Str) × Mem :=
  match memAlloc m sizeofSplitState with
  | (none, m) => (none, m)
  | (some addr, m) =>
    (some {
      next := splitCall
      destroy := fun s m => memFree m (some s.1) sizeofSplitState
      state := (addr, ⟨s, delim, 0, anychar⟩)
      elemSize := sizeofString }, m)

def stringSplitSubstr (s delim : Str) (m : Mem) : Option (IterT (Nat × SplitState) Str) × Mem :=
  splitMake s delim false m

def stringSplitAny (s set : Str) (m : Mem) : Option (IterT (Nat × SplitState) Str) × Mem :=
  splitMake s set true m

/-! ### The builder -/

/-- A vector of bytes whose buffer was granted. -/
structure ByteVec (v : Vec UInt8) : Prop where
  elemSize : v.elemSize = 1
  len_le : v.contents.length ≤ v.cap
  cap_le : v.cap ≤ ptrdiffMax
  null_cap : v.dataAddr = none → v.cap = 0

theorem ByteVec.null_empty {v : Vec UInt8} (h : ByteVec v) (null : v.dataAddr = none) :
    v.contents = [] := by
  have len := h.len_le
  rw [h.null_cap null] at len
  exact List.length_eq_zero_iff.mp (Nat.le_zero.mp len)

theorem vecPush_byteVec {v : Vec UInt8} (h : ByteVec v) (b : UInt8) (m : Mem) :
    ∃ st w m', vecPush (some v) (some b) m = (st, some w, m') ∧ ByteVec w ∧
      ((st = .ok ∧ w.contents = v.contents ++ [b] ∧ m'.refusals = m.refusals) ∨
        (st = .oom ∧ w = v ∧ m'.refusals = m.refusals + 1)) := by
  obtain ⟨elem, len, cap, null⟩ := h
  simp only [vecPush, vecGrow, elem]
  by_cases full : v.contents.length = v.cap
  · have small : ¬sizeMax / 2 < v.cap := by
      simp only [sizeMax, ptrdiffMax] at cap ⊢
      omega
    rw [if_pos full, if_neg small]
    rcases hm : memRealloc m v.dataAddr (mulSize v.contents.length 1)
      (mulSize (if v.cap = 0 then vecInitialCap else mulSize v.cap 2) 1) with ⟨_ | addr, m₁⟩
    · exact ⟨.oom, v, m₁, rfl, ⟨elem, len, cap, null⟩, .inr ⟨rfl, rfl, memRealloc_none hm⟩⟩
    · obtain ⟨-, granted, quiet⟩ := memRealloc_some hm
      refine ⟨.ok, _, m₁, rfl, ⟨rfl, ?_, ?_, by simp⟩, .inl ⟨rfl, rfl, quiet⟩⟩
      · simp only [List.length_append, List.length_singleton, full]
        by_cases zero : v.cap = 0
        · simp [zero, vecInitialCap]
        · rw [if_neg zero, mulSize_of_lt (by simp only [ptrdiffMax] at cap; omega)]
          omega
      · rwa [mulSize_of_lt, Nat.mul_one] at granted
        rw [Nat.mul_one]
        split
        · simp [vecInitialCap]
        · exact Nat.mod_lt _ (by decide)
  · rw [if_neg full]
    refine ⟨.ok, _, m, rfl, ⟨elem, ?_, cap, null⟩, .inl ⟨rfl, rfl, rfl⟩⟩
    simp only [List.length_append, List.length_singleton]
    omega

theorem vecCreate_byteVec {m m' : Mem} {v : Vec UInt8}
    (h : vecCreate UInt8 1 m = (some v, m')) : ByteVec v ∧ v.contents = [] := by
  simp only [vecCreate, Nat.one_ne_zero, dite_false] at h
  rcases hm : memAlloc m sizeofVec with ⟨_ | addr, m₁⟩
  · simp [hm] at h
  · simp only [hm, Prod.mk.injEq, Option.some.injEq] at h
    obtain ⟨rfl, -⟩ := h
    exact ⟨⟨rfl, Nat.le_refl 0, Nat.zero_le _, fun _ => rfl⟩, rfl⟩

/-- `strbuf_t`. A builder that was created has its vector. -/
structure Strbuf where
  addr : Nat
  chars : Vec UInt8
  bounded : ByteVec chars

def strbufCreate (m : Mem) : Option Strbuf × Mem :=
  match memAlloc m sizeofStrbuf with
  | (none, m) => (none, m)
  | (some addr, m) =>
    match h : vecCreate UInt8 1 m with
    | (none, m) => (none, memFree m (some addr) sizeofStrbuf)
    | (some chars, m) => (some ⟨addr, chars, (vecCreate_byteVec h).1⟩, m)

/-- `vec_push(sb->chars, &b)`. -/
def strbufPush (sb : Strbuf) (b : UInt8) (m : Mem) : Status × Strbuf × Mem :=
  match h : vecPush (some sb.chars) (some b) m with
  | (st, some chars, m') => (st, ⟨sb.addr, chars, by
      obtain ⟨_, _, _, run, bounded, _⟩ := vecPush_byteVec sb.bounded b m
      rw [h] at run
      injection run with _ rest
      injection rest with same _
      injection same with same
      exact same ▸ bounded⟩, m')
  | (st, none, m') => (st, sb, m')

def strbufAppendBytes (sb : Strbuf) (m : Mem) : List UInt8 → Status × Strbuf × Mem
  | [] => (.ok, sb, m)
  | b :: bs =>
    match strbufPush sb b m with
    | (.ok, sb, m) => strbufAppendBytes sb m bs
    | (st, sb, m) => (st, sb, m)

def strbufAppend (sb : Strbuf) (s : Str) (m : Mem) : Status × Strbuf × Mem :=
  strbufAppendBytes sb m s.bytes

/-- The bytes of the builder, where they are. -/
def strbufView (sb : Strbuf) : Str where
  ptr := sb.chars.dataAddr
  bytes := sb.chars.contents
  null_empty := sb.bounded.null_empty
  len_le := sb.bounded.len_le.trans sb.bounded.cap_le

def stringCopy (s : Str) (m : Mem) : Str × Mem :=
  if s.ptr = none ∨ s.len = 0 then (.null, m)
  else
    match memAlloc m s.len with
    | (none, m) => (.null, m)
    | (some buf, m) => (⟨some buf, s.bytes, by simp, s.len_le⟩, m)

def strbufToString (sb : Strbuf) (m : Mem) : Str × Mem := stringCopy (strbufView sb) m

def strbufDestroy (sb : Strbuf) (m : Mem) : Mem :=
  memFree (vecDestroy (some sb.chars) m) (some sb.addr) sizeofStrbuf

/-! ### `string_join` -/

/-- The locals of `string_join`. -/
structure Joining where
  status : Status
  first : Bool
  sb : Strbuf

def joinBody (sep token : Str) (j : Joining) (m : Mem) : Bool × Joining × Mem :=
  let (st, sb, m) := if j.first then (j.status, j.sb, m) else strbufAppend j.sb sep m
  let (st, sb, m) := if st = .ok then strbufAppend sb token m else (st, sb, m)
  (st = .ok, ⟨st, false, sb⟩, m)

def stringJoin {σ : Type*} (fuel : Nat) (it : Option (IterT σ Str)) (sep : Str) (m : Mem) :
    Option (Str × Mem) :=
  match (if iterIsValid it then strbufCreate m else (none, m)) with
  | (none, m) => some (.null, iterDestroy it m)
  | (some sb, m) =>
    match iterWhile fuel it (joinBody sep) ⟨.ok, true, sb⟩ m with
    | none => none
    | some (j, it, m) =>
      let m := iterDestroy it m
      let (result, m) := if j.status = .ok then strbufToString j.sb m else (.null, m)
      some (result, strbufDestroy j.sb m)

end Seqc
