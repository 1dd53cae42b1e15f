import Seqc.Ownership

/-! Where `window_next` and `chunk_next` store what they read. The constructors compute the
size of the buffer modulo 2^64, and `n`, the bound of the loops that fill it, is not
reduced. -/

namespace Seqc
open Iteration

variable {t : ElemType} {it it' : Iter (.slice t)} {source : Iter t} {m m₁ m' : Mem} {n : Nat}

namespace Iter

/-- `s->buf`. -/
def buffer : Iter (.slice t) → Option Nat
  | window _ buf _ _ _ _ => buf
  | chunks _ buf _ _ _ => buf
  | _ => none

/-- The offsets of the elements that a loop over the slots reads: `i * s->elem_size`, as
`size_t`. -/
def fillStores (fuel : Nat) (source : Iter t) (n : Nat) (m : Mem) : Option (List Nat) :=
  (readUpTo (next fuel) n source m).map fun r =>
    (List.range r.1.length).map fun i => mulSize i t.size

/-- The offsets in the buffer at which a call stores the elements it reads. -/
def stores (fuel : Nat) (it : Iter (.slice t)) (m : Mem) : Option (List Nat) :=
  match it with
  | window _ _ source n _ primed =>
    if n = 0 then some []
    else if primed then
      (source.next fuel m).map fun r => r.1.toList.map fun _ => mulSize (n - 1) t.size
    else fillStores fuel source n m
  | chunks _ _ source n done => if done then some [] else fillStores fuel source n m
  | _ => some []

end Iter

/-- The buffer was the last request granted, with `size` bytes; no buffer has none. -/
def BufferBytes (buf : Option Nat) (m : Mem) (size : Nat) : Prop :=
  match buf with
  | none => size = 0
  | some addr => m.events.getLast? = some (.alloc addr size)

/-- The buffer has room for `n` elements, and every call stores inside it what it reads. -/
def StaysInBuffer (n : Nat) (it : Iter (.slice t)) (m : Mem) : Prop :=
  ∃ size, BufferBytes it.buffer m size ∧ n * t.size ≤ size ∧
    ∀ it₁, Called (Iter.call (.slice t)) it it₁ → it₁.buffer = it.buffer ∧
      ∀ fuel m₁ r, it₁.next (fuel + 1) m₁ = some r →
        ∃ offsets, it₁.stores fuel m₁ = some offsets ∧ ∀ o ∈ offsets, o + t.size ≤ size

/-- What calls keep: the iterator is still of `iter_window` or `iter_chunks`, with the same
buffer and width. -/
inductive Buffered (buf : Option Nat) (n : Nat) : Iter (.slice t) → Prop
  | window {addr : Nat} {source : Iter t} {contents : List t.Val} {primed : Bool} :
      Buffered buf n (.window addr buf source n contents primed)
  | chunks {addr : Nat} {source : Iter t} {done : Bool} :
      Buffered buf n (.chunks addr buf source n done)

section Calls
variable {buf : Option Nat} {fuel : Nat} {out : Option (List t.Val)}

theorem Buffered.buffer_eq (h : Buffered buf n it) : it.buffer = buf := by
  cases h <;> rfl

theorem Buffered.step (h : Buffered buf n it) (call : it.next fuel m = some (out, it', m')) :
    Buffered buf n it' := by
  cases fuel with
  | zero => simp [Iter.next] at call
  | succ fuel =>
    cases h with
    | @window addr source contents primed =>
      rw [Iter.next] at call
      split at call
      · cases call
        exact .window
      · split at call
        · obtain ⟨⟨x, source', m₂⟩, -, rest⟩ := Option.bind_eq_some_iff.mp call
          cases x <;> cases rest <;> exact .window
        · obtain ⟨⟨xs, source', m₂⟩, -, rest⟩ := Option.bind_eq_some_iff.mp call
          dsimp only at rest
          split at rest <;> cases rest <;> exact .window
    | @chunks addr source done =>
      rw [Iter.next] at call
      split at call
      · cases call
        exact .chunks
      · obtain ⟨⟨xs, source', m₂⟩, -, rest⟩ := Option.bind_eq_some_iff.mp call
        dsimp only at rest
        split at rest <;> cases rest <;> exact .chunks

theorem Buffered.called (h : Buffered buf n it) (calls : Called (Iter.call (.slice t)) it it') :
    Buffered buf n it' :=
  calls.keeps h fun _ _ _ _ _ here ⟨_, returns⟩ => here.step returns

/-- Slots below `n` are inside a buffer of `n` elements whose size did not wrap. -/
theorem slot_inside {i n e : Nat} (fits : n * e < 2 ^ 64) (less : i < n) :
    mulSize i e + e ≤ n * e := by
  have bound : (i + 1) * e ≤ n * e := Nat.mul_le_mul_right e less
  rw [add_mul, one_mul] at bound
  rw [mulSize_of_lt (by omega)]
  exact bound

theorem fillStores_inside (fits : n * t.size < 2 ^ 64) {r : List t.Val × Iter t × Mem}
    (read : readUpTo (Iter.next fuel) n source m = some r) :
    ∃ offsets, Iter.fillStores fuel source n m = some offsets ∧
      ∀ o ∈ offsets, o + t.size ≤ n * t.size := by
  refine ⟨_, by rw [Iter.fillStores, read]; rfl, ?_⟩
  intro o mem
  obtain ⟨i, below, rfl⟩ := List.mem_map.mp mem
  exact slot_inside fits ((List.mem_range.mp below).trans_le (readUpTo_length n read))

theorem Buffered.inside (h : Buffered buf n it) (fits : n * t.size < 2 ^ 64)
    {r : Option (List t.Val) × Iter (.slice t) × Mem} (call : it.next (fuel + 1) m = some r) :
    ∃ offsets, it.stores fuel m = some offsets ∧ ∀ o ∈ offsets, o + t.size ≤ n * t.size := by
  cases h with
  | @window addr source contents primed =>
    rw [Iter.next] at call
    simp only [Iter.stores]
    by_cases zero : n = 0
    · exact ⟨[], if_pos zero, by simp⟩
    · rw [if_neg zero] at call ⊢
      cases primed with
      | true =>
        obtain ⟨⟨x, source', m₂⟩, read, -⟩ := Option.bind_eq_some_iff.mp call
        refine ⟨_, by rw [if_pos rfl, read]; rfl, ?_⟩
        intro o mem
        obtain ⟨_, -, rfl⟩ := List.mem_map.mp mem
        exact slot_inside fits (by omega)
      | false =>
        obtain ⟨r', read, -⟩ := Option.bind_eq_some_iff.mp call
        exact fillStores_inside fits read
  | @chunks addr source done =>
    rw [Iter.next] at call
    simp only [Iter.stores]
    cases done with
    | true => exact ⟨[], rfl, by simp⟩
    | false =>
      obtain ⟨r', read, -⟩ := Option.bind_eq_some_iff.mp call
      exact fillStores_inside fits read

end Calls

/-! ### The constructors -/

/-- A constructor that was granted its blocks requested the buffer last. -/
theorem withBuffer_made {size bufSize : Nat} {drop : Mem → Mem}
    {make : Nat → Nat → Iter (.slice t)}
    (made : withBuffer m size bufSize drop make = (it, m')) (valid : it.isValid = true) :
    ∃ addr buf, it = make addr buf ∧ BufferBytes (some buf) m' bufSize := by
  unfold withBuffer at made
  match hm : memAlloc m size with
  | (none, m₁) =>
    simp only [hm] at made
    obtain ⟨rfl, -⟩ := Prod.mk.inj made
    simp [Iter.isValid] at valid
  | (some addr, m₁) =>
    match hm' : memAlloc m₁ bufSize with
    | (none, m₂) =>
      simp only [hm, hm'] at made
      obtain ⟨rfl, -⟩ := Prod.mk.inj made
      simp [Iter.isValid] at valid
    | (some buf, m₂) =>
      simp only [hm, hm'] at made
      obtain ⟨rfl, rfl⟩ := Prod.mk.inj made
      refine ⟨addr, buf, rfl, ?_⟩
      unfold memAlloc at hm'
      split at hm'
      · obtain ⟨here, rfl⟩ := Prod.mk.inj hm'
        obtain rfl := Option.some.inj here
        simp [BufferBytes]
      · simp at hm'

theorem withState_made {size : Nat} {drop : Mem → Mem} {make : Nat → Iter (.slice t)}
    (made : withState m size drop make = (it, m')) (valid : it.isValid = true) :
    ∃ addr, it = make addr := by
  unfold withState at made
  split at made
  · obtain ⟨rfl, -⟩ := Prod.mk.inj made
    simp [Iter.isValid] at valid
  · rename_i addr _ _
    exact ⟨addr, (Prod.mk.inj made).1.symm⟩

theorem iterWindow_buffered (made : iterWindow source n m = (it, m'))
    (valid : it.isValid = true) :
    ∃ buf, Buffered buf n it ∧ BufferBytes buf m' (mulSize n t.size) := by
  unfold iterWindow at made
  split at made
  · split at made
    · rename_i zero
      obtain ⟨addr, rfl⟩ := withState_made made valid
      exact ⟨none, .window, by simp [BufferBytes, zero, mulSize]⟩
    · obtain ⟨addr, buf, rfl, bytes⟩ := withBuffer_made made valid
      exact ⟨some buf, .window, bytes⟩
  · obtain ⟨rfl, -⟩ := Prod.mk.inj made
    simp [Iter.isValid] at valid

theorem iterChunks_buffered (made : iterChunks source n m = (it, m'))
    (valid : it.isValid = true) :
    ∃ buf, Buffered buf n it ∧ BufferBytes buf m' (mulSize n t.size) := by
  unfold iterChunks at made
  split at made
  · split at made
    · rename_i zero
      obtain ⟨addr, rfl⟩ := withState_made made valid
      exact ⟨none, .chunks, by simp [BufferBytes, zero, mulSize]⟩
    · obtain ⟨addr, buf, rfl, bytes⟩ := withBuffer_made made valid
      exact ⟨some buf, .chunks, bytes⟩
  · obtain ⟨rfl, -⟩ := Prod.mk.inj made
    simp [Iter.isValid] at valid

theorem BufferBytes.unique {buf : Option Nat} {a b : Nat} (ha : BufferBytes buf m a)
    (hb : BufferBytes buf m b) : a = b := by
  cases buf with
  | none => exact ha.trans hb.symm
  | some addr =>
    unfold BufferBytes at ha hb
    rw [ha] at hb
    cases hb
    rfl

/-- A buffer with the size computed modulo 2^64 is large enough if the product did not
wrap. -/
theorem Buffered.stays_iff {buf : Option Nat} (h : Buffered buf n it)
    (bytes : BufferBytes buf m (mulSize n t.size)) :
    StaysInBuffer n it m ↔ n * t.size < 2 ^ 64 := by
  constructor
  · rintro ⟨size, bytes', room, -⟩
    rw [h.buffer_eq] at bytes'
    rw [bytes'.unique bytes] at room
    exact room.trans_lt (Nat.mod_lt _ (by decide))
  · intro fits
    refine ⟨mulSize n t.size, by rwa [h.buffer_eq], (mulSize_of_lt fits).ge, ?_⟩
    intro it₁ calls
    have later := h.called calls
    refine ⟨later.buffer_eq.trans h.buffer_eq.symm, fun fuel m₁ r call => ?_⟩
    rw [mulSize_of_lt fits]
    exact later.inside fits call

/-- The buffers of `iter_window` and `iter_chunks` hold `n` elements exactly if `n` times the
element size fits in `size_t`. -/
theorem buffers_hold_iff (source : Iter t) (n : Nat) (m m' : Mem) (it : Iter (.slice t))
    (made : iterWindow source n m = (it, m') ∨ iterChunks source n m = (it, m'))
    (valid : it.isValid = true) : StaysInBuffer n it m' ↔ n * t.size < 2 ^ 64 := by
  cases made with
  | inl window =>
    obtain ⟨buf, buffered, bytes⟩ := iterWindow_buffered window valid
    exact buffered.stays_iff bytes
  | inr chunks =>
    obtain ⟨buf, buffered, bytes⟩ := iterChunks_buffered chunks valid
    exact buffered.stays_iff bytes

theorem buffers_hold_iff_three :
    (StaysInBuffer 3 (.window 0 (some 1) (.fromSlice 0 [4, 5] 0 : Iter .longLong) 3 [] false)
        (iterWindow (.fromSlice 0 [4, 5] 0 : Iter .longLong) 3 (.start .generous)).2 ↔
      3 * 8 < 2 ^ 64) ∧
    (StaysInBuffer 2 (.chunks 0 (some 1) (.fromSlice 0 [4, 5] 0 : Iter .longLong) 2 false)
        (iterChunks (.fromSlice 0 [4, 5] 0 : Iter .longLong) 2 (.start .generous)).2 ↔
      2 * 8 < 2 ^ 64) :=
  ⟨buffers_hold_iff (t := .longLong) (.fromSlice 0 [4, 5] 0) 3 (.start .generous) _ _
      (.inl (by rfl)) rfl,
    buffers_hold_iff (t := .longLong) (.fromSlice 0 [4, 5] 0) 2 (.start .generous) _ _
      (.inr (by rfl)) rfl⟩

/-- A window of 2^61 + 1 elements of 8 bytes is given a buffer of 8 bytes. -/
theorem iterWindow_wraps :
    ∃ it m', iterWindow (.fromSlice 0 [4, 5] 0 : Iter .longLong) (2 ^ 61 + 1) (.start .generous) =
        (it, m') ∧ it.isValid = true ∧ ¬StaysInBuffer (2 ^ 61 + 1) it m' := by
  refine ⟨_, _, rfl, rfl, ?_⟩
  rintro ⟨size, bytes, room, -⟩
  have granted : BufferBytes (some 1)
      (iterWindow (.fromSlice 0 [4, 5] 0 : Iter .longLong) (2 ^ 61 + 1) (.start .generous)).2 8 :=
    rfl
  rw [bytes.unique granted] at room
  revert room
  decide

end Seqc
