import Seqc.Builder
import Seqc.Views

/-! string.c: strings as C strings, in a block or in a buffer of the caller, and as iterators of
their bytes. -/

namespace Seqc
open Iteration

variable {s : Str} {m m' : Mem}

/-! ### The calls -/

def stringFromCstr (s : Option CharPtr) (m : Mem) : Str × Mem :=
  match s with
  | none => (.null, m)
  | some s =>
    if s.chars.length = 0 then (.null, m)
    else
      match memAlloc m s.chars.length with
      | (none, m) => (.null, m)
      | (some buf, m) => (⟨some buf, s.chars, by simp, (stringViewCstr (some s)).len_le⟩, m)

def stringToCstr (s : Str) (m : Mem) : Option CharPtr × Mem :=
  match granted : memAlloc m (s.len + 1) with
  | (none, m) => (none, m)
  | (some buf, m) => (some {
      bytes := s.bytes ++ [0]
      terminated := by simp
      addr := buf
      size_le := by simpa [Str.len] using (memAlloc_some granted).2.1 }, m)

/-- The result is NULL or the buffer, of which `bufsize` bytes may be written; the second part is
what is in it then. -/
def stringToCstrBuf (s : Str) (buf : Option (List UInt8)) (bufsize : Nat) :
    Bool × Option (List UInt8) :=
  match buf with
  | none => (false, none)
  | some bytes =>
    if bufsize = 0 then (false, some bytes)
    else if bufsize ≤ s.len then (false, some bytes)
    else (true, some (s.bytes ++ 0 :: bytes.drop (s.len + 1)))

/-- The bytes of the string as elements of one byte. -/
def stringSliceChars (s : Str) : Slice UInt8 := ⟨s.ptr, s.bytes, 1⟩

def stringChars (s : Str) (m : Mem) : Option (OwnedIterT (SliceIterState UInt8) UInt8) × Mem :=
  sliceIter (stringSliceChars s) m

def stringCharsRev (s : Str) (m : Mem) : Option (OwnedIterT (SliceIterState UInt8) UInt8) × Mem :=
  sliceIterRev (stringSliceChars s) m

/-! ### C strings -/

/-- A C string is copied as its view is. -/
theorem stringFromCstr_eq (s : Option CharPtr) (m : Mem) :
    stringFromCstr s m = stringCopy (stringViewCstr s) m := by
  cases s with
  | none => rfl
  | some s =>
    by_cases empty : s.chars.length = 0
    · rw [stringFromCstr, if_pos empty, stringCopy, if_pos (.inr empty)]
    · have real : ¬((stringViewCstr (some s)).ptr = none ∨ (stringViewCstr (some s)).len = 0) := by
        rintro (null | none_left)
        · simp [stringViewCstr] at null
        · exact empty none_left
      rw [stringFromCstr, if_neg empty, stringCopy, if_neg real]
      rfl

theorem stringToCstr_spec {p : CharPtr} (made : stringToCstr s m = (some p, m')) :
    p.bytes = s.bytes ++ [0] ∧ m.Trades 0 m' {(p.addr, s.len + 1)} ∧
      m'.refusals = m.refusals := by
  unfold stringToCstr at made
  split at made
  · simp at made
  · rename_i granted
    obtain ⟨here, rfl⟩ := Prod.mk.inj made
    obtain rfl := Option.some.inj here
    exact ⟨rfl, memAlloc_trades granted, (memAlloc_some granted).2.2⟩

theorem takeWhile_nonzero (bs : List UInt8) :
    (bs ++ [0]).takeWhile (fun c => decide (c ≠ 0)) = bs.takeWhile (fun c => decide (c ≠ 0)) :=
  takeWhile_stop (by simp) bs []

/-- A string becomes a C string and comes back. What comes back ends where the first NUL was, and
is the whole string exactly if it had none; only then does the block that was requested have the
size that `strlen` says. The buffer of the caller gets the same bytes, and no others change, if
they fit with their NUL, and is left alone otherwise. -/
theorem cstr_round_trip (s : Str) (m : Mem) :
    ((stringToCstr s m).1 = none → m.refusals < (stringToCstr s m).2.refusals) ∧
    (∀ p m₁, stringToCstr s m = (some p, m₁) →
      m.Trades 0 m₁ {(p.addr, s.len + 1)} ∧
      (stringViewCstr (some p)).bytes = s.bytes.takeWhile (fun c => decide (c ≠ 0)) ∧
      ((stringViewCstr (some p)).bytes = s.bytes ↔ 0 ∉ s.bytes) ∧
      ((stringViewCstr (some p)).len + 1 = s.len + 1 ↔ 0 ∉ s.bytes) ∧
      (∀ r m₂, stringFromCstr (some p) m₁ = (r, m₂) → m₁.Trades 0 m₂ (stringBlocks r) ∧
        (m₂.refusals = m₁.refusals → r.bytes = (stringViewCstr (some p)).bytes)) ∧
      ∀ bytes bufsize, bufsize ≤ bytes.length → s.len < bufsize →
        stringToCstrBuf s (some bytes) bufsize =
          (true, some (p.bytes ++ bytes.drop p.bytes.length))) ∧
    ∀ buf bufsize, buf = none ∨ bufsize ≤ s.len →
      stringToCstrBuf s buf bufsize = (false, buf) := by
  refine ⟨fun failed => ?_, fun p m₁ made => ?_, fun buf bufsize small => ?_⟩
  · unfold stringToCstr at failed ⊢
    split
    · rename_i m₁ refused
      exact (memAlloc_none refused).symm ▸ Nat.lt_succ_self _
    · rename_i buf m₁ granted
      split at failed
      · rename_i refused
        simp [granted] at refused
      · simp at failed
  · obtain ⟨bytes, trades, -⟩ := stringToCstr_spec made
    have view : (stringViewCstr (some p)).bytes =
        s.bytes.takeWhile (fun c => decide (c ≠ 0)) := by
      rw [stringViewCstr_bytes, CStr.chars, bytes]
      exact takeWhile_nonzero s.bytes
    have whole : s.bytes.takeWhile (fun c => decide (c ≠ 0)) = s.bytes ↔ 0 ∉ s.bytes := by
      rw [List.takeWhile_eq_self_iff]
      simp only [decide_eq_true_eq]
      exact ⟨fun all zero => all 0 zero rfl, fun absent c hc same => absent (same ▸ hc)⟩
    refine ⟨trades, view, by rw [view, whole], ?_, fun r m₂ copied => ?_,
      fun bytes' bufsize room fits => ?_⟩
    · rw [Nat.add_right_cancel_iff, Str.len, Str.len, view, ← whole]
      exact ⟨fun same => (List.takeWhile_prefix _).eq_of_length same, fun same => by rw [same]⟩
    · rw [stringFromCstr_eq] at copied
      obtain ⟨r', m', copied', -, same⟩ := stringCopy_spec (stringViewCstr (some p)) m₁
      obtain ⟨rfl, rfl⟩ := Prod.mk.inj (copied.symm.trans copied')
      exact ⟨stringCopy_trades copied, same⟩
    · rw [stringToCstrBuf, if_neg (by omega), if_neg (by omega), bytes]
      simp [Str.len]
  · cases buf with
    | none => rfl
    | some bytes =>
      have small : bufsize ≤ s.len := by simpa using small
      by_cases zero : bufsize = 0
      · rw [stringToCstrBuf, if_pos zero]
      · rw [stringToCstrBuf, if_neg zero, if_pos small]

/-! ### Bytes one by one -/

/-- The two iterators yield the bytes in opposite orders and leave nothing behind. -/
theorem stringChars_items (s : Str) (m : Mem) :
    ((∃ it m₁ m', stringChars s m = (some it, m₁) ∧
        iterItems (s.len + 1) (some it.toIterT) m₁ = some (some s.bytes, m') ∧
        m.Trades 0 m' 0) ∨
      ∃ m', stringChars s m = (none, m') ∧ m.refusals < m'.refusals) ∧
    ((∃ it m₁ m', stringCharsRev s m = (some it, m₁) ∧
        iterItems (s.len + 1) (some it.toIterT) m₁ = some (some s.bytes.reverse, m') ∧
        m.Trades 0 m' 0) ∨
      ∃ m', stringCharsRev s m = (none, m') ∧ m.refusals < m'.refusals) := by
  constructor
  · refine (sliceIter_items (stringSliceChars s) m).imp_left ?_
    rintro ⟨it, m₁, m', made, read, -⟩
    exact ⟨it, m₁, m', made, read, cursorItems_trades made read⟩
  · refine (sliceIterRev_items (stringSliceChars s) m).imp_left ?_
    rintro ⟨it, m₁, m', made, read, -⟩
    exact ⟨it, m₁, m', made, read, cursorItems_trades made read⟩

end Seqc
