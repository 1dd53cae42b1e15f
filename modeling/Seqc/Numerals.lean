import Seqc.Iter
import Seqc.Str
import Seqc.Lib.Decimal
import Mathlib.Data.List.TakeWhile

/-! `string_to_int`. The string is copied into a buffer of 24 bytes and read by `strtoll`,
which is what the C standard says it is in the C locale, with base 10. -/

namespace Seqc
open Decimal

/-! ### `strtoll` -/

/-- The white space of the C locale. -/
def isspace (c : UInt8) : Bool := decide (c = 32 ∨ (9 ≤ c ∧ c ≤ 13))

/-- `used` is how far `end` is behind the start, `erange` whether `errno` is set to `ERANGE`. -/
structure Strtoll where
  val : Int
  used : Nat
  erange : Bool

/-- White space, then an optional sign and the longest run of digits; without a digit nothing
is converted, and a value out of range becomes the nearest that fits. -/
def strtoll (s : List UInt8) : Strtoll :=
  let spaces := s.takeWhile isspace
  let subject := s.dropWhile isspace
  let sign := signOf subject
  let digits := (subject.drop sign.length).takeWhile isDigit
  let v := signed sign (value digits)
  let used := spaces.length + sign.length + digits.length
  if digits = [] then ⟨0, 0, false⟩
  else if fitsLongLong v then ⟨v, used, false⟩
  else ⟨if v < 0 then -2 ^ 63 else 2 ^ 63 - 1, used, true⟩

/-! ### `string_to_int` -/

/-- `sizeof buf`. -/
def sizeofIntBuf : Nat := 24

/-- The result and what `*out` then is; `out` is what it was. -/
def stringToInt (s : Str) (out : Int) : Bool × Int :=
  if s.ptr = none ∨ s.len = 0 then (false, out)
  else if sizeofIntBuf ≤ s.len then (false, out)
  else
    let buf := s.bytes ++ [0]
    let r := strtoll buf
    if r.used = 0 ∨ buf[r.used]? ≠ some 0 ∨ r.erange = true then (false, out)
    else (true, r.val)

/-- What `strtoll` sees of the string: behind the leading white space, up to a NUL. -/
def intSubject (bs : List UInt8) : List UInt8 := (bs.dropWhile isspace).takeWhile fun c => c ≠ 0

theorem takeWhile_stop {p : UInt8 → Bool} {c : UInt8} (h : p c = false) (xs ys : List UInt8) :
    (xs ++ c :: ys).takeWhile p = xs.takeWhile p := by
  induction xs with
  | nil => simp [h]
  | cons x xs ih =>
    rw [List.cons_append, List.takeWhile_cons, List.takeWhile_cons, ih]

theorem dropWhile_stop {p : UInt8 → Bool} {c : UInt8} (h : p c = false) (xs ys : List UInt8) :
    (xs ++ c :: ys).dropWhile p = xs.dropWhile p ++ c :: ys := by
  induction xs with
  | nil => simp [h]
  | cons x xs ih =>
    rw [List.cons_append, List.dropWhile_cons, List.dropWhile_cons, ih]
    split <;> rfl

/-- The first NUL of a terminated string. -/
theorem exists_nul (bs : List UInt8) :
    ∃ junk, bs ++ [0] = (bs.takeWhile fun c => c ≠ 0) ++ 0 :: junk := by
  induction bs with
  | nil => exact ⟨[], rfl⟩
  | cons b bs ih =>
    by_cases nul : b = 0
    · exact ⟨bs ++ [0], by simp [nul]⟩
    · obtain ⟨junk, split⟩ := ih
      refine ⟨junk, ?_⟩
      rw [List.takeWhile_cons_of_pos (by simpa using nul), List.cons_append, List.cons_append,
        split]

theorem signOf_stop (xs ys : List UInt8) : signOf (xs ++ 0 :: ys) = signOf xs := by
  cases xs with
  | nil => rfl
  | cons x xs => rfl

theorem mem_intSubject {bs : List UInt8} {c : UInt8} (h : c ∈ intSubject bs) : c ≠ 0 := by
  simpa using List.mem_takeWhile_imp h

/-- The buffer: white space, the sign, what follows it and a NUL, and behind it what is left
of the string. -/
theorem exists_buffer (bs : List UInt8) :
    ∃ junk, bs ++ [0] = bs.takeWhile isspace ++ (signOf (intSubject bs) ++
      ((intSubject bs).drop (signOf (intSubject bs)).length ++ 0 :: junk)) := by
  obtain ⟨junk, nul⟩ := exists_nul (bs.dropWhile isspace)
  refine ⟨junk, ?_⟩
  rw [← List.append_assoc (signOf _), signOf_append_drop, intSubject, ← nul, ← List.append_assoc,
    List.takeWhile_append_dropWhile]

theorem strtoll_eq (bs : List UInt8) {sign body digits : List UInt8}
    (hsign : sign = signOf (intSubject bs)) (hbody : body = (intSubject bs).drop sign.length)
    (hdigits : digits = body.takeWhile isDigit) :
    strtoll (bs ++ [0]) =
      if digits = [] then ⟨0, 0, false⟩
      else if fitsLongLong (signed sign (value digits)) then
        ⟨signed sign (value digits), (bs.takeWhile isspace).length + sign.length + digits.length,
          false⟩
      else ⟨if signed sign (value digits) < 0 then -2 ^ 63 else 2 ^ 63 - 1,
        (bs.takeWhile isspace).length + sign.length + digits.length, true⟩ := by
  obtain ⟨junk, nul⟩ := exists_nul (bs.dropWhile isspace)
  have spaces : (bs ++ [0]).takeWhile isspace = bs.takeWhile isspace :=
    takeWhile_stop rfl bs []
  have subject : (bs ++ [0]).dropWhile isspace = intSubject bs ++ 0 :: junk := by
    rw [dropWhile_stop rfl, nul, intSubject]
  have after : (intSubject bs ++ 0 :: junk).drop sign.length = body ++ 0 :: junk := by
    have split := signOf_append_drop (intSubject bs)
    rw [← hsign, ← hbody] at split
    rw [← split, List.append_assoc, List.drop_left]
  simp only [strtoll, spaces, subject, signOf_stop, ← hsign, after, takeWhile_stop (by rfl :
    isDigit 0 = false), ← hdigits]

/-- `end` points at a NUL if and only if there are only digits behind the sign. -/
theorem buffer_end_iff (bs : List UInt8) {sign body : List UInt8}
    (hsign : sign = signOf (intSubject bs)) (hbody : body = (intSubject bs).drop sign.length) :
    (bs ++ [0])[(bs.takeWhile isspace).length + sign.length +
        (body.takeWhile isDigit).length]? = some 0 ↔ ∀ d ∈ body, isDigit d = true := by
  obtain ⟨junk, buffer⟩ := exists_buffer bs
  rw [← hsign, ← hbody, ← List.takeWhile_append_dropWhile (p := isDigit) (l := body)] at buffer
  have at_end : (bs ++ [0])[(bs.takeWhile isspace).length + sign.length +
      (body.takeWhile isDigit).length]? = (body.dropWhile isDigit ++ 0 :: junk)[0]? := by
    rw [buffer]
    simp only [List.append_assoc]
    rw [Nat.add_assoc, List.getElem?_append_right (Nat.le_add_right _ _), Nat.add_sub_cancel_left,
      List.getElem?_append_right (Nat.le_add_right _ _), Nat.add_sub_cancel_left,
      List.getElem?_append_right le_rfl, Nat.sub_self]
  rw [at_end, ← List.dropWhile_eq_nil_iff]
  cases hrest : body.dropWhile isDigit with
  | nil => simp
  | cons c cs =>
    have inside : c ∈ intSubject bs := by
      refine List.mem_of_mem_drop (i := sign.length) (hbody ▸ ?_)
      exact (List.dropWhile_sublist isDigit).subset (hrest ▸ by simp)
    simp [mem_intSubject inside]

/-- What `strtoll` makes of the buffer passes the test that follows if and only if the
subject is a numeral of a `long long`, whose value it then is. -/
theorem strtoll_spec (bs : List UInt8) :
    (¬((strtoll (bs ++ [0])).used = 0 ∨ (bs ++ [0])[(strtoll (bs ++ [0])).used]? ≠ some 0 ∨
        (strtoll (bs ++ [0])).erange = true) ↔
      ∃ v, Numeral (intSubject bs) v ∧ fitsLongLong v) ∧
    ∀ v, Numeral (intSubject bs) v → fitsLongLong v → (strtoll (bs ++ [0])).val = v := by
  have result := strtoll_eq bs rfl rfl rfl
  have at_end := buffer_end_iff bs rfl rfl
  have numeral (v : Int) : Numeral (intSubject bs) v ↔ _ := numeral_iff
  generalize signOf (intSubject bs) = sign at result at_end numeral
  generalize (intSubject bs).drop sign.length = body at result at_end numeral
  by_cases none : body.takeWhile isDigit = []
  · rw [if_pos none] at result
    have no_numeral (v : Int) : ¬Numeral (intSubject bs) v := by
      rintro h
      obtain ⟨nonempty, digits, -⟩ := (numeral v).mp h
      exact nonempty ((List.takeWhile_eq_self_iff.mpr digits).symm.trans none)
    refine ⟨?_, fun v h => absurd h (no_numeral v)⟩
    simp [result, no_numeral]
  · rw [if_neg none] at result
    have some_digit : 0 < (body.takeWhile isDigit).length := List.length_pos_iff.mpr none
    by_cases digits : ∀ d ∈ body, isDigit d = true
    · have whole : body.takeWhile isDigit = body := List.takeWhile_eq_self_iff.mpr digits
      have nul := at_end.mpr digits
      rw [whole] at result some_digit nul
      have denotes (v : Int) : Numeral (intSubject bs) v ↔ v = signed sign (value body) := by
        rw [numeral, and_iff_right (List.length_pos_iff.mp some_digit), and_iff_right digits]
      by_cases fits : fitsLongLong (signed sign (value body))
      · rw [if_pos fits] at result
        refine ⟨iff_of_true ?_ ⟨_, (denotes _).mpr rfl, fits⟩, fun v h _ => ?_⟩
        · rw [result]
          rintro (unused | other | range)
          · simp only at unused
            omega
          · exact other nul
          · cases range
        · rw [result, (denotes v).mp h]
      · rw [if_neg fits] at result
        refine ⟨iff_of_false (by simp [result]) ?_, fun v h h' => ?_⟩
        · rintro ⟨v, h, h'⟩
          exact fits ((denotes v).mp h ▸ h')
        · exact absurd ((denotes v).mp h ▸ h') fits
    · have no_numeral (v : Int) : ¬Numeral (intSubject bs) v :=
        fun h => digits ((numeral v).mp h).2.1
      have not_nul := at_end.not.mpr digits
      have used : (strtoll (bs ++ [0])).used = (bs.takeWhile isspace).length + sign.length +
          (body.takeWhile isDigit).length := by
        rw [result]
        split <;> rfl
      refine ⟨?_, fun v h => absurd h (no_numeral v)⟩
      rw [used]
      simp [not_nul, no_numeral]

/-- What `string_to_int` makes of a string that fits the buffer. -/
theorem stringToInt_short (s : Str) (out : Int) (short : s.len < sizeofIntBuf) :
    ((stringToInt s out).1 = true ↔ ∃ v, Numeral (intSubject s.bytes) v ∧ fitsLongLong v) ∧
      (∀ v, Numeral (intSubject s.bytes) v → fitsLongLong v → stringToInt s out = (true, v)) ∧
      ((stringToInt s out).1 = false → (stringToInt s out).2 = out) := by
  obtain ⟨accepts, value⟩ := strtoll_spec s.bytes
  by_cases none : s.ptr = none ∨ s.len = 0
  · have empty : s.bytes = [] := none.elim s.null_empty List.length_eq_zero_iff.mp
    have no_numeral (v : Int) : ¬Numeral (intSubject s.bytes) v := by
      rw [empty]
      exact fun h => (numeral_iff.mp h).1 rfl
    rw [stringToInt, if_pos none]
    exact ⟨by simp [no_numeral], fun v h => absurd h (no_numeral v), fun _ => rfl⟩
  · rw [stringToInt, if_neg none, if_neg (Nat.not_le.mpr short)]
    simp only
    split
    · rename_i rejected
      have no_numeral := accepts.not.mp (not_not.mpr rejected)
      exact ⟨iff_of_false (by simp) no_numeral,
        fun v h h' => absurd ⟨v, h, h'⟩ no_numeral, fun _ => rfl⟩
    · rename_i accepted
      exact ⟨iff_of_true rfl (accepts.mp accepted), fun v h h' => by rw [value v h h'],
        fun h => by simp at h⟩

theorem stringToInt_long (s : Str) (out : Int) (long : sizeofIntBuf ≤ s.len) :
    stringToInt s out = (false, out) := by
  rw [stringToInt, if_pos long, ite_self]

theorem numeral_byte {bs : List UInt8} {v : Int} (h : Numeral bs v) {c : UInt8} (hc : c ∈ bs) :
    isspace c = false ∧ c ≠ 0 := by
  rcases h.mem hc with rfl | rfl | digit
  · exact ⟨rfl, by decide⟩
  · exact ⟨rfl, by decide⟩
  · simp only [isDigit, decide_eq_true_eq, UInt8.le_iff_toNat_le] at digit
    simp only [isspace, decide_eq_false_iff_not, UInt8.le_iff_toNat_le, ← UInt8.toNat_inj, ne_eq]
    have low : 48 ≤ c.toNat := digit.1
    constructor
    · rintro (space | ⟨-, control⟩)
      · have code : c.toNat = 32 := space
        omega
      · have code : c.toNat ≤ 13 := control
        omega
    · intro nul
      have code : c.toNat = 0 := nul
      omega

/-- A numeral has neither white space nor a NUL. -/
theorem intSubject_numeral {bs : List UInt8} {v : Int} (h : Numeral bs v) : intSubject bs = bs := by
  have start : bs.dropWhile isspace = bs := by
    cases bs with
    | nil => rfl
    | cons c cs => simp [(numeral_byte h (by simp : c ∈ c :: cs)).1]
  rw [intSubject, start, List.takeWhile_eq_self_iff]
  exact fun c hc => by simpa using (numeral_byte h hc).2

/-- `string_to_int` accepts the numerals of a `long long` and nothing else, writes their
values, and writes nothing otherwise. -/
structure ToIntExact (s : Str) (out : Int) : Prop where
  accepts_iff : (stringToInt s out).1 = true ↔ ∃ v, Numeral s.bytes v ∧ fitsLongLong v
  written : (stringToInt s out).1 = true → Numeral s.bytes (stringToInt s out).2
  untouched : (stringToInt s out).1 = false → (stringToInt s out).2 = out

/-- A string of 24 bytes or more is no numeral of a `long long`, a shorter one has neither
leading white space nor a NUL unless what is left without them is none either. -/
theorem stringToInt_exact_iff (s : Str) (out : Int) :
    ToIntExact s out ↔
      (sizeofIntBuf ≤ s.len → ¬∃ v, Numeral s.bytes v ∧ fitsLongLong v) ∧
      (s.len < sizeofIntBuf → (∃ v, Numeral (intSubject s.bytes) v ∧ fitsLongLong v) →
        intSubject s.bytes = s.bytes) := by
  by_cases long : sizeofIntBuf ≤ s.len
  · have rejected := stringToInt_long s out long
    constructor
    · intro toInt
      refine ⟨fun _ numeral => ?_, fun short => absurd long (Nat.not_le.mpr short)⟩
      have accepted := toInt.accepts_iff.mpr numeral
      rw [rejected] at accepted
      cases accepted
    · rintro ⟨no_numeral, -⟩
      exact {
        accepts_iff := iff_of_false (by simp [rejected]) (no_numeral long)
        written := fun accepted => by simp [rejected] at accepted
        untouched := fun _ => by rw [rejected] }
  · obtain ⟨accepts, value, untouched⟩ := stringToInt_short s out (Nat.not_le.mp long)
    constructor
    · intro toInt
      refine ⟨fun h => absurd h long, fun _ subject => ?_⟩
      obtain ⟨v, numeral, -⟩ := toInt.accepts_iff.mp (accepts.mpr subject)
      exact intSubject_numeral numeral
    · rintro ⟨-, whole⟩
      have same : (∃ v, Numeral (intSubject s.bytes) v ∧ fitsLongLong v) ↔
          ∃ v, Numeral s.bytes v ∧ fitsLongLong v := by
        constructor
        · intro subject
          rwa [whole (Nat.not_le.mp long) subject] at subject
        · rintro ⟨v, numeral, fits⟩
          exact ⟨v, by rwa [intSubject_numeral numeral], fits⟩
      refine ⟨accepts.trans same, fun accepted => ?_, untouched⟩
      obtain ⟨v, numeral, fits⟩ := same.mp (accepts.mp accepted)
      rw [value v (by rwa [intSubject_numeral numeral]) fits]
      exact numeral

/-- `" 42"`: a character that belongs to no numeral, and yet 42. -/
theorem stringToInt_space :
    ¬∀ s out, ToIntExact s out := by
  intro all
  have toInt := all ⟨some 0, [32, 52, 50], by simp, by simp [ptrdiffMax]⟩ 7
  obtain ⟨v, numeral, -⟩ := toInt.accepts_iff.mp rfl
  have leading := (numeral_byte numeral (by simp : (32 : UInt8) ∈ [32, 52, 50])).1
  cases leading

end Seqc
