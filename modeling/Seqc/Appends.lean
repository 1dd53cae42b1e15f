import Seqc.Hashing
import Seqc.Numerals
import Seqc.Replace
import Seqc.Lib.Runs

/-! Appending to a builder and `strbuf_truncate`. An append pushes byte by byte, so a refused
request leaves a prefix of its piece behind. The strings appended are not in the builder's
buffer, so no growth moves them. `snprintf` of `%lld` is what the C standard says it is. -/

namespace Seqc
open Decimal Runs

/-! ### The calls -/

/-- A `char *` that is not NULL; an address is only compared to NULL. -/
structure CharPtr extends CStr where
  addr : Nat
  size_le : bytes.length ≤ ptrdiffMax

/-- `strlen` counts the characters before the NUL. -/
def stringViewCstr (s : Option CharPtr) : Str :=
  match s with
  | none => .null
  | some s => ⟨some s.addr, s.chars, by simp,
      (List.takeWhile_prefix _).length_le.trans s.size_le⟩

@[simp] theorem stringViewCstr_bytes (s : CharPtr) :
    (stringViewCstr (some s)).bytes = s.chars := rfl

abbrev LongLong := { v : Int // fitsLongLong v }

/-- `snprintf(buf, size, "%lld", value)`: the length of the whole text and what is written. -/
def snprintfLld (size : Nat) (value : LongLong) : Nat × List UInt8 :=
  ((text value).length, (text value).take (size - 1) ++ [0])

/-- `char buf[32]`. -/
def sizeofFmtBuf : Nat := 32

def fmtBuf (value : LongLong) : CharPtr where
  bytes := (snprintfLld sizeofFmtBuf value).2
  terminated := by simp [snprintfLld]
  addr := 0
  size_le := by
    simp only [snprintfLld, sizeofFmtBuf, List.length_append, List.length_take, ptrdiffMax,
      List.length_singleton]
    omega

theorem fmtBuf_bytes (value : LongLong) :
    (fmtBuf value).bytes = (text value).take (sizeofFmtBuf - 1) ++ [0] := rfl

def strbufAppendChar (sb : Strbuf) (c : UInt8) (m : Mem) : Status × Strbuf × Mem :=
  strbufPush sb c m

def strbufAppendCstr (sb : Strbuf) (s : Option CharPtr) (m : Mem) : Status × Strbuf × Mem :=
  strbufAppend sb (stringViewCstr s) m

def strbufAppendInt (sb : Strbuf) (value : LongLong) (m : Mem) : Status × Strbuf × Mem :=
  if 0 < (snprintfLld sizeofFmtBuf value).1 then strbufAppendCstr sb (some (fmtBuf value)) m
  else (.ok, sb, m)

def strbufLen (sb : Strbuf) : Nat := vecLen (some sb.chars)

theorem vecTruncate_byteVec {v w : Vec UInt8} (h : ByteVec v) {len : Nat}
    (run : vecTruncate (some v) len = some w) : ByteVec w := by
  obtain rfl := Option.some.inj run
  refine ⟨h.elemSize, ?_, h.cap_le, h.null_cap⟩
  rw [List.length_take]
  exact (Nat.min_le_right _ _).trans h.len_le

def strbufTruncate (sb : Strbuf) (len : Nat) : Strbuf :=
  match h : vecTruncate (some sb.chars) len with
  | some chars => ⟨sb.addr, chars, vecTruncate_byteVec sb.bounded h⟩
  | none => sb

@[simp] theorem strbufView_bytes (sb : Strbuf) : (strbufView sb).bytes = sb.chars.contents := rfl

theorem strbufLen_eq (sb : Strbuf) : strbufLen sb = sb.chars.contents.length := rfl

theorem strbufTruncate_eq (sb : Strbuf) (len : Nat) : strbufTruncate sb len =
    ⟨sb.addr, { sb.chars with contents := sb.chars.contents.take len },
      vecTruncate_byteVec sb.bounded rfl⟩ := rfl

@[simp] theorem strbufTruncate_contents (sb : Strbuf) (len : Nat) :
    (strbufTruncate sb len).chars.contents = sb.chars.contents.take len := rfl

/-! ### The text of an integer -/

/-- A `long long` takes at most 20 bytes, those of -2^63. -/
theorem length_text_longLong (v : LongLong) : (text v).length ≤ 20 := by
  obtain ⟨v, low, high⟩ := v
  have magnitude : v.natAbs < 10 ^ 19 := by omega
  exact length_text_le (by omega) magnitude

theorem fmtBuf_chars (v : LongLong) : (fmtBuf v).chars = text v := by
  have short := length_text_longLong v
  have whole : (text v).take (sizeofFmtBuf - 1) = text v :=
    List.take_of_length_le (by simp only [sizeofFmtBuf]; omega)
  have no_nul : (text v).takeWhile (fun c => c ≠ 0) = text v :=
    List.takeWhile_eq_self_iff.mpr fun c hc => by
      simpa using (numeral_byte (numeral_text v) hc).2
  rw [CStr.chars, fmtBuf_bytes, whole, takeWhile_stop (by simp), no_nul]

theorem strbufAppendInt_eq (sb : Strbuf) (v : LongLong) (m : Mem) :
    strbufAppendInt sb v m = strbufAppendBytes sb m (text v) := by
  have some_digit : 0 < (snprintfLld sizeofFmtBuf v).1 := by
    obtain ⟨sign, ds, -, nonempty, -, same, -⟩ := numeral_text v
    have := List.length_pos_iff.mpr nonempty
    rw [snprintfLld, same, List.length_append]
    omega
  rw [strbufAppendInt, if_pos some_digit, strbufAppendCstr, strbufAppend,
    stringViewCstr_bytes, fmtBuf_chars]

/-- What `strbuf_append_int` appends, `string_to_int` reads back; its text fits the buffers of
both. -/
theorem appendInt_round_trip (sb : Strbuf) (v : LongLong) (m : Mem) :
    (text v).length + 1 ≤ sizeofFmtBuf ∧ (text v).length < sizeofIntBuf ∧
      ∀ sb' m', strbufAppendInt sb v m = (.ok, sb', m') →
        (strbufView sb').bytes = (strbufView sb).bytes ++ text v ∧
        ∀ s : Str, s.bytes = (strbufView sb').bytes.drop (strbufLen sb) →
          ∀ out, stringToInt s out = (true, v.1) := by
  have short := length_text_longLong v
  refine ⟨by simp only [sizeofFmtBuf]; omega, by simp only [sizeofIntBuf]; omega,
    fun sb' m' appended => ?_⟩
  obtain ⟨st, sb₁, m₁, run, outcome⟩ := strbufAppendBytes_spec (text v) sb m
  rw [strbufAppendInt_eq, run] at appended
  obtain ⟨rfl, rfl, rfl⟩ : st = .ok ∧ sb₁ = sb' ∧ m₁ = m' := by simpa using appended
  have contents : sb₁.chars.contents = sb.chars.contents ++ text v := by
    cases outcome with
    | inl whole => exact whole.2.1
    | inr failed => cases failed.1
  refine ⟨contents, fun s hs out => ?_⟩
  have same : s.bytes = text v := by
    rw [hs, strbufView_bytes, contents, strbufLen_eq, List.drop_left]
  obtain ⟨-, reads, -⟩ := stringToInt_short s out (by
    simp only [Str.len, same, sizeofIntBuf]
    omega)
  have numeral := numeral_text v
  refine reads v.1 ?_ v.2
  rwa [same, intSubject_numeral numeral]

/-- The least `long long`, appended behind a 7. -/
theorem appendInt_round_trip_least : ∃ new m₀ sb m sb' m',
    strbufCreate (.start .generous) = (some new, m₀) ∧
    strbufAppendInt new ⟨7, by decide⟩ m₀ = (.ok, sb, m) ∧
    strbufAppendInt sb ⟨-2 ^ 63, by decide⟩ m = (.ok, sb', m') ∧
    (strbufView sb').bytes = 55 :: text (-2 ^ 63) ∧ (text (-2 ^ 63)).length = 20 ∧
    ∀ s : Str, s.bytes = [45, 57, 50, 50, 51, 51, 55, 50, 48, 51, 54, 56, 53, 52, 55, 55, 53, 56,
      48, 56] → stringToInt s 0 = (true, -2 ^ 63) := by
  obtain ⟨new, m₀, sb, m, sb', m', created, seven, appended, behind, tail, len⟩ :
      ∃ new m₀ sb m sb' m', strbufCreate (.start .generous) = (some new, m₀) ∧
        strbufAppendInt new ⟨7, by decide⟩ m₀ = (.ok, sb, m) ∧
        strbufAppendInt sb ⟨-2 ^ 63, by decide⟩ m = (.ok, sb', m') ∧
        (strbufView sb).bytes = [55] ∧ (strbufView sb').bytes.drop (strbufLen sb) =
          [45, 57, 50, 50, 51, 51, 55, 50, 48, 51, 54, 56, 53, 52, 55, 55, 53, 56, 48, 56] ∧
        (text (-2 ^ 63)).length = 20 :=
    ⟨_, _, _, _, _, _, rfl, rfl, rfl, rfl, rfl, rfl⟩
  obtain ⟨-, -, reads⟩ := appendInt_round_trip sb ⟨-2 ^ 63, by decide⟩ m
  obtain ⟨bytes, back⟩ := reads sb' m' appended
  rw [behind] at bytes
  exact ⟨new, m₀, sb, m, sb', m', created, seven, appended, bytes, len,
    fun s same => back s (same.trans tail.symm) 0⟩

/-! ### Lists of appends -/

inductive StrbufOp where
  | append (s : Str)
  | appendChar (c : UInt8)
  | appendCstr (s : Option CharPtr)
  | appendInt (value : LongLong)

def strbufStep (op : StrbufOp) (st : Strbuf × Mem) : Option (Status × Strbuf × Mem) :=
  match op with
  | .append s => some (strbufAppend st.1 s st.2)
  | .appendChar c => some (strbufAppendChar st.1 c st.2)
  | .appendCstr s => some (strbufAppendCstr st.1 s st.2)
  | .appendInt value => some (strbufAppendInt st.1 value st.2)

/-- What a call is asked to append. -/
def StrbufOp.piece : StrbufOp → List UInt8
  | .append s => s.bytes
  | .appendChar c => [c]
  | .appendCstr s => (stringViewCstr s).bytes
  | .appendInt value => text value

theorem strbufAppendChar_eq (sb : Strbuf) (c : UInt8) (m : Mem) :
    strbufAppendChar sb c m = strbufAppendBytes sb m [c] := by
  obtain ⟨st, sb', m', push, ⟨rfl, -⟩ | ⟨rfl, -⟩⟩ := strbufPush_spec sb c m <;>
    simp only [strbufAppendChar, strbufAppendBytes, push]

/-- Every call is a loop over its piece. -/
theorem strbufStep_eq (op : StrbufOp) (sb : Strbuf) (m : Mem) :
    strbufStep op (sb, m) = some (strbufAppendBytes sb m op.piece) := by
  cases op with
  | append s => rfl
  | appendChar c => exact congrArg some (strbufAppendChar_eq sb c m)
  | appendCstr s => rfl
  | appendInt value => exact congrArg some (strbufAppendInt_eq sb value m)

/-- A call and its status, and what it left in the builder. -/
def Appended (call : StrbufOp × Status) (part : List UInt8) : Prop :=
  part <+: call.1.piece ∧ (part = call.1.piece ↔ call.2 = .ok)

theorem strbufStep_appends (op : StrbufOp) (sb : Strbuf) (m : Mem) :
    ∃ st sb' m' part, strbufStep op (sb, m) = some (st, sb', m') ∧ Appended (op, st) part ∧
      sb'.chars.contents = sb.chars.contents ++ part := by
  obtain ⟨st, sb', m', run, outcome⟩ := strbufAppendBytes_spec op.piece sb m
  have step : strbufStep op (sb, m) = some (st, sb', m') := by rw [strbufStep_eq, run]
  cases outcome with
  | inl whole =>
    obtain ⟨rfl, contents, -⟩ := whole
    exact ⟨.ok, sb', m', op.piece, step, ⟨List.prefix_rfl, iff_of_true rfl rfl⟩, contents⟩
  | inr failed =>
    obtain ⟨rfl, -, part, initial, proper, contents⟩ := failed
    exact ⟨.oom, sb', m', part, step, ⟨initial, iff_of_false proper (by simp)⟩, contents⟩

theorem appends_parts (ops : List StrbufOp) :
    ∀ (sb : Strbuf) (m : Mem), ∃ outs sb' m' parts,
      run strbufStep ops (sb, m) = some (outs, (sb', m')) ∧ outs.length = ops.length ∧
      List.Forall₂ Appended (ops.zip outs) parts ∧
      sb'.chars.contents = sb.chars.contents ++ parts.flatten := by
  induction ops with
  | nil =>
    intro sb m
    exact ⟨[], sb, m, [], rfl, rfl, .nil, (List.append_nil _).symm⟩
  | cons op ops ih =>
    intro sb m
    obtain ⟨st, sb₁, m₁, part, step, here, contents₁⟩ := strbufStep_appends op sb m
    obtain ⟨outs, sb', m', parts, rest, lengths, later, contents⟩ := ih sb₁ m₁
    refine ⟨st :: outs, sb', m', part :: parts, by simp [run, step, rest], by simp [lengths],
      .cons here later, ?_⟩
    rw [contents, contents₁, List.flatten_cons, List.append_assoc]

theorem strbufTruncate_past (sb : Strbuf) {len : Nat} (past : strbufLen sb ≤ len) :
    strbufTruncate sb len = sb := by
  have whole : sb.chars.contents.take len = sb.chars.contents := List.take_of_length_le past
  simp only [strbufTruncate_eq, whole]

/-- After any calls, whichever of them fail, the builder holds what it held before and of
each piece a prefix, all of it if and only if the call returned `SEQC_OK`; cutting back to the
length before restores the builder's bytes, and cutting at or past its length does nothing. -/
theorem appends_undone (sb : Strbuf) (m : Mem) (ops : List StrbufOp) :
    ∃ outs sb' m' parts, run strbufStep ops (sb, m) = some (outs, (sb', m')) ∧
      outs.length = ops.length ∧ List.Forall₂ Appended (ops.zip outs) parts ∧
      (strbufView sb').bytes = (strbufView sb).bytes ++ parts.flatten ∧
      (strbufView (strbufTruncate sb' (strbufLen sb))).bytes = (strbufView sb).bytes ∧
      ∀ len, strbufLen sb' ≤ len → strbufTruncate sb' len = sb' := by
  obtain ⟨outs, sb', m', parts, ran, lengths, appended, contents⟩ := appends_parts ops sb m
  refine ⟨outs, sb', m', parts, ran, lengths, appended, contents, ?_,
    fun len => strbufTruncate_past sb'⟩
  rw [strbufView_bytes, strbufView_bytes, strbufTruncate_contents, contents, strbufLen_eq,
    List.take_left]

end Seqc
