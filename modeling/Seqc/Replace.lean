import Seqc.SplitJoin

/-! `string_slice` and `string_replace`. The replacement of the leftmost occurrences is what
the split at them gives when it is joined with the replacement: a match at the very end
leaves an empty last token there, and ends the loop here. -/

namespace Seqc
open Iteration Splitting

variable {s needle replacement : Str} {m m₁ : Mem}

def stringSlice (s : Str) (start stop : Nat) : Str :=
  if s.ptr = none ∨ s.len ≤ start ∨ stop ≤ start then .null
  else (s.drop start).take ((if s.len < stop then s.len else stop) - start)

/-- The loop of `string_replace` from `pos` on; the needle is not empty. -/
def replaceFrom (s needle replacement : Str) (nonempty : needle.len ≠ 0) (pos : Nat) (sb : Strbuf)
    (m : Mem) : Status × Strbuf × Mem :=
  if pos < s.len then
    let remaining := stringSlice s pos s.len
    let found := stringFind remaining needle
    if found = stringNotFound then strbufAppend sb remaining m
    else
      match strbufAppend sb (stringSlice remaining 0 found) m with
      | (.ok, sb, m) =>
        match strbufAppend sb replacement m with
        | (.ok, sb, m) => replaceFrom s needle replacement nonempty (pos + (found + needle.len)) sb m
        | (st, sb, m) => (st, sb, m)
      | (st, sb, m) => (st, sb, m)
  else (.ok, sb, m)
termination_by s.len - pos

def stringReplace (s needle replacement : Str) (m : Mem) : Str × Mem :=
  if nonempty : needle.len = 0 then stringCopy s m
  else
    match strbufCreate m with
    | (none, m) => (.null, m)
    | (some sb, m) =>
      let (st, sb, m) := replaceFrom s needle replacement nonempty 0 sb m
      let (result, m) := if st = .ok then strbufToString sb m else (.null, m)
      (result, strbufDestroy sb m)

theorem stringSlice_bytes (s : Str) (start stop : Nat) :
    (stringSlice s start stop).bytes = (s.bytes.drop start).take (stop - start) := by
  unfold stringSlice
  split
  · rename_i nothing
    rcases nothing with null | past | empty
    · rw [s.null_empty null, List.drop_nil, List.take_nil]
      rfl
    · rw [List.drop_eq_nil_of_le past, List.take_nil]
      rfl
    · rw [Nat.sub_eq_zero_of_le empty, List.take_zero]
      rfl
  · rw [Str.bytes_take, Str.bytes_drop]
    split
    · rename_i long
      rw [List.take_of_length_le (by simp [Str.len]), List.take_of_length_le]
      rw [List.length_drop]
      simp only [Str.len] at long
      omega
    · rfl

theorem strbufAppend_spec (sb : Strbuf) (s : Str) (m : Mem) :
    ∃ st sb' m', strbufAppend sb s m = (st, sb', m') ∧
      ((st = .ok ∧ sb'.chars.contents = sb.chars.contents ++ s.bytes ∧
          m'.refusals = m.refusals) ∨
        (st = .oom ∧ m'.refusals = m.refusals + 1 ∧ ∃ part, part <+: s.bytes ∧ part ≠ s.bytes ∧
          sb'.chars.contents = sb.chars.contents ++ part)) :=
  strbufAppendBytes_spec s.bytes sb m

/-- The next occurrence cuts the string into what is before it and what is behind it. -/
theorem stringFind_cut (r : Str) (nonempty : 0 < needle.len)
    (found : stringFind r needle ≠ stringNotFound) :
    stringFind r needle + needle.len ≤ r.len ∧
      r.bytes = r.bytes.take (stringFind r needle) ++ needle.bytes ++
        r.bytes.drop (stringFind r needle + needle.len) ∧
      ∀ i < stringFind r needle, ¬needle.bytes <+: r.bytes.drop i := by
  cases stringFind_spec (s := r) nonempty with
  | inl missing => exact absurd missing.1 found
  | inr here =>
    obtain ⟨-, fits, ⟨rest, occurs⟩, leftmost⟩ := here
    refine ⟨fits, ?_, leftmost⟩
    have behind : r.bytes.drop (stringFind r needle + needle.len) = rest := by
      rw [← List.drop_drop, ← occurs]
      exact List.drop_left
    rw [behind, List.append_assoc, occurs, List.take_append_drop]

/-- What the loop appends: the pieces behind `pos` with the replacement between them. -/
theorem replaceFrom_spec (s needle replacement : Str) (nonempty : needle.len ≠ 0) (pos : Nat)
    (sb : Strbuf) (m : Mem) (inside : pos ≤ s.len) :
    ∃ st sb' m', replaceFrom s needle replacement nonempty pos sb m = (st, sb', m') ∧
      ((st = .ok ∧ m'.refusals = m.refusals ∧ ∃ ts, Cuts needle.bytes (s.bytes.drop pos) ts ∧
          sb'.chars.contents = sb.chars.contents ++ replacement.bytes.intercalate ts) ∨
        (st = .oom ∧ m.refusals < m'.refusals)) := by
  have positive : 0 < needle.len := Nat.pos_of_ne_zero nonempty
  induction left : s.len - pos using Nat.strong_induction_on generalizing pos sb m with
  | _ n ih =>
    rw [replaceFrom]
    by_cases more : pos < s.len
    · rw [if_pos more]
      have rest : (stringSlice s pos s.len).bytes = s.bytes.drop pos := by
        rw [stringSlice_bytes, List.take_of_length_le (by simp [Str.len])]
      by_cases found : stringFind (stringSlice s pos s.len) needle = stringNotFound
      · -- No further occurrence: the rest is the last piece.
        have clean : ¬needle.bytes <:+: s.bytes.drop pos := by
          cases stringFind_spec (s := stringSlice s pos s.len) positive with
          | inl missing => rw [← rest]; exact missing.2
          | inr here => exact absurd found here.1
        simp only [found, if_true]
        obtain ⟨st, sb', m', run, outcome⟩ := strbufAppend_spec sb (stringSlice s pos s.len) m
        refine ⟨st, sb', m', run, ?_⟩
        cases outcome with
        | inl appended =>
          obtain ⟨ok, contents, quiet⟩ := appended
          refine .inl ⟨ok, quiet, _, .last clean, ?_⟩
          rw [contents, rest, List.intercalate_singleton]
        | inr failed => exact .inr ⟨failed.1, by omega⟩
      · obtain ⟨fits, cut, leftmost⟩ := stringFind_cut _ positive found
        simp only [found, if_false]
        generalize stringFind (stringSlice s pos s.len) needle = off at fits cut leftmost ⊢
        have piece : (stringSlice (stringSlice s pos s.len) 0 off).bytes =
            (s.bytes.drop pos).take off := by
          rw [stringSlice_bytes, rest, List.drop_zero, Nat.sub_zero]
        have length : (stringSlice s pos s.len).len = s.len - pos := by
          rw [Str.len, rest, List.length_drop]
          rfl
        rw [length] at fits
        rw [rest, List.drop_drop, ← Nat.add_assoc] at cut
        rw [rest] at leftmost
        obtain ⟨st, sb₁, m₁, run, outcome⟩ :=
          strbufAppend_spec sb (stringSlice (stringSlice s pos s.len) 0 off) m
        rw [run]
        cases outcome with
        | inr failed =>
          obtain ⟨rfl, refused, -⟩ := failed
          exact ⟨.oom, sb₁, m₁, rfl, .inr ⟨rfl, by omega⟩⟩
        | inl appended =>
          obtain ⟨rfl, contents, quiet⟩ := appended
          obtain ⟨st, sb₂, m₂, run, outcome⟩ := strbufAppend_spec sb₁ replacement m₁
          simp only [run]
          cases outcome with
          | inr failed =>
            obtain ⟨rfl, refused, -⟩ := failed
            exact ⟨.oom, sb₂, m₂, rfl, .inr ⟨rfl, by omega⟩⟩
          | inl appended =>
            obtain ⟨rfl, contents', quiet'⟩ := appended
            obtain ⟨st, sb₃, m₃, run, outcome⟩ := ih (s.len - (pos + (off + needle.len)))
              (by omega) (pos + (off + needle.len)) sb₂ m₂ (by omega) rfl
            refine ⟨st, sb₃, m₃, run, ?_⟩
            cases outcome with
            | inr failed => exact .inr ⟨failed.1, by omega⟩
            | inl replaced =>
              obtain ⟨ok, quiet'', ts, cuts, contents''⟩ := replaced
              rw [← Nat.add_assoc] at cuts
              have pieces := Cuts.cut (t := (s.bytes.drop pos).take off) (fun i hi => by
                rw [← cut]
                exact leftmost i (by rw [List.length_take] at hi; omega)) cuts
              rw [← cut] at pieces
              refine .inl ⟨ok, by omega, _, pieces, ?_⟩
              obtain ⟨t, ts, rfl⟩ := List.exists_cons_of_ne_nil cuts.ne_nil
              rw [contents'', contents', contents, piece, List.intercalate_cons_cons]
              simp only [List.append_assoc]
    · -- A match that ends at the end leaves an empty last piece.
      rw [if_neg more]
      have none : s.bytes.drop pos = [] := List.drop_eq_nil_of_le (Nat.le_of_not_lt more)
      refine ⟨.ok, sb, m, rfl, .inl ⟨rfl, rfl, [[]], ?_, by simp⟩⟩
      rw [none]
      exact .last fun h => nonempty (List.length_eq_zero_iff.mpr (List.infix_nil.mp h))

/-- If nothing is refused, the result is the pieces with the replacement between them. -/
theorem stringReplace_spec (s needle replacement : Str) {r : Str}
    (replaced : stringReplace s needle replacement m = (r, m₁))
    (calm : m₁.refusals = m.refusals) :
    ∃ ts, Splits needle.bytes s.bytes ts ∧ r.bytes = replacement.bytes.intercalate ts := by
  unfold stringReplace at replaced
  by_cases empty : needle.len = 0
  · rw [dif_pos empty] at replaced
    obtain ⟨r', m', copied, -, bytes⟩ := stringCopy_spec s m
    obtain ⟨rfl, rfl⟩ := Prod.mk.inj (copied.symm.trans replaced)
    refine ⟨[s.bytes], ?_, ?_⟩
    · rw [Splits, if_pos (List.length_eq_zero_iff.mp empty)]
    · rw [bytes calm, List.intercalate_singleton]
  · rw [dif_neg empty] at replaced
    cases strbufCreate_spec m with
    | inr failed =>
      obtain ⟨m', created, more⟩ := failed
      simp only [created] at replaced
      obtain ⟨-, rfl⟩ := Prod.mk.inj replaced
      omega
    | inl made =>
      obtain ⟨sb, m', created, start, quiet⟩ := made
      obtain ⟨st, sb', m'', run, outcome⟩ :=
        replaceFrom_spec s needle replacement empty 0 sb m' (Nat.zero_le _)
      simp only [created, run] at replaced
      cases outcome with
      | inr failed =>
        obtain ⟨rfl, refused⟩ := failed
        obtain ⟨-, rfl⟩ := Prod.mk.inj replaced
        simp only [strbufDestroy_refusals] at calm
        rw [if_neg (by decide)] at calm
        simp only at calm
        omega
      | inl filled =>
        obtain ⟨rfl, still, ts, cuts, contents⟩ := filled
        obtain ⟨r', m₃, copied, more, bytes⟩ := stringCopy_spec (strbufView sb') m''
        rw [if_pos rfl, strbufToString, copied] at replaced
        obtain ⟨rfl, rfl⟩ := Prod.mk.inj replaced
        simp only [strbufDestroy_refusals] at calm
        refine ⟨ts, ?_, ?_⟩
        · rw [Splits, if_neg fun h => empty (List.length_eq_zero_iff.mpr h)]
          rwa [List.drop_zero] at cuts
        · rw [bytes (by omega)]
          rw [start, List.nil_append] at contents
          exact contents

/-- The leftmost non-overlapping occurrences replaced: as if the string were split at them and
joined with the replacement. -/
theorem replace_eq_split_join (s needle replacement r : Str) (m m₁ : Mem)
    (replaced : stringReplace s needle replacement m = (r, m₁))
    (calm : m₁.refusals = m.refusals) :
    (∀ it m₂ m₃, stringSplitSubstr s needle m₂ = (some it, m₃) → ∀ m₄, ∃ n, ∀ fuel, n ≤ fuel →
      ∃ r' m₅, stringJoin fuel (some it) replacement m₄ = some (r', m₅) ∧
        (m₅.refusals = m₄.refusals → r'.bytes = r.bytes)) ∧
    (replacement.bytes = needle.bytes → r.bytes = s.bytes) ∧
    (r.len : Int) =
      s.len + occurrences needle.bytes s.bytes * ((replacement.len : Int) - needle.len) := by
  obtain ⟨ts, splits, bytes⟩ := stringReplace_spec s needle replacement replaced calm
  refine ⟨fun it m₂ m₃ made m₄ => ?_, fun same => ?_, ?_⟩
  · match hm : memAlloc m₂ sizeofSplitState with
    | (none, _) => simp [stringSplitSubstr, splitMake, hm] at made
    | (some addr, m') =>
      simp only [stringSplitSubstr, splitMake, hm, Prod.mk.injEq, Option.some.injEq] at made
      obtain ⟨rfl, rfl⟩ := made
      rw [bytes, ← splits.unique (splitTokens_splits s needle)]
      exact stringJoin_spec splitCall_mono (fun _ _ => memFree_refusals _ _ _)
        (split_delivers addr ⟨s, needle, 0, false⟩) replacement m₄
  · rw [bytes, same]
    exact splits.intercalate
  · simp only [Str.len, bytes]
    exact splits.length_other replacement.bytes

/-- In "aX" the match ends at the end. -/
theorem replace_eq_split_join_aX :
    ∃ r m₁, stringReplace ⟨some 8, [97, 88], by simp, by decide⟩ ⟨some 4, [88], by simp, by decide⟩
        ⟨some 2, [121, 122], by simp, by decide⟩ (.start .generous) = (r, m₁) ∧
      (r.len : Int) = 2 + occurrences [(88 : UInt8)] [97, 88] * ((2 : Int) - 1) := by
  have calm : (stringReplace ⟨some 8, [97, 88], by simp, by decide⟩
      ⟨some 4, [88], by simp, by decide⟩ ⟨some 2, [121, 122], by simp, by decide⟩
      (.start .generous)).2.refusals = 0 := by
    rw [stringReplace, dif_neg (by decide)]
    unfold replaceFrom
    unfold replaceFrom
    decide +kernel
  exact ⟨_, _, rfl, (replace_eq_split_join ⟨some 8, [97, 88], by simp, by decide⟩
    ⟨some 4, [88], by simp, by decide⟩ ⟨some 2, [121, 122], by simp, by decide⟩ _
    (.start .generous) _ rfl calm).2.2⟩

end Seqc
