import Seqc.Replace
import Seqc.Tokens
import Seqc.Collate
import Seqc.Lib.Trimming

/-! string.c: searching from both ends, and the views that trimming gives. Which bytes are white
space is for the locale to say, so `isspace` is a parameter. -/

namespace Seqc
open Splitting Trimming

variable {s needle : Str} {c : UInt8}

/-! ### The calls -/

def stringStartsWith (memcmp : Memcmp) (s pre : Str) : Bool :=
  if s.len < pre.len then false
  else decide (memcmp.fn (s.bytes.take pre.len) pre.bytes = 0)

def stringEndsWith (memcmp : Memcmp) (s suffix : Str) : Bool :=
  if s.len < suffix.len then false
  else decide (memcmp.fn (s.bytes.drop (s.len - suffix.len)) suffix.bytes = 0)

def stringContains (s needle : Str) : Bool := decide (stringFind s needle ≠ stringNotFound)

/-- The loop of `string_rfind_char` from `i` down. -/
def stringRfindCharFrom (c : UInt8) (bs : List UInt8) : (i : Nat) → Nat
  | 0 => stringNotFound
  | i + 1 => if bs[i]? = some c then i else stringRfindCharFrom c bs i

def stringRfindChar (s : Str) (c : UInt8) : Nat := stringRfindCharFrom c s.bytes s.len

/-- How often the loop of `string_trim_left` is run. -/
def trimLeftSteps (isspace : UInt8 → Bool) : List UInt8 → Nat
  | [] => 0
  | b :: bs => if isspace b then trimLeftSteps isspace bs + 1 else 0

def stringTrimLeft (isspace : UInt8 → Bool) (s : Str) : Str :=
  s.drop (trimLeftSteps isspace s.bytes)

/-- The length that the loop of `string_trim_right` leaves, from `len` down. -/
def trimRightFrom (isspace : UInt8 → Bool) (bs : List UInt8) : (len : Nat) → Nat
  | 0 => 0
  | len + 1 => if bs[len]?.any isspace then trimRightFrom isspace bs len else len + 1

def stringTrimRight (isspace : UInt8 → Bool) (s : Str) : Str :=
  s.take (trimRightFrom isspace s.bytes s.len)

def stringTrim (isspace : UInt8 → Bool) (s : Str) : Str :=
  stringTrimRight isspace (stringTrimLeft isspace s)

/-! ### Substrings -/

theorem stringStartsWith_iff (memcmp : Memcmp) (s pre : Str) :
    stringStartsWith memcmp s pre = true ↔ pre.bytes <+: s.bytes := by
  unfold stringStartsWith
  by_cases long : s.len < pre.len
  · rw [if_pos long]
    refine ⟨by simp, fun h => ?_⟩
    have := h.length_le
    simp only [Str.len] at long
    omega
  · rw [if_neg long, decide_eq_true_eq, memcmp_eq_zero memcmp (by simp [Str.len] at long ⊢; omega),
      List.prefix_iff_eq_take, Str.len, eq_comm]

theorem stringEndsWith_iff (memcmp : Memcmp) (s suffix : Str) :
    stringEndsWith memcmp s suffix = true ↔ suffix.bytes <:+ s.bytes := by
  unfold stringEndsWith
  by_cases long : s.len < suffix.len
  · rw [if_pos long]
    refine ⟨by simp, fun h => ?_⟩
    have := h.length_le
    simp only [Str.len] at long
    omega
  · rw [if_neg long, decide_eq_true_eq, memcmp_eq_zero memcmp (by simp [Str.len] at long ⊢; omega),
      List.suffix_iff_eq_drop, Str.len, Str.len, eq_comm]

/-- What is found is the first occurrence, also of the empty needle. -/
theorem stringFind_first (s needle : Str) :
    (stringFind s needle = stringNotFound ∧ ¬needle.bytes <:+: s.bytes) ∨
      (stringFind s needle ≠ stringNotFound ∧ stringFind s needle + needle.len ≤ s.len ∧
        needle.bytes <+: s.bytes.drop (stringFind s needle) ∧
        ∀ k < stringFind s needle, ¬needle.bytes <+: s.bytes.drop k) := by
  by_cases empty : needle.len = 0
  · have nothing : needle.bytes = [] := List.length_eq_zero_iff.mp empty
    have found : stringFind s needle = 0 := by simp [stringFind, empty]
    rw [found, nothing, empty]
    exact .inr ⟨by simp [stringNotFound, sizeMax], by omega, List.nil_prefix, by simp⟩
  · exact stringFind_spec (Nat.pos_of_ne_zero empty)

theorem stringContains_iff (s needle : Str) :
    stringContains s needle = true ↔ needle.bytes <:+: s.bytes := by
  rw [stringContains, decide_eq_true_eq]
  rcases stringFind_first s needle with ⟨missing, absent⟩ | ⟨real, -, occurs, -⟩
  · exact iff_of_false (not_not.mpr missing) absent
  · exact iff_of_true real (infix_iff_drop.mpr ⟨_, occurs⟩)

theorem stringSlice_tail (s : Str) (k : Nat) :
    (stringSlice s k s.len).bytes = s.bytes.drop k := by
  rw [stringSlice_bytes, List.take_of_length_le (by simp [Str.len])]

/-- The searches agree with each other. A string contains the needle if one of its tails starts
with it, and the first such tail is the one that is found; there the needle cuts the string in
three, and nothing before ends with another occurrence. -/
theorem search_agrees (memcmp : Memcmp) (s needle : Str) :
    (stringContains s needle = true ↔
      ∃ k ≤ s.len, stringStartsWith memcmp (stringSlice s k s.len) needle = true) ∧
    (stringStartsWith memcmp s needle = true ↔ stringFind s needle = 0) ∧
    (stringEndsWith memcmp s needle = true → stringContains s needle = true) ∧
    (stringContains s needle = true →
      let i := stringFind s needle
      stringEquals memcmp (stringSlice s i (i + needle.len)) needle = true ∧
      (stringSlice s 0 i).bytes ++ needle.bytes ++ (stringSlice s (i + needle.len) s.len).bytes =
        s.bytes ∧
      (∀ k < i, stringStartsWith memcmp (stringSlice s k s.len) needle = false) ∧
      (0 < needle.len → stringContains (stringSlice s 0 (i + needle.len - 1)) needle = false)) := by
  have starts (k : Nat) : stringStartsWith memcmp (stringSlice s k s.len) needle = true ↔
      needle.bytes <+: s.bytes.drop k := by rw [stringStartsWith_iff, stringSlice_tail]
  refine ⟨?_, ?_, fun behind => ?_, fun contained => ?_⟩
  · simp only [stringContains_iff, starts]
    refine ⟨fun h => ?_, fun ⟨k, _, h⟩ => infix_iff_drop.mpr ⟨k, h⟩⟩
    rcases stringFind_first s needle with ⟨-, absent⟩ | ⟨-, fits, occurs, -⟩
    · exact absurd h absent
    · exact ⟨_, by omega, occurs⟩
  · rw [stringStartsWith_iff]
    rcases stringFind_first s needle with ⟨missing, absent⟩ | ⟨-, -, occurs, least⟩
    · rw [missing]
      refine iff_of_false (fun h => absent h.isInfix) (by simp [stringNotFound, sizeMax])
    · refine ⟨fun h => ?_, fun zero => by simpa [zero] using occurs⟩
      by_contra later
      exact least 0 (Nat.pos_of_ne_zero later) h
  · exact (stringContains_iff s needle).mpr ((stringEndsWith_iff memcmp s needle).mp behind).isInfix
  · rcases stringFind_first s needle with ⟨-, absent⟩ | ⟨-, fits, occurs, least⟩
    · exact absurd ((stringContains_iff s needle).mp contained) absent
    intro i
    have here : (s.bytes.drop i).take needle.len = needle.bytes :=
      (List.prefix_iff_eq_take.mp occurs).symm
    refine ⟨?_, ?_, fun k before => ?_, fun nonempty => ?_⟩
    · rw [stringEquals_iff, stringSlice_bytes, Nat.add_sub_cancel_left, here]
    · rw [stringSlice_bytes, stringSlice_tail, List.drop_zero, Nat.sub_zero]
      calc s.bytes.take i ++ needle.bytes ++ s.bytes.drop (i + needle.len)
          = s.bytes.take i ++ ((s.bytes.drop i).take needle.len ++
              (s.bytes.drop i).drop needle.len) := by rw [here, List.drop_drop, List.append_assoc]
        _ = s.bytes := by rw [List.take_append_drop, List.take_append_drop]
    · rw [← Bool.not_eq_true, starts]
      exact least k before
    · rw [← Bool.not_eq_true, stringContains_iff, stringSlice_bytes, List.drop_zero, Nat.sub_zero,
        infix_iff_drop]
      rintro ⟨k, h⟩
      have len := h.length_le
      rw [List.drop_take, List.length_take] at len
      have before : k < i := by
        simp only [Str.len] at nonempty len
        omega
      refine least k before (h.trans ?_)
      rw [List.drop_take]
      exact List.take_prefix _ _

/-- "an" in "banana". -/
theorem search_agrees_banana :
    let banana : Str := ⟨some 10, [98, 97, 110, 97, 110, 97], by simp, by decide⟩
    let an : Str := ⟨some 20, [97, 110], by simp, by decide⟩
    stringFind banana an = 1 ∧ stringStartsWith memcmpBytes banana an = false ∧
      stringEquals memcmpBytes (stringSlice banana 1 3) an = true ∧
      stringContains (stringSlice banana 0 2) an = false := by
  intro banana an
  have found : stringFind banana an = 1 := rfl
  obtain ⟨-, starts, -, parts⟩ := search_agrees memcmpBytes banana an
  obtain ⟨here, -, -, before⟩ := parts rfl
  rw [found] at here before
  refine ⟨found, ?_, here, before (by decide)⟩
  rw [Bool.eq_false_iff, ne_eq, starts, found]
  decide

/-! ### Bytes -/

theorem stringFindCharFrom_spec (c : UInt8) (bs : List UInt8) :
    ∀ i, i + bs.length ≤ ptrdiffMax →
      (stringFindCharFrom c bs i = stringNotFound ∧ c ∉ bs) ∨
        ∃ k, stringFindCharFrom c bs i = i + k ∧ bs[k]? = some c ∧ c ∉ bs.take k := by
  induction bs with
  | nil => exact fun i _ => .inl ⟨rfl, by simp⟩
  | cons b bs ih =>
    intro i room
    rw [List.length_cons] at room
    rw [stringFindCharFrom]
    by_cases here : b = c
    · rw [if_pos here]
      exact .inr ⟨0, rfl, by simp [here], by simp⟩
    · rw [if_neg here]
      rcases ih (i + 1) (by omega) with ⟨missing, absent⟩ | ⟨k, found, occurs, first⟩
      · exact .inl ⟨missing, by simp [absent, Ne.symm here]⟩
      · exact .inr ⟨k + 1, by omega, by simpa using occurs, by simp [first, Ne.symm here]⟩

theorem stringRfindCharFrom_spec (c : UInt8) (bs : List UInt8) (n : Nat) :
    n ≤ bs.length → n ≤ ptrdiffMax →
      (stringRfindCharFrom c bs n = stringNotFound ∧ c ∉ bs.take n) ∨
        ∃ k < n, stringRfindCharFrom c bs n = k ∧ bs[k]? = some c ∧
          c ∉ (bs.take n).drop (k + 1) := by
  induction n with
  | zero => exact fun _ _ => .inl ⟨rfl, by simp⟩
  | succ n ih =>
    intro within room
    rw [stringRfindCharFrom]
    by_cases here : bs[n]? = some c
    · rw [if_pos here]
      exact .inr ⟨n, by omega, rfl, here, by simp⟩
    · rw [if_neg here]
      have last : bs.take (n + 1) = bs.take n ++ [bs[n]] := by
        rw [List.take_add_one, List.getElem?_eq_getElem (by omega)]
        rfl
      have other : c ≠ bs[n] := by
        intro same
        exact here (by rw [List.getElem?_eq_getElem (by omega), same])
      rcases ih (by omega) (by omega) with ⟨missing, absent⟩ | ⟨k, less, found, occurs, later⟩
      · refine .inl ⟨missing, ?_⟩
        rw [last, List.mem_append, List.mem_singleton, not_or]
        exact ⟨absent, other⟩
      · refine .inr ⟨k, by omega, found, occurs, ?_⟩
        rw [last, List.drop_append_of_le_length (by rw [List.length_take]; omega), List.mem_append,
          List.mem_singleton, not_or]
        exact ⟨later, other⟩

/-- The two searches for a byte find the first and the last; both find one or neither does, and
they find the same one exactly if there is only one. -/
theorem char_search_spans (s : Str) (c : UInt8) :
    (stringFindChar s c = stringNotFound ↔ c ∉ s.bytes) ∧
    (stringRfindChar s c = stringNotFound ↔ c ∉ s.bytes) ∧
    (c ∈ s.bytes →
      let i := stringFindChar s c
      let j := stringRfindChar s c
      i ≤ j ∧ j < s.len ∧ s.bytes[i]? = some c ∧ s.bytes[j]? = some c ∧
      c ∉ (stringSlice s 0 i).bytes ∧ c ∉ (stringSlice s (j + 1) s.len).bytes ∧
      (i = j ↔ s.bytes.count c = 1)) := by
  have short := s.len_le
  have front := stringFindCharFrom_spec c s.bytes 0 (by omega)
  have back := stringRfindCharFrom_spec c s.bytes s.len le_rfl short
  simp only [Str.len, List.take_length] at back
  have far : ptrdiffMax < stringNotFound := by decide
  have within {k : Nat} (occurs : s.bytes[k]? = some c) : k < s.bytes.length :=
    (List.getElem?_eq_some_iff.mp occurs).1
  have mem {k : Nat} (occurs : s.bytes[k]? = some c) : c ∈ s.bytes :=
    List.mem_of_getElem? occurs
  refine ⟨?_, ?_, fun present => ?_⟩
  · rcases front with ⟨missing, absent⟩ | ⟨k, found, occurs, -⟩
    · exact iff_of_true missing absent
    · refine iff_of_false ?_ (not_not.mpr (mem occurs))
      have := within occurs
      unfold stringFindChar
      omega
  · rcases back with ⟨missing, absent⟩ | ⟨k, less, found, occurs, -⟩
    · exact iff_of_true missing absent
    · refine iff_of_false ?_ (not_not.mpr (mem occurs))
      unfold stringRfindChar
      simp only [Str.len]
      omega
  · obtain ⟨i, found, here, first⟩ := front.resolve_left fun h => h.2 present
    obtain ⟨j, less, found', here', later⟩ := back.resolve_left fun h => h.2 present
    rw [Nat.zero_add] at found
    have ordered : i ≤ j := by
      by_contra beyond
      refine first (List.mem_of_getElem? (i := j) ?_)
      rw [List.getElem?_take_of_lt (by omega), here']
    have rest : c ∈ s.bytes.drop (i + 1) ↔ i ≠ j := by
      refine ⟨fun h same => later (same ▸ h), fun apart => ?_⟩
      refine List.mem_of_getElem? (i := j - (i + 1)) ?_
      rw [List.getElem?_drop, Nat.add_sub_cancel' (by omega), here']
    have cut : s.bytes = s.bytes.take i ++ c :: s.bytes.drop (i + 1) := by
      obtain ⟨lt, same⟩ := List.getElem?_eq_some_iff.mp here
      rw [← same, ← List.drop_eq_getElem_cons lt, List.take_append_drop]
    have count : s.bytes.count c = (s.bytes.drop (i + 1)).count c + 1 := by
      conv_lhs => rw [cut]
      rw [List.count_append, List.count_eq_zero_of_not_mem first, List.count_cons_self,
        Nat.zero_add]
    simp only [stringFindChar, stringRfindChar, found, found', Str.len]
    refine ⟨ordered, less, here, here', ?_, ?_, ?_⟩
    · rwa [stringSlice_bytes, List.drop_zero, Nat.sub_zero]
    · exact stringSlice_tail s (j + 1) ▸ later
    · rw [count, Nat.add_eq_right, List.count_eq_zero, rest, not_not]

/-! ### Trimming -/

section Trim
variable {isspace : UInt8 → Bool}

theorem trimLeftSteps_eq (isspace : UInt8 → Bool) (bs : List UInt8) :
    trimLeftSteps isspace bs = (bs.takeWhile isspace).length := by
  induction bs with
  | nil => rfl
  | cons b bs ih =>
    rw [trimLeftSteps, List.takeWhile_cons]
    split
    · rw [ih, List.length_cons]
    · rfl

theorem stringTrimLeft_bytes (isspace : UInt8 → Bool) (s : Str) :
    (stringTrimLeft isspace s).bytes = s.bytes.dropWhile isspace := by
  rw [stringTrimLeft, Str.bytes_drop, trimLeftSteps_eq]
  conv_lhs => rw [← List.takeWhile_append_dropWhile (p := isspace) (l := s.bytes)]
  rw [List.drop_append_of_le_length (by rw [List.takeWhile_append_dropWhile]),
    List.takeWhile_append_dropWhile, List.drop_length, List.nil_append]

theorem trimRightFrom_eq (isspace : UInt8 → Bool) (bs : List UInt8) (n : Nat)
    (within : n ≤ bs.length) :
    bs.take (trimRightFrom isspace bs n) = (bs.take n).rdropWhile isspace := by
  induction n with
  | zero => rfl
  | succ n ih =>
    have last : bs.take (n + 1) = bs.take n ++ [bs[n]] := by
      rw [List.take_add_one, List.getElem?_eq_getElem (by omega)]
      rfl
    rw [trimRightFrom, List.getElem?_eq_getElem (by omega), Option.any_some]
    by_cases space : isspace bs[n] = true
    · rw [if_pos space, ih (by omega), last, List.rdropWhile_concat_pos _ _ _ space]
    · rw [if_neg space, last, List.rdropWhile_concat_neg _ _ _ space]

theorem stringTrimRight_bytes (isspace : UInt8 → Bool) (s : Str) :
    (stringTrimRight isspace s).bytes = s.bytes.rdropWhile isspace := by
  rw [stringTrimRight, Str.bytes_take, Str.len, trimRightFrom_eq isspace _ _ le_rfl,
    List.take_length]

theorem stringTrim_bytes (isspace : UInt8 → Bool) (s : Str) :
    (stringTrim isspace s).bytes = trim isspace s.bytes := by
  rw [stringTrim, stringTrimRight_bytes, stringTrimLeft_bytes, trim]

theorem stringTrim_of_bare {t : Str} (bare : Bare isspace t.bytes) :
    stringTrim isspace t = t := by
  obtain ⟨ptr, bytes, null_empty, len_le⟩ := t
  have left : trimLeftSteps isspace bytes = 0 := by
    cases bytes with
    | nil => rfl
    | cons b bs => simp [trimLeftSteps, bare.first b rfl]
  have right : trimRightFrom isspace bytes bytes.length = bytes.length := by
    rcases List.eq_nil_or_concat' bytes with rfl | ⟨bs, b, rfl⟩
    · rfl
    · rw [List.length_append, List.length_singleton, trimRightFrom]
      simp [bare.last b (by simp)]
  simp [stringTrim, stringTrimRight, stringTrimLeft, Str.drop, Str.take, Str.len, left, right]

/-- Trimming gives the only part of a string that stands between white space and has none at its
ends, as a view of it; trimmed again or from the other end first, it stays as it is. -/
theorem trim_is_core (isspace : UInt8 → Bool) (s : Str) :
    (∃ pre post, s.bytes = pre ++ (stringTrim isspace s).bytes ++ post ∧
      (∀ b ∈ pre, isspace b = true) ∧ (∀ b ∈ post, isspace b = true) ∧
      (stringTrim isspace s).ptr = s.ptr.map (· + pre.length)) ∧
    Bare isspace (stringTrim isspace s).bytes ∧
    (∀ pre t post, s.bytes = pre ++ t ++ post → (∀ b ∈ pre, isspace b = true) →
      (∀ b ∈ post, isspace b = true) → Bare isspace t → t = (stringTrim isspace s).bytes) ∧
    stringTrim isspace (stringTrim isspace s) = stringTrim isspace s ∧
    (stringTrimLeft isspace (stringTrimRight isspace s)).bytes = (stringTrim isspace s).bytes := by
  obtain ⟨pre, post, split, before, behind, rfl⟩ := trim_split isspace s.bytes
  have bare : Bare isspace (stringTrim isspace s).bytes := by
    rw [stringTrim_bytes]
    exact trim_bare isspace s.bytes
  refine ⟨⟨s.bytes.takeWhile isspace, post, ?_, before, behind, ?_⟩, bare,
    fun pre' t post' split' before' behind' bare' => ?_, ?_, ?_⟩
  · rwa [stringTrim_bytes]
  · rw [← trimLeftSteps_eq]
    rfl
  · rw [stringTrim_bytes, split']
    exact (trim_unique before' behind' bare').1.symm
  · exact stringTrim_of_bare bare
  · have other := (trim_unique before behind (trim_bare isspace s.bytes)).2
    rw [← split] at other
    rw [stringTrimLeft_bytes, stringTrimRight_bytes, stringTrim_bytes, other]

end Trim

end Seqc
