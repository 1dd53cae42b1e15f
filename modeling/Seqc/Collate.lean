import Seqc.Str
import Seqc.Lib.Lexicographic

/-! string.c: comparison and case conversion of byte strings. `memcmp` belongs to the C
library: it is any function whose sign is as the standard says. -/

namespace Seqc
open Comparator Lexicographic

/-- `memcmp` of two objects of one size: the sign is that of the difference of the first
bytes that differ, as `unsigned char`. -/
structure Memcmp where
  fn : List UInt8 → List UInt8 → Int
  equal : ∀ xs, fn xs xs = 0
  differ : ∀ pre a b xs ys, a ≠ b → xs.length = ys.length →
    (fn (pre ++ a :: xs) (pre ++ b :: ys)).sign = ((a.toNat : Int) - b.toNat).sign

/-! ### The order of bytes -/

def byteCmp (a b : UInt8) : Int := a.toNat - b.toNat

theorem byteCmp_laws : Laws byteCmp := intCmp_laws.comap fun a : UInt8 => (a.toNat : Int)

theorem byteCmp_lt_iff (a b : UInt8) : byteCmp a b < 0 ↔ a < b := by
  rw [byteCmp, UInt8.lt_iff_toNat_lt]
  omega

theorem byteCmp_eq_iff (a b : UInt8) : byteCmp a b = 0 ↔ a = b := by
  rw [byteCmp, ← UInt8.toNat_inj]
  omega

theorem lexCmp_byteCmp_eq_zero (xs ys : List UInt8) : lexCmp byteCmp xs ys = 0 ↔ xs = ys := by
  rw [lexCmp_eq_zero, ← List.forall₂_eq_eq_eq]
  simp only [byteCmp_eq_iff]

/-- The `memcmp` that returns the difference of the first bytes that differ. -/
def memcmpBytes : Memcmp where
  fn := lexCmp byteCmp
  equal := lexCmp_self byteCmp_laws.self
  differ pre a b xs ys ne _ := by
    have apart : byteCmp a b ≠ 0 := fun same => ne ((byteCmp_eq_iff a b).mp same)
    rw [lexCmp_append byteCmp_laws.self, lexCmp_cons_of_ne apart]
    rfl

/-! ### Letters -/

def asciiLower (c : UInt8) : UInt8 := if 65 ≤ c ∧ c ≤ 90 then c + 32 else c

def asciiUpper (c : UInt8) : UInt8 := if 97 ≤ c ∧ c ≤ 122 then c - 32 else c

/-! ### Comparison -/

def stringEquals (memcmp : Memcmp) (a b : Str) : Bool :=
  decide (a.len = b.len) && decide (memcmp.fn a.bytes (b.bytes.take a.len) = 0)

/-- The loop of `string_equals_case_insensitive`. -/
def equalsCaseInsensitiveFrom : List UInt8 → List UInt8 → Bool
  | a :: as, b :: bs =>
    if asciiLower a ≠ asciiLower b then false else equalsCaseInsensitiveFrom as bs
  | _, _ => true

def stringEqualsCaseInsensitive (a b : Str) : Bool :=
  if a.len ≠ b.len then false else equalsCaseInsensitiveFrom a.bytes b.bytes

/-- `(a > b) - (a < b)`. -/
def compareLengths (a b : Nat) : Int := (if b < a then 1 else 0) - (if a < b then 1 else 0)

def stringCompare (memcmp : Memcmp) (a b : Str) : Int :=
  let min := if a.len < b.len then a.len else b.len
  let cmp := memcmp.fn (a.bytes.take min) (b.bytes.take min)
  if cmp ≠ 0 then cmp else compareLengths a.len b.len

/-- The loop of `string_compare_case_insensitive`, with what comes behind it. -/
def compareCaseInsensitiveFrom (rest : Int) : List UInt8 → List UInt8 → Int
  | a :: as, b :: bs =>
    let c : Int := (asciiLower a).toNat - (asciiLower b).toNat
    if c ≠ 0 then c else compareCaseInsensitiveFrom rest as bs
  | _, _ => rest

def stringCompareCaseInsensitive (a b : Str) : Int :=
  let min := if a.len < b.len then a.len else b.len
  compareCaseInsensitiveFrom (compareLengths a.len b.len) (a.bytes.take min) (b.bytes.take min)

/-! ### Case conversion -/

/-- A copy with every byte converted. -/
def stringConvert (convert : UInt8 → UInt8) (s : Str) (m : Mem) : Str × Mem :=
  if s.ptr = none ∨ s.len = 0 then (.null, m)
  else
    match memAlloc m s.len with
    | (none, m) => (.null, m)
    | (some buf, m) => (⟨some buf, s.bytes.map convert, by simp, by simp [s.len_le]⟩, m)

def stringToUppercase (s : Str) (m : Mem) : Str × Mem := stringConvert asciiUpper s m

def stringToLowercase (s : Str) (m : Mem) : Str × Mem := stringConvert asciiLower s m

/-- `r` is what a conversion makes of `s` when no allocation fails. -/
def Converts (convert : Str → Mem → Str × Mem) (s r : Str) : Prop :=
  ∃ m m', convert s m = (r, m') ∧ m'.refusals = m.refusals

theorem converts_bytes {convert : UInt8 → UInt8} {s r : Str}
    (h : Converts (stringConvert convert) s r) : r.bytes = s.bytes.map convert := by
  obtain ⟨m, m', made, quiet⟩ := h
  unfold stringConvert at made
  split at made
  · rename_i nothing
    obtain ⟨rfl, rfl⟩ := Prod.mk.inj made
    have none : s.bytes = [] := nothing.elim s.null_empty List.length_eq_zero_iff.mp
    rw [none]
    rfl
  · split at made
    · rename_i hm
      have refused := memAlloc_none hm
      obtain ⟨rfl, rfl⟩ := Prod.mk.inj made
      omega
    · obtain ⟨rfl, rfl⟩ := Prod.mk.inj made
      rfl

theorem exists_converts (convert : UInt8 → UInt8) (s : Str) :
    ∃ r, Converts (stringConvert convert) s r := by
  refine ⟨(stringConvert convert s (.start .generous)).1, .start .generous,
    (stringConvert convert s (.start .generous)).2, rfl, ?_⟩
  unfold stringConvert
  split
  · rfl
  · match hm : memAlloc (.start .generous) s.len with
    | (none, m) =>
      have large := memAlloc_generous hm rfl
      have small := s.len_le
      exact absurd large (Nat.not_lt.mpr small)
    | (some buf, m) => exact (memAlloc_some hm).2.2

/-! ### Upper and lower case -/

theorem upper_lower (c : UInt8) : asciiUpper (asciiLower c) = asciiUpper c := by
  unfold asciiUpper asciiLower
  grind

theorem lower_upper (c : UInt8) : asciiLower (asciiUpper c) = asciiLower c := by
  unfold asciiUpper asciiLower
  grind

/-- Both conversions merge the same bytes. -/
theorem map_upper_eq_iff (xs ys : List UInt8) :
    xs.map asciiUpper = ys.map asciiUpper ↔ xs.map asciiLower = ys.map asciiLower := by
  have lower (zs : List UInt8) : (zs.map asciiUpper).map asciiLower = zs.map asciiLower := by
    rw [List.map_map]
    exact List.map_congr_left fun c _ => lower_upper c
  have upper (zs : List UInt8) : (zs.map asciiLower).map asciiUpper = zs.map asciiUpper := by
    rw [List.map_map]
    exact List.map_congr_left fun c _ => upper_lower c
  constructor
  · intro same
    rw [← lower xs, same, lower]
  · intro same
    rw [← upper xs, same, upper]

/-! ### The functions in terms of the order of lists -/

theorem Memcmp.sign_eq (memcmp : Memcmp) {xs ys : List UInt8} (len : xs.length = ys.length) :
    (memcmp.fn xs ys).sign = (lexCmp byteCmp xs ys).sign := by
  cases first_difference xs ys len with
  | inl same => rw [same, memcmp.equal, lexCmp_self byteCmp_laws.self]
  | inr differ =>
    obtain ⟨pre, a, b, xs', ys', rfl, rfl, ne, len'⟩ := differ
    have apart : byteCmp a b ≠ 0 := fun same => ne ((byteCmp_eq_iff a b).mp same)
    rw [memcmp.differ pre a b xs' ys' ne len', lexCmp_append byteCmp_laws.self,
      lexCmp_cons_of_ne apart]
    rfl

theorem memcmp_eq_zero (memcmp : Memcmp) {xs ys : List UInt8} (len : xs.length = ys.length) :
    memcmp.fn xs ys = 0 ↔ xs = ys := by
  rw [← Int.sign_eq_zero_iff_zero, memcmp.sign_eq len, Int.sign_eq_zero_iff_zero,
    lexCmp_byteCmp_eq_zero]

theorem shorter_eq_min (a b : Nat) : (if a < b then a else b) = min a b := by
  rw [Nat.min_def]
  split <;> split <;> omega

theorem lexCmp_bytes (a b : Str) :
    lexCmp byteCmp a.bytes b.bytes =
      let min := min a.len b.len
      let c := lexCmp byteCmp (a.bytes.take min) (b.bytes.take min)
      if c ≠ 0 then c else compareLengths a.len b.len :=
  lexCmp_eq_take a.bytes b.bytes

theorem stringCompare_sign (memcmp : Memcmp) (a b : Str) :
    (stringCompare memcmp a b).sign = (lexCmp byteCmp a.bytes b.bytes).sign := by
  have len : (a.bytes.take (min a.len b.len)).length =
      (b.bytes.take (min a.len b.len)).length := by
    simp only [List.length_take, Str.len]
    omega
  rw [stringCompare, lexCmp_bytes]
  simp only [shorter_eq_min]
  generalize a.bytes.take (min a.len b.len) = xs at len ⊢
  generalize b.bytes.take (min a.len b.len) = ys at len ⊢
  have zero : memcmp.fn xs ys = 0 ↔ lexCmp byteCmp xs ys = 0 := by
    rw [memcmp_eq_zero memcmp len, lexCmp_byteCmp_eq_zero]
  by_cases same : memcmp.fn xs ys = 0
  · rw [if_neg (not_not.mpr same), if_neg (not_not.mpr (zero.mp same))]
  · rw [if_pos same, if_pos fun h => same (zero.mpr h)]
    exact memcmp.sign_eq len

theorem stringEquals_iff (memcmp : Memcmp) (a b : Str) :
    stringEquals memcmp a b = true ↔ a.bytes = b.bytes := by
  simp only [stringEquals, Bool.and_eq_true, decide_eq_true_eq]
  constructor
  · rintro ⟨len, same⟩
    rw [len, Str.len, List.take_length, memcmp_eq_zero memcmp len] at same
    exact same
  · intro same
    have len : a.len = b.len := congrArg List.length same
    refine ⟨len, ?_⟩
    rw [len, Str.len, List.take_length, same]
    exact memcmp.equal _

theorem equalsCaseInsensitiveFrom_iff (xs : List UInt8) :
    ∀ ys, xs.length = ys.length →
      (equalsCaseInsensitiveFrom xs ys = true ↔ xs.map asciiLower = ys.map asciiLower) := by
  induction xs with
  | nil =>
    intro ys len
    rw [List.length_eq_zero_iff.mp len.symm]
    simp [equalsCaseInsensitiveFrom]
  | cons x xs ih =>
    intro ys len
    cases ys with
    | nil => simp at len
    | cons y ys =>
      rw [List.length_cons, List.length_cons, Nat.add_right_cancel_iff] at len
      rw [equalsCaseInsensitiveFrom, List.map_cons, List.map_cons, List.cons.injEq, ← ih ys len]
      by_cases same : asciiLower x = asciiLower y <;> simp [same]

theorem stringEqualsCaseInsensitive_iff (a b : Str) :
    stringEqualsCaseInsensitive a b = true ↔
      a.bytes.map asciiLower = b.bytes.map asciiLower := by
  unfold stringEqualsCaseInsensitive
  by_cases len : a.len = b.len
  · rw [if_neg (not_not.mpr len)]
    exact equalsCaseInsensitiveFrom_iff _ _ len
  · rw [if_pos len]
    refine ⟨fun h => by simp at h, fun same => absurd ?_ len⟩
    simpa [Str.len] using congrArg List.length same

theorem compareCaseInsensitiveFrom_eq (rest : Int) (xs : List UInt8) :
    ∀ ys, xs.length = ys.length →
      compareCaseInsensitiveFrom rest xs ys =
        let c := lexCmp byteCmp (xs.map asciiLower) (ys.map asciiLower)
        if c ≠ 0 then c else rest := by
  induction xs with
  | nil =>
    intro ys len
    rw [List.length_eq_zero_iff.mp len.symm]
    rfl
  | cons x xs ih =>
    intro ys len
    cases ys with
    | nil => simp at len
    | cons y ys =>
      rw [List.length_cons, List.length_cons, Nat.add_right_cancel_iff] at len
      simp only [compareCaseInsensitiveFrom, List.map_cons]
      by_cases same : byteCmp (asciiLower x) (asciiLower y) = 0
      · rw [lexCmp_cons_of_eq same, ih ys len]
        exact if_neg (not_not.mpr same)
      · rw [lexCmp_cons_of_ne same, if_pos same]
        exact if_pos same

theorem stringCompareCaseInsensitive_eq (a b : Str) :
    stringCompareCaseInsensitive a b =
      lexCmp byteCmp (a.bytes.map asciiLower) (b.bytes.map asciiLower) := by
  rw [stringCompareCaseInsensitive, lexCmp_eq_take]
  simp only [shorter_eq_min, List.length_map, ← List.map_take]
  refine (compareCaseInsensitiveFrom_eq _ _ _ ?_).trans rfl
  simp only [List.length_take, Str.len]
  omega

/-! ### The orders -/

def isAsciiLetter (c : UInt8) : Prop := (65 ≤ c ∧ c ≤ 90) ∨ (97 ≤ c ∧ c ≤ 122)

/-- What is to be said of the comparisons and conversions: `string_compare` is the
lexicographic order of unsigned bytes, `string_compare_case_insensitive` is that of the
lowercased strings, and the equalities are those of the orders. -/
structure StringOrders (memcmp : Memcmp) : Prop where
  less : ∀ a b, stringCompare memcmp a b < 0 ↔ a.bytes < b.bytes
  laws : Laws (stringCompare memcmp)
  antisymm : ∀ a b, stringCompare memcmp a b ≤ 0 → stringCompare memcmp b a ≤ 0 →
    a.bytes = b.bytes
  equal : ∀ a b, stringCompare memcmp a b = 0 ↔ stringEquals memcmp a b = true
  lowers : ∀ s, ∃ r, Converts stringToLowercase s r
  uppers : ∀ s, ∃ r, Converts stringToUppercase s r
  lowered : ∀ a b a' b', Converts stringToLowercase a a' → Converts stringToLowercase b b' →
    (stringCompareCaseInsensitive a b).sign = (stringCompare memcmp a' b').sign
  caseLaws : Laws stringCompareCaseInsensitive
  caseEqual : ∀ a b,
    stringCompareCaseInsensitive a b = 0 ↔ stringEqualsCaseInsensitive a b = true
  lowerEqual : ∀ a b a' b', Converts stringToLowercase a a' → Converts stringToLowercase b b' →
    (stringCompareCaseInsensitive a b = 0 ↔ stringEquals memcmp a' b' = true)
  upperEqual : ∀ a b a' b', Converts stringToUppercase a a' → Converts stringToUppercase b b' →
    (stringCompareCaseInsensitive a b = 0 ↔ stringEquals memcmp a' b' = true)
  others : ∀ s s', Converts stringToLowercase s s' ∨ Converts stringToUppercase s s' →
    ∀ (i : Nat) (c : UInt8), s.bytes[i]? = some c → ¬isAsciiLetter c → s'.bytes[i]? = some c

theorem other_unchanged {c : UInt8} (other : ¬isAsciiLetter c) :
    asciiLower c = c ∧ asciiUpper c = c := by
  unfold isAsciiLetter at other
  exact ⟨if_neg fun upper => other (.inl upper), if_neg fun lower => other (.inr lower)⟩

theorem string_orders (memcmp : Memcmp) : StringOrders memcmp where
  less a b := by
    rw [← Int.sign_neg_iff, stringCompare_sign, Int.sign_neg_iff]
    exact lexCmp_lt_iff byteCmp_lt_iff byteCmp_eq_iff a.bytes b.bytes
  laws := ((lexCmp_laws byteCmp_laws).comap Str.bytes).of_sign (stringCompare_sign memcmp)
  antisymm a b le ge := by
    have laws := ((lexCmp_laws byteCmp_laws).comap Str.bytes).of_sign (stringCompare_sign memcmp)
    have zero : stringCompare memcmp a b = 0 := by
      have := laws.le_iff b a
      omega
    rw [← Int.sign_eq_zero_iff_zero, stringCompare_sign, Int.sign_eq_zero_iff_zero] at zero
    exact (lexCmp_byteCmp_eq_zero _ _).mp zero
  equal a b := by
    rw [← Int.sign_eq_zero_iff_zero, stringCompare_sign, Int.sign_eq_zero_iff_zero,
      lexCmp_byteCmp_eq_zero, stringEquals_iff]
  lowers := exists_converts asciiLower
  uppers := exists_converts asciiUpper
  lowered a b a' b' ha hb := by
    rw [stringCompare_sign, stringCompareCaseInsensitive_eq, converts_bytes ha, converts_bytes hb]
  caseLaws := by
    have laws := (lexCmp_laws byteCmp_laws).comap fun s : Str => s.bytes.map asciiLower
    exact laws.of_sign fun a b => by rw [stringCompareCaseInsensitive_eq]
  caseEqual a b := by
    rw [stringCompareCaseInsensitive_eq, lexCmp_byteCmp_eq_zero, stringEqualsCaseInsensitive_iff]
  lowerEqual a b a' b' ha hb := by
    rw [stringCompareCaseInsensitive_eq, lexCmp_byteCmp_eq_zero, stringEquals_iff,
      converts_bytes ha, converts_bytes hb]
  upperEqual a b a' b' ha hb := by
    rw [stringCompareCaseInsensitive_eq, lexCmp_byteCmp_eq_zero, stringEquals_iff,
      converts_bytes ha, converts_bytes hb, map_upper_eq_iff]
  others s s' made i c here other := by
    obtain ⟨lower, upper⟩ := other_unchanged other
    cases made with
    | inl made => rw [converts_bytes made, List.getElem?_map, here, Option.map_some, lower]
    | inr made => rw [converts_bytes made, List.getElem?_map, here, Option.map_some, upper]

theorem string_orders_bytes : StringOrders memcmpBytes := string_orders memcmpBytes

end Seqc
