import Mathlib.Data.Nat.Digits.Lemmas

/-! Decimal numerals in ASCII: which byte strings are one, the integer that a numeral denotes,
and the shortest numeral of an integer, which denotes it. -/

namespace Decimal

def isDigit (c : UInt8) : Bool := decide (48 ≤ c ∧ c ≤ 57)

def digitValue (c : UInt8) : Nat := c.toNat - 48

def digitOf (d : Nat) : UInt8 := UInt8.ofNat (48 + d)

/-- The value of a string of digits, the most significant first. -/
def value (ds : List UInt8) : Nat := Nat.ofDigits 10 (ds.reverse.map digitValue)

/-- The sign that a string starts with, if any. -/
def signOf : List UInt8 → List UInt8
  | c :: _ => if c = 43 ∨ c = 45 then [c] else []
  | [] => []

def signed (sign : List UInt8) (n : Nat) : Int := if sign = [45] then -n else n

/-- `bs` is an optional sign and one or more digits, and denotes `v`. -/
def Numeral (bs : List UInt8) (v : Int) : Prop :=
  ∃ sign ds, (sign = [] ∨ sign = [43] ∨ sign = [45]) ∧ ds ≠ [] ∧ (∀ d ∈ ds, isDigit d = true) ∧
    bs = sign ++ ds ∧ v = signed sign (value ds)

/-! ### Reading -/

theorem signOf_digits {ds : List UInt8} (digits : ∀ d ∈ ds, isDigit d = true) :
    signOf ds = [] := by
  cases ds with
  | nil => rfl
  | cons d ds =>
    have first := digits d (by simp)
    simp only [isDigit, decide_eq_true_eq] at first
    have plus : d ≠ 43 := by
      rintro rfl
      exact absurd first.1 (by decide)
    have minus : d ≠ 45 := by
      rintro rfl
      exact absurd first.1 (by decide)
    simp [signOf, plus, minus]

theorem signOf_cases (bs : List UInt8) :
    signOf bs = [] ∨ signOf bs = [43] ∨ signOf bs = [45] := by
  cases bs with
  | nil => exact .inl rfl
  | cons c cs =>
    rw [signOf]
    split
    · rename_i h
      rcases h with rfl | rfl
      · exact .inr (.inl rfl)
      · exact .inr (.inr rfl)
    · exact .inl rfl

theorem signOf_append_drop (bs : List UInt8) :
    signOf bs ++ bs.drop (signOf bs).length = bs := by
  cases bs with
  | nil => rfl
  | cons c cs =>
    rw [signOf]
    split <;> rfl

/-- Whether a string is a numeral is decided by what follows its sign. -/
theorem numeral_iff {bs : List UInt8} {v : Int} :
    Numeral bs v ↔ bs.drop (signOf bs).length ≠ [] ∧
      (∀ d ∈ bs.drop (signOf bs).length, isDigit d = true) ∧
      v = signed (signOf bs) (value (bs.drop (signOf bs).length)) := by
  constructor
  · rintro ⟨sign, ds, hsign, nonempty, digits, rfl, rfl⟩
    have leading : signOf (sign ++ ds) = sign := by
      rcases hsign with rfl | rfl | rfl
      · exact signOf_digits digits
      · rfl
      · rfl
    rw [leading, List.drop_left]
    exact ⟨nonempty, digits, rfl⟩
  · rintro ⟨nonempty, digits, rfl⟩
    exact ⟨signOf bs, bs.drop (signOf bs).length, signOf_cases bs, nonempty, digits,
      (signOf_append_drop bs).symm, rfl⟩

theorem Numeral.unique {bs : List UInt8} {v w : Int} (h : Numeral bs v) (h' : Numeral bs w) :
    v = w := by
  rw [(numeral_iff.mp h).2.2, (numeral_iff.mp h').2.2]

theorem Numeral.mem {bs : List UInt8} {v : Int} {c : UInt8} (h : Numeral bs v) (hc : c ∈ bs) :
    c = 43 ∨ c = 45 ∨ isDigit c = true := by
  obtain ⟨sign, ds, hsign, -, digits, rfl, -⟩ := h
  rcases List.mem_append.mp hc with here | here
  · rcases hsign with rfl | rfl | rfl
    · simp at here
    · exact .inl (List.mem_singleton.mp here)
    · exact .inr (.inl (List.mem_singleton.mp here))
  · exact .inr (.inr (digits c here))

/-! ### Writing -/

def digits (n : Nat) : List UInt8 :=
  if n = 0 then [48] else ((Nat.digits 10 n).map digitOf).reverse

def text (v : Int) : List UInt8 := if v < 0 then 45 :: digits v.natAbs else digits v.natAbs

theorem toNat_digitOf {d : Nat} (h : d < 10) : (digitOf d).toNat = 48 + d := by
  rw [digitOf, UInt8.toNat_ofNat']
  exact Nat.mod_eq_of_lt (by omega)

theorem isDigit_digitOf {d : Nat} (h : d < 10) : isDigit (digitOf d) = true := by
  have code := toNat_digitOf h
  simp only [isDigit, decide_eq_true_eq, UInt8.le_iff_toNat_le, code]
  exact ⟨Nat.le_add_right 48 d, by change 48 + d ≤ 57; omega⟩

theorem digitValue_digitOf {d : Nat} (h : d < 10) : digitValue (digitOf d) = d := by
  rw [digitValue, toNat_digitOf h]
  omega

theorem digits_ne_nil (n : Nat) : digits n ≠ [] := by
  rw [digits]
  split
  · simp
  · rename_i pos
    simpa using Nat.digits_ne_nil_iff_ne_zero.mpr pos

theorem isDigit_of_mem_digits {n : Nat} {c : UInt8} (h : c ∈ digits n) : isDigit c = true := by
  rw [digits] at h
  split at h
  · rw [List.mem_singleton.mp h]
    rfl
  · obtain ⟨d, hd, rfl⟩ := List.mem_map.mp (List.mem_reverse.mp h)
    exact isDigit_digitOf (Nat.digits_lt_base (by omega) hd)

theorem value_digits (n : Nat) : value (digits n) = n := by
  rw [digits]
  split
  · rename_i zero
    rw [zero]
    rfl
  · have read : ((Nat.digits 10 n).map digitOf).map digitValue = Nat.digits 10 n :=
      calc
        _ = (Nat.digits 10 n).map (digitValue ∘ digitOf) := List.map_map
        _ = (Nat.digits 10 n).map id := List.map_congr_left fun d hd =>
          digitValue_digitOf (Nat.digits_lt_base (by omega) hd)
        _ = Nat.digits 10 n := List.map_id _
    rw [value, List.reverse_reverse, read, Nat.ofDigits_digits]

theorem length_digits_le {n k : Nat} (hk : 0 < k) (h : n < 10 ^ k) : (digits n).length ≤ k := by
  rw [digits]
  split
  · exact hk
  · rw [List.length_reverse, List.length_map]
    exact (Nat.digits_length_le_iff (by omega) n).mpr h

theorem numeral_text (v : Int) : Numeral (text v) v := by
  rw [text]
  split
  · refine ⟨[45], digits v.natAbs, .inr (.inr rfl), digits_ne_nil _,
      fun _ => isDigit_of_mem_digits, rfl, ?_⟩
    rw [signed, value_digits]
    simp only [if_true]
    omega
  · refine ⟨[], digits v.natAbs, .inl rfl, digits_ne_nil _, fun _ => isDigit_of_mem_digits, rfl, ?_⟩
    rw [signed, value_digits, if_neg (by simp)]
    omega

/-- The sign takes one more byte. -/
theorem length_text_le {v : Int} {k : Nat} (hk : 0 < k) (h : v.natAbs < 10 ^ k) :
    (text v).length ≤ k + 1 := by
  have short := length_digits_le hk h
  rw [text]
  split
  · rw [List.length_cons]
    omega
  · omega

end Decimal
