import Seqc.Collate
import Seqc.Hashmap

/-! The pairs of a hash and an equality that hashmap.c and string.c offer for keys. `size_t`
has 64 bits, so the casts from `uint64_t` change nothing. -/

namespace Seqc
open ClassMap

variable {κ φ : Type} {n : Nat}

/-- The offset basis and the prime of the hash functions. -/
def fnvOffset : UInt64 := 14695981039346656037
def fnvPrime : UInt64 := 1099511628211

/-! ### hashmap.c -/

/-- What a key pointer points at: `key_size` bytes. -/
structure KeyBytes (n : Nat) where
  bytes : List UInt8
  length_eq : bytes.length = n

/-- The bytes behind a `char *`; a NUL is among them. -/
structure CStr where
  bytes : List UInt8
  terminated : (0 : UInt8) ∈ bytes

/-- The characters before the NUL. -/
def CStr.chars (s : CStr) : List UInt8 := s.bytes.takeWhile fun c => c ≠ 0

/-- `strcmp` of the C library up to the first characters that differ or are NUL. Its callers
only look whether the result is zero. -/
def strcmp : List UInt8 → List UInt8 → Int
  | a :: as, b :: bs => if a ≠ b then a.toNat - b.toNat else if a = 0 then 0 else strcmp as bs
  | _, _ => 0

def sizeofCharPointer : Nat := 8

/-- The loop of `hash_fnv1a`. -/
def fnv1aFrom : (hash : UInt64) → List UInt8 → UInt64
  | hash, [] => hash
  | hash, b :: bs => fnv1aFrom ((hash ^^^ b.toUInt64) * fnvPrime) bs

def hashFnv1a (key : Option (KeyBytes n)) : UInt64 :=
  match key with
  | none => 0
  | some key => if n = 0 then 0 else fnv1aFrom fnvOffset key.bytes

def hashEqBytes (memcmp : Memcmp) (a b : Option (KeyBytes n)) : Bool :=
  if n = 0 then true
  else
    match a, b with
    | some a, some b => decide (memcmp.fn a.bytes b.bytes = 0)
    | _, _ => false

/-- The loop of `hash_cstr`, which ends at the NUL. -/
def cstrFrom : (hash : UInt64) → List UInt8 → UInt64
  | hash, [] => hash
  | hash, c :: cs => if c = 0 then hash else cstrFrom ((hash ^^^ c.toUInt64) * fnvPrime) cs

/-- The key is a pointer to a `char *`; both may be NULL. -/
def hashCstr (key : Option (Option CStr)) (keySize : Nat) : UInt64 :=
  if keySize ≠ sizeofCharPointer then 0
  else
    match key with
    | some (some s) => cstrFrom fnvOffset s.bytes
    | _ => 0

/-- `none` if `strcmp` is handed a NULL pointer. -/
def hashEqCstr (a b : Option (Option CStr)) (keySize : Nat) : Option Bool :=
  if keySize ≠ sizeofCharPointer then some false
  else
    match a, b with
    | some (some a), some (some b) => some (decide (strcmp a.bytes b.bytes = 0))
    | some _, some _ => none
    | _, _ => some false

/-! ### string.c -/

/-- The loops of `string_hash` and `string_hash_case_insensitive`, which differ in what they
make of a byte. -/
def stringHashFrom (fold : UInt8 → UInt8) : (hash : UInt64) → List UInt8 → UInt64
  | hash, [] => hash
  | hash, b :: bs => stringHashFrom fold ((hash ^^^ (fold b).toUInt64) * fnvPrime) bs

def stringHashWith (fold : UInt8 → UInt8) (key : Option Str) : UInt64 :=
  match key with
  | none => 0
  | some s => if s.ptr = none ∨ s.len = 0 then 0 else stringHashFrom fold fnvOffset s.bytes

def stringHash (key : Option Str) : UInt64 := stringHashWith id key

def stringHashCaseInsensitive (key : Option Str) : UInt64 := stringHashWith asciiLower key

def stringKeyEq (memcmp : Memcmp) (a b : Option Str) : Bool :=
  match a, b with
  | some a, some b => stringEquals memcmp a b
  | _, _ => false

def stringKeyEqCaseInsensitive (a b : Option Str) : Bool :=
  match a, b with
  | some a, some b => stringEqualsCaseInsensitive a b
  | _, _ => false

/-! ### The pairs, for keys that are not NULL -/

def bytesKeys (memcmp : Memcmp) (n : Nat) : KeyFns (KeyBytes n) where
  hash k := (hashFnv1a (some k)).toNat
  eq a b := hashEqBytes memcmp (some a) (some b)

def cstrKeys : KeyFns CStr where
  hash k := (hashCstr (some (some k)) sizeofCharPointer).toNat
  eq a b := decide (hashEqCstr (some (some a)) (some (some b)) sizeofCharPointer = some true)

def stringKeys (memcmp : Memcmp) : KeyFns Str where
  hash k := (stringHash (some k)).toNat
  eq a b := stringKeyEq memcmp (some a) (some b)

def stringKeysCaseInsensitive : KeyFns Str where
  hash k := (stringHashCaseInsensitive (some k)).toNat
  eq a b := stringKeyEqCaseInsensitive (some a) (some b)

/-- A pair is lawful if the equality compares what the hash sees. -/
theorem KeyFns.lawful_of_form {f : KeyFns κ} (form : κ → φ) (hash : φ → Nat)
    (eq_iff : ∀ a b, f.eq a b = true ↔ form a = form b)
    (hash_form : ∀ a, f.hash a = hash (form a)) :
    f.Lawful where
  refl a := (eq_iff a a).mpr rfl
  symm a b h := (eq_iff b a).mpr ((eq_iff a b).mp h).symm
  trans a b c hab hbc := (eq_iff a c).mpr (((eq_iff a b).mp hab).trans ((eq_iff b c).mp hbc))
  hash_eq a b h := by rw [hash_form, hash_form, (eq_iff a b).mp h]

theorem cstrFrom_chars (bs : List UInt8) :
    ∀ hash, cstrFrom hash bs = fnv1aFrom hash (bs.takeWhile fun c => c ≠ 0) := by
  induction bs with
  | nil => exact fun _ => rfl
  | cons c cs ih =>
    intro hash
    by_cases last : c = 0
    · simp [cstrFrom, fnv1aFrom, last]
    · rw [cstrFrom, if_neg last, List.takeWhile_cons_of_pos (by simpa using last), ih, fnv1aFrom]

theorem stringHashFrom_map (fold : UInt8 → UInt8) (bs : List UInt8) :
    ∀ hash, stringHashFrom fold hash bs = fnv1aFrom hash (bs.map fold) := by
  induction bs with
  | nil => exact fun _ => rfl
  | cons b bs ih =>
    intro hash
    rw [stringHashFrom, List.map_cons, fnv1aFrom, ih]

/-- The shortcut for a NULL pointer is one for no bytes. -/
theorem stringHashWith_map (fold : UInt8 → UInt8) (s : Str) :
    stringHashWith fold (some s) =
      if s.bytes.map fold = [] then 0 else fnv1aFrom fnvOffset (s.bytes.map fold) := by
  have nothing : s.ptr = none ∨ s.len = 0 ↔ s.bytes.map fold = [] := by
    rw [List.map_eq_nil_iff]
    exact ⟨fun h => h.elim s.null_empty List.length_eq_zero_iff.mp,
      fun h => .inr (List.length_eq_zero_iff.mpr h)⟩
  simp only [stringHashWith, nothing, stringHashFrom_map]

theorem bytesKeys_lawful (memcmp : Memcmp) (n : Nat) : (bytesKeys memcmp n).Lawful := by
  refine KeyFns.lawful_of_form KeyBytes.bytes
    (fun bs => (if n = 0 then 0 else fnv1aFrom fnvOffset bs).toNat) (fun a b => ?_) fun _ => rfl
  have len : a.bytes.length = b.bytes.length := a.length_eq.trans b.length_eq.symm
  by_cases zero : n = 0
  · have none (k : KeyBytes n) : k.bytes = [] :=
      List.length_eq_zero_iff.mp (k.length_eq.trans zero)
    simp [bytesKeys, hashEqBytes, zero, none]
  · simp [bytesKeys, hashEqBytes, zero, memcmp_eq_zero memcmp len]

theorem strcmp_eq_zero (as : List UInt8) :
    ∀ bs, (0 : UInt8) ∈ as → (0 : UInt8) ∈ bs →
      (strcmp as bs = 0 ↔ (as.takeWhile fun c => c ≠ 0) = bs.takeWhile fun c => c ≠ 0) := by
  induction as with
  | nil => simp
  | cons a as ih =>
    intro bs ha hb
    cases bs with
    | nil => simp at hb
    | cons b bs =>
      by_cases same : a = b
      · subst same
        by_cases last : a = 0
        · simp [strcmp, last]
        · have ha' : (0 : UInt8) ∈ as := by simpa [Ne.symm last] using ha
          have hb' : (0 : UInt8) ∈ bs := by simpa [Ne.symm last] using hb
          simp [strcmp, last, ih bs ha' hb']
      · have apart : (a.toNat : Int) - b.toNat ≠ 0 := by
          intro zero
          exact same (UInt8.toNat_inj.mp (by omega))
        simp only [strcmp, ne_eq, same, not_false_eq_true, if_true, apart, false_iff]
        intro equal
        -- Two strings without a first byte are both at their end, which is one byte.
        by_cases first : a = 0
        · by_cases second : b = 0
          · exact same (first.trans second.symm)
          · simp [first, second] at equal
        · by_cases second : b = 0
          · simp [first, second] at equal
          · rw [List.takeWhile_cons_of_pos (by simpa using first),
              List.takeWhile_cons_of_pos (by simpa using second)] at equal
            exact same (List.cons.inj equal).1

theorem cstrKeys_lawful : cstrKeys.Lawful := by
  refine KeyFns.lawful_of_form CStr.chars (fun cs => (fnv1aFrom fnvOffset cs).toNat)
    (fun a b => ?_) fun a => ?_
  · simp [cstrKeys, hashEqCstr, strcmp_eq_zero _ _ a.terminated b.terminated, CStr.chars]
  · simp only [cstrKeys, hashCstr, ne_eq, not_true_eq_false, if_false, cstrFrom_chars, CStr.chars]

theorem stringKeys_lawful (memcmp : Memcmp) : (stringKeys memcmp).Lawful := by
  refine KeyFns.lawful_of_form (fun s => s.bytes.map id)
    (fun bs => (if bs = [] then 0 else fnv1aFrom fnvOffset bs).toNat) (fun a b => ?_) fun a => ?_
  · simp only [List.map_id]
    exact stringEquals_iff memcmp a b
  · simp only [stringKeys, stringHash, stringHashWith_map]

theorem stringKeysCaseInsensitive_lawful : stringKeysCaseInsensitive.Lawful := by
  refine KeyFns.lawful_of_form (fun s => s.bytes.map asciiLower)
    (fun bs => (if bs = [] then 0 else fnv1aFrom fnvOffset bs).toNat) (fun a b => ?_) fun a => ?_
  · exact stringEqualsCaseInsensitive_iff a b
  · simp only [stringKeysCaseInsensitive, stringHashCaseInsensitive, stringHashWith_map]

/-- All pairs of a hash and an equality are what the hash tables ask for. -/
theorem library_keys_lawful (memcmp : Memcmp) :
    (∀ n, (bytesKeys memcmp n).Lawful) ∧ cstrKeys.Lawful ∧
      (stringKeys memcmp).Lawful ∧ stringKeysCaseInsensitive.Lawful :=
  ⟨bytesKeys_lawful memcmp, cstrKeys_lawful, stringKeys_lawful memcmp,
    stringKeysCaseInsensitive_lawful⟩

theorem library_keys_lawful_bytes :
    (∀ n, (bytesKeys memcmpBytes n).Lawful) ∧ cstrKeys.Lawful ∧
      (stringKeys memcmpBytes).Lawful ∧ stringKeysCaseInsensitive.Lawful :=
  library_keys_lawful memcmpBytes

end Seqc
