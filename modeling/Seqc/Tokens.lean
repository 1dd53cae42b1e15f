import Seqc.SplitJoin
import Seqc.IterBuild

/-! `string_split_next`, and the three tokenizers at a single byte: they find the same
boundaries, so they yield the same tokens, and undo a join with that byte. -/

namespace Seqc
open Iteration Splitting

variable {s d rest : Str} {c : UInt8} {m m₁ : Mem}

/-- The loop of `string_find_char` from `i` on. -/
def stringFindCharFrom (c : UInt8) : List UInt8 → (i : Nat) → Nat
  | [], _ => stringNotFound
  | b :: bs, i => if b = c then i else stringFindCharFrom c bs (i + 1)

def stringFindChar (s : Str) (c : UInt8) : Nat := stringFindCharFrom c s.bytes 0

/-- The token, if there is one, and what is left in `rest`; both pointers are the caller's
and not NULL. -/
def stringSplitNext (rest : Str) (sep : UInt8) : Option Str × Str :=
  if rest.ptr = none then (none, rest)
  else
    let i := stringFindChar rest sep
    if i = stringNotFound then (some rest, .null)
    else (some (rest.take i), rest.drop (i + 1))

/-- `while (string_split_next(&rest, sep, &token))`. -/
def splitNextCall (sep : UInt8) (_ : Nat) (rest : Str) (m : Mem) :
    Option (Option Str × Str × Mem) :=
  some ((stringSplitNext rest sep).1, (stringSplitNext rest sep).2, m)

/-! ### One boundary, found in three ways -/

theorem charsetFindFrom_single (c : UInt8) (bs : List UInt8) :
    ∀ i, charsetFindFrom [c] bs i = stringFindCharFrom c bs i := by
  induction bs with
  | nil =>
    intro i
    rfl
  | cons b bs ih =>
    intro i
    simp only [charsetFindFrom, stringFindCharFrom, ih, List.any_cons, List.any_nil,
      Bool.or_false, decide_eq_true_eq]

theorem stringFindFrom_single (c : UInt8) (s : List UInt8) (count : Nat) :
    ∀ i, i + count = s.length →
      stringFindFrom s [c] count i = stringFindCharFrom c (s.drop i) i := by
  induction count with
  | zero =>
    intro i all
    rw [List.drop_eq_nil_of_le (by omega)]
    rfl
  | succ count ih =>
    intro i all
    rw [stringFindFrom, ih (i + 1) (by omega),
      List.drop_eq_getElem_cons (by omega : i < s.length), stringFindCharFrom]
    simp only [List.length_singleton, List.take_succ_cons, List.take_zero, List.cons.injEq,
      and_true]

theorem stringFind_single (s : Str) (one : d.bytes = [c]) :
    stringFind s d = stringFindChar s c := by
  have length : d.len = 1 := congrArg List.length one
  unfold stringFind stringFindChar
  rw [length, one, if_neg Nat.one_ne_zero]
  by_cases empty : s.len < 1
  · have none : s.bytes = [] := List.length_eq_zero_iff.mp (Nat.lt_one_iff.mp empty)
    rw [if_pos empty, none]
    rfl
  · rw [if_neg empty, stringFindFrom_single c s.bytes _ 0, List.drop_zero]
    simp only [Str.len] at empty ⊢
    omega

theorem splitBoundary_single {st : SplitState} (one : st.delim.bytes = [c]) (r : Str) :
    splitBoundary st r = (stringFindChar r c, 1) := by
  have length : st.delim.len = 1 := congrArg List.length one
  rw [splitBoundary, length, if_pos Nat.one_pos]
  cases st.anychar with
  | true =>
    rw [if_pos rfl, charsetFind, one, charsetFindFrom_single]
    rfl
  | false => rw [if_neg (by decide), stringFind_single r one]

/-- What one call cuts off, whichever function finds the boundary. -/
theorem splitNext_single {st : SplitState} (one : st.delim.bytes = [c])
    (inside : st.pos ≤ st.src.len) :
    splitNext st =
      let off := stringFindChar (st.src.drop st.pos) c
      if off = stringNotFound then
        (some (st.src.drop st.pos), { st with pos := st.src.len + 1 })
      else (some ((st.src.drop st.pos).take off), { st with pos := st.pos + (off + 1) }) := by
  rw [splitNext, if_neg (Nat.not_lt.mpr inside)]
  simp only [splitBoundary_single one]

/-! ### The same tokens -/

theorem splitTokens_any (st : SplitState) (one : st.delim.bytes = [c])
    (substr : st.anychar = false) :
    splitTokens { st with anychar := true } = splitTokens st := by
  induction st using splitTokens.induct with
  | case1 st st' h =>
    have past : st.src.len < st.pos := by
      by_contra inside
      rw [splitNext_single one (Nat.le_of_not_lt inside)] at h
      simp only at h
      split at h <;> simp at h
    have past' : { st with anychar := true }.src.len < { st with anychar := true }.pos := past
    rw [splitTokens_past past, splitTokens_past past']
  | case2 st t st' h ih =>
    have inside := (splitNext_progress h).1
    have one' : { st with anychar := true }.delim.bytes = [c] := one
    have any := splitNext_single one' inside
    rw [splitTokens_some h]
    rw [splitNext_single one inside] at h
    simp only at h any
    split at h
    · rename_i missing
      obtain ⟨ht, rfl⟩ := Prod.mk.inj h
      obtain rfl := Option.some.inj ht
      rw [if_pos missing] at any
      rw [splitTokens_some any]
      exact congrArg _ (ih one substr)
    · rename_i found
      obtain ⟨ht, rfl⟩ := Prod.mk.inj h
      obtain rfl := Option.some.inj ht
      rw [if_neg found] at any
      rw [splitTokens_some any]
      exact congrArg _ (ih one substr)

theorem Str.drop_drop (s : Str) (a b : Nat) : (s.drop a).drop b = s.drop (a + b) := by
  have same : ((s.ptr.map (· + a)).map (· + b)) = s.ptr.map (· + (a + b)) := by
    rw [Option.map_map]
    exact congrArg (s.ptr.map ·) (funext fun p => Nat.add_assoc p a b)
  simp only [drop, List.drop_drop, same]

theorem Str.drop_zero (s : Str) : s.drop 0 = s := by
  cases s
  simp [drop]

/-- The rest that `string_split_next` keeps is what is behind the cursor of the iterators, and
`{NULL, 0}` stands for a cursor past the end. -/
theorem splitNextCall_yields (st : SplitState) (one : st.delim.bytes = [c])
    (nonNull : st.src.ptr ≠ none) (inside : st.pos ≤ st.src.len) (m : Mem) :
    Yields (splitNextCall c) (st.src.drop st.pos) m (splitTokens st) .null m := by
  have last : Yields (splitNextCall c) .null m [] .null m :=
    .ended ⟨0, rfl⟩
  have real : (st.src.drop st.pos).ptr ≠ none := fun h => nonNull (Option.map_eq_none_iff.mp h)
  induction st using splitTokens.induct with
  | case1 st st' h =>
    rw [splitNext_single one inside] at h
    simp only at h
    split at h <;> simp at h
  | case2 st t st' h ih =>
    rw [splitTokens_some h]
    rw [splitNext_single one inside] at h
    simp only at h
    split at h
    · rename_i missing
      obtain ⟨ht, rfl⟩ := Prod.mk.inj h
      obtain rfl := Option.some.inj ht
      rw [splitTokens_past (Nat.lt_succ_self _)]
      refine .item ⟨0, ?_⟩ last
      simp only [splitNextCall, stringSplitNext, if_neg real, missing, if_true]
    · rename_i found
      obtain ⟨ht, rfl⟩ := Prod.mk.inj h
      obtain rfl := Option.some.inj ht
      have fits : st.pos + (stringFindChar (st.src.drop st.pos) c + 1) ≤ st.src.len := by
        have cut := stringFind_spec (s := st.src.drop st.pos) (d := st.delim)
          (by rw [Str.len, one]; exact Nat.one_pos)
        rw [stringFind_single _ one] at cut
        cases cut with
        | inl missing => exact absurd missing.1 found
        | inr here =>
          have room := here.2.1
          rw [Str.len_drop, Str.len, one] at room
          simp only [List.length_singleton] at room
          omega
      have rest := ih one nonNull fits fun h => nonNull (Option.map_eq_none_iff.mp h)
      refine .item ⟨0, ?_⟩ rest
      simp only [splitNextCall, stringSplitNext, if_neg real, if_neg found, Str.drop_drop]

/-! ### The tokenizers as iterators -/

/-- The iterator that `split_make` makes yields the tokens. -/
theorem splitMake_yields {anychar : Bool} {it : IterT (Nat × SplitState) Str}
    (made : splitMake s d anychar m = (some it, m₁)) (m : Mem) :
    ∃ st m', Yields it.next it.state m (splitTokens ⟨s, d, 0, anychar⟩) st m' := by
  unfold splitMake at made
  split at made
  · simp at made
  · rename_i addr m₂ hm
    obtain ⟨here, -⟩ := Prod.mk.inj made
    obtain rfl := Option.some.inj here
    obtain ⟨zs, st, m', run, -, rfl, -⟩ := (split_delivers addr ⟨s, d, 0, anychar⟩).yields m
    exact ⟨st, m', run⟩

/-- The tokens at a single byte are the pieces between its occurrences. -/
theorem splitTokens_single (s : Str) (one : d.bytes = [c]) :
    Cuts [c] s.bytes ((splitTokens ⟨s, d, 0, false⟩).map Str.bytes) := by
  have splits := splitTokens_splits s d
  rwa [Splits, one, if_neg (by simp)] at splits

/-- The tokens of a join are what was joined. -/
theorem splitTokens_join {ts : List Str} (some : ts ≠ []) (free : ∀ t ∈ ts, c ∉ t.bytes)
    (one : d.bytes = [c]) (joined : s.bytes = [c].intercalate (ts.map Str.bytes)) :
    (splitTokens ⟨s, d, 0, false⟩).map Str.bytes = ts.map Str.bytes := by
  have cuts : Cuts [c] s.bytes (ts.map Str.bytes) := by
    rw [joined]
    refine cuts_intercalate (by simpa using some) fun t mem => ?_
    obtain ⟨u, hu, rfl⟩ := List.mem_map.mp mem
    exact free u hu
  exact (splitTokens_single s one).unique cuts

theorem fromSlice_join {ts : List Str} {it : Iter .string} {j : IterT (Iter .string) Str}
    (made : iterFromSlice (t := .string) ts m = (it, m₁)) (valid : it.asIterT = some j) (sep : Str)
    (m : Mem) :
    ∃ n, ∀ fuel, n ≤ fuel → ∃ r m', stringJoin fuel (some j) sep m = some (r, m') ∧
      (m'.refusals = m.refusals → r.bytes = sep.bytes.intercalate (ts.map Str.bytes)) := by
  unfold iterFromSlice withState at made
  split at made
  · obtain ⟨rfl, -⟩ := Prod.mk.inj made
    simp [Iter.asIterT] at valid
  · rename_i addr _ _
    obtain ⟨rfl, -⟩ := Prod.mk.inj made
    obtain rfl := Option.some.inj valid
    have delivers := fromSlice_delivers (t := .string) (F := fun _ => True) addr ts trivial 0
      (Nat.zero_le _)
    exact stringJoin_spec (fun fuel s m r h => Iter.next_mono (t := .string) fuel s m r h)
      (fun s m => destroy_refusals s m) delivers sep m

/-- The three tokenizers yield the same tokens, which are the pieces between the occurrences
of the byte; and the tokens of a join are what was joined. -/
theorem tokenizers_agree (c : UInt8) (d : Str) (one : d.bytes = [c]) :
    (∀ s : Str, s.ptr ≠ none → ∃ ts : List Str,
      (∀ m, Yields (splitNextCall c) s m ts .null m) ∧
      (∀ it m m₁, stringSplitSubstr s d m = (some it, m₁) →
        ∀ m₂, ∃ st m₃, Yields it.next it.state m₂ ts st m₃) ∧
      (∀ it m m₁, stringSplitAny s d m = (some it, m₁) →
        ∀ m₂, ∃ st m₃, Yields it.next it.state m₂ ts st m₃) ∧
      (∀ t ∈ ts, c ∉ t.bytes) ∧ ts.length = s.bytes.count c + 1) ∧
    ∀ ts : List Str, ts ≠ [] → (∀ t ∈ ts, c ∉ t.bytes) →
      ∀ it m m₁ j, iterFromSlice (t := .string) ts m = (it, m₁) → it.asIterT = some j →
      ∀ m₂, ∃ n, ∀ fuel, n ≤ fuel → ∃ r m₃, stringJoin fuel (some j) d m₂ = some (r, m₃) ∧
        (m₃.refusals = m₂.refusals → ∀ split m₄ m₅,
          stringSplitSubstr r d m₄ = (some split, m₅) ∨ stringSplitAny r d m₄ = (some split, m₅) →
          ∀ m₆, ∃ us st m₇, Yields split.next split.state m₆ us st m₇ ∧
            us.map Str.bytes = ts.map Str.bytes) := by
  have any (s : Str) : splitTokens ⟨s, d, 0, true⟩ = splitTokens ⟨s, d, 0, false⟩ :=
    splitTokens_any ⟨s, d, 0, false⟩ one rfl
  constructor
  · intro s nonNull
    have cuts := splitTokens_single s one
    refine ⟨splitTokens ⟨s, d, 0, false⟩, fun m => ?_, fun it m m₁ made => splitMake_yields made,
      fun it m m₁ made => ?_, fun t mem => ?_, ?_⟩
    · have yields := splitNextCall_yields ⟨s, d, 0, false⟩ one nonNull (Nat.zero_le _) m
      rwa [Str.drop_zero] at yields
    · rw [← any s]
      exact splitMake_yields made
    · exact cuts.pieces_free t.bytes (List.mem_map_of_mem mem)
    · simpa using cuts.length_single
  · intro ts some free it m m₁ j made valid m₂
    obtain ⟨n, joins⟩ := fromSlice_join made valid d m₂
    refine ⟨n, fun fuel enough => ?_⟩
    obtain ⟨r, m₃, run, bytes⟩ := joins fuel enough
    refine ⟨r, m₃, run, fun calm split m₄ m₅ made m₆ => ?_⟩
    have joined := bytes calm
    rw [one] at joined
    have tokens := splitTokens_join some free one joined
    cases made with
    | inl substr =>
      obtain ⟨st, m₇, yields⟩ := splitMake_yields substr m₆
      exact ⟨_, st, m₇, yields, tokens⟩
    | inr set =>
      obtain ⟨st, m₇, yields⟩ := splitMake_yields set m₆
      exact ⟨_, st, m₇, yields, by rw [any r, tokens]⟩

/-- The text "a,,b" at a comma, and the tokens "a", "" and "b" joined by it. -/
theorem tokenizers_agree_comma :
    (∃ ts : List Str, ts.length = 3 ∧
      (∀ m, Yields (splitNextCall 44) ⟨some 8, [97, 44, 44, 98], by simp, by decide⟩ m ts .null m) ∧
      ∃ it m₁, stringSplitSubstr ⟨some 8, [97, 44, 44, 98], by simp, by decide⟩
          ⟨some 4, [44], by simp, by decide⟩ (.start .generous) = (some it, m₁) ∧
        ∃ st m₂, Yields it.next it.state m₁ ts st m₂) ∧
    ∃ fuel j m r m₁ split m₂ us st m₃,
      (iterFromSlice (t := .string) [⟨some 8, [97], by simp, by decide⟩, .null,
        ⟨some 9, [98], by simp, by decide⟩] (.start .generous)).1.asIterT = some j ∧
      stringJoin fuel (some j) ⟨some 4, [44], by simp, by decide⟩ m = some (r, m₁) ∧
      r.bytes = [97, 44, 44, 98] ∧
      stringSplitAny r ⟨some 4, [44], by simp, by decide⟩ m₁ = (some split, m₂) ∧
      Yields split.next split.state m₂ us st m₃ ∧ us.map Str.bytes = [[97], [], [98]] := by
  obtain ⟨splits, joins⟩ := tokenizers_agree 44 ⟨some 4, [44], by simp, by decide⟩ rfl
  constructor
  · obtain ⟨ts, next, substr, -, -, length⟩ :=
      splits ⟨some 8, [97, 44, 44, 98], by simp, by decide⟩ (by simp)
    exact ⟨ts, length, next, _, _, rfl, substr _ (.start .generous) _ rfl _⟩
  · obtain ⟨n, joined⟩ := joins [⟨some 8, [97], by simp, by decide⟩, .null,
      ⟨some 9, [98], by simp, by decide⟩] (by simp) (by simp [Str.null]) _ (.start .generous) _ _
        rfl rfl (.start .generous)
    obtain ⟨r, m₁, run, again⟩ := joined (n + 9) (by omega)
    obtain ⟨calm, text, split, m₂, made⟩ : m₁.refusals = 0 ∧ r.bytes = [97, 44, 44, 98] ∧
        ∃ split m₂, stringSplitAny r ⟨some 4, [44], by simp, by decide⟩ m₁ = (some split, m₂) := by
      obtain ⟨rfl, rfl⟩ := Prod.mk.inj (Option.some.inj (run.symm.trans rfl))
      exact ⟨rfl, rfl, _, _, rfl⟩
    obtain ⟨us, st, m₃, yields, tokens⟩ := again calm split m₁ m₂ (.inr made) m₂
    exact ⟨n + 9, _, _, r, m₁, split, m₂, us, st, m₃, rfl, run, text, made, yields, tokens⟩

end Seqc
