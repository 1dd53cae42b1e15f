import Seqc.Str
import Seqc.Lib.Splitting

/-! `string_find` finds the leftmost occurrence, so the tokens of
`string_split_substr` are the pieces between the leftmost occurrences of the
delimiter, and `string_join` undoes the cut. -/

namespace Seqc
open Iteration Splitting

variable {s d : Str}

/-! ### Searching -/

theorem stringFindFrom_spec (s d : List UInt8) (count : Nat) :
    ∀ i, i + count ≤ sizeMax →
      (stringFindFrom s d count i = stringNotFound ∧
          ∀ k, i ≤ k → k < i + count → ¬d <+: s.drop k) ∨
        (i ≤ stringFindFrom s d count i ∧ stringFindFrom s d count i < i + count ∧
          d <+: s.drop (stringFindFrom s d count i) ∧
          ∀ k, i ≤ k → k < stringFindFrom s d count i → ¬d <+: s.drop k) := by
  induction count with
  | zero =>
    intro i _
    exact .inl ⟨rfl, fun k le lt => by omega⟩
  | succ count ih =>
    intro i room
    rw [stringFindFrom]
    by_cases here : (s.drop i).take d.length = d
    · rw [if_pos here]
      exact .inr ⟨le_rfl, by omega, List.prefix_iff_eq_take.mpr here.symm, fun k le lt => by omega⟩
    · have absent : ¬d <+: s.drop i := fun h => here (List.prefix_iff_eq_take.mp h).symm
      have first (k : Nat) (le : i ≤ k) (later : i + 1 ≤ k → ¬d <+: s.drop k) :
          ¬d <+: s.drop k := by
        by_cases same : k = i
        · rwa [same]
        · exact later (by omega)
      rw [if_neg here]
      cases ih (i + 1) (by omega) with
      | inl missing =>
        exact .inl ⟨missing.1, fun k le lt => first k le fun h => missing.2 k h (by omega)⟩
      | inr found =>
        obtain ⟨ge, lt, occurs, leftmost⟩ := found
        exact .inr ⟨by omega, by omega, occurs, fun k le hk => first k le fun h => leftmost k h hk⟩

/-- The delimiter does not occur, or the first occurrence is found. -/
theorem stringFind_spec (nonempty : 0 < d.len) :
    (stringFind s d = stringNotFound ∧ ¬d.bytes <:+: s.bytes) ∨
      (stringFind s d ≠ stringNotFound ∧ stringFind s d + d.len ≤ s.len ∧
        d.bytes <+: s.bytes.drop (stringFind s d) ∧
        ∀ k < stringFind s d, ¬d.bytes <+: s.bytes.drop k) := by
  have short := s.len_le
  simp only [ptrdiffMax] at short
  have fits (k : Nat) (h : d.bytes <+: s.bytes.drop k) : k + d.len ≤ s.len := by
    have le := h.length_le
    rw [List.length_drop] at le
    simp only [Str.len] at nonempty ⊢
    omega
  unfold stringFind
  rw [if_neg (by omega : ¬d.len = 0)]
  by_cases long : s.len < d.len
  · rw [if_pos long]
    refine .inl ⟨rfl, fun h => ?_⟩
    obtain ⟨k, h⟩ := infix_iff_drop.mp h
    have := fits k h
    omega
  · rw [if_neg long]
    cases stringFindFrom_spec s.bytes d.bytes (s.len - d.len + 1) 0
      (by simp only [Str.len, sizeMax] at nonempty ⊢; omega) with
    | inl missing =>
      refine .inl ⟨missing.1, fun h => ?_⟩
      obtain ⟨k, h⟩ := infix_iff_drop.mp h
      have := fits k h
      exact missing.2 k (Nat.zero_le k) (by omega) h
    | inr found =>
      obtain ⟨-, lt, occurs, leftmost⟩ := found
      refine .inr ⟨?_, fits _ occurs, occurs, fun k hk => leftmost k (Nat.zero_le k) hk⟩
      simp only [stringNotFound, sizeMax, Str.len] at lt nonempty ⊢
      omega

/-! ### The tokens -/

theorem splitBoundary_pos (st : SplitState) (r : Str)
    (h : (splitBoundary st r).1 ≠ stringNotFound) : 0 < (splitBoundary st r).2 := by
  unfold splitBoundary at h ⊢
  by_cases delim : 0 < st.delim.len
  · rw [if_pos delim]
    cases st.anychar with
    | true => exact Nat.one_pos
    | false => exact delim
  · rw [if_neg delim] at h
    exact absurd rfl h

theorem splitNext_progress {st st' : SplitState} {t : Str} (h : splitNext st = (some t, st')) :
    st.pos ≤ st.src.len ∧ st.pos < st'.pos ∧ st'.src = st.src := by
  unfold splitNext at h
  by_cases past : st.src.len < st.pos
  · simp [past] at h
  · rw [if_neg past] at h
    have positive := splitBoundary_pos st (st.src.drop st.pos)
    simp only at h
    split at h <;> obtain ⟨-, rfl⟩ := Prod.mk.inj h
    · exact ⟨by omega, by simp only; omega, rfl⟩
    · have := positive ‹_›
      exact ⟨by omega, by simp only; omega, rfl⟩

/-- The tokens still to come. -/
def splitTokens (st : SplitState) : List Str :=
  match _h : splitNext st with
  | (none, _) => []
  | (some t, st') => t :: splitTokens st'
termination_by st.src.len + 1 - st.pos
decreasing_by
  obtain ⟨le, lt, same⟩ := splitNext_progress _h
  rw [same]
  omega

theorem splitNext_past {st : SplitState} (h : st.src.len < st.pos) : splitNext st = (none, st) := by
  rw [splitNext, if_pos h]

theorem splitCall_mono : Mono splitCall := fun _ _ _ _ h => h

/-- The iterator delivers its tokens and stays past the end. -/
theorem split_delivers (addr : Nat) (st : SplitState) :
    Delivers splitCall Mem.refusals (fun s => s.2.src.len < s.2.pos) (addr, st) (splitTokens st)
      {splitTokens st} := by
  induction st using splitTokens.induct with
  | case1 st st' h =>
    have ended : st.src.len < st.pos := by
      by_contra inside
      unfold splitNext at h
      rw [if_neg inside] at h
      simp only at h
      split at h <;> simp at h
    rw [splitTokens, h]
    have returns (m : Mem) : Returns splitCall (addr, st) m none (addr, st) m :=
      ⟨0, by rw [splitCall, splitNext_past ended]⟩
    exact .nil returns ended
  | case2 st t st' h ih =>
    rw [splitTokens, h]
    have returns (m : Mem) : Returns splitCall (addr, st) m (some t) (addr, st') m :=
      ⟨0, by rw [splitCall, h]⟩
    exact .cons returns ih

theorem splitTokens_some {st st' : SplitState} {t : Str} (h : splitNext st = (some t, st')) :
    splitTokens st = t :: splitTokens st' := by
  rw [splitTokens, h]

theorem splitTokens_past {st : SplitState} (h : st.src.len < st.pos) : splitTokens st = [] := by
  rw [splitTokens, splitNext_past h]

/-- Without a delimiter the rest of the string is one token. -/
theorem splitTokens_empty {st : SplitState} (inside : st.pos ≤ st.src.len)
    (empty : st.delim.len = 0) : splitTokens st = [st.src.drop st.pos] := by
  have call : splitNext st = (some (st.src.drop st.pos), { st with pos := st.src.len + 1 }) := by
    simp [splitNext, splitBoundary, empty, Nat.not_lt.mpr inside]
  rw [splitTokens_some call, splitTokens_past (Nat.lt_succ_self _)]

/-- One call cuts at the next occurrence of the delimiter. -/
theorem splitNext_substr {st : SplitState} (inside : st.pos ≤ st.src.len)
    (nonempty : 0 < st.delim.len) (substr : st.anychar = false) :
    (¬st.delim.bytes <:+: st.src.bytes.drop st.pos ∧
        splitNext st = (some (st.src.drop st.pos), { st with pos := st.src.len + 1 })) ∨
      ∃ t rest pos, splitNext st = (some t, { st with pos := pos }) ∧ pos ≤ st.src.len ∧
        st.src.bytes.drop st.pos = t.bytes ++ st.delim.bytes ++ rest ∧
        st.src.bytes.drop pos = rest ∧
        ∀ i < t.bytes.length,
          ¬st.delim.bytes <+: (t.bytes ++ st.delim.bytes ++ rest).drop i := by
  have boundary : splitBoundary st (st.src.drop st.pos) =
      (stringFind (st.src.drop st.pos) st.delim, st.delim.len) := by
    simp only [splitBoundary, nonempty, substr, if_true, Bool.false_eq_true, if_false]
  have call : splitNext st =
      if stringFind (st.src.drop st.pos) st.delim = stringNotFound then
        (some (st.src.drop st.pos), { st with pos := st.src.len + 1 })
      else
        (some ((st.src.drop st.pos).take (stringFind (st.src.drop st.pos) st.delim)),
          { st with pos := st.pos + (stringFind (st.src.drop st.pos) st.delim + st.delim.len) }) := by
    simp only [splitNext, Nat.not_lt.mpr inside, if_false, boundary]
  rw [call]
  cases stringFind_spec (s := st.src.drop st.pos) nonempty with
  | inl missing =>
    rw [if_pos missing.1]
    exact .inl ⟨missing.2, rfl⟩
  | inr found =>
    generalize stringFind (st.src.drop st.pos) st.delim = off at found ⊢
    obtain ⟨here, fits, occurs, leftmost⟩ := found
    simp only [Str.len_drop, Str.bytes_drop] at fits occurs leftmost
    obtain ⟨rest, hrest⟩ := occurs
    have cut : st.src.bytes.drop st.pos =
        (st.src.bytes.drop st.pos).take off ++ st.delim.bytes ++ rest := by
      rw [List.append_assoc, hrest, List.take_append_drop]
    rw [if_neg here]
    refine .inr ⟨_, rest, _, rfl, by omega, cut, ?_, fun i hi => ?_⟩
    · rw [← Nat.add_assoc, ← List.drop_drop, ← List.drop_drop, ← hrest]
      exact List.drop_left
    · rw [Str.bytes_take, Str.bytes_drop] at hi ⊢
      rw [← cut]
      exact leftmost i (by rw [List.length_take] at hi; omega)

theorem splitTokens_cuts (st : SplitState) (inside : st.pos ≤ st.src.len)
    (nonempty : 0 < st.delim.len) (substr : st.anychar = false) :
    Cuts st.delim.bytes (st.src.bytes.drop st.pos) ((splitTokens st).map Str.bytes) := by
  induction st using splitTokens.induct with
  | case1 st st' h =>
    exfalso
    cases splitNext_substr inside nonempty substr with
    | inl missing => simp [missing.2] at h
    | inr found =>
      obtain ⟨_, _, _, call, -⟩ := found
      simp [call] at h
  | case2 st t st' h ih =>
    rw [splitTokens_some h]
    cases splitNext_substr inside nonempty substr with
    | inl missing =>
      obtain ⟨clean, call⟩ := missing
      obtain ⟨ht, rfl⟩ := Prod.mk.inj (h.symm.trans call)
      obtain rfl := Option.some.inj ht
      rw [splitTokens_past (Nat.lt_succ_self _)]
      exact .last clean
    | inr found =>
      obtain ⟨t', rest, pos, call, le, cut, tail, leftmost⟩ := found
      obtain ⟨ht, rfl⟩ := Prod.mk.inj (h.symm.trans call)
      obtain rfl := Option.some.inj ht
      rw [cut, List.map_cons]
      exact .cut leftmost (tail ▸ ih le nonempty substr)

theorem splitTokens_splits (s d : Str) :
    Splits d.bytes s.bytes ((splitTokens ⟨s, d, 0, false⟩).map Str.bytes) := by
  unfold Splits
  by_cases empty : d.bytes = []
  · rw [if_pos empty, splitTokens_empty (Nat.zero_le _) (List.length_eq_zero_iff.mpr empty)]
    rfl
  · rw [if_neg empty]
    exact splitTokens_cuts ⟨s, d, 0, false⟩ (Nat.zero_le _) (List.length_pos_iff.mpr empty) rfl

/-! ### Joining -/

theorem strbufPush_spec (sb : Strbuf) (b : UInt8) (m : Mem) :
    ∃ st sb' m', strbufPush sb b m = (st, sb', m') ∧
      ((st = .ok ∧ sb'.chars.contents = sb.chars.contents ++ [b] ∧ m'.refusals = m.refusals) ∨
        (st = .oom ∧ m'.refusals = m.refusals + 1 ∧
          sb'.chars.contents = sb.chars.contents)) := by
  obtain ⟨st, chars, m', run, bounded, outcome⟩ := vecPush_byteVec sb.bounded b m
  refine ⟨st, ⟨sb.addr, chars, bounded⟩, m', ?_, ?_⟩
  · unfold strbufPush
    split
    · rename_i h
      obtain ⟨rfl, same, rfl⟩ := by simpa using run.symm.trans h
      subst same
      rfl
    · rename_i h
      simp [run] at h
  · cases outcome with
    | inl pushed => exact .inl pushed
    | inr failed =>
      obtain ⟨refused, rfl, more⟩ := failed
      exact .inr ⟨refused, more, rfl⟩

/-- A refused request leaves a proper prefix behind. -/
theorem strbufAppendBytes_spec (bs : List UInt8) :
    ∀ (sb : Strbuf) (m : Mem), ∃ st sb' m', strbufAppendBytes sb m bs = (st, sb', m') ∧
      ((st = .ok ∧ sb'.chars.contents = sb.chars.contents ++ bs ∧ m'.refusals = m.refusals) ∨
        (st = .oom ∧ m'.refusals = m.refusals + 1 ∧ ∃ part, part <+: bs ∧ part ≠ bs ∧
          sb'.chars.contents = sb.chars.contents ++ part)) := by
  induction bs with
  | nil =>
    intro sb m
    exact ⟨.ok, sb, m, rfl, .inl ⟨rfl, (List.append_nil _).symm, rfl⟩⟩
  | cons b bs ih =>
    intro sb m
    obtain ⟨st, sb₁, m₁, push, outcome⟩ := strbufPush_spec sb b m
    cases outcome with
    | inl pushed =>
      obtain ⟨rfl, contents, quiet⟩ := pushed
      obtain ⟨st, sb₂, m₂, run, outcome⟩ := ih sb₁ m₁
      rw [contents, quiet] at outcome
      refine ⟨st, sb₂, m₂, by simp only [strbufAppendBytes, push, run], ?_⟩
      cases outcome with
      | inl appended =>
        obtain ⟨ok, same, quiet₂⟩ := appended
        exact .inl ⟨ok, by rw [same, List.append_assoc, List.singleton_append], quiet₂⟩
      | inr failed =>
        obtain ⟨refused, more, part, initial, proper, same⟩ := failed
        refine .inr ⟨refused, more, b :: part, List.cons_prefix_cons.mpr ⟨rfl, initial⟩, ?_, ?_⟩
        · simpa using proper
        · rw [same, List.append_assoc, List.singleton_append]
    | inr failed =>
      obtain ⟨rfl, refused, same⟩ := failed
      exact ⟨.oom, sb₁, m₁, by simp only [strbufAppendBytes, push],
        .inr ⟨rfl, refused, [], List.nil_prefix, by simp, by simp [same]⟩⟩

/-- The tokens appended so far. -/
def Joined (sep : Str) (done : List Str) (j : Joining) : Prop :=
  j.status = .ok ∧ (j.first = true ↔ done = []) ∧
    j.sb.chars.contents = sep.bytes.intercalate (done.map Str.bytes)

theorem intercalate_concat (sep t : List UInt8) (ts : List (List UInt8)) (h : ts ≠ []) :
    sep.intercalate (ts ++ [t]) = sep.intercalate ts ++ sep ++ t := by
  induction ts with
  | nil => exact absurd rfl h
  | cons u us ih =>
    cases us with
    | nil => simp
    | cons v vs =>
      have tail := ih (by simp)
      rw [List.cons_append] at tail
      rw [List.cons_append, List.cons_append, List.intercalate_cons_cons, tail,
        List.intercalate_cons_cons]
      simp only [List.append_assoc]

/-- One pass of the loop appends the separator, except before the first token, and the
token, or a request is refused. -/
theorem joinBody_spec (sep token : Str) {done : List Str} {j : Joining} (h : Joined sep done j)
    (m : Mem) : ∃ go j' m', joinBody sep token j m = (go, j', m') ∧
      ((go = true ∧ Joined sep (done ++ [token]) j' ∧ m'.refusals = m.refusals) ∨
        (go = false ∧ j'.status = .oom ∧ m'.refusals = m.refusals + 1)) := by
  obtain ⟨status, first, sb⟩ := j
  obtain ⟨rfl, isFirst, contents⟩ := h
  simp only at isFirst contents
  cases first with
  | true =>
    obtain rfl := isFirst.mp rfl
    obtain ⟨st, sb', m', run, outcome⟩ := strbufAppendBytes_spec token.bytes sb m
    refine ⟨st = .ok, ⟨st, false, sb'⟩, m', by simp [joinBody, strbufAppend, run], ?_⟩
    cases outcome with
    | inl appended =>
      obtain ⟨rfl, same, quiet⟩ := appended
      exact .inl ⟨rfl, ⟨rfl, by simp, by simp [same, contents]⟩, quiet⟩
    | inr failed =>
      obtain ⟨rfl, refused, -⟩ := failed
      exact .inr ⟨rfl, rfl, refused⟩
  | false =>
    have several : done ≠ [] := fun h => by simpa using isFirst.mpr h
    obtain ⟨st, sb₁, m₁, sepRun, outcome⟩ := strbufAppendBytes_spec sep.bytes sb m
    cases outcome with
    | inl appended =>
      obtain ⟨rfl, same, quiet⟩ := appended
      obtain ⟨st, sb₂, m₂, run, outcome⟩ := strbufAppendBytes_spec token.bytes sb₁ m₁
      refine ⟨st = .ok, ⟨st, false, sb₂⟩, m₂, by simp [joinBody, strbufAppend, sepRun, run], ?_⟩
      cases outcome with
      | inl appended =>
        obtain ⟨rfl, same', quiet'⟩ := appended
        refine .inl ⟨rfl, ⟨rfl, by simp, ?_⟩, quiet'.trans quiet⟩
        simp only [same', same, contents, List.map_append, List.map_cons, List.map_nil]
        rw [intercalate_concat _ _ _ (by simpa using several)]
      | inr failed =>
        obtain ⟨rfl, refused, -⟩ := failed
        exact .inr ⟨rfl, rfl, by omega⟩
    | inr failed =>
      obtain ⟨rfl, refused, -⟩ := failed
      exact ⟨false, ⟨.oom, false, sb₁⟩, m₁, by simp [joinBody, strbufAppend, sepRun],
        .inr ⟨rfl, rfl, refused⟩⟩

theorem stringCopy_spec (s : Str) (m : Mem) :
    ∃ r m', stringCopy s m = (r, m') ∧ m.refusals ≤ m'.refusals ∧
      (m'.refusals = m.refusals → r.bytes = s.bytes) := by
  unfold stringCopy
  by_cases empty : s.ptr = none ∨ s.len = 0
  · rw [if_pos empty]
    have nothing : s.bytes = [] := empty.elim s.null_empty List.length_eq_zero_iff.mp
    exact ⟨.null, m, rfl, le_rfl, fun _ => nothing.symm⟩
  · rw [if_neg empty]
    match hm : memAlloc m s.len with
    | (none, m₁) =>
      have refused := memAlloc_none hm
      exact ⟨_, m₁, rfl, by omega, fun same => by omega⟩
    | (some buf, m₁) => exact ⟨_, m₁, rfl, (memAlloc_some hm).2.2.ge, fun _ => rfl⟩

theorem strbufCreate_spec (m : Mem) :
    (∃ sb m', strbufCreate m = (some sb, m') ∧ sb.chars.contents = [] ∧
        m'.refusals = m.refusals) ∨
      ∃ m', strbufCreate m = (none, m') ∧ m.refusals < m'.refusals := by
  unfold strbufCreate
  match hm : memAlloc m sizeofStrbuf with
  | (none, m₁) =>
    have refused := memAlloc_none hm
    exact .inr ⟨m₁, rfl, by omega⟩
  | (some addr, m₁) =>
    have quiet := (memAlloc_some hm).2.2
    obtain ⟨v, m₂, created, -, more, real⟩ := vecCreate_spec (α := UInt8) 1 m₁
    simp only
    split
    · rename_i h
      obtain ⟨rfl, rfl⟩ := Prod.mk.inj (created.symm.trans h)
      refine .inr ⟨_, rfl, ?_⟩
      rw [memFree_refusals]
      by_contra still
      simpa using real (by omega) Nat.one_ne_zero
    · rename_i chars m₃ h
      obtain ⟨rfl, rfl⟩ := Prod.mk.inj (created.symm.trans h)
      refine .inl ⟨_, m₂, rfl, (vecCreate_byteVec h).2, ?_⟩
      have granted := vecCreate_quiet h
      omega

@[simp] theorem strbufDestroy_refusals (sb : Strbuf) (m : Mem) :
    (strbufDestroy sb m).refusals = m.refusals := by
  simp only [strbufDestroy, memFree_refusals, vecDestroy_refusals]

/-- If nothing is refused, the result is the tokens with the separator between them. -/
theorem stringJoin_spec {σ : Type*} {it : IterT σ Str} {E : σ → Prop} {ts : List Str}
    {A : Set (List Str)} (mono : Mono it.next)
    (quiet : ∀ s m, (it.destroy s m).refusals = m.refusals)
    (h : Delivers it.next Mem.refusals E it.state ts A) (sep : Str) (m : Mem) :
    ∃ n, ∀ fuel, n ≤ fuel → ∃ r m', stringJoin fuel (some it) sep m = some (r, m') ∧
      (m'.refusals = m.refusals → r.bytes = sep.bytes.intercalate (ts.map Str.bytes)) := by
  cases strbufCreate_spec m with
  | inr failed =>
    obtain ⟨m₁, created, more⟩ := failed
    refine ⟨0, fun fuel _ => ⟨.null, it.destroy it.state m₁, ?_, fun same => ?_⟩⟩
    · simp only [stringJoin, iterIsValid, Option.isSome_some, if_true, created, iterDestroy]
    · rw [quiet] at same
      omega
  | inl made =>
    obtain ⟨sb, m₁, created, empty, calm⟩ := made
    have start : Joined sep [] ⟨.ok, true, sb⟩ := ⟨rfl, by simp, empty⟩
    obtain ⟨n, j, s', m₂, run, grows, outcome⟩ := h.while (J := Joined sep) mono
      (joinBody sep)
      (fun done x a m go a' m' kept hb => by
        obtain ⟨go, j', m'', run, outcome⟩ := joinBody_spec sep x kept m
        obtain ⟨rfl, rfl, rfl⟩ := by simpa using run.symm.trans hb
        cases outcome with
        | inl appended => exact ⟨by omega, fun _ => appended.2.1⟩
        | inr failed => exact ⟨by omega, by simp [failed.1]⟩)
      [] _ m₁ start
    have loop (fuel : Nat) (le : n ≤ fuel) :
        iterWhile fuel (some it) (joinBody sep) ⟨.ok, true, sb⟩ m₁ =
          some (j, some { it with state := s' }, m₂) := by
      simp only [iterWhile, whileNext_le mono run le]
    refine ⟨n, fun fuel le => ?_⟩
    simp only [stringJoin, iterIsValid, Option.isSome_some, if_true, created, loop fuel le]
    cases outcome with
    | inl all =>
      obtain ⟨zs, -, joined, same⟩ := all
      obtain ⟨r, m₃, copied, more, bytes⟩ :=
        stringCopy_spec (strbufView j.sb) (iterDestroy (some { it with state := s' }) m₂)
      rw [iterDestroy, quiet] at more bytes
      rw [if_pos joined.1, strbufToString, copied]
      refine ⟨r, _, rfl, fun still => ?_⟩
      simp only [strbufDestroy_refusals] at still
      rw [bytes (by omega), ← same (by omega)]
      exact joined.2.2
    | inr left =>
      obtain ⟨zs, x, j₁, m₃, joined, hb, more, -⟩ := left
      obtain ⟨go, j', m', run', outcome⟩ := joinBody_spec sep x joined m₃
      obtain ⟨rfl, rfl, rfl⟩ := by simpa using run'.symm.trans hb
      cases outcome with
      | inl appended => exact absurd appended.1 (by simp)
      | inr failed =>
        obtain ⟨-, oom, refused⟩ := failed
        rw [if_neg (by simp [oom])]
        refine ⟨_, _, rfl, fun still => ?_⟩
        rw [strbufDestroy_refusals, iterDestroy, quiet] at still
        omega

/-! ### The round trip -/

/-- The iterator of `string_split_substr` yields the pieces of the string, and no other
list is a cut of it at the leftmost occurrences; joined with the delimiter they give the
string, unless a request is refused. -/
theorem split_join_round_trip (s d : Str) {m m₁ : Mem} {it : IterT (Nat × SplitState) Str}
    (made : stringSplitSubstr s d m = (some it, m₁)) :
    ∃ ts : List Str,
      (∀ m₂, ∃ st m₃, Yields it.next it.state m₂ ts st m₃) ∧
      Splits d.bytes s.bytes (ts.map Str.bytes) ∧
      (∀ us, Splits d.bytes s.bytes us → us = ts.map Str.bytes) ∧
      d.bytes.intercalate (ts.map Str.bytes) = s.bytes ∧
      ∀ m₂, ∃ n, ∀ fuel, n ≤ fuel → ∃ r m₃, stringJoin fuel (some it) d m₂ = some (r, m₃) ∧
        (m₃.refusals = m₂.refusals → r.bytes = s.bytes) := by
  match hm : memAlloc m sizeofSplitState with
  | (none, _) => simp [stringSplitSubstr, splitMake, hm] at made
  | (some addr, m') =>
    simp only [stringSplitSubstr, splitMake, hm, Prod.mk.injEq, Option.some.injEq] at made
    obtain ⟨rfl, rfl⟩ := made
    have delivers := split_delivers addr ⟨s, d, 0, false⟩
    have splits := splitTokens_splits s d
    refine ⟨splitTokens ⟨s, d, 0, false⟩, fun m₂ => ?_, splits, fun us => splits.unique,
      splits.intercalate, fun m₂ => ?_⟩
    · obtain ⟨zs, st, m₃, run, -, rfl, -⟩ := delivers.yields m₂
      exact ⟨st, m₃, run⟩
    · rw [← splits.intercalate]
      exact stringJoin_spec splitCall_mono (fun _ _ => memFree_refusals _ _ _) delivers d m₂

/-- The text "aXXa" cut at "X". -/
theorem split_join_round_trip_aXXa :
    ∃ it m₁, stringSplitSubstr ⟨some 8, [97, 88, 88, 97], by simp, by decide⟩
        ⟨some 4, [88], by simp, by decide⟩ (.start (refusingOnce 9)) = (some it, m₁) ∧
      ∃ ts : List Str, Splits [88] [97, 88, 88, 97] (ts.map Str.bytes) ∧
        (∀ us, Splits [88] [97, 88, 88, 97] us → us = ts.map Str.bytes) := by
  refine ⟨_, _, rfl, ?_⟩
  obtain ⟨ts, -, splits, unique, -⟩ := split_join_round_trip
    ⟨some 8, [97, 88, 88, 97], by simp, by decide⟩ ⟨some 4, [88], by simp, by decide⟩
    (m := .start (refusingOnce 9)) rfl
  exact ⟨ts, splits, unique⟩

end Seqc
