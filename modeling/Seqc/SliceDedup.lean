import Seqc.Slices

/-! `iter_dedup` of the slices that `iter_window` and `iter_chunks` yield. It keeps the
slice and not its elements, so that what it compares with is what the buffer holds by
then. -/

namespace Seqc
open Iteration Windows Slots

variable {σ μ ω : Type*} {β : Type} {next : Nat → σ → μ → Option (Option β × σ × μ)} {left : β → β}
  {cmp : List β → List β → Int} {n : Nat}

/-- `dedup_state_t`, with the slice kept in `last_buf`. -/
structure DedupState (ω : Type*) where
  source : ω
  last : Option Nat

/-- `dedup_next` over an iterator whose slices refer to the buffer `buf`. -/
def dedupNext (cmp : List β → List β → Int) (next : Nat → ω → μ → Option (Option Nat × ω × μ))
    (buf : ω → Nat → β) : (fuel : Nat) → DedupState ω → μ →
      Option (Option Nat × DedupState ω × μ)
  | 0, _, _ => none
  | fuel + 1, d, m =>
    match next fuel d.source m with
    | none => none
    | some (none, w, m) => some (none, ⟨w, d.last⟩, m)
    | some (some len, w, m) =>
      match d.last with
      | none => some (some len, ⟨w, some len⟩, m)
      | some last =>
        if cmp (contents len (buf w)) (contents last (buf w)) ≠ 0 then
          some (some len, ⟨w, some len⟩, m)
        else dedupNext cmp next buf fuel ⟨w, some last⟩ m

/-! ### What `iter_dedup` keeps -/

/-- The contents that `iter_dedup` lets through of slices given with the buffer at the
time, after one of length `last` was kept. Both are read from the buffer of now. -/
def dedupRefs (cmp : List β → List β → Int) : Option Nat → List (Nat × (Nat → β)) → List (List β)
  | _, [] => []
  | none, (len, buf) :: rest => contents len buf :: dedupRefs cmp (some len) rest
  | some last, (len, buf) :: rest =>
    if cmp (contents len buf) (contents last buf) ≠ 0 then
      contents len buf :: dedupRefs cmp (some len) rest
    else dedupRefs cmp (some last) rest

section Dedup
variable {slices : Nat → ω → μ → Option (Option Nat × ω × μ)} {buf : ω → Nat → β} {w w' : ω}
  {m m' : μ}

theorem dedupNext_mono (mono : Mono slices) : Mono (dedupNext cmp slices buf) := by
  intro fuel
  induction fuel with
  | zero =>
    intro d m r h
    simp [dedupNext] at h
  | succ fuel ih =>
    intro d m r h
    rw [dedupNext] at h ⊢
    match hn : slices fuel d.source m with
    | none => simp [hn] at h
    | some (none, w, m₁) =>
      rw [mono _ _ _ _ hn]
      simpa only [hn] using h
    | some (some len, w, m₁) =>
      rw [mono _ _ _ _ hn]
      simp only [hn] at h ⊢
      cases last : d.last with
      | none => simpa only [last] using h
      | some l =>
        simp only [last] at h ⊢
        by_cases differs : cmp (contents len (buf w)) (contents l (buf w)) ≠ 0
        · rwa [if_pos differs] at h ⊢
        · rw [if_neg differs] at h ⊢
          exact ih _ _ _ h

/-- The calls of `dedup_next`, with each slice it yields read at once. -/
abbrev dedupReading (cmp : List β → List β → Int)
    (slices : Nat → ω → μ → Option (Option Nat × ω × μ)) (buf : ω → Nat → β) :
    Nat → DedupState ω → μ → Option (Option (List β) × DedupState ω × μ) :=
  reading contents (dedupNext cmp slices buf) fun d => buf d.source

theorem dedupNext_ended (last : Option Nat) (h : Returns slices w m none w' m') :
    Returns (dedupNext cmp slices buf) ⟨w, last⟩ m none ⟨w', last⟩ m' := by
  obtain ⟨fuel, h⟩ := h
  exact ⟨fuel + 1, by simp only [dedupNext, h]⟩

/-- A slice that differs from the last one is let through. -/
theorem dedupNext_item {len : Nat} {last : Option Nat} (h : Returns slices w m (some len) w' m')
    (differs : ∀ l, last = some l → cmp (contents len (buf w')) (contents l (buf w')) ≠ 0) :
    Returns (dedupNext cmp slices buf) ⟨w, last⟩ m (some len) ⟨w', some len⟩ m' := by
  obtain ⟨fuel, h⟩ := h
  refine ⟨fuel + 1, ?_⟩
  cases last with
  | none => simp only [dedupNext, h]
  | some l => simp only [dedupNext, h, if_pos (differs l rfl)]

/-- One that compares equal to it is skipped. -/
theorem dedupNext_skip (mono : Mono slices) {len l : Nat} {out : Option Nat} {d : DedupState ω}
    {m₁ : μ} (h : Returns slices w m (some len) w' m₁)
    (same : cmp (contents len (buf w')) (contents l (buf w')) = 0)
    (rest : Returns (dedupNext cmp slices buf) ⟨w', some l⟩ m₁ out d m') :
    Returns (dedupNext cmp slices buf) ⟨w, some l⟩ m out d m' := by
  obtain ⟨k, h⟩ := h
  obtain ⟨j, rest⟩ := rest
  have call := mono.le h (Nat.le_max_left k j)
  have go := (dedupNext_mono mono).le rest (Nat.le_max_right k j)
  exact ⟨max k j + 1, by simpa only [dedupNext, call, same, ne_eq, not_true, if_false] using go⟩

theorem dedup_skips (mono : Mono slices) {len l : Nat} {d : DedupState ω} {m₁ : μ}
    {xs : List (List β)} (h : Returns slices w m (some len) w' m₁)
    (same : cmp (contents len (buf w')) (contents l (buf w')) = 0)
    (rest : Yields (dedupReading cmp slices buf) ⟨w', some l⟩ m₁ xs d m') :
    Yields (dedupReading cmp slices buf) ⟨w, some l⟩ m xs d m' := by
  cases rest with
  | ended returns =>
    have call := dedupNext_skip mono h same (reading_ended returns)
    exact .ended (reading_returns call)
  | item returns rest =>
    obtain ⟨len', call, rfl⟩ := reading_item returns
    exact .item (reading_returns (dedupNext_skip mono h same call)) rest

theorem dedup_yields (mono : Mono slices) {trace : List (Nat × (Nat → β))}
    (h : Yields (reading Prod.mk slices buf) w m trace w' m') (last : Option Nat) :
    ∃ d, Yields (dedupReading cmp slices buf) ⟨w, last⟩ m (dedupRefs cmp last trace) d m' := by
  induction h generalizing last with
  | @ended w w' m m' returns =>
    have call : Returns (dedupNext cmp slices buf) ⟨w, last⟩ m none ⟨w', last⟩ m' :=
      dedupNext_ended last (reading_ended returns)
    rw [dedupRefs]
    exact ⟨_, .ended (reading_returns call)⟩
  | @item w w₁ w' m m₁ m' _ _ returns _ ih =>
    obtain ⟨len, call, rfl⟩ := reading_item returns
    have item (differs : ∀ l, last = some l →
        cmp (contents len (buf w₁)) (contents l (buf w₁)) ≠ 0) :
        Returns (dedupReading cmp slices buf) ⟨w, last⟩ m (some (contents len (buf w₁)))
          ⟨w₁, some len⟩ m₁ := reading_returns (dedupNext_item call differs)
    cases last with
    | none =>
      obtain ⟨d, rest⟩ := ih (some len)
      exact ⟨d, .item (item (by simp)) rest⟩
    | some l =>
      by_cases differs : cmp (contents len (buf w₁)) (contents l (buf w₁)) ≠ 0
      · obtain ⟨d, rest⟩ := ih (some len)
        rw [dedupRefs, if_pos differs]
        exact ⟨d, .item (item fun _ same => Option.some.inj same ▸ differs) rest⟩
      · obtain ⟨d, rest⟩ := ih (some l)
        rw [dedupRefs, if_neg differs]
        exact ⟨d, dedup_skips mono call (not_not.mp differs) rest⟩

end Dedup

/-! ### What is left of the duplicates -/

section Kept
variable {trace : List (Nat × (Nat → β))} {ws : List (List β)} {f xs : List β}

/-- Slices of one length are all the same slice. -/
theorem dedupRefs_full (refl : ∀ w, cmp w w = 0) (full : FullSlices n trace ws) :
    dedupRefs cmp (some n) trace = [] := by
  induction full with
  | nil => rfl
  | @cons p w trace ws same _ ih =>
    obtain ⟨rfl, -⟩ := same
    rw [dedupRefs, if_neg (not_not.mpr (refl _)), ih]

theorem dedupRefs_windows (refl : ∀ w, cmp w w = 0) (full : FullSlices n trace ws) :
    dedupRefs cmp none trace = ws.head?.toList := by
  cases full with
  | nil => rfl
  | @cons p w trace ws same rest =>
    obtain ⟨rfl, holds⟩ := same
    rw [dedupRefs, dedupRefs_full refl rest, holds]
    rfl

theorem destutter_eq_self (w : List β) (ws : List (List β)) :
    ws.destutter' (fun x y => cmp y x ≠ 0) w = [w] ↔ ∀ x ∈ ws, cmp x w = 0 := by
  induction ws with
  | nil => simp
  | cons x ws ih =>
    rw [List.destutter'_cons]
    by_cases differs : cmp x w ≠ 0
    · have there := List.mem_destutter' ws (fun x y => cmp y x ≠ 0) x
      rw [if_pos differs]
      constructor
      · intro same
        simp [(List.cons.inj same).2] at there
      · intro all
        exact absurd (all x (by simp)) differs
    · rw [if_neg differs, ih]
      simp [not_not.mp differs]

/-- Windows come out right if all of them compare equal to the first. -/
def WindowsEqual (cmp : List β → List β → Int) (ws : List (List β)) : Prop :=
  ∀ w ∈ ws, ∀ first ∈ ws.head?, cmp w first = 0

theorem deduped_windows_iff (refl : ∀ w, cmp w w = 0) (full : FullSlices n trace ws) :
    dedupRefs cmp none trace = deduped cmp ws ↔ WindowsEqual cmp ws := by
  rw [dedupRefs_windows refl full]
  cases ws with
  | nil => simp [WindowsEqual, deduped]
  | cons w ws =>
    have head : (w :: ws).head?.toList = [w] := rfl
    rw [head, eq_comm, deduped, List.destutter, destutter_eq_self]
    simp [WindowsEqual, refl]

/-- Chunks come out right if all full ones compare equal to the first, and a shorter one
differs from itself lengthened by what the buffer holds behind it just if it differs from
the first. -/
def ChunksEqual (cmp : List β → List β → Int) (left : β → β) (n : Nat) (cs : List (List β)) :
    Prop :=
  (∀ c ∈ cs, c.length = n → ∀ first ∈ cs.head?, cmp c first = 0) ∧
    ∀ pre g c, cs = pre ++ [g, c] → c.length < n → ∀ first ∈ cs.head?,
      (cmp c (c ++ (g.drop c.length).modifyHead left) ≠ 0 ↔ cmp c first ≠ 0)

/-- Only a last chunk that is shorter can come after the first. -/
theorem dedupRefs_short (refl : ∀ w, cmp w w = 0) (h : ChunkSlices left n f xs trace) :
    ∀ c ∈ dedupRefs cmp (some n) trace, c.length < n := by
  induction h with
  | ended => simp [dedupRefs]
  | last some_left short holds spoilt =>
    rw [dedupRefs, holds]
    split
    · simpa [dedupRefs] using short
    · simp [dedupRefs]
  | full enough holds _ ih =>
    rw [dedupRefs, if_neg (not_not.mpr (refl _))]
    exact ih

theorem deduped_rest_iff (refl : ∀ w, cmp w w = 0) (pos : n ≠ 0)
    (h : ChunkSlices left n f xs trace) (a : List β) :
    (chunksOf n xs).destutter' (fun x y => cmp y x ≠ 0) a = a :: dedupRefs cmp (some n) trace ↔
      (∀ c ∈ chunksOf n xs, c.length = n → cmp c a = 0) ∧
        ∀ pre g c, f :: chunksOf n xs = pre ++ [g, c] → c.length < n →
          (cmp c (c ++ (g.drop c.length).modifyHead left) ≠ 0 ↔ cmp c a ≠ 0) := by
  induction h with
  | @ended f =>
    have none (pre : List (List β)) (g c : List β) : [f] ≠ pre ++ [g, c] := fun same => by
      simpa using congrArg List.length same
    simp [dedupRefs, none]
  | @last f xs buf some_left short holds spoilt =>
    have pair (pre : List (List β)) (g c : List β) :
        [f, xs] = pre ++ [g, c] ↔ pre = [] ∧ g = f ∧ c = xs := by
      constructor
      · intro same
        obtain ⟨rfl, same⟩ := List.append_inj' (show [] ++ [f, xs] = pre ++ [g, c] from same) rfl
        simpa [eq_comm] using same
      · rintro ⟨rfl, rfl, rfl⟩
        rfl
    rw [chunksOf_short some_left short, List.destutter'_singleton, dedupRefs, holds, spoilt]
    have kept : (if cmp xs a ≠ 0 then [a, xs] else [a]) =
        a :: (if cmp xs (xs ++ (f.drop xs.length).modifyHead left) ≠ 0 then
          xs :: dedupRefs cmp (some xs.length) [] else dedupRefs cmp (some n) []) ↔
        (cmp xs (xs ++ (f.drop xs.length).modifyHead left) ≠ 0 ↔ cmp xs a ≠ 0) := by
      by_cases spoils : cmp xs (xs ++ (f.drop xs.length).modifyHead left) ≠ 0 <;>
        by_cases differs : cmp xs a ≠ 0 <;> simp [spoils, differs, dedupRefs]
    rw [kept]
    constructor
    · intro agree
      refine ⟨fun c hc full => ?_, fun pre g c split _ => ?_⟩
      · obtain rfl := List.mem_singleton.mp hc
        exact absurd full short.ne
      · obtain ⟨-, rfl, rfl⟩ := (pair pre g c).mp split
        exact agree
    · intro all
      exact all.2 [] f xs rfl short
  | @full f xs buf trace enough holds rest ih =>
    have len : (xs.take n).length = n := by simpa using enough
    have step : chunksOf n xs = xs.take n :: chunksOf n (xs.drop n) :=
      chunksOf_step pos fun none => pos (by simpa [none] using enough)
    rw [step, List.destutter'_cons, dedupRefs, if_neg (not_not.mpr (refl _))]
    by_cases differs : cmp (xs.take n) a ≠ 0
    · rw [if_pos differs]
      constructor
      · intro same
        -- the buffer lets no second full chunk through
        have there := List.mem_destutter' (chunksOf n (xs.drop n)) (fun x y => cmp y x ≠ 0)
          (xs.take n)
        rw [(List.cons.inj same).2] at there
        have := dedupRefs_short refl rest _ there
        omega
      · intro all
        exact absurd (all.1 _ (by simp) len) differs
    · rw [if_neg differs, ih]
      constructor
      · intro all
        refine ⟨List.forall_mem_cons.mpr ⟨fun _ => not_not.mp differs, all.1⟩,
          fun pre g c split short => ?_⟩
        cases pre with
        | nil =>
          obtain ⟨rfl, -⟩ := List.cons.inj (List.cons.inj split).2
          exact absurd len short.ne
        | cons p pre => exact all.2 pre g c (List.cons.inj split).2 short
      · intro all
        refine ⟨fun c hc => all.1 c (List.mem_cons_of_mem _ hc), fun pre g c split => ?_⟩
        exact all.2 (f :: pre) g c (by rw [split]; rfl)

theorem deduped_chunks_iff (refl : ∀ w, cmp w w = 0) (pos : n ≠ 0)
    (h : ChunkSlices left n f xs trace) :
    dedupRefs cmp none trace = deduped cmp (chunksOf n xs) ↔
      ChunksEqual cmp left n (chunksOf n xs) := by
  cases h with
  | ended => simp [dedupRefs, deduped, ChunksEqual]
  | last some_left short holds spoilt =>
    have alone (pre : List (List β)) (g c : List β) : [xs] ≠ pre ++ [g, c] := fun same => by
      have len := congrArg List.length same
      simp at len
    rw [chunksOf_short some_left short, dedupRefs, holds]
    simp [deduped, ChunksEqual, dedupRefs, short.ne, alone]
  | full enough holds rest =>
    have step : chunksOf n xs = xs.take n :: chunksOf n (xs.drop n) :=
      chunksOf_step pos fun none => pos (by simpa [none] using enough)
    rw [step, dedupRefs, holds, deduped, List.destutter, eq_comm, deduped_rest_iff refl pos rest]
    simp [ChunksEqual, refl]

end Kept

/-! ### The compositions -/

section Compositions
variable {s s' : σ} {m m' : μ} {xs : List β}

/-- What `iter_dedup` of slices yields is what the run of the slices determines. -/
theorem dedupReading_iff {slices : Nat → ω → μ → Option (Option Nat × ω × μ)} {buf : ω → Nat → β}
    (mono : Mono slices) {w w' : ω} {trace : List (Nat × (Nat → β))}
    (h : Yields (reading Prod.mk slices buf) w m trace w' m') (cs : List (List β)) :
    (∃ d m'', Yields (dedupReading cmp slices buf) ⟨w, none⟩ m cs d m'') ↔
      dedupRefs cmp none trace = cs := by
  obtain ⟨d, run⟩ : ∃ d, Yields (dedupReading cmp slices buf) ⟨w, none⟩ m
    (dedupRefs cmp none trace) d m' := dedup_yields mono h none
  constructor
  · rintro ⟨_, _, other⟩
    exact run.unique (reading_mono (dedupNext_mono mono)) other
  · rintro rfl
    exact ⟨d, m', run⟩

theorem dedup_windows_iff (mono : Mono next) (refl : ∀ w, cmp w w = 0) (left : β → β)
    (source : Yields next s m xs s' m') (buf : Nat → β) (n : Nat) :
    (∃ d m'', Yields (dedupReading cmp (windowNext next left n) WindowState.buf)
      ⟨⟨s, buf, false⟩, none⟩ m (deduped cmp (windows n xs)) d m'') ↔
      WindowsEqual cmp (windows n xs) := by
  obtain ⟨trace, w', m'', run, full⟩ := window_trace left mono source buf
  rw [dedupReading_iff (windowNext_mono mono) run, deduped_windows_iff refl full]

theorem dedup_chunks_iff (mono : Mono next) (refl : ∀ w, cmp w w = 0) (left : β → β)
    (source : Yields next s m xs s' m') (buf : Nat → β) (n : Nat) :
    (∃ d m'', Yields (dedupReading cmp (chunkNext next left n) ChunkState.buf)
      ⟨⟨s, buf, false⟩, none⟩ m (deduped cmp (chunksOf n xs)) d m'') ↔
      ChunksEqual cmp left n (chunksOf n xs) := by
  by_cases pos : n = 0
  · subst pos
    have call : Returns (chunkNext next left 0) ⟨s, buf, false⟩ m none ⟨s, buf, false⟩ m :=
      ⟨0, rfl⟩
    have run : Yields (chunkTrace next left 0) ⟨s, buf, false⟩ m [] _ _ :=
      .ended (reading_returns call)
    rw [dedupReading_iff (chunkNext_mono mono) run]
    simp [dedupRefs, deduped, ChunksEqual]
  · obtain ⟨trace, c', m'', run, slices⟩ := chunk_trace left mono pos source buf
    rw [dedupReading_iff (chunkNext_mono mono) run, deduped_chunks_iff refl pos slices]

/-- The slice that `iter_dedup` keeps refers to the buffer that the next call overwrites:
the duplicates are removed as they should be just if hardly anything differs. -/
theorem dedup_slices_iff (mono : Mono next) (refl : ∀ w, cmp w w = 0) (left : β → β)
    (source : Yields next s m xs s' m') (buf : Nat → β) (n : Nat) :
    ((∃ d m'', Yields (dedupReading cmp (windowNext next left n) WindowState.buf)
      ⟨⟨s, buf, false⟩, none⟩ m (deduped cmp (windows n xs)) d m'') ↔
        WindowsEqual cmp (windows n xs)) ∧
    ((∃ d m'', Yields (dedupReading cmp (chunkNext next left n) ChunkState.buf)
      ⟨⟨s, buf, false⟩, none⟩ m (deduped cmp (chunksOf n xs)) d m'') ↔
        ChunksEqual cmp left n (chunksOf n xs)) :=
  ⟨dedup_windows_iff mono refl left source buf n, dedup_chunks_iff mono refl left source buf n⟩

/-- Two lists of integers compared by their entries. -/
def listsCmp (xs ys : List Int) : Int := if xs = ys then 0 else 1

theorem listSource_yields (xs : List ElemType.longLong.Val) :
    ∃ s' m', Yields (Iter.call .longLong) (.fromSlice 0 xs 0) (.start .generous) xs s' m' := by
  obtain ⟨zs, s', m', run, -, rfl, -⟩ := (fromSlice_delivers (F := fun _ => True) 0 xs trivial 0
    (Nat.zero_le _)).yields (.start .generous)
  exact ⟨s', m', run⟩

theorem dedup_slices_iff_constant :
    ∃ d m'', Yields (dedupReading listsCmp (windowNext (Iter.call .longLong) id 2)
      WindowState.buf) ⟨⟨.fromSlice 0 ([5, 5, 5] : List Int) 0, fun _ => (0 : Int), false⟩, none⟩
      (.start .generous) [[5, 5]] d m'' := by
  have refl (w : List Int) : listsCmp w w = 0 := if_pos rfl
  obtain ⟨s', m', source⟩ := listSource_yields ([5, 5, 5] : List Int)
  have all := dedup_slices_iff (Iter.call_mono (t := .longLong)) refl id source
    (fun _ => (0 : Int)) 2
  exact all.1.mpr (by unfold WindowsEqual; decide)

/-- Of the windows `{1, 2}` and `{2, 3}`, and of the chunks `{1, 2}` and `{3, 4}`, the
second ones get lost. -/
theorem dedup_slices_lost :
    (¬∃ d m'', Yields (dedupReading listsCmp (windowNext (Iter.call .longLong) id 2)
        WindowState.buf) ⟨⟨.fromSlice 0 ([1, 2, 3] : List Int) 0, fun _ => (0 : Int), false⟩, none⟩
        (.start .generous) [[1, 2], [2, 3]] d m'') ∧
      deduped listsCmp (windows 2 [1, 2, 3]) = [[1, 2], [2, 3]] ∧
    (¬∃ d m'', Yields (dedupReading listsCmp (chunkNext (Iter.call .longLong) id 2) ChunkState.buf)
        ⟨⟨.fromSlice 0 ([1, 2, 3, 4] : List Int) 0, fun _ => (0 : Int), false⟩, none⟩
        (.start .generous) [[1, 2], [3, 4]] d m'') ∧
      deduped listsCmp (chunksOf 2 [1, 2, 3, 4]) = [[1, 2], [3, 4]] := by
  have refl (w : List Int) : listsCmp w w = 0 := if_pos rfl
  have ws : deduped listsCmp (windows 2 [1, 2, 3]) = [[1, 2], [2, 3]] := by decide
  have chunks : chunksOf 2 ([1, 2, 3, 4] : List Int) = [[1, 2], [3, 4]] := by simp [chunksOf]
  have cs : deduped listsCmp (chunksOf 2 [1, 2, 3, 4]) = [[1, 2], [3, 4]] := by
    rw [chunks]
    decide
  refine ⟨fun h => ?_, ws, fun h => ?_, cs⟩
  · obtain ⟨s', m', source⟩ := listSource_yields ([1, 2, 3] : List Int)
    rw [← ws] at h
    have equal := (dedup_windows_iff (Iter.call_mono (t := .longLong)) refl id source _ 2).mp h
    exact absurd (equal [2, 3] (by decide) [1, 2] rfl) (by decide)
  · obtain ⟨s', m', source⟩ := listSource_yields ([1, 2, 3, 4] : List Int)
    rw [← cs] at h
    have equal := (dedup_chunks_iff (Iter.call_mono (t := .longLong)) refl id source _ 2).mp h
    rw [chunks] at equal
    exact absurd (equal.1 [3, 4] (by decide) rfl [1, 2] rfl) (by decide)

end Compositions

end Seqc
