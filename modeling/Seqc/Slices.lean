import Seqc.IterBuild
import Seqc.Lib.Slots

/-! `window_next` and `chunk_next` over the slots of their buffer. A slice is
`{buf, len, elem_size}`: with one buffer an adaptor, only its length tells two slices
apart, and its contents are what the buffer holds when they are read. `left` is what a
call of the source that returns false leaves in its `out`. The slots are as many as asked for:
`n * elem_size` is taken to be below 2^64, where `iter_window` and `iter_chunks` request the
bytes of all of them. -/

namespace Seqc
open Iteration Windows Slots

variable {σ μ ω : Type*} {β : Type} {next : Nat → σ → μ → Option (Option β × σ × μ)} {left : β → β}
  {n : Nat}

/-! ### The adaptors -/

/-- `window_state_t`. -/
structure WindowState (σ : Type*) (β : Type) where
  source : σ
  buf : Nat → β
  primed : Bool

/-- `chunk_state_t`. -/
structure ChunkState (σ : Type*) (β : Type) where
  source : σ
  buf : Nat → β
  done : Bool

/-- `iter_next(&s->source, s->buf + i * s->elem_size)`. -/
def nextInto (next : Nat → σ → μ → Option (Option β × σ × μ)) (left : β → β) (fuel i : Nat)
    (s : σ) (buf : Nat → β) (m : μ) : Option (Bool × σ × (Nat → β) × μ) :=
  match next fuel s m with
  | none => none
  | some (none, s, m) => some (false, s, store buf i (left (buf i)), m)
  | some (some x, s, m) => some (true, s, store buf i x, m)

/-- The loops of `window_next` and `chunk_next` that fill up to `count` slots from `i` on,
and the slot they stop at. -/
def fillSlots (next : Nat → σ → μ → Option (Option β × σ × μ)) (left : β → β) (fuel : Nat) :
    (count i : Nat) → σ → (Nat → β) → μ → Option (Nat × σ × (Nat → β) × μ)
  | 0, i, s, buf, m => some (i, s, buf, m)
  | count + 1, i, s, buf, m =>
    match nextInto next left fuel i s buf m with
    | none => none
    | some (false, s, buf, m) => some (i, s, buf, m)
    | some (true, s, buf, m) => fillSlots next left fuel count (i + 1) s buf m

/-- `window_next`, with the length of the slice it writes. -/
def windowNext (next : Nat → σ → μ → Option (Option β × σ × μ)) (left : β → β) (n fuel : Nat)
    (w : WindowState σ β) (m : μ) : Option (Option Nat × WindowState σ β × μ) :=
  if n = 0 then some (none, w, m)
  else if w.primed then
    let buf := memmove w.buf 0 1 (n - 1)
    match nextInto next left fuel (n - 1) w.source buf m with
    | none => none
    | some (false, s, buf, m) => some (none, ⟨s, buf, true⟩, m)
    | some (true, s, buf, m) => some (some n, ⟨s, buf, true⟩, m)
  else
    match fillSlots next left fuel n 0 w.source w.buf m with
    | none => none
    | some (count, s, buf, m) =>
      if count < n then some (none, ⟨s, buf, false⟩, m) else some (some n, ⟨s, buf, true⟩, m)

/-- `chunk_next`, with the length of the slice it writes. -/
def chunkNext (next : Nat → σ → μ → Option (Option β × σ × μ)) (left : β → β) (n fuel : Nat)
    (c : ChunkState σ β) (m : μ) : Option (Option Nat × ChunkState σ β × μ) :=
  if c.done then some (none, c, m)
  else
    match fillSlots next left fuel n 0 c.source c.buf m with
    | none => none
    | some (count, s, buf, m) =>
      if count = 0 then some (none, ⟨s, buf, false⟩, m)
      else some (some count, ⟨s, buf, decide (count < n)⟩, m)

/-- A call whose slice is read at once, or with the buffer as it is at that moment. -/
def reading {γ : Type} (read : Nat → (Nat → β) → γ)
    (next : Nat → ω → μ → Option (Option Nat × ω × μ)) (buf : ω → Nat → β) (fuel : Nat) (w : ω)
    (m : μ) : Option (Option γ × ω × μ) :=
  (next fuel w m).map fun r => (r.1.map fun len => read len (buf r.2.1), r.2)

/-! ### Larger bounds -/

section Bounds

theorem nextInto_mono (mono : Mono next) {fuel i : Nat} {s : σ} {buf : Nat → β} {m : μ}
    {r : Bool × σ × (Nat → β) × μ} (h : nextInto next left fuel i s buf m = some r) :
    nextInto next left (fuel + 1) i s buf m = some r := by
  rw [nextInto] at h ⊢
  match hn : next fuel s m with
  | none => simp [hn] at h
  | some (none, s₁, m₁) => rwa [mono _ _ _ _ hn, ← hn]
  | some (some x, s₁, m₁) => rwa [mono _ _ _ _ hn, ← hn]

theorem fillSlots_mono (mono : Mono next) {fuel : Nat} (count : Nat) :
    ∀ {i : Nat} {s : σ} {buf : Nat → β} {m : μ} {r : Nat × σ × (Nat → β) × μ},
      fillSlots next left fuel count i s buf m = some r →
        fillSlots next left (fuel + 1) count i s buf m = some r := by
  induction count with
  | zero =>
    intro i s buf m r h
    exact h
  | succ count ih =>
    intro i s buf m r h
    rw [fillSlots] at h ⊢
    match hn : nextInto next left fuel i s buf m with
    | none => simp [hn] at h
    | some (false, s₁, buf₁, m₁) =>
      rw [nextInto_mono mono hn]
      simpa only [hn] using h
    | some (true, s₁, buf₁, m₁) =>
      rw [nextInto_mono mono hn]
      simp only [hn] at h
      exact ih h

theorem windowNext_mono (mono : Mono next) : Mono (windowNext next left n) := by
  intro fuel w m r h
  unfold windowNext at h ⊢
  by_cases zero : n = 0
  · rwa [if_pos zero] at h ⊢
  rw [if_neg zero] at h ⊢
  by_cases primed : w.primed = true
  · rw [if_pos primed] at h ⊢
    dsimp only at h ⊢
    match hn : nextInto next left fuel (n - 1) w.source (memmove w.buf 0 1 (n - 1)) m with
    | none => simp [hn] at h
    | some got => rwa [nextInto_mono mono hn, ← hn]
  · rw [if_neg primed] at h ⊢
    match hn : fillSlots next left fuel n 0 w.source w.buf m with
    | none => simp [hn] at h
    | some got => rwa [fillSlots_mono mono n hn, ← hn]

theorem chunkNext_mono (mono : Mono next) : Mono (chunkNext next left n) := by
  intro fuel c m r h
  unfold chunkNext at h ⊢
  by_cases done : c.done = true
  · rwa [if_pos done] at h ⊢
  rw [if_neg done] at h ⊢
  match hn : fillSlots next left fuel n 0 c.source c.buf m with
  | none => simp [hn] at h
  | some got => rwa [fillSlots_mono mono n hn, ← hn]

variable {slices : Nat → ω → μ → Option (Option Nat × ω × μ)} {buf : ω → Nat → β}

theorem reading_mono {γ : Type} {read : Nat → (Nat → β) → γ} (mono : Mono slices) :
    Mono (reading read slices buf) := by
  intro fuel w m r h
  obtain ⟨called, run, same⟩ := Option.map_eq_some_iff.mp h
  exact Option.map_eq_some_iff.mpr ⟨called, mono _ _ _ _ run, same⟩

/-! ### Reading the slices -/

variable {γ : Type} {read : Nat → (Nat → β) → γ} {w w' : ω} {m m' : μ}

theorem reading_item {g : γ} (h : Returns (reading read slices buf) w m (some g) w' m') :
    ∃ len, Returns slices w m (some len) w' m' ∧ g = read len (buf w') := by
  obtain ⟨fuel, h⟩ := h
  obtain ⟨⟨_ | len, _, _⟩, run, same⟩ := Option.map_eq_some_iff.mp h
  · simp at same
  · simp only [Option.map_some, Prod.mk.injEq, Option.some.injEq] at same
    obtain ⟨rfl, rfl, rfl⟩ := same
    exact ⟨len, ⟨fuel, run⟩, rfl⟩

theorem reading_ended (h : Returns (reading read slices buf) w m none w' m') :
    Returns slices w m none w' m' := by
  obtain ⟨fuel, h⟩ := h
  obtain ⟨⟨_ | len, _, _⟩, run, same⟩ := Option.map_eq_some_iff.mp h
  · simp only [Option.map_none, Prod.mk.injEq] at same
    obtain ⟨-, rfl, rfl⟩ := same
    exact ⟨fuel, run⟩
  · simp at same

theorem reading_returns {out : Option Nat} (h : Returns slices w m out w' m') :
    Returns (reading read slices buf) w m (out.map fun len => read len (buf w')) w' m' := by
  obtain ⟨fuel, h⟩ := h
  exact ⟨fuel, Option.map_eq_some_iff.mpr ⟨_, h, rfl⟩⟩

/-- Slices that are read at once. -/
theorem yields_contents {trace : List (Nat × (Nat → β))}
    (h : Yields (reading Prod.mk slices buf) w m trace w' m') :
    Yields (reading contents slices buf) w m (trace.map fun p => contents p.1 p.2) w' m' := by
  induction h with
  | ended returns => exact .ended (reading_returns (reading_ended returns))
  | item returns _ ih =>
    obtain ⟨len, call, rfl⟩ := reading_item returns
    exact .item (reading_returns call) ih

end Bounds

/-! ### What the adaptors yield -/

section Traces
variable (left) {s s' : σ} {m m' : μ} {xs zs : List β}

/-- The loop reads the source as far as it goes; where it ends, a slot is spoilt. -/
theorem fillSlots_reads (fuel count : Nat) :
    ∀ {i : Nat} {s : σ} (buf : Nat → β) {m : μ} {zs : List β} {s' : σ} {m' : μ},
      readUpTo (next fuel) count s m = some (zs, s', m') →
      ∃ buf', fillSlots next left fuel count i s buf m = some (i + zs.length, s', buf', m') ∧
        contents (i + zs.length) buf' = contents i buf ++ zs ∧
        (∀ k, i + zs.length < k → buf' k = buf k) ∧
        (zs.length < count → buf' (i + zs.length) = left (buf (i + zs.length))) := by
  induction count with
  | zero =>
    intro i s buf m zs s' m' h
    cases h
    exact ⟨buf, rfl, by simp, fun _ _ => rfl, by simp⟩
  | succ count ih =>
    intro i s buf m zs s' m' h
    rw [readUpTo] at h
    rcases hn : next fuel s m with _ | ⟨_ | x, s₁, m₁⟩
    · simp [hn] at h
    · simp only [hn] at h
      cases h
      refine ⟨store buf i (left (buf i)), by simp [fillSlots, nextInto, hn], ?_, ?_, ?_⟩
      · simp [contents_store_past (Nat.le_refl i)]
      · intro k past
        exact store_other (by simp at past; omega) buf _
      · intro _
        exact store_same buf i _
    · simp only [hn] at h
      rcases hr : readUpTo (next fuel) count s₁ m₁ with _ | ⟨ys, s₂, m₂⟩
      · simp [hr] at h
      · simp only [hr] at h
        cases h
        obtain ⟨buf', run, holds, above, stop⟩ := ih (i := i + 1) (store buf i x) hr
        have len : i + (x :: ys).length = i + 1 + ys.length := by
          rw [List.length_cons]
          omega
        refine ⟨buf', by rw [len]; simp only [fillSlots, nextInto, hn, run], ?_, ?_, ?_⟩
        · rw [len, holds, contents_store_end, List.append_assoc, List.singleton_append]
        · intro k past
          rw [above k (by omega), store_other (by omega)]
        · intro short
          rw [len, stop (by simpa using short), store_other (by omega)]

/-- The slices of a run, given with the buffer at the time, all of length `n`. -/
abbrev FullSlices (n : Nat) (trace : List (Nat × (Nat → β))) (ws : List (List β)) : Prop :=
  List.Forall₂ (fun p w => p.1 = n ∧ contents n p.2 = w) trace ws

/-- The loop from the first slot on. -/
theorem fillSlots_start (h : Reads next n s m zs s' m') (buf : Nat → β) :
    ∃ fuel buf', fillSlots next left fuel n 0 s buf m = some (zs.length, s', buf', m') ∧
      contents zs.length buf' = zs ∧ (∀ k, zs.length < k → buf' k = buf k) ∧
      (zs.length < n → buf' zs.length = left (buf zs.length)) := by
  obtain ⟨fuel, h⟩ := h
  obtain ⟨buf', run, holds, above, spoilt⟩ := fillSlots_reads left (i := 0) fuel n buf h
  rw [Nat.zero_add] at run holds above spoilt
  exact ⟨fuel, buf', run, holds, above, spoilt⟩

theorem windowNext_first (pos : n ≠ 0) (h : Reads next n s m zs s' m') (full : zs.length = n)
    (buf : Nat → β) :
    ∃ buf', Returns (windowNext next left n) ⟨s, buf, false⟩ m (some n) ⟨s', buf', true⟩ m' ∧
      contents n buf' = zs := by
  obtain ⟨fuel, buf', run, holds, -⟩ := fillSlots_start left h buf
  rw [full] at run holds
  exact ⟨buf', ⟨fuel, by simp [windowNext, pos, run]⟩, holds⟩

theorem windowNext_short (h : Reads next n s m zs s' m') (short : zs.length < n) (buf : Nat → β) :
    ∃ w', Returns (windowNext next left n) ⟨s, buf, false⟩ m none w' m' := by
  obtain ⟨fuel, buf', run, -⟩ := fillSlots_start left h buf
  have pos : n ≠ 0 := by omega
  exact ⟨⟨s', buf', false⟩, fuel, by simp [windowNext, pos, run, short]⟩

theorem windowNext_shift (pos : n ≠ 0) {x : β} (h : Returns next s m (some x) s' m')
    (buf : Nat → β) :
    ∃ buf', Returns (windowNext next left n) ⟨s, buf, true⟩ m (some n) ⟨s', buf', true⟩ m' ∧
      contents n buf' = (contents n buf).tail ++ [x] := by
  obtain ⟨fuel, h⟩ := h
  exact ⟨_, ⟨fuel, by simp [windowNext, nextInto, pos, h]⟩,
    contents_shift (Nat.pos_of_ne_zero pos) x⟩

theorem windowNext_last (pos : n ≠ 0) (h : Returns next s m none s' m') (buf : Nat → β) :
    ∃ w', Returns (windowNext next left n) ⟨s, buf, true⟩ m none w' m' := by
  obtain ⟨fuel, h⟩ := h
  exact ⟨_, fuel, by simp [windowNext, nextInto, pos, h]; rfl⟩

/-- The calls of `window_next`, with each slice and the buffer at the time. -/
abbrev windowTrace (next : Nat → σ → μ → Option (Option β × σ × μ)) (left : β → β) (n : Nat) :
    Nat → WindowState σ β → μ → Option (Option (Nat × (Nat → β)) × WindowState σ β × μ) :=
  reading Prod.mk (windowNext next left n) WindowState.buf

theorem window_primed (pos : n ≠ 0) (h : Yields next s m xs s' m') (buf : Nat → β) :
    ∃ trace w', Yields (windowTrace next left n) ⟨s, buf, true⟩ m trace w' m' ∧
      FullSlices n trace (transduce windowReact (contents n buf) xs) := by
  induction h generalizing buf with
  | ended returns =>
    obtain ⟨w', call⟩ := windowNext_last left pos returns buf
    exact ⟨[], w', .ended (reading_returns call), .nil⟩
  | @item s s₁ s' m m₁ m' x xs returns _ ih =>
    obtain ⟨buf', call, holds⟩ := windowNext_shift left pos returns buf
    obtain ⟨trace, w', rest, full⟩ := ih buf'
    refine ⟨_, w', .item (reading_returns call) rest, ?_⟩
    have step : transduce windowReact (contents n buf) (x :: xs) =
        ((contents n buf).tail ++ [x]) :: transduce windowReact (contents n buf') xs := by
      rw [holds]
      rfl
    rw [step]
    exact .cons ⟨rfl, holds⟩ full

theorem window_trace (mono : Mono next) (h : Yields next s m xs s' m') (buf : Nat → β) :
    ∃ trace w' m'', Yields (windowTrace next left n) ⟨s, buf, false⟩ m trace w' m'' ∧
      FullSlices n trace (windows n xs) := by
  by_cases pos : n = 0
  · subst pos
    have call : Returns (windowNext next left 0) ⟨s, buf, false⟩ m none ⟨s, buf, false⟩ m :=
      ⟨0, rfl⟩
    exact ⟨[], _, m, .ended (reading_returns call), .nil⟩
  rcases h.reads mono n with ⟨short, reads⟩ | ⟨enough, s₁, m₁, reads, rest⟩
  · obtain ⟨w', call⟩ := windowNext_short left reads short buf
    rw [windows_short short]
    exact ⟨[], w', m', .ended (reading_returns call), .nil⟩
  · have len : (xs.take n).length = n := by simpa using enough
    obtain ⟨buf', call, holds⟩ := windowNext_first left pos reads len buf
    obtain ⟨trace, w', run, full⟩ := window_primed left pos rest buf'
    refine ⟨_, w', m', .item (reading_returns call) run, ?_⟩
    have split : xs.tail = (xs.take n).tail ++ xs.drop n := by
      rw [← List.tail_append_of_ne_nil (by intro none; simp [none] at len; omega),
        List.take_append_drop]
    rw [windows_step pos enough, split, ← transduce_window pos _ _ len, ← holds]
    exact .cons ⟨rfl, rfl⟩ full

/-- Read at once, the slices are the windows. -/
theorem window_contents (mono : Mono next) (h : Yields next s m xs s' m') (buf : Nat → β) :
    ∃ w' m'', Yields (reading contents (windowNext next left n) WindowState.buf) ⟨s, buf, false⟩ m
      (windows n xs) w' m'' := by
  obtain ⟨trace, w', m'', run, full⟩ := window_trace left mono h buf
  have same : trace.map (fun p => contents p.1 p.2) = windows n xs := by
    rw [← List.forall₂_eq_eq_eq, List.forall₂_map_left_iff]
    exact full.imp fun p w h => h.1 ▸ h.2
  exact ⟨w', m'', same ▸ yields_contents run⟩

theorem chunkNext_full (pos : n ≠ 0) (h : Reads next n s m zs s' m') (full : zs.length = n)
    (buf : Nat → β) :
    ∃ buf', Returns (chunkNext next left n) ⟨s, buf, false⟩ m (some n) ⟨s', buf', false⟩ m' ∧
      contents n buf' = zs := by
  obtain ⟨fuel, buf', run, holds, -⟩ := fillSlots_start left h buf
  rw [full] at run holds
  exact ⟨buf', ⟨fuel, by simp [chunkNext, pos, run]⟩, holds⟩

/-- The last chunk is followed by what is left of the chunk before it. -/
theorem chunkNext_short (some_left : zs ≠ []) (h : Reads next n s m zs s' m')
    (short : zs.length < n) (buf : Nat → β) :
    ∃ buf', Returns (chunkNext next left n) ⟨s, buf, false⟩ m (some zs.length)
        ⟨s', buf', true⟩ m' ∧ contents zs.length buf' = zs ∧
      contents n buf' = zs ++ ((contents n buf).drop zs.length).modifyHead left := by
  obtain ⟨fuel, buf', run, holds, above, spoilt⟩ := fillSlots_start left h buf
  refine ⟨buf', ⟨fuel, by simp [chunkNext, some_left, short, run]⟩, holds, ?_⟩
  apply contents_eq (by simp; omega)
  intro k hk
  rcases Nat.lt_trichotomy k zs.length with below | rfl | past
  · rw [List.getElem?_append_left below, ← contents_get buf' below, holds]
  · rw [List.getElem?_append_right (Nat.le_refl _), Nat.sub_self, List.getElem?_modifyHead_zero,
      List.getElem?_drop, Nat.add_zero, contents_get buf short, spoilt short]
    rfl
  · obtain ⟨j, rfl⟩ : ∃ j, k = zs.length + (j + 1) := ⟨k - zs.length - 1, by omega⟩
    rw [List.getElem?_append_right (by omega), Nat.add_sub_cancel_left,
      List.getElem?_modifyHead_succ, List.getElem?_drop, contents_get buf hk, above _ past]

theorem chunkNext_empty (h : Reads next n s m [] s' m') (buf : Nat → β) :
    ∃ c', Returns (chunkNext next left n) ⟨s, buf, false⟩ m none c' m' := by
  obtain ⟨fuel, buf', run, -⟩ := fillSlots_start left h buf
  exact ⟨_, fuel, by simp [chunkNext, run]; rfl⟩

/-- The slices of a run of `chunk_next` over `xs`, given with the buffer at the time, when
the buffer held `f` at the start. -/
inductive ChunkSlices (n : Nat) : List β → List β → List (Nat × (Nat → β)) → Prop
  | ended {f : List β} : ChunkSlices n f [] []
  | last {f xs : List β} {buf : Nat → β} (some_left : xs ≠ []) (short : xs.length < n)
      (holds : contents xs.length buf = xs)
      (spoilt : contents n buf = xs ++ (f.drop xs.length).modifyHead left) :
      ChunkSlices n f xs [(xs.length, buf)]
  | full {f xs : List β} {buf : Nat → β} {trace : List (Nat × (Nat → β))} (enough : n ≤ xs.length)
      (holds : contents n buf = xs.take n) (rest : ChunkSlices n (xs.take n) (xs.drop n) trace) :
      ChunkSlices n f xs ((n, buf) :: trace)

abbrev chunkTrace (next : Nat → σ → μ → Option (Option β × σ × μ)) (left : β → β) (n : Nat) :
    Nat → ChunkState σ β → μ → Option (Option (Nat × (Nat → β)) × ChunkState σ β × μ) :=
  reading Prod.mk (chunkNext next left n) ChunkState.buf

theorem chunk_trace (mono : Mono next) (pos : n ≠ 0) (h : Yields next s m xs s' m')
    (buf : Nat → β) :
    ∃ trace c' m'', Yields (chunkTrace next left n) ⟨s, buf, false⟩ m trace c' m'' ∧
      ChunkSlices left n (contents n buf) xs trace := by
  induction len : xs.length using Nat.strongRecOn generalizing s m xs buf with
  | ind length ih =>
    subst len
    rcases h.reads mono n with ⟨short, reads⟩ | ⟨enough, s₁, m₁, reads, rest⟩
    · by_cases none_left : xs = []
      · subst none_left
        obtain ⟨c', call⟩ := chunkNext_empty left reads buf
        exact ⟨[], c', m', .ended (reading_returns call), .ended⟩
      · obtain ⟨buf', call, holds, spoilt⟩ := chunkNext_short left none_left reads short buf
        have done : Returns (chunkNext next left n) ⟨s', buf', true⟩ m' none ⟨s', buf', true⟩ m' :=
          ⟨0, rfl⟩
        exact ⟨_, _, m', .item (reading_returns call) (.ended (reading_returns done)),
          .last none_left short holds spoilt⟩
    · have full : (xs.take n).length = n := by simpa using enough
      obtain ⟨buf', call, holds⟩ := chunkNext_full left pos reads full buf
      obtain ⟨trace, c', m'', run, slices⟩ := ih _ (by rw [List.length_drop]; omega) rest buf' rfl
      exact ⟨_, c', m'', .item (reading_returns call) run, .full enough holds (holds ▸ slices)⟩

theorem ChunkSlices.chunks (pos : n ≠ 0) {f : List β} {trace : List (Nat × (Nat → β))}
    (h : ChunkSlices left n f xs trace) :
    trace.map (fun p => contents p.1 p.2) = chunksOf n xs := by
  induction h with
  | ended => simp
  | last some_left short holds => simp [chunksOf_short some_left short, holds]
  | full enough holds _ ih =>
    rw [chunksOf_step pos fun none => pos (by simpa [none] using enough), List.map_cons, holds, ih]

/-- Read at once, the slices are the chunks. -/
theorem chunk_contents (mono : Mono next) (pos : n ≠ 0) (h : Yields next s m xs s' m')
    (buf : Nat → β) :
    ∃ c' m'', Yields (reading contents (chunkNext next left n) ChunkState.buf) ⟨s, buf, false⟩ m
      (chunksOf n xs) c' m'' := by
  obtain ⟨trace, c', m'', run, slices⟩ := chunk_trace left mono pos h buf
  exact ⟨c', m'', slices.chunks left pos ▸ yields_contents run⟩

end Traces

end Seqc
