import Seqc.Transducers
import Seqc.SplitJoin
import Seqc.Lib.Windows

/-! What the sources of iter.c deliver, and what the adaptors deliver whose calls look at
their sources more than once, or not at all: `iter_take`, `iter_take_while`, `iter_chain`,
`iter_zip`, `iter_window`, `iter_chunks` and `iter_flat_map`. -/

namespace Seqc
open Iteration Windows

variable {s t : ElemType}

instance : Nonempty Mem := ⟨.start (refusingOnce 0)⟩

/-- What an iterator delivers: it ends whatever requests are refused, in a state of `E`,
after a list of `A`, which is `xs` if none is. -/
abbrev Iter.Delivers (E : Iter t → Prop) (it : Iter t) (xs : List t.Val)
    (A : Set (List t.Val)) : Prop :=
  Iteration.Delivers (Iter.call t) Mem.refusals E it xs A

abbrev Iter.Ended (it : Iter t) : Prop := Iteration.Ended (Iter.call t) it

abbrev Iter.Silent (n : Nat) (it : Iter t) : Prop := Iteration.Silent (Iter.call t) n it

variable {E F : Iter t → Prop} {src : Iter t} {xs : List t.Val} {A : Set (List t.Val)}

/-! ### Sources -/

theorem failed_delivers (last : F .failed) : Iter.Delivers F (.failed : Iter t) [] {[]} :=
  .nil (fun _ => ⟨1, rfl⟩) last

theorem fromSlice_delivers (addr : Nat) (contents : List t.Val)
    (last : F (.fromSlice addr contents contents.length)) :
    ∀ pos, pos ≤ contents.length →
      Iter.Delivers F (.fromSlice addr contents pos) (contents.drop pos) {contents.drop pos} := by
  intro pos le
  induction left : contents.length - pos generalizing pos with
  | zero =>
    obtain rfl : pos = contents.length := by omega
    rw [List.drop_length]
    exact .nil (fun m => ⟨1, by simp [Iter.next]⟩) last
  | succ n ih =>
    rw [List.drop_eq_getElem_cons (by omega : pos < contents.length)]
    refine .cons (fun m => ⟨1, ?_⟩) (ih (pos + 1) (by omega) (by omega))
    simp [Iter.next, List.head?_drop, List.getElem?_eq_getElem (by omega : pos < contents.length)]

theorem fromSliceRev_delivers (addr : Nat) (contents : List t.Val)
    (last : F (.fromSliceRev addr contents 0)) :
    ∀ pos, pos ≤ contents.length →
      Iter.Delivers F (.fromSliceRev addr contents pos) (contents.take pos).reverse
        {(contents.take pos).reverse} := by
  intro pos le
  induction pos with
  | zero => exact .nil (fun m => ⟨1, by simp [Iter.next]⟩) last
  | succ pos ih =>
    rw [List.take_succ_eq_append_getElem (by omega), List.reverse_append, List.reverse_singleton,
      List.singleton_append]
    refine .cons (fun m => ⟨1, ?_⟩) (ih (by omega))
    simp [Iter.next, List.head?_drop, List.getElem?_eq_getElem (by omega : pos < contents.length)]

/-- A source that computes its values from a state of its own. -/
theorem listWithin_delivers {ρ : Type} {call : ρ → Option (Option t.Val × ρ)} (wrap : ρ → Iter t)
    (calls : ∀ r out r', call r = some (out, r') →
      ∀ m, Returns (Iter.call t) (wrap r) m out (wrap r') m) {final : ρ} (last : F (wrap final))
    (n : Nat) :
    ∀ r ys, listWithin call n r = some (ys, final) → Iter.Delivers F (wrap r) ys {ys} := by
  induction n with
  | zero =>
    intro r ys h
    simp [listWithin] at h
  | succ n ih =>
    intro r ys h
    rw [listWithin] at h
    match hc : call r with
    | none => simp [hc] at h
    | some (none, r') =>
      obtain ⟨rfl, rfl⟩ : [] = ys ∧ r' = final := by simpa [hc] using h
      exact .nil (calls r none r' hc) last
    | some (some x, r') =>
      obtain ⟨zs, rest, rfl⟩ : ∃ zs, listWithin call n r' = some (zs, final) ∧ x :: zs = ys := by
        simpa [hc] using h
      exact .cons (calls r (some x) r' hc) (ih r' zs rest)

theorem generate_delivers (addr : Nat) (g : FiniteGenerator t.Val)
    (last : F (.generate addr g.fn g.last)) :
    Iter.Delivers F (.generate addr g.fn g.ctx) g.values {g.values} := by
  refine listWithin_delivers (.generate addr g.fn) (fun c out c' h m => ⟨1, ?_⟩) last _ _ _
    g.ends
  simp [Iter.next, Option.some.inj h]

theorem range_delivers (addr : Nat) (r : DefinedRange) {E : Iter .longLong → Prop}
    (last : E (.range addr r.last)) :
    Iter.Delivers E (.range addr (rangeStart r.start r.stop r.step)) r.values {r.values} := by
  refine listWithin_delivers (.range addr) (fun st out st' h m => ⟨1, ?_⟩) last _ _ _ r.ends
  simp [Iter.next, h]

theorem splitIter_delivers (addr : Nat) {E : Iter .string → Prop}
    (last : ∀ st : SplitState, st.src.len < st.pos → E (.split addr st)) (st : SplitState) :
    Iter.Delivers E (.split addr st) (splitTokens st) {splitTokens st} := by
  have passes : Transduces splitCall (Iter.call .string) (fun (_ : Unit) x => (some x, ()))
      fun _ s => .split addr s.2 := by
    constructor
    · intro q s m s' m' h
      obtain ⟨n, h⟩ := h
      simp only [splitCall, Option.some.injEq, Prod.mk.injEq] at h
      obtain ⟨none, rfl, rfl⟩ := h
      exact ⟨q, 1, by simp [Iter.next, none]⟩
    · intro q s m x s' m' y h same
      obtain ⟨n, h⟩ := h
      simp only [splitCall, Option.some.injEq, Prod.mk.injEq] at h
      obtain ⟨some, rfl, rfl⟩ := h
      exact ⟨1, by simp [Iter.next, some, Option.some.inj same]⟩
    · intro q s m x s' m' out r m'' h drop
      simp at drop
  have delivers := passes.delivers (F := E) (fun _ s past => last s.2 past)
    (split_delivers addr st) () {splitTokens st} (by simp [transduce_id])
  rwa [transduce_id] at delivers

/-! ### Adaptors that may stop early -/

/-- `G n` is what is known of the lists of the source when `n` items remain to be taken. -/
theorem take_delivers (addr : Nat) {G : Nat → List t.Val → Prop}
    (keep : ∀ n x zs, G (n + 1) (x :: zs) → G n zs)
    (ends : ∀ src n, E src → G (n + 1) [] → F (.take addr src (n + 1)))
    (full : ∀ src, F (.take addr src 0)) (h : Iter.Delivers E src xs A) :
    ∀ (n : Nat) (T : Set (List t.Val)), (∀ zs ∈ A, G n zs) → (∀ zs ∈ A, zs.take n ∈ T) →
      Iter.Delivers F (.take addr src n) (xs.take n) T := by
  induction h using Delivers.induct with
  | step src xs A h ih =>
    intro n T good family
    apply Delivers.mk
    intro m
    cases n with
    | zero =>
      obtain ⟨zs, hz⟩ := h.exists_mem
      exact .ended ⟨1, by simp [Iter.next]⟩ le_rfl (family zs hz) (full src) fun _ => rfl
    | succ n =>
      cases ih m with
      | ended returns grows closes last calm =>
        obtain ⟨k, returns⟩ := Iter.returns_from returns
        refine .ended ⟨k + 1, by simp [Iter.next, returns k le_rfl]⟩ grows (family [] closes)
          (ends _ n last (good [] closes)) fun same => ?_
        rw [calm same, List.take_nil]
      | @item x _ _ _ _ returns grows rest sub calm =>
        obtain ⟨k, returns⟩ := Iter.returns_from returns
        refine .item ⟨k + 1, by simp [Iter.next, returns k le_rfl]⟩ grows
          (rest.snd n {ws | _ :: ws ∈ T} (fun zs hz => keep n x zs (good _ (sub zs hz)))
            fun zs hz => family _ (sub zs hz)) (fun _ hz => hz) fun same => ?_
        rw [calm same, List.take_succ_cons]

/-- `G` is what is known of the lists of the source, and is kept by items that pass. -/
theorem takeWhile_delivers (addr : Nat) (pred : t.Val → Bool) {G : List t.Val → Prop}
    (ends : ∀ src, E src → G [] → F (.takeWhile addr src pred))
    (keep : ∀ x zs, pred x = true → G (x :: zs) → G zs)
    (stops : ∀ src ys B x, pred x = false → Iter.Delivers E src ys B →
      (∀ zs ∈ B, G (x :: zs)) → F (.takeWhile addr src pred))
    (h : Iter.Delivers E src xs A) :
    ∀ T : Set (List t.Val), (∀ zs ∈ A, G zs) → (∀ zs ∈ A, zs.takeWhile pred ∈ T) →
      Iter.Delivers F (.takeWhile addr src pred) (xs.takeWhile pred) T := by
  induction h using Delivers.induct with
  | step src xs A h ih =>
    intro T good family
    apply Delivers.mk
    intro m
    cases ih m with
    | ended returns grows closes last calm =>
      obtain ⟨k, returns⟩ := Iter.returns_from returns
      refine .ended ⟨k + 1, by simp [Iter.next, returns k le_rfl]⟩ grows (family [] closes)
        (ends _ last (good [] closes)) fun same => ?_
      rw [calm same, List.takeWhile_nil]
    | @item x src' m' ys B returns grows rest sub calm =>
      obtain ⟨k, returns⟩ := Iter.returns_from returns
      obtain ⟨rest, ih⟩ := rest
      cases pass : pred x with
      | true =>
        refine .item ⟨k + 1, by simp [Iter.next, returns k le_rfl, pass]⟩ grows
          (ih {ws | x :: ws ∈ T} (fun zs hz => keep x zs pass (good _ (sub zs hz)))
            fun zs hz => ?_) (fun _ hz => hz) fun same => ?_
        · have := family _ (sub zs hz)
          rwa [List.takeWhile_cons_of_pos pass] at this
        · rw [calm same, List.takeWhile_cons_of_pos pass]
      | false =>
        have none (zs : List t.Val) : (x :: zs).takeWhile pred = [] :=
          List.takeWhile_cons_of_neg (by simp [pass])
        obtain ⟨zs, hz⟩ := rest.exists_mem
        refine .ended ⟨k + 1, by simp [Iter.next, returns k le_rfl, pass]⟩ grows ?_
          (stops src' ys B x pass rest fun zs hz => good _ (sub zs hz)) fun same => ?_
        · rw [← none zs]
          exact family _ (sub zs hz)
        · rw [calm same, none]

/-- `G` is what is known of the lists of the two sources, and is kept by pairs. -/
theorem zip_delivers (addr bufA : Nat) {Ea : Iter s → Prop} {F : Iter (.pair s t) → Prop}
    {G : List s.Val → List t.Val → Prop} (keep : ∀ x zs y ws, G (x :: zs) (y :: ws) → G zs ws)
    (endsA : ∀ a b ws, Ea a → G [] ws → F (.zip addr bufA a b))
    (endsB : ∀ a b xs A x, Iter.Delivers Ea a xs A → E b → (∀ zs ∈ A, G (x :: zs) []) →
      F (.zip addr bufA a b)) {a : Iter s}
    {xs : List s.Val} {A : Set (List s.Val)} (ha : Iter.Delivers Ea a xs A) :
    ∀ (b : Iter t) (ys : List t.Val) (B : Set (List t.Val)), Iter.Delivers E b ys B →
      ∀ T : Set (List (s.Val × t.Val)), (∀ zs ∈ A, ∀ ws ∈ B, G zs ws) →
        (∀ zs ∈ A, ∀ ws ∈ B, zs.zip ws ∈ T) →
          Iter.Delivers F (.zip addr bufA a b) (xs.zip ys) T := by
  induction ha using Delivers.induct with
  | step a xs A _ ih =>
    intro b ys B hb T good family
    apply Delivers.mk
    intro m
    cases ih m with
    | ended returns grows closes last calm =>
      obtain ⟨k, returns⟩ := Iter.returns_from returns
      obtain ⟨ws, hw⟩ := hb.exists_mem
      refine .ended ⟨k + 1, by simp [Iter.next, returns k le_rfl]⟩ grows
        (family [] closes ws hw) (endsA _ b ws last (good [] closes ws hw)) fun same => ?_
      rw [calm same, List.zip_nil_left]
    | @item x a' m' xs' A' returns grows rest sub calm =>
      obtain ⟨n, returns⟩ := Iter.returns_from returns
      obtain ⟨rest, ih⟩ := rest
      cases hb.call m' with
      | @ended b' m'' returns' grows' closes last calm' =>
        obtain ⟨k, returns'⟩ := Iter.returns_from returns'
        obtain ⟨zs, hz⟩ := rest.exists_mem
        refine .ended ⟨max n k + 1, by simp [Iter.next, returns _ (le_max_left n k),
          returns' _ (le_max_right n k)]⟩ (grows.trans grows') (family _ (sub zs hz) [] closes)
          (endsB a' b' _ _ x rest last fun zs hz => good _ (sub zs hz) [] closes) fun same => ?_
        rw [calm' (by omega), List.zip_nil_right]
      | @item y b' m'' ys' B' returns' grows' rest' sub' calm' =>
        obtain ⟨k, returns'⟩ := Iter.returns_from returns'
        refine .item ⟨max n k + 1, by simp [Iter.next, returns _ (le_max_left n k),
          returns' _ (le_max_right n k)]⟩ (grows.trans grows')
          (ih b' ys' B' rest' {vs | (x, y) :: vs ∈ T}
            (fun zs hz ws hw => keep x zs y ws (good _ (sub zs hz) _ (sub' ws hw)))
            fun zs hz ws hw => family _ (sub zs hz) _ (sub' ws hw)) (fun _ hz => hz) fun same => ?_
        rw [calm (by omega), calm' (by omega), List.zip_cons_cons]

/-! ### One after the other -/

theorem chain_delivers (addr : Nat) {E₁ : Iter t → Prop}
    (ends : ∀ first second, E second → F (.chain addr first second true)) {first second : Iter t}
    {ys : List t.Val} {B : Set (List t.Val)} (h : Iter.Delivers E₁ first xs A)
    (h' : Iter.Delivers E second ys B) (T : Set (List t.Val))
    (family : ∀ zs ∈ A, ∀ ws ∈ B, zs ++ ws ∈ T) :
    Iter.Delivers F (.chain addr first second false) (xs ++ ys) T := by
  have continues : Continues (Iter.call t) (Iter.call t) Mem.refusals
      (fun first => .chain addr first second false) (fun first => .chain addr first second true)
      fun _ m => m := by
    constructor
    · intro first m x first' m' h
      obtain ⟨n, h⟩ := Iter.returns_from h
      exact ⟨n + 1, by simp [Iter.next, h n le_rfl]⟩
    · intro first m first' m' out r m'' h h'
      obtain ⟨n, h⟩ := Iter.returns_from h
      obtain ⟨k, h'⟩ := Iter.returns_from h'
      exact ⟨max n k + 1, by simp [Iter.next, h _ (le_max_left n k), h' _ (le_max_right n k)]⟩
    · intro first m
      rfl
  refine continues.delivers (fun first => ?_) h T family
  have tail := (second_transduces addr first).delivers (F := F) (fun _ second => ends first second)
    h' () B (by simp [transduce_id])
  rwa [transduce_id] at tail

/-! ### Windows and chunks -/

/-- One more element in the window. -/
def windowReact {β : Type} (contents : List β) (x : β) : Option (List β) × List β :=
  (some (contents.tail ++ [x]), contents.tail ++ [x])

theorem window_transduces (addr : Nat) (buf : Option Nat) {n : Nat} (pos : n ≠ 0) :
    Transduces (Iter.call t) (Iter.call (.slice t)) windowReact
      fun contents source => .window addr buf source n contents true where
  ended {q} {_ _ _ _} h := by
    obtain ⟨k, h⟩ := Iter.returns_from h
    exact ⟨q.tail, k + 1, by simp [Iter.next, h k le_rfl, pos]⟩
  emits h same := by
    obtain ⟨k, h⟩ := Iter.returns_from h
    obtain rfl := Option.some.inj same
    exact ⟨k + 1, by simp [Iter.next, h k le_rfl, pos, windowReact]⟩
  drops _ drop _ := by simp [windowReact] at drop

theorem transduce_window {β : Type} {n : Nat} (pos : n ≠ 0) (xs : List β) :
    ∀ contents : List β, contents.length = n →
      transduce windowReact contents xs = windows n (contents.tail ++ xs) := by
  induction xs with
  | nil =>
    intro contents len
    rw [transduce, windows_short]
    rw [List.append_nil, List.length_tail]
    omega
  | cons x xs ih =>
    intro contents len
    have len' : (contents.tail ++ [x]).length = n := by
      rw [List.length_append, List.length_tail, List.length_singleton]
      omega
    have split : contents.tail ++ x :: xs = (contents.tail ++ [x]) ++ xs := by simp
    have some : contents.tail ++ [x] ≠ [] := by simp
    rw [transduce_emit (y := contents.tail ++ [x]) rfl, split, windows_step pos (by simp; omega),
      ← len', List.take_left, List.tail_append_of_ne_nil some, len']
    exact congrArg _ (ih _ len')

theorem window_delivers (addr : Nat) (buf : Option Nat) (n : Nat)
    {F : Iter (.slice t) → Prop} (empty : ∀ src, n = 0 → F (.window addr buf src n [] false))
    (ends : ∀ src contents primed, E src → F (.window addr buf src n contents primed))
    (h : Iter.Delivers E src xs A) (T : Set (List (List t.Val)))
    (family : ∀ zs ∈ A, windows n zs ∈ T) :
    Iter.Delivers F (.window addr buf src n [] false) (windows n xs) T := by
  apply Delivers.mk
  intro m
  by_cases zero : n = 0
  · obtain ⟨zs, hz⟩ := h.exists_mem
    have nothing := family zs hz
    rw [zero, windows_zero] at nothing
    refine .ended ⟨1, by simp [Iter.next, zero]⟩ le_rfl nothing (zero ▸ empty src zero) fun _ => ?_
    rw [zero, windows_zero]
  · cases h.batch Iter.call_mono n m with
    | @short zs src' m' reads length grows closes last calm =>
      obtain ⟨k, reads⟩ := reads
      have returns : Returns (Iter.call (.slice t)) (.window addr buf src n [] false) m none
          (.window addr buf src' n zs false) m' :=
        ⟨k + 1, by simp [Iter.next, zero, reads, length]⟩
      refine .ended returns grows ?_ (ends _ _ false last) fun same => ?_
      · rw [← windows_short length]
        exact family _ closes
      · rw [calm same, windows_short length]
    | @full zs src' m' ys B reads length grows rest sub calm =>
      obtain ⟨k, reads⟩ := reads
      have some : zs ≠ [] := by
        intro nothing
        rw [nothing] at length
        exact zero length.symm
      have first (ws : List t.Val) : windows n (zs ++ ws) = zs :: windows n (zs.tail ++ ws) := by
        rw [windows_step zero (by simp; omega), ← length, List.take_left,
          List.tail_append_of_ne_nil some]
      have tail := (window_transduces addr buf zero).delivers (F := F)
        (fun contents src => ends src contents true) rest zs {ws | zs :: ws ∈ T} fun ws hw => by
          have := family _ (sub ws hw)
          rwa [first, ← transduce_window zero ws zs length] at this
      refine .item ⟨k + 1, by simp [Iter.next, zero, reads, length]⟩ grows tail (fun _ hw => hw)
        fun same => ?_
      rw [calm same, first, transduce_window zero ys zs length]

theorem chunksDone_delivers (addr : Nat) (buf : Option Nat) (src : Iter t) (n : Nat)
    {F : Iter (.slice t) → Prop} (last : F (.chunks addr buf src n true)) :
    Iter.Delivers F (.chunks addr buf src n true) [] {[]} :=
  .nil (fun m => ⟨1, by simp [Iter.next]⟩) last

/-- `G` is what is known of the lists of the source, and is kept by full chunks. -/
theorem chunks_delivers (addr : Nat) (buf : Option Nat) (n : Nat)
    {F : Iter (.slice t) → Prop} {G : List t.Val → Prop}
    (keep : ∀ zs ws, zs.length = n → G (zs ++ ws) → G ws)
    (empty : ∀ src, n = 0 → F (.chunks addr buf src n false))
    (done : ∀ src, F (.chunks addr buf src n true))
    (ends : ∀ src, E src → G [] → F (.chunks addr buf src n false))
    (h : Iter.Delivers E src xs A) :
    ∀ T : Set (List (List t.Val)), (∀ zs ∈ A, G zs) → (∀ zs ∈ A, chunksOf n zs ∈ T) →
      Iter.Delivers F (.chunks addr buf src n false) (chunksOf n xs) T := by
  induction h using Delivers.batches Iter.call_mono with
  | step src xs A h ih =>
    intro T good family
    apply Delivers.mk
    intro m
    cases n with
    | zero =>
      obtain ⟨zs, hz⟩ := h.exists_mem
      have nothing := family zs hz
      rw [chunksOf_zero] at nothing
      exact .ended ⟨1, by simp [Iter.next, readUpTo]⟩ le_rfl nothing (empty src rfl)
        fun _ => chunksOf_zero xs
    | succ n =>
      cases ih n m with
      | @short zs src' m' reads length grows closes last calm =>
        obtain ⟨k, reads⟩ := reads
        by_cases none : zs = []
        · subst none
          refine .ended ⟨k + 1, by simp [Iter.next, reads]⟩ grows ?_
            (ends src' last (good [] closes)) fun same => ?_
          · rw [← chunksOf_nil (n + 1)]
            exact family _ closes
          · rw [calm same, chunksOf_nil]
        · have returns : Returns (Iter.call (.slice t)) (.chunks addr buf src (n + 1) false) m
              (Option.some zs) (.chunks addr buf src' (n + 1) true) m' :=
            ⟨k + 1, by
              simp only [Iter.next, Bool.false_eq_true, if_false, reads, Option.bind_eq_bind,
                Option.bind_some, List.length_eq_zero_iff, none, decide_eq_true length,
                Option.pure_def]⟩
          refine .item returns grows (chunksDone_delivers addr buf src' (n + 1) (done src'))
            (fun ws hw => ?_) fun same => ?_
          · rw [hw, ← chunksOf_short none length]
            exact family _ closes
          · rw [calm same, chunksOf_short none length]
      | @full zs src' m' ys B reads length grows rest sub calm =>
        obtain ⟨k, reads⟩ := reads
        have some : zs ≠ [] := by
          intro nothing
          simp [nothing] at length
        have first (ws : List t.Val) : chunksOf (n + 1) (zs ++ ws) = zs :: chunksOf (n + 1) ws :=
          chunksOf_append n.succ_ne_zero length ws
        have returns : Returns (Iter.call (.slice t)) (.chunks addr buf src (n + 1) false) m
            (Option.some zs) (.chunks addr buf src' (n + 1) false) m' :=
          ⟨k + 1, by simp [Iter.next, reads, some, length]⟩
        have kept (ws : List t.Val) (hw : ws ∈ B) : G ws :=
          keep zs ws length (good _ (sub ws hw))
        refine .item returns grows (rest.snd {ws | zs :: ws ∈ T} kept fun ws hw => ?_)
          (fun _ hw => hw) fun same => ?_
        · have := family _ (sub ws hw)
          rwa [first] at this
        · rw [calm same, first]

/-! ### Sub-iterators -/

@[simp] theorem freeIf_refusals (m : Mem) (addr : Option Nat) (size : Nat) :
    (Iter.freeIf m addr size).refusals = m.refusals := by
  cases addr with
  | none => rfl
  | some addr => exact memFree_refusals m _ size

@[simp] theorem destroy_refusals (it : Iter t) (m : Mem) :
    (it.destroy m).refusals = m.refusals := by
  induction it generalizing m with
  | failed => rfl
  | chain _ _ _ _ ih ih' => simp only [Iter.destroy, memFree_refusals, ih, ih']
  | zip _ _ _ _ ih ih' => simp only [Iter.destroy, memFree_refusals, ih, ih']
  | foreign it => exact it.quiet it.state m
  | flatMap _ _ _ _ _ _ subActive ih _ ih' =>
    cases subActive <;> simp [Iter.destroy, ih, ih']
  | _ => simp [Iter.destroy, *]

/-- `part x` are the lists a sub-iterator for `x` may deliver, `den x` the one it delivers
if nothing is refused. -/
theorem flatMap_delivers (addr elemBuf : Nat) (fn : s.Val → Mem → Iter t)
    (after : s.Val → Mem → Mem) {Es : Iter s → Prop} (part : s.Val → Set (List t.Val))
    {den : s.Val → List t.Val}
    (subs : ∀ x m, ∃ ys B, Iter.Delivers (fun _ => True) (fn x m) ys B ∧
      m.refusals ≤ (after x m).refusals ∧ (∀ zs ∈ B, zs ∈ part x) ∧
      ((after x m).refusals = m.refusals → ys = den x))
    (ends : ∀ src sub, Es src → F (.flatMap addr elemBuf src fn after sub false)) {src : Iter s}
    {xs : List s.Val} {A : Set (List s.Val)} (h : Iter.Delivers Es src xs A) :
    ∀ (sub : Iter t) (T : Set (List t.Val)),
      (∀ zs ∈ A, ∀ parts, List.Forall₂ (fun x p => p ∈ part x) zs parts → parts.flatten ∈ T) →
        Iter.Delivers F (.flatMap addr elemBuf src fn after sub false) (xs.flatMap den) T := by
  induction h using Delivers.induct with
  | step src xs A _ ih =>
    intro sub T family
    apply Delivers.mk
    intro m
    cases ih m with
    | ended returns grows closes last calm =>
      obtain ⟨k, returns⟩ := Iter.returns_from returns
      refine .ended ⟨k + 1, by simp [Iter.next, returns k le_rfl]⟩ grows
        (family [] closes [] .nil) (ends _ sub last) fun same => ?_
      rw [calm same, List.flatMap_nil]
    | @item x src' m' xs' A' returns grows rest sub' calm =>
      obtain ⟨n, returns⟩ := Iter.returns_from returns
      obtain ⟨ys, B, delivers, more, parts, made⟩ := subs x m'
      have continues : Continues (Iter.call t) (Iter.call t) Mem.refusals
          (fun sub => .flatMap addr elemBuf src' fn after sub true)
          (fun sub => .flatMap addr elemBuf src' fn after sub false) Iter.destroy := by
        constructor
        · intro sub m y sub' m' h
          obtain ⟨n, h⟩ := Iter.returns_from h
          exact ⟨n + 1, by simp [Iter.next, h n le_rfl]⟩
        · intro sub m sub' m' out r m'' h h'
          obtain ⟨n, h⟩ := Iter.returns_from h
          obtain ⟨k, h'⟩ := Iter.returns_from h'
          exact ⟨max n k + 1,
            by simp [Iter.next, h _ (le_max_left n k), h' _ (le_max_right n k)]⟩
        · intro sub m
          exact destroy_refusals sub m
      have tail := continues.delivers (fun sub => rest.snd sub
        {ws | ∃ zs ∈ A', ∃ parts, List.Forall₂ (fun x p => p ∈ part x) zs parts ∧
          ws = parts.flatten} fun zs hz parts all => ⟨zs, hz, parts, all, rfl⟩) delivers T
        fun zs hz ws hw => by
          obtain ⟨later, hl, laterParts, all, rfl⟩ := hw
          exact family _ (sub' later hl) (zs :: laterParts) (.cons (parts zs hz) all)
      refine (tail.call (after x m')).before (fun out r m'' h' => ?_) (grows.trans more)
        fun same => ?_
      · obtain ⟨k, h'⟩ := Iter.returns_from h'
        exact ⟨max n k + 1,
          by simp [Iter.next, returns _ (le_max_left n k), h' _ (le_max_right n k)]⟩
      · rw [calm (by omega), made (by omega), List.flatMap_cons]

end Seqc
