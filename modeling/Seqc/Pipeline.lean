import Seqc.IterBuild
import Seqc.IterEnds

/-! Every iterator expression delivers the list it stands for, and which of them stay at
their end. -/

namespace Seqc
open Iteration Windows

variable {t : ElemType}

/-- The list an expression stands for. -/
def IterExpr.denote : {t : ElemType} → IterExpr t → List t.Val
  | _, .fromSlice contents => contents
  | _, .fromSliceRev contents => contents.reverse
  | _, .generate g => g.values
  | _, .range r => r.values
  | _, .splitSubstr str delim => splitTokens ⟨str, delim, 0, false⟩
  | _, .splitAny str set => splitTokens ⟨str, set, 0, true⟩
  | _, .filter source pred => source.denote.filter pred
  | _, .map source fn => source.denote.map fn
  | _, .take source n => source.denote.take n
  | _, .takeWhile source pred => source.denote.takeWhile pred
  | _, .skip source n => source.denote.drop n
  | _, .skipWhile source pred => source.denote.dropWhile pred
  | _, .chain a b => a.denote ++ b.denote
  | _, .zip a b => a.denote.zip b.denote
  | _, .enumerate source => enumerated source.denote
  | _, .window _ source n => windows n source.denote
  | _, .chunks _ source n => chunksOf n source.denote
  | _, .peekable source => source.denote
  | _, .dedup _ source cmp => deduped cmp source.denote
  | _, .flatMap source fn => source.denote.flatMap fun x => (fn x).denote

/-- The lists it may deliver when requests are refused that sub-iterators make: a
sub-iterator that fails is skipped. -/
def IterExpr.sequences : {t : ElemType} → IterExpr t → Set (List t.Val)
  | _, .fromSlice contents => {contents}
  | _, .fromSliceRev contents => {contents.reverse}
  | _, .generate g => {g.values}
  | _, .range r => {r.values}
  | _, .splitSubstr str delim => {splitTokens ⟨str, delim, 0, false⟩}
  | _, .splitAny str set => {splitTokens ⟨str, set, 0, true⟩}
  | _, .filter source pred => List.filter pred '' source.sequences
  | _, .map source fn => List.map fn '' source.sequences
  | _, .take source n => List.take n '' source.sequences
  | _, .takeWhile source pred => List.takeWhile pred '' source.sequences
  | _, .skip source n => List.drop n '' source.sequences
  | _, .skipWhile source pred => List.dropWhile pred '' source.sequences
  | _, .chain a b => Set.image2 (· ++ ·) a.sequences b.sequences
  | _, .zip a b => Set.image2 List.zip a.sequences b.sequences
  | _, .enumerate source => enumerated '' source.sequences
  | _, .window _ source n => windows n '' source.sequences
  | _, .chunks _ source n => chunksOf n '' source.sequences
  | _, .peekable source => source.sequences
  | _, .dedup _ source cmp => deduped cmp '' source.sequences
  | _, .flatMap source fn =>
    {zs | ∃ xs ∈ source.sequences, ∃ parts,
      List.Forall₂ (fun x p => p = [] ∨ p ∈ (fn x).sequences) xs parts ∧ zs = parts.flatten}

/-- The end of the iterator lasts for `k` more calls. An adaptor that passes a call on at the
end of its source asks for as much of the source. `iter_take_while` and `iter_zip` go on with
what their sources have left: the first must not meet an element that passes, the second asks
its second source again for each element of the first. -/
def IterExpr.Lasts : {t : ElemType} → IterExpr t → Nat → Prop
  | _, .fromSlice _, _ => True
  | _, .fromSliceRev _, _ => True
  | _, .generate g, k => g.Lasts k
  | _, .range _, _ => True
  | _, .splitSubstr _ _, _ => True
  | _, .splitAny _ _, _ => True
  | _, .filter source _, k => source.Lasts k
  | _, .map source _, k => source.Lasts k
  | _, .take source n, k => source.Lasts k ∨ ∀ zs ∈ source.sequences, n ≤ zs.length
  | _, .takeWhile source pred, k => ∀ zs ∈ source.sequences,
    (∀ x ∈ (zs.dropWhile pred).take (k + 1), pred x = false) ∧
      source.Lasts (k - (zs.dropWhile pred).length)
  | _, .skip source _, k => source.Lasts k
  | _, .skipWhile source _, k => source.Lasts k
  | _, .chain _ b, k => b.Lasts k
  | _, .zip a b, k => ∀ zs ∈ a.sequences, ∀ ws ∈ b.sequences,
    a.Lasts (k - (zs.length - ws.length)) ∧ b.Lasts (min k (zs.length - ws.length - 1))
  | _, .enumerate source, k => source.Lasts k
  | _, .window _ source n, k => n = 0 ∨ source.Lasts k
  | _, .chunks _ source n, k => n = 0 ∨ source.Lasts k ∨ ∀ zs ∈ source.sequences, ¬n ∣ zs.length
  | _, .peekable source, k => source.Lasts k
  | _, .dedup _ source _, k => source.Lasts k
  | _, .flatMap source _, k => source.Lasts k

/-- Nothing is asked of an end after which there is no call. -/
theorem IterExpr.lasts_zero (e : IterExpr t) : e.Lasts 0 := by
  induction e with
  | generate g => exact fun i none => absurd none (Nat.not_lt_zero i)
  | take source n ih => exact .inl ih
  | takeWhile source pred ih =>
    intro zs _
    refine ⟨fun x hx => ?_, by rwa [Nat.zero_sub]⟩
    cases rest : zs.dropWhile pred with
    | nil => simp [rest] at hx
    | cons y ys =>
      obtain rfl : x = y := by simpa [rest] using hx
      simpa [rest] using List.head?_dropWhile_not pred zs
  | zip a b iha ihb =>
    intro zs _ ws _
    rw [Nat.zero_sub, Nat.zero_min]
    exact ⟨iha, ihb⟩
  | window held source n ih => exact .inr ih
  | chunks held source n ih => exact .inr (.inl ih)
  | chain a b _ ihb => exact ihb
  | flatMap source fn ih _ => exact ih
  | filter _ _ ih | map _ _ ih | skip _ _ ih | skipWhile _ _ ih | enumerate _ ih | peekable _ ih
  | dedup _ _ _ ih => exact ih
  | _ => trivial

/-- The end of the iterator lasts. -/
def IterExpr.Steady (e : IterExpr t) : Prop := ∀ k, e.Lasts k

/-- Building the expression fails after a refused request, or gives an iterator that
delivers its list and then returns false for as many calls as its end lasts. -/
theorem build_ends (e : IterExpr t) (m : Mem) :
    Makes m (e.build m)
      fun it => it.Delivers (fun it => ∀ k, e.Lasts k → it.Silent k) e.denote e.sequences := by
  induction e generalizing m with
  | fromSlice contents =>
    refine withState_makes (fun _ => rfl) (fun addr => ⟨?_, rfl⟩) m
    exact fromSlice_delivers addr contents
      (fun k _ => (fromSlice_ended addr contents).silent k) 0 (Nat.zero_le _)
  | fromSliceRev contents =>
    refine withState_makes (fun _ => rfl) (fun addr => ⟨?_, rfl⟩) m
    have last (k : Nat) (_ : True) := (fromSliceRev_ended addr contents).silent k
    have all := fromSliceRev_delivers (F := fun it => ∀ k, True → it.Silent k) addr contents
      last _ le_rfl
    rwa [List.take_length] at all
  | generate g =>
    refine withState_makes (fun _ => rfl) (fun addr => ⟨?_, rfl⟩) m
    exact generate_delivers addr g fun k => generate_silent addr k
  | range r =>
    refine withState_makes (fun _ => rfl) (fun addr => ⟨?_, rfl⟩) m
    exact range_delivers addr r fun k _ => (rangeIter_ended addr r).silent k
  | splitSubstr str delim =>
    refine withState_makes (fun _ => rfl) (fun addr => ⟨?_, rfl⟩) m
    exact splitIter_delivers addr (fun _ past k _ => (splitIter_ended addr past).silent k) _
  | splitAny str set =>
    refine withState_makes (fun _ => rfl) (fun addr => ⟨?_, rfl⟩) m
    exact splitIter_delivers addr (fun _ past k _ => (splitIter_ended addr past).silent k) _
  | filter source pred ih =>
    exact iterFilter_makes pred
      (fun addr _ ends k lasts =>
        (filter_transduces addr pred).silent () (ends k lasts)) (ih m)
  | map source fn ih =>
    exact iterMap_makes fn
      (fun addr buf _ ends k lasts =>
        (map_transduces addr buf fn).silent () (ends k lasts)) (ih m)
  | take source n ih =>
    -- with a source of `n` elements or more, its end is never asked for
    let Long := ∀ zs ∈ source.sequences, n ≤ zs.length
    refine iterTake_makes n (G := fun k zs => Long → k ≤ zs.length)
      (fun k x zs long all => Nat.le_of_succ_le_succ (long all)) ?_
      (fun addr src k _ => (take_full addr src).silent k) (fun zs hz long => long zs hz) (ih m)
    intro addr src n ends short k lasts
    cases lasts with
    | inl lasts => exact take_silent addr n (ends k lasts)
    | inr long => exact absurd (short long) (Nat.not_succ_le_zero n)
  | @takeWhile t source pred ih =>
    -- what is said of a list of the source is kept by the elements that pass
    let G (zs : List t.Val) := ∀ k, (IterExpr.takeWhile source pred).Lasts k →
      (∀ x ∈ (zs.dropWhile pred).take (k + 1), pred x = false) ∧
        source.Lasts (k - (zs.dropWhile pred).length)
    refine iterTakeWhile_makes pred (G := G)
      (fun addr src ends none k lasts => takeWhile_silent addr pred (ends k (none k lasts).2))
      (fun x zs pass here k lasts => ?_) ?_ (fun zs hz k lasts => lasts zs hz) (ih m)
    · have rest := here k lasts
      rwa [List.dropWhile_cons_of_pos pass] at rest
    · intro addr src ys B x fail delivers here k lasts
      refine takeWhile_stopped addr pred delivers fun zs hz => ?_
      have rest := here zs hz k lasts
      rw [List.dropWhile_cons_of_neg (by simp [fail])] at rest
      exact ⟨fun y hy => rest.1 y (List.mem_cons_of_mem x hy), fun src ends => ends _ rest.2⟩
  | skip source n ih =>
    exact iterSkip_makes n
      (fun addr _ n ends k lasts =>
        (skip_transduces addr).silent n (ends k lasts)) (ih m)
  | skipWhile source pred ih =>
    exact iterSkipWhile_makes pred
      (fun addr _ done ends k lasts =>
        (skipWhile_transduces addr pred).silent done (ends k lasts))
      (ih m)
  | chain a b iha ihb =>
    exact iterChain_makes
      (fun addr a _ ends k lasts =>
        (second_transduces addr a).silent () (ends k lasts)) (iha m)
      (ihb _)
  | @zip s t a b iha ihb =>
    -- pairs leave the difference of the lengths as it is
    let G (zs : List s.Val) (ws : List t.Val) := ∀ k, (IterExpr.zip a b).Lasts k →
      a.Lasts (k - (zs.length - ws.length)) ∧ b.Lasts (min k (zs.length - ws.length - 1))
    refine iterZip_makes (G := G) (fun x zs y ws here k lasts => ?_)
      (fun addr buf a' b' ws ends first k lasts => ?_)
      (fun addr buf a' b' xs A x delivers ends here k lasts => ?_)
      (fun zs hz ws hw k lasts => lasts zs hz ws hw) (iha m) (ihb _)
    · simpa using here k lasts
    · have first := (first k lasts).1
      rw [List.length_nil, Nat.zero_sub, Nat.sub_zero] at first
      exact zip_silentFirst addr buf b' (ends k first)
    · refine zip_silentSecond addr buf delivers fun zs hz => ?_
      obtain ⟨first, second⟩ := here zs hz k lasts
      rw [List.length_nil, Nat.sub_zero, List.length_cons] at first second
      exact ⟨fun a' ends => ends _ first, ends _ second⟩
  | enumerate source ih =>
    exact iterEnumerate_makes
      (fun addr buf _ i ends k lasts =>
        (enumerate_transduces addr buf).silent i (ends k lasts)) (ih m)
  | window held source n ih =>
    refine iterWindow_makes n ?_ ?_ (ih m)
    · intro addr buf src zero k _
      rw [zero]
      exact (window_empty addr buf src [] false).silent k
    · intro addr buf src contents primed ends k lasts
      cases lasts with
      | inl zero =>
        rw [zero]
        exact (window_empty addr buf src contents primed).silent k
      | inr lasts => exact window_silent addr buf n contents primed (ends k lasts)
  | chunks held source n ih =>
    -- a last chunk that is short sets the flag
    let Uneven := ∀ zs ∈ source.sequences, ¬n ∣ zs.length
    refine iterChunks_makes n (G := fun zs => Uneven → ¬n ∣ zs.length) ?_ ?_
      (fun addr buf src k _ => (chunks_done addr buf src n).silent k) ?_
      (fun zs hz uneven => uneven zs hz) (ih m)
    · intro zs ws full uneven all even
      apply uneven all
      rw [List.length_append, full]
      exact Nat.dvd_add (Nat.dvd_refl n) even
    · intro addr buf src zero k _
      rw [zero]
      exact (chunks_empty addr buf src).silent k
    · intro addr buf src ends even k lasts
      rcases lasts with zero | lasts | uneven
      · rw [zero]
        exact (chunks_empty addr buf src).silent k
      · exact chunks_silent addr buf n (ends k lasts)
      · exact absurd (dvd_zero n) (even uneven)
  | peekable source ih =>
    exact iterPeekable_makes
      (fun addr buf _ ends k lasts =>
        (peekable_transduces addr buf).silent () (ends k lasts)) (ih m)
  | dedup held source cmp ih =>
    exact iterDedup_makes cmp
      (fun addr buf _ last ends k lasts =>
        (dedup_transduces addr buf cmp).silent last (ends k lasts))
      (ih m)
  | flatMap source fn ih ihs =>
    refine iterFlatMap_makes (fun x => (fn x).build) (fun x m => ?_) ?_ (ih m)
    · exact (ihs x m).imp fun sub delivers => delivers.weaken (fun _ _ => trivial) fun zs hz => hz
    · intro addr buf src sub ends k lasts
      exact flatMap_silent addr buf _ _ sub (ends k lasts)

/-- Building the expression fails after a refused request, or gives an iterator that
delivers its list. -/
theorem build_delivers (e : IterExpr t) (m : Mem) :
    Makes m (e.build m) fun it => it.Delivers (fun _ => True) e.denote e.sequences :=
  (build_ends e m).imp fun _ delivers => delivers.weaken (fun _ _ => trivial) fun _ hz => hz

theorem asIterT_valid {it : Iter t} (valid : it.isValid = true) :
    it.asIterT = some {
      next := fun fuel it => it.next fuel
      destroy := Iter.destroy
      state := it
      elemSize := t.size } := by
  cases it with
  | failed => simp [Iter.isValid] at valid
  | _ => rfl

/-- A valid iterator ends, after the list its expression stands for if no request of a
sub-iterator is refused, and `iter_collect` returns that list if none of its own is either and
the elements are held by value: of a `slice_t` or an `enum_entry_t` it copies the pointer into a
buffer that it frees. The buffers of windows and chunks are taken to hold `n` elements, which
they do as long as `n * elem_size` is below 2^64. -/
theorem pipeline_semantics (e : IterExpr t) {m m₁ : Mem} {it : Iter t}
    (built : e.build m = (it, m₁)) (valid : it.isValid = true) (m₂ : Mem) :
    (∃ xs it' m₃, Yields (Iter.call t) it m₂ xs it' m₃ ∧ xs ∈ e.sequences ∧
        (m₃.refusals = m₂.refusals → xs = e.denote)) ∧
      (t.byValue = true → ∃ n, ∀ fuel, n ≤ fuel → ∃ slice m₃,
        iterCollect fuel it.asIterT m₂ = some (slice, m₃) ∧
          (m₃.refusals = m₂.refusals → slice.contents = e.denote)) := by
  have made := build_delivers e m
  rw [built] at made
  cases made with
  | inl failed =>
    obtain ⟨rfl, -⟩ := failed
    simp [Iter.isValid] at valid
  | inr made =>
    obtain ⟨delivers, -, -⟩ := made
    constructor
    · obtain ⟨xs, it', m₃, run, -, mem, -, same⟩ := delivers.yields m₂
      exact ⟨xs, it', m₃, run, mem, same⟩
    · intro _
      rw [asIterT_valid valid]
      exact iterCollect_spec Iter.call_mono destroy_refusals delivers m₂

/-- Twice each of the first two elements below 5 of 1, 9, 2, 3. -/
theorem pipeline_semantics_ints :
    ∃ (it : Iter (.value Int 4)) (m₁ : Mem),
      IterExpr.build (.flatMap (t := .value Int 4)
        (.take (.filter (.fromSlice [1, 9, 2, 3]) fun x => decide (x < 5)) 2)
        fun x => .fromSlice [x, x]) (.start (refusingOnce 20)) = (it, m₁) ∧
      (∃ xs it' m₃, Yields (Iter.call (.value Int 4)) it m₁ xs it' m₃ ∧
        (m₃.refusals = m₁.refusals → xs = [1, 1, 2, 2])) ∧
      ∃ fuel slice m₃, iterCollect fuel it.asIterT m₁ = some (slice, m₃) ∧
        (m₃.refusals = m₁.refusals → slice.contents = [1, 1, 2, 2]) := by
  refine ⟨_, _, rfl, ?_⟩
  obtain ⟨⟨xs, it', m₃, run, -, same⟩, collects⟩ := pipeline_semantics (t := .value Int 4)
    (.flatMap (t := .value Int 4)
      (.take (.filter (.fromSlice [1, 9, 2, 3]) fun x => decide (x < 5)) 2)
      fun x => .fromSlice [x, x]) (m := .start (refusingOnce 20)) rfl rfl _
  obtain ⟨fuel, collect⟩ := collects rfl
  obtain ⟨slice, m₄, collected, all⟩ := collect fuel le_rfl
  exact ⟨⟨xs, it', m₃, run, same⟩, fuel, slice, m₄, collected, all⟩

end Seqc
