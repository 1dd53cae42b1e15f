import Seqc.Balance
import Seqc.Lib.Runs

/-! omap.c: an ordered map, and the runs of its operations from `omap_create` with
allocations failing at arbitrary points. A node's data is its key and its value. -/

namespace Seqc
open Comparator ClassMap Runs

/-- `omap_t`. -/
structure Omap (κ ν : Type) where
  addr : Nat
  root : Tree Int (κ × ν)
  len : Nat
  keySize : Nat
  valSize : Nat

def sizeofOmap : Nat := 56

/-- The offset of the value, rounded up to the largest alignment. -/
def omapValOff (keySize : Nat) : Nat := addSize (addSize 32 keySize) 15 / 16 * 16

def omapNodeSize (keySize valSize : Nat) : Nat := addSize (omapValOff keySize) valSize

variable {κ ν : Type}

def omapCreate (κ ν : Type) (keySize valSize : Nat) (m : Mem) : Option (Omap κ ν) × Mem :=
  match memAlloc m sizeofOmap with
  | (none, m) => (none, m)
  | (some addr, m) => (some ⟨addr, .nil, 0, keySize, valSize⟩, m)

/-- An equal key keeps its place and takes the new value. -/
def omapDoSet (cmp : κ → κ → Int) (size : Nat) (key : κ) (value : ν) (node : Tree Int (κ × ν))
    (m : Mem) : Option (Tree Int (κ × ν) × Bool × Bool × Mem) :=
  doInsert cmp Prod.fst (fun d => (d.1, value)) size (key, value) node m

def omapSet (cmp : κ → κ → Int) (map : Omap κ ν) (key : Option κ) (value : Option ν) (m : Mem) :
    Option (Status × Omap κ ν × Mem) :=
  match key, value with
  | some key, some value => do
    let (newRoot, inserted, oom, m) ←
      omapDoSet cmp (omapNodeSize map.keySize map.valSize) key value map.root m
    if oom then pure (.oom, map, m)
    else
      let map := if newRoot.isNull then map else { map with root := newRoot }
      pure (.ok, if inserted then { map with len := map.len + 1 } else map, m)
  | _, _ => some (.invalid, map, m)

def omapGetPtr (cmp : κ → κ → Int) (map : Omap κ ν) (key : Option κ) : Option ν :=
  match key with
  | none => none
  | some key => (treeFind cmp Prod.fst key map.root).map Prod.snd

def omapGet (cmp : κ → κ → Int) (map : Omap κ ν) (key : Option κ) (out : Bool) :
    Status × Option ν :=
  match key with
  | none => (.invalid, none)
  | some key => seqcCopyOut (omapGetPtr cmp map (some key)) out

def omapContains (cmp : κ → κ → Int) (map : Omap κ ν) (key : Option κ) : Bool :=
  decide ((omapGet cmp map key false).1 = .ok)

def omapDoRemove (cmp : κ → κ → Int) (size : Nat) (node : Tree Int (κ × ν)) (key : κ) (m : Mem) :
    Option (Tree Int (κ × ν) × Bool × Mem) := doRemove cmp Prod.fst size node key m

def omapRemove (cmp : κ → κ → Int) (map : Omap κ ν) (key : Option κ) (m : Mem) :
    Option (Status × Omap κ ν × Mem) :=
  match key with
  | none => some (.invalid, map, m)
  | some key => do
    let (root, removed, m) ←
      omapDoRemove cmp (omapNodeSize map.keySize map.valSize) map.root key m
    if removed then pure (.ok, { map with root := root, len := map.len - 1 }, m)
    else pure (.notFound, { map with root := root }, m)

def omapMinKeyPtr (map : Omap κ ν) : Option κ := (minData map.root).map Prod.fst
def omapMaxKeyPtr (map : Omap κ ν) : Option κ := (maxData map.root).map Prod.fst
def omapMinKey (map : Omap κ ν) (out : Bool) : Status × Option κ :=
  seqcCopyOut (omapMinKeyPtr map) out
def omapMaxKey (map : Omap κ ν) (out : Bool) : Status × Option κ :=
  seqcCopyOut (omapMaxKeyPtr map) out

/-- The tail of `omap_min_entry` and `omap_max_entry`: what is written through `key_out`
and `val_out`. -/
def entryOut (entry : Option (κ × ν)) (keyOut valOut : Bool) : Status × Option κ × Option ν :=
  match entry with
  | none => (.notFound, none, none)
  | some (k, v) => (.ok, if keyOut then some k else none, if valOut then some v else none)

def omapMinEntry (map : Omap κ ν) (keyOut valOut : Bool) : Status × Option κ × Option ν :=
  entryOut (minData map.root) keyOut valOut

def omapMaxEntry (map : Omap κ ν) (keyOut valOut : Bool) : Status × Option κ × Option ν :=
  entryOut (maxData map.root) keyOut valOut

def omapLen (map : Omap κ ν) : Nat := map.len
def omapHeight (map : Omap κ ν) : Int := nodeHeight map.root

def omapClear (map : Omap κ ν) (m : Mem) : Omap κ ν × Mem :=
  ({ map with root := .nil, len := 0 },
    freeSubtree (omapNodeSize map.keySize map.valSize) map.root m)

def omapDestroy (map : Omap κ ν) (m : Mem) : Mem :=
  memFree (freeSubtree (omapNodeSize map.keySize map.valSize) map.root m) (some map.addr)
    sizeofOmap

/-! ### Runs -/

inductive OmapOp (κ ν : Type) where
  | set (key : Option κ) (value : Option ν)
  | get (key : Option κ) (out : Bool)
  | getPtr (key : Option κ)
  | contains (key : Option κ)
  | remove (key : Option κ)
  | minKey (out : Bool)
  | maxKey (out : Bool)
  | minEntry (keyOut valOut : Bool)
  | maxEntry (keyOut valOut : Bool)
  | clear

/-- The answer about values, or what is written through `key_out` and `val_out`. -/
inductive OmapAnswer (κ ν : Type) where
  | of (a : Answer ν)
  | entry (st : Status) (key : Option κ) (value : Option ν)

def omapStep (cmp : κ → κ → Int) (op : OmapOp κ ν) (s : Omap κ ν × Mem) :
    Option (OmapAnswer κ ν × Omap κ ν × Mem) :=
  match op with
  | .set key value => do
    let (st, map, m) ← omapSet cmp s.1 key value s.2
    pure (.of (.status st), map, m)
  | .get key out =>
    some (.of (.read (omapGet cmp s.1 key out).1 (omapGet cmp s.1 key out).2), s)
  | .getPtr key => some (.of (.pointee (omapGetPtr cmp s.1 key)), s)
  | .contains key => some (.of (.answer (omapContains cmp s.1 key)), s)
  | .remove key => do
    let (st, map, m) ← omapRemove cmp s.1 key s.2
    pure (.of (.status st), map, m)
  | .minKey out => some (.entry (omapMinKey s.1 out).1 (omapMinKey s.1 out).2 none, s)
  | .maxKey out => some (.entry (omapMaxKey s.1 out).1 (omapMaxKey s.1 out).2 none, s)
  | .minEntry keyOut valOut =>
    let r := omapMinEntry s.1 keyOut valOut
    some (.entry r.1 r.2.1 r.2.2, s)
  | .maxEntry keyOut valOut =>
    let r := omapMaxEntry s.1 keyOut valOut
    some (.entry r.1 r.2.1 r.2.2, s)
  | .clear => some (.of .nothing, omapClear s.1 s.2)

/-- `k` with value `v` is a least key of `g`. -/
def LeastEntry (cmp : κ → κ → Int) (g : κ → Option ν) (k : κ) (v : ν) : Prop :=
  g k = some v ∧ ∀ k' v', g k' = some v' → cmp k k' ≤ 0

def GreatestEntry (cmp : κ → κ → Int) (g : κ → Option ν) (k : κ) (v : ν) : Prop :=
  g k = some v ∧ ∀ k' v', g k' = some v' → cmp k' k ≤ 0

/-- What an ordered map on classes of keys answers; the number counts the requests refused so
far. A new key may find no room, after a refused request. -/
inductive OrderedMapStep (cmp : κ → κ → Int) :
    (κ → Option ν) × Nat → OmapOp κ ν → OmapAnswer κ ν → (κ → Option ν) × Nat → Prop
  | setOk (g n key value) :
      OrderedMapStep cmp (g, n) (.set (some key) (some value)) (.of (.status .ok))
        (insert (sameKey cmp) g key value, n)
  | setOom (g n n' key value) (absent : g key = none) (refused : n < n') :
      OrderedMapStep cmp (g, n) (.set (some key) (some value)) (.of (.status .oom)) (g, n')
  | setInvalid (s key value) (h : key = none ∨ value = none) :
      OrderedMapStep cmp s (.set key value) (.of (.status .invalid)) s
  | getHit (g n key out) {value} (h : g key = some value) :
      OrderedMapStep cmp (g, n) (.get (some key) out)
        (.of (.read .ok (if out then some value else none))) (g, n)
  | getMiss (g n key out) (h : g key = none) :
      OrderedMapStep cmp (g, n) (.get (some key) out) (.of (.read .notFound none)) (g, n)
  | getInvalid (s out) : OrderedMapStep cmp s (.get none out) (.of (.read .invalid none)) s
  | getPtr (g n key) :
      OrderedMapStep cmp (g, n) (.getPtr (some key)) (.of (.pointee (g key))) (g, n)
  | getPtrInvalid (s) : OrderedMapStep cmp s (.getPtr none) (.of (.pointee none)) s
  | contains (g n key) :
      OrderedMapStep cmp (g, n) (.contains (some key)) (.of (.answer (g key).isSome)) (g, n)
  | containsInvalid (s) : OrderedMapStep cmp s (.contains none) (.of (.answer false)) s
  | removeHit (g n key) (h : (g key).isSome) :
      OrderedMapStep cmp (g, n) (.remove (some key)) (.of (.status .ok))
        (erase (sameKey cmp) g key, n)
  | removeMiss (g n key) (h : g key = none) :
      OrderedMapStep cmp (g, n) (.remove (some key)) (.of (.status .notFound)) (g, n)
  | removeInvalid (s) : OrderedMapStep cmp s (.remove none) (.of (.status .invalid)) s
  | minKeyHit (g n out) {k v} (h : LeastEntry cmp g k v) :
      OrderedMapStep cmp (g, n) (.minKey out) (.entry .ok (if out then some k else none) none)
        (g, n)
  | minKeyMiss (g n out) (h : ∀ k, g k = none) :
      OrderedMapStep cmp (g, n) (.minKey out) (.entry .notFound none none) (g, n)
  | maxKeyHit (g n out) {k v} (h : GreatestEntry cmp g k v) :
      OrderedMapStep cmp (g, n) (.maxKey out) (.entry .ok (if out then some k else none) none)
        (g, n)
  | maxKeyMiss (g n out) (h : ∀ k, g k = none) :
      OrderedMapStep cmp (g, n) (.maxKey out) (.entry .notFound none none) (g, n)
  | minEntryHit (g n keyOut valOut) {k v} (h : LeastEntry cmp g k v) :
      OrderedMapStep cmp (g, n) (.minEntry keyOut valOut)
        (.entry .ok (if keyOut then some k else none) (if valOut then some v else none)) (g, n)
  | minEntryMiss (g n keyOut valOut) (h : ∀ k, g k = none) :
      OrderedMapStep cmp (g, n) (.minEntry keyOut valOut) (.entry .notFound none none) (g, n)
  | maxEntryHit (g n keyOut valOut) {k v} (h : GreatestEntry cmp g k v) :
      OrderedMapStep cmp (g, n) (.maxEntry keyOut valOut)
        (.entry .ok (if keyOut then some k else none) (if valOut then some v else none)) (g, n)
  | maxEntryMiss (g n keyOut valOut) (h : ∀ k, g k = none) :
      OrderedMapStep cmp (g, n) (.maxEntry keyOut valOut) (.entry .notFound none none) (g, n)
  | clear (g n) : OrderedMapStep cmp (g, n) .clear (.of .nothing) (empty, n)

structure OmapInv (cmp : κ → κ → Int) (map : Omap κ ν) (g : κ → Option ν) : Prop where
  ascending : Ascending cmp Prod.fst map.root.toList
  balanced : Avl map.root
  counted : map.len = map.root.size
  contents : Represents (sameKey cmp) map.root.toList g

variable {cmp : κ → κ → Int} {map : Omap κ ν} {g : κ → Option ν}

theorem sameKey_true {a b : κ} : sameKey cmp a b = true ↔ cmp a b = 0 := by simp [sameKey]

theorem represents_eq_none (laws : Laws cmp) {xs : List (κ × ν)}
    (rep : Represents (sameKey cmp) xs g) (k : κ) :
    g k = none ↔ ∀ p ∈ xs, cmp k p.1 ≠ 0 := by
  rw [rep.eq_none_iff]
  refine forall₂_congr fun p _ => ?_
  rw [← Bool.not_eq_true, sameKey_true]
  exact not_congr ⟨laws.eq_symm, laws.eq_symm⟩

theorem omapSet_spec (laws : Laws cmp) (inv : OmapInv cmp map g) (key : κ) (value : ν) (m : Mem) :
    ∃ st map' m' g', omapSet cmp map (some key) (some value) m = some (st, map', m') ∧
      OmapInv cmp map' g' ∧
      OrderedMapStep cmp (g, m.refusals) (.set (some key) (some value)) (.of (.status st))
        (g', m'.refusals) ∧
      (st = .oom → map' = map) := by
  obtain ⟨_, run, outcome⟩ := doInsert_spec laws (fun d => (d.1, value))
    (omapNodeSize map.keySize map.valSize) (key, value) map.root m inv.balanced inv.ascending
  have count := inv.counted
  rw [Tree.size_eq] at count
  cases outcome with
  | @oom pre post m' split cut refused =>
    refine ⟨.oom, map, m', g, by simp [omapSet, omapDoSet, run], inv,
      .setOom g _ _ key value ?_ refused, fun _ => rfl⟩
    rw [represents_eq_none laws inv.contents, split]
    exact cut.absent
  | @fresh pre post root m' split cut stored avl _ _ granted =>
    have real := Tree.isNull_of_toList stored
    have rep := inv.contents
    have asc := inv.ascending
    rw [split] at rep asc count
    have absent := (represents_eq_none laws rep key).mpr cut.absent
    refine ⟨.ok, { map with root := root, len := map.len + 1 }, m',
      insert (sameKey cmp) g key value, by simp [omapSet, omapDoSet, run, real],
      ⟨?_, avl, ?_, ?_⟩, ?_, by simp⟩
    · rw [stored]
      exact asc.put laws cut
    · simp only [Tree.size_eq, stored, count, List.length_append, List.length_cons]
      omega
    · rw [stored]
      exact (rep.cons laws.eqLaws absent value).perm laws.eqLaws List.perm_middle.symm
    · rw [granted]
      exact .setOk g _ key value
  | @hit pre post d root split equal stored avl _ =>
    have real := Tree.isNull_of_toList stored
    have rep := inv.contents
    have asc := inv.ascending
    rw [split] at rep asc count
    have cut : Cut cmp Prod.fst d.1 pre post := asc.cut_of_eq laws (laws.self d.1)
    refine ⟨.ok, { map with root := root }, m, _, by simp [omapSet, omapDoSet, run, real],
      ⟨?_, avl, ?_, ?_⟩, .setOk g _ key value, by simp⟩
    · rw [stored]
      exact asc.drop.put laws cut
    · simp only [Tree.size_eq, stored, count, List.length_append, List.length_cons]
    · rw [stored]
      have first := rep.perm laws.eqLaws List.perm_middle
      exact (first.replace laws.eqLaws (sameKey_true.mpr (laws.eq_symm equal)) value).perm
        laws.eqLaws List.perm_middle.symm

theorem omapRemove_spec (laws : Laws cmp) (inv : OmapInv cmp map g) (key : κ) (m : Mem) :
    ∃ st map' m' g', omapRemove cmp map (some key) m = some (st, map', m') ∧
      OmapInv cmp map' g' ∧
      OrderedMapStep cmp (g, m.refusals) (.remove (some key)) (.of (.status st))
        (g', m'.refusals) := by
  obtain ⟨_, run, outcome⟩ := doRemove_spec laws (omapNodeSize map.keySize map.valSize) map.root
    key m inv.balanced inv.ascending
  have count := inv.counted
  rw [Tree.size_eq] at count
  cases outcome with
  | @absent root none_equal same avl _ =>
    refine ⟨.notFound, { map with root := root }, m, g, by simp [omapRemove, omapDoRemove, run],
      ⟨same ▸ inv.ascending, avl, ?_, same ▸ inv.contents⟩, .removeMiss g _ key ?_⟩
    · simp only [Tree.size_eq, same, count]
    · exact (represents_eq_none laws inv.contents key).mpr none_equal
  | @removed pre post d root m' split equal rest avl _ _ quiet =>
    have rep := inv.contents
    rw [split] at rep count
    have first := rep.perm laws.eqLaws List.perm_middle
    have hit := sameKey_true.mpr (laws.eq_symm equal)
    refine ⟨.ok, { map with root := root, len := map.len - 1 }, m', erase (sameKey cmp) g key,
      by simp [omapRemove, omapDoRemove, run], ⟨?_, avl, ?_, ?_⟩, ?_⟩
    · rw [rest]
      exact (split ▸ inv.ascending).drop
    · simp only [Tree.size_eq, rest, count, List.length_append, List.length_cons]
      omega
    · rw [rest]
      exact first.erase laws.eqLaws hit
    · rw [quiet]
      refine .removeHit g _ key ?_
      rw [first.get (List.mem_cons_self ..) hit]
      rfl

theorem omapGetPtr_eq (laws : Laws cmp) (inv : OmapInv cmp map g) (key : κ) :
    omapGetPtr cmp map (some key) = g key := by
  obtain ⟨found, absent⟩ := treeFind_spec laws key map.root inv.ascending
  rw [omapGetPtr]
  cases h : treeFind cmp Prod.fst key map.root with
  | none => exact ((represents_eq_none laws inv.contents key).mpr (absent h)).symm
  | some d =>
    obtain ⟨mem, equal⟩ := found d h
    exact (inv.contents.get mem (sameKey_true.mpr (laws.eq_symm equal))).symm

theorem leastEntry_of_head (laws : Laws cmp) (inv : OmapInv cmp map g) {d : κ × ν}
    (h : minData map.root = some d) : LeastEntry cmp g d.1 d.2 := by
  rw [minData_eq] at h
  obtain ⟨mem, least⟩ := inv.ascending.head_le laws h
  refine ⟨inv.contents.get mem (sameKey_true.mpr (laws.self d.1)), fun k v hk => ?_⟩
  obtain ⟨p, hp, equal, -⟩ := (inv.contents.lookup k v).mp hk
  exact laws.trans _ _ _ (least p hp) (sameKey_true.mp equal).le

theorem greatestEntry_of_getLast (laws : Laws cmp) (inv : OmapInv cmp map g) {d : κ × ν}
    (h : maxData map.root = some d) : GreatestEntry cmp g d.1 d.2 := by
  rw [maxData_eq] at h
  obtain ⟨mem, greatest⟩ := inv.ascending.le_getLast laws h
  refine ⟨inv.contents.get mem (sameKey_true.mpr (laws.self d.1)), fun k v hk => ?_⟩
  obtain ⟨p, hp, equal, -⟩ := (inv.contents.lookup k v).mp hk
  exact laws.trans _ _ _ (laws.eq_symm (sameKey_true.mp equal)).le (greatest p hp)

theorem empty_of_toList (inv : OmapInv cmp map g) (h : map.root.toList = []) (k : κ) :
    g k = none := by
  rw [inv.contents.eq_none_iff, h]
  simp

theorem omapStep_refines (laws : Laws cmp) (op : OmapOp κ ν) (s : Omap κ ν × Mem)
    (g : κ → Option ν) (h : OmapInv cmp s.1 g) :
    ∃ out s' g', omapStep cmp op s = some (out, s') ∧
      OrderedMapStep cmp (g, s.2.refusals) op out (g', s'.2.refusals) ∧ OmapInv cmp s'.1 g' := by
  obtain ⟨map, m⟩ := s
  cases op with
  | set key value =>
    cases key with
    | none => exact ⟨_, _, g, rfl, .setInvalid _ none value (.inl rfl), h⟩
    | some key =>
      cases value with
      | none => exact ⟨_, _, g, rfl, .setInvalid _ (some key) none (.inr rfl), h⟩
      | some value =>
        obtain ⟨st, map', m', g', run, inv', spec, -⟩ := omapSet_spec laws h key value m
        exact ⟨_, (map', m'), g', by simp [omapStep, run], spec, inv'⟩
  | get key out =>
    cases key with
    | none => exact ⟨_, _, g, rfl, .getInvalid _ out, h⟩
    | some key =>
      refine ⟨_, _, g, rfl, ?_, h⟩
      rw [omapGet, omapGetPtr_eq laws h]
      cases hg : g key with
      | none => exact .getMiss g _ key out hg
      | some v => exact .getHit g _ key out hg
  | getPtr key =>
    cases key with
    | none => exact ⟨_, _, g, rfl, .getPtrInvalid _, h⟩
    | some key => exact ⟨_, _, g, rfl, omapGetPtr_eq laws h key ▸ .getPtr g _ key, h⟩
  | contains key =>
    cases key with
    | none => exact ⟨_, _, g, rfl, .containsInvalid _, h⟩
    | some key =>
      have same : omapContains cmp map (some key) = (g key).isSome := by
        rw [omapContains, omapGet, omapGetPtr_eq laws h]
        cases g key <;> simp [seqcCopyOut]
      exact ⟨_, _, g, rfl, same ▸ .contains g _ key, h⟩
  | remove key =>
    cases key with
    | none => exact ⟨_, _, g, rfl, .removeInvalid _, h⟩
    | some key =>
      obtain ⟨st, map', m', g', run, inv', spec⟩ := omapRemove_spec laws h key m
      exact ⟨_, (map', m'), g', by simp [omapStep, run], spec, inv'⟩
  | minKey out =>
    refine ⟨_, _, g, rfl, ?_, h⟩
    rw [omapMinKey, omapMinKeyPtr]
    cases hd : minData map.root with
    | none =>
      rw [minData_eq, List.head?_eq_none_iff] at hd
      exact .minKeyMiss g _ out (empty_of_toList h hd)
    | some d => exact .minKeyHit g _ out (leastEntry_of_head laws h hd)
  | maxKey out =>
    refine ⟨_, _, g, rfl, ?_, h⟩
    rw [omapMaxKey, omapMaxKeyPtr]
    cases hd : maxData map.root with
    | none =>
      rw [maxData_eq, List.getLast?_eq_none_iff] at hd
      exact .maxKeyMiss g _ out (empty_of_toList h hd)
    | some d => exact .maxKeyHit g _ out (greatestEntry_of_getLast laws h hd)
  | minEntry keyOut valOut =>
    refine ⟨_, _, g, rfl, ?_, h⟩
    rw [omapMinEntry]
    cases hd : minData map.root with
    | none =>
      rw [minData_eq, List.head?_eq_none_iff] at hd
      exact .minEntryMiss g _ keyOut valOut (empty_of_toList h hd)
    | some d => exact .minEntryHit g _ keyOut valOut (leastEntry_of_head laws h hd)
  | maxEntry keyOut valOut =>
    refine ⟨_, _, g, rfl, ?_, h⟩
    rw [omapMaxEntry]
    cases hd : maxData map.root with
    | none =>
      rw [maxData_eq, List.getLast?_eq_none_iff] at hd
      exact .maxEntryMiss g _ keyOut valOut (empty_of_toList h hd)
    | some d => exact .maxEntryHit g _ keyOut valOut (greatestEntry_of_getLast laws h hd)
  | clear =>
    refine ⟨.of .nothing, omapClear map m, empty, rfl, ?_, List.Pairwise.nil, trivial, rfl,
      represents_nil⟩
    simp only [omapClear, freeSubtree_refusals]
    exact .clear g _

theorem omapCreate_spec (cmp : κ → κ → Int) {keySize valSize : Nat} {m m' : Mem}
    (h : omapCreate κ ν keySize valSize m = (some map, m')) : OmapInv cmp map empty := by
  unfold omapCreate at h
  rcases hm : memAlloc m sizeofOmap with ⟨_ | addr, m₁⟩
  · simp [hm] at h
  simp only [hm, Prod.mk.injEq, Option.some.injEq] at h
  obtain ⟨rfl, rfl⟩ := h
  exact ⟨List.Pairwise.nil, trivial, rfl, represents_nil⟩

theorem omap_runs (laws : Laws cmp) {keySize valSize : Nat} {m₀ m₁ : Mem} {map₀ : Omap κ ν}
    (created : omapCreate κ ν keySize valSize m₀ = (some map₀, m₁)) (ops : List (OmapOp κ ν)) :
    ∃ outs map m g, run (omapStep cmp) ops (map₀, m₁) = some (outs, (map, m)) ∧
      SpecRun (OrderedMapStep cmp) (empty, m₁.refusals) ops outs (g, m.refusals) ∧
      OmapInv cmp map g := by
  obtain ⟨outs, ⟨map, m⟩, ⟨g, _⟩, ran, spec, inv, rfl⟩ := run_refines (omapStep cmp)
    (OrderedMapStep cmp) (R := fun s g => OmapInv cmp s.1 g.1 ∧ s.2.refusals = g.2)
    (fun op s g h => by
      obtain ⟨g, _⟩ := g
      obtain ⟨inv, rfl⟩ := h
      obtain ⟨out, s', g', step, allowed, inv'⟩ := omapStep_refines laws op s g inv
      exact ⟨out, s', (g', _), step, allowed, inv', rfl⟩)
    ops (s := (map₀, m₁)) (g := (empty, m₁.refusals)) ⟨omapCreate_spec cmp created, rfl⟩
  exact ⟨outs, map, m, g, ran, spec, inv⟩

/-- Every run from `omap_create` is one of an ordered map, its tree ascends strictly
and is balanced, `len` counts the keys, and an `omap_set` that runs out of memory
changes nothing. -/
theorem omap_run_refines (laws : Laws cmp) {keySize valSize : Nat} {m₀ m₁ : Mem} {map₀ : Omap κ ν}
    (created : omapCreate κ ν keySize valSize m₀ = (some map₀, m₁)) (ops : List (OmapOp κ ν)) :
    ∃ outs map m g, run (omapStep cmp) ops (map₀, m₁) = some (outs, (map, m)) ∧
      SpecRun (OrderedMapStep cmp) (empty, m₁.refusals) ops outs (g, m.refusals) ∧
      Ascending cmp Prod.fst map.root.toList ∧ Avl map.root ∧
      Represents (sameKey cmp) map.root.toList g ∧ omapLen map = map.root.toList.length ∧
      ∀ key value map' m', omapSet cmp map key value m = some (.oom, map', m') → map' = map := by
  obtain ⟨outs, map, m, g, ran, spec, inv⟩ := omap_runs laws created ops
  refine ⟨outs, map, m, g, ran, spec, inv.ascending, inv.balanced, inv.contents,
    inv.counted.trans map.root.size_eq, fun key value map' m' oom => ?_⟩
  cases key with
  | none => simp [omapSet] at oom
  | some key =>
    cases value with
    | none => simp [omapSet] at oom
    | some value =>
      obtain ⟨st, map₁, m₁, g', set, -, -, same⟩ := omapSet_spec laws inv key value m
      simp only [set, Option.some.injEq, Prod.mk.injEq] at oom
      obtain ⟨rfl, rfl, rfl⟩ := oom
      exact same rfl

theorem omap_run_refines_ints :
    ∃ outs map m g, run (omapStep (ν := Nat) intCmp)
        [.set (some 3) (some 30), .set (some 1) (some 10), .set (some 3) (some 31),
          .remove (some 1), .minEntry true true]
        (⟨0, .nil, 0, 8, 8⟩, ⟨refusingOnce 2, 1, [.alloc 0 56]⟩) = some (outs, (map, m)) ∧
      SpecRun (OrderedMapStep intCmp) (empty, 0)
        [.set (some 3) (some 30), .set (some 1) (some 10), .set (some 3) (some 31),
          .remove (some 1), .minEntry true true] outs (g, 1) := by
  have created : omapCreate Int Nat 8 8 (.start (refusingOnce 2)) =
      (some ⟨0, .nil, 0, 8, 8⟩, ⟨refusingOnce 2, 1, [.alloc 0 56]⟩) := rfl
  obtain ⟨outs, map, m, g, ran, spec, -⟩ := omap_run_refines intCmp_laws created
    [.set (some 3) (some 30), .set (some 1) (some 10), .set (some 3) (some 31), .remove (some 1),
      .minEntry true true]
  obtain ⟨outs', map', m', ran', once⟩ : ∃ outs map m, run (omapStep intCmp)
      [.set (some 3) (some 30), .set (some 1) (some 10), .set (some 3) (some 31),
        .remove (some 1), .minEntry true true]
      (⟨0, .nil, 0, 8, 8⟩, ⟨refusingOnce 2, 1, [.alloc 0 56]⟩) =
        some (outs, ((map : Omap Int Nat), m)) ∧ m.refusals = 1 := ⟨_, _, _, rfl, rfl⟩
  obtain ⟨-, same⟩ := Prod.mk.inj (Option.some.inj (ran.symm.trans ran'))
  obtain ⟨-, rfl⟩ := Prod.mk.inj same
  exact ⟨outs, map, m, g, ran, once ▸ spec⟩

end Seqc
