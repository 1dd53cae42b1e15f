import Seqc.Lib.Sharing
import Seqc.Drains
import Seqc.Builder
import Seqc.Stack
import Seqc.Owners

/-! Programs with any number of collections of any kinds, and builders, over one allocator:
calls of different objects interleave in any order, and requests are refused at any points. -/

namespace Seqc
open Comparator RobinHood Runs Sharing

variable {α κ ν : Type} {m m' : Mem}

/-- The allocator, from which the objects get blocks; they may be refused requests. -/
def memory : Resource Mem Blocks Nat where
  Trades := Mem.Trades
  refl := Mem.Trades.refl
  trans := Mem.Trades.trans
  frame h kept := h.within kept rfl rfl
  tally := Mem.refusals

/-- A creation makes a certain value, or is refused a request, or refuses its arguments. -/
def Opens {γ : Type} (fits : Prop) (start : γ) (n : Nat) (a : Option γ) (n' : Nat) : Prop :=
  match a with
  | none => n < n' ∨ ¬fits ∧ n' = n
  | some a => a = start ∧ n' = n

theorem memAlloc_less {size : Nat} (h : memAlloc m size = (none, m')) :
    m.refusals < m'.refusals := by
  rw [memAlloc_none h]
  exact Nat.lt_succ_self _

/-- A creation that requests a struct and nothing else. -/
theorem struct_creates {σ γ : Type} {create : Mem → Option σ × Mem} {owned : σ → Blocks}
    {Rep : σ → γ → Prop} {start : γ} (size : Nat) (make : Nat → σ)
    (requests : ∀ m, create m = ((memAlloc m size).1.map make, (memAlloc m size).2))
    (one : ∀ addr, owned (make addr) = {(addr, size)})
    (fresh : ∀ {m s m'}, create m = (some s, m') → Rep s start) (m : Mem) :
    memory.Trades m 0 (create m).2 ((create m).1.elim 0 owned) ∧
      ∃ a, Option.Rel (fun s a => Rep s a) (create m).1 a ∧
        Opens True start (memory.tally m) a (memory.tally (create m).2) := by
  have made := requests m
  rcases hm : memAlloc m size with ⟨_ | addr, m'⟩ <;> rw [hm] at made <;> rw [made]
  · exact ⟨memAlloc_refused hm, none, .none, .inl (memAlloc_less hm)⟩
  · refine ⟨?_, some start, .some (fresh made), rfl, (memAlloc_some hm).2.2⟩
    simp only [Option.map_some, Option.elim_some, one]
    exact memAlloc_trades hm

/-! ### Tables -/

theorem hashmapDestroy_refusals (map : Hashmap κ ν) (m : Mem) :
    (hashmapDestroy map m).refusals = m.refusals := by
  simp only [hashmapDestroy, memFree_refusals]
  induction items map.cap map.buckets generalizing m with
  | nil => rfl
  | cons e es ih => simp only [List.foldl_cons, ih, freeEntry, memFree_refusals]

/-- `hashmap_t` over lawful keys: a map on their classes. -/
def hashmapKind (ν : Type) (ndebug : Bool) {f : KeyFns κ} (law : f.Lawful)
    (keySize valSize : Nat) : Kind memory where
  Op := HashmapOp κ ν
  Ans := Answer ν
  State := Hashmap κ ν
  Abs := κ → Option ν
  create := hashmapCreate κ ν keySize valSize
  step := hashmapStep ndebug f
  destroy map m := some (hashmapDestroy map m)
  owned := hashmapBlocks
  Rep map m g := MapState f (map, m) g
  opens := Opens (keySize ≠ 0 ∧ valSize ≠ 0) ClassMap.empty
  allows := MapStep f.eq
  lasts rep _ := rep
  creates m := by
    rcases created : hashmapCreate κ ν keySize valSize m with ⟨_ | map, m'⟩
    · refine ⟨hashmapCreate_trades created, none, .none, ?_⟩
      unfold hashmapCreate at created
      split at created
      · obtain ⟨-, rfl⟩ := Prod.mk.inj created
        exact .inr ⟨by omega, rfl⟩
      split at created
      · rename_i hm
        obtain ⟨-, rfl⟩ := Prod.mk.inj created
        exact .inl (memAlloc_less hm)
      split at created
      · rename_i addr m₁ hm _ m₂ hb
        obtain ⟨-, rfl⟩ := Prod.mk.inj created
        refine .inl (show m.refusals < (memFree m₂ (some addr) sizeofHashmap).refusals from ?_)
        rw [memFree_refusals, ← (memAlloc_some hm).2.2]
        exact memAlloc_less hb
      · simp at created
    · obtain ⟨-, -, quiet⟩ := hashmapCreate_spec f created
      exact ⟨hashmapCreate_trades created, some ClassMap.empty,
        .some (hashmapCreate_state created), rfl, quiet⟩
  steps op {map m g} rep := by
    obtain ⟨out, ⟨map', m'⟩, g', step, allowed, rep'⟩ :=
      hashmapStep_refines ndebug law op (map, m) g rep
    obtain ⟨⟨k, inv⟩, -⟩ := rep
    refine ⟨out, map', m', g', step, allowed, rep', ?_⟩
    obtain ⟨_, _, checked, -⟩ := hashmapStep_inv false op (map, m) ⟨k, inv⟩
    have same : hashmapStep false f op (map, m) = some (out, map', m') := by
      cases ndebug with
      | false => exact step
      | true => rw [checked, ← hashmapStep_ndebug op _ _ checked, step]
    exact hashmapStep_trades same
  destroys {map m g} _ := ⟨_, rfl, hashmapDestroy_trades map m, hashmapDestroy_refusals map m⟩

theorem setDestroy_refusals (s : SetT κ) (m : Mem) :
    (setDestroy s m).refusals = m.refusals := by
  have freed (bs : List (Block κ)) (m : Mem) :
      (bs.foldl (fun m b => memFree m (some b.addr) s.elemSize) m).refusals = m.refusals := by
    induction bs generalizing m with
    | nil => rfl
    | cons b bs ih => simp only [List.foldl_cons, ih, memFree_refusals]
  rw [setDestroy, memFree_refusals]
  cases s.bucketsAddr with
  | none => rfl
  | some buckets => simp only [memFree_refusals, freed]

/-- `set_t` over lawful keys: a set of their classes. -/
def setKind (ndebug : Bool) {f : KeyFns κ} (law : f.Lawful) (elemSize : Nat) : Kind memory where
  Op := SetOp κ
  Ans := Answer κ
  State := SetT κ
  Abs := Multiset κ
  create := setCreate κ elemSize
  step := setStep ndebug f
  destroy s m := some (setDestroy s m)
  owned := setBlocks
  Rep s _ g := SetState f s ∧ SetDistinct f s ∧ g = (s.members : Multiset κ)
  opens := Opens True 0
  allows := ClassSetStep f.eq
  lasts rep _ := rep
  creates := struct_creates sizeofSet (fun addr => ⟨addr, none, fun _ => none, 0, 0, elemSize, 0⟩)
    (fun m => by unfold setCreate; rcases memAlloc m sizeofSet with ⟨_ | _, _⟩ <;> rfl)
    (fun addr => by simp only [setBlocks, SetT.copies, stored_empty, Multiset.zero_bind,
      bufferBlocks, Option.elim_none, add_zero])
    (fun created => by
      obtain ⟨fresh, -⟩ := setCreate_spec created
      exact ⟨.fresh fresh, ⟨by simp [fresh.entries_eq], by simp [fresh.entries_eq, fresh.len_eq]⟩,
        by simp [SetT.members, fresh.entries_eq]⟩)
  steps op {s m g} rep := by
    obtain ⟨state, distinct, rfl⟩ := rep
    obtain ⟨out, ⟨s', m'⟩, ⟨g', n'⟩, step, allowed, state', distinct', same⟩ :=
      @setStep_refines κ f ndebug law op (s, m) (_, m.refusals) ⟨state, distinct, rfl⟩
    obtain ⟨rfl, rfl⟩ := Prod.mk.inj same
    refine ⟨out, s', m', _, step, allowed, ⟨state', distinct', rfl⟩, ?_⟩
    obtain ⟨_, _, checked, -⟩ := setStep_inv false op (s, m) state
    have same : setStep false f op (s, m) = some (out, s', m') := by
      cases ndebug with
      | false => exact step
      | true => rw [checked, ← setStep_ndebug op _ _ checked, step]
    exact setStep_trades state same
  destroys {s m g} rep :=
    ⟨_, rfl, setDestroy_trades rep.1.no_buckets.mpr m, setDestroy_refusals s m⟩

/-! ### Trees -/

/-- `bstree_t`: a finite set in ascending order. -/
def bstreeKind {cmp : α → α → Int} (laws : Laws cmp) (elemSize : Nat) : Kind memory where
  Op := AvlOp α
  Ans := Answer α
  State := Bstree α
  Abs := List α
  create := bstreeCreate α elemSize
  step := bstreeStep cmp
  destroy t m := some (bstreeDestroy t m)
  owned := bstreeBlocks
  Rep t _ xs := BstreeInv cmp t ∧ xs = t.root.toList
  opens := Opens True []
  allows := OrderedSetStep cmp
  lasts rep _ := rep
  creates := struct_creates sizeofBstree (fun addr => ⟨addr, .nil, 0, elemSize⟩)
    (fun m => by unfold bstreeCreate; rcases memAlloc m sizeofBstree with ⟨_ | _, _⟩ <;> rfl)
    (fun addr => by simp only [bstreeBlocks, Tree.blocks_nil, add_zero])
    (fun created => ⟨(bstreeCreate_spec cmp created).1, (bstreeCreate_spec cmp created).2.symm⟩)
  steps op {t m xs} rep := by
    obtain ⟨inv, rfl⟩ := rep
    obtain ⟨out, ⟨t', m'⟩, _, step, allowed, inv', rfl⟩ :=
      bstreeStep_refines laws op (t, m) (_, m.refusals) ⟨inv, rfl⟩
    obtain ⟨_, _, again, traded⟩ := bstreeStep_keeps cmp op (t, m)
    obtain ⟨rfl, rfl⟩ := Prod.mk.inj (Option.some.inj (step.symm.trans again))
    exact ⟨out, t', m', _, step, allowed, ⟨inv', rfl⟩, traded⟩
  destroys {t m xs} _ := ⟨_, rfl, trades_destroy .., by
    simp only [memory, bstreeDestroy, memFree_refusals, freeSubtree_refusals]⟩

/-- `avl_t`: a finite set in ascending order. -/
def avlKind {cmp : α → α → Int} (laws : Laws cmp) (elemSize : Nat) : Kind memory where
  Op := AvlOp α
  Ans := Answer α
  State := AvlT α
  Abs := List α
  create := avlCreate α elemSize
  step := avlStep cmp
  destroy t m := some (avlDestroy t m)
  owned := avlBlocks
  Rep t _ xs := AvlInv cmp t ∧ xs = t.root.toList
  opens := Opens True []
  allows := OrderedSetStep cmp
  lasts rep _ := rep
  creates := struct_creates sizeofAvl (fun addr => ⟨addr, .nil, 0, elemSize⟩)
    (fun m => by unfold avlCreate; rcases memAlloc m sizeofAvl with ⟨_ | _, _⟩ <;> rfl)
    (fun addr => by simp only [avlBlocks, Tree.blocks_nil, add_zero])
    (fun created => ⟨(avlCreate_spec cmp created).1, (avlCreate_spec cmp created).2.symm⟩)
  steps op {t m xs} rep := by
    obtain ⟨inv, rfl⟩ := rep
    obtain ⟨out, ⟨t', m'⟩, _, step, allowed, inv', rfl⟩ :=
      avlStep_refines laws op (t, m) (_, m.refusals) ⟨inv, rfl⟩
    obtain ⟨_, _, again, -, traded⟩ := avlStep_keeps cmp op (t, m) inv.balanced
    obtain ⟨rfl, rfl⟩ := Prod.mk.inj (Option.some.inj (step.symm.trans again))
    exact ⟨out, t', m', _, step, allowed, ⟨inv', rfl⟩, traded⟩
  destroys {t m xs} _ := ⟨_, rfl, trades_destroy .., by
    simp only [memory, avlDestroy, memFree_refusals, freeSubtree_refusals]⟩

/-- `omap_t`: a map on the classes of its keys, with least and greatest ones. -/
def omapKind (ν : Type) {cmp : κ → κ → Int} (laws : Laws cmp) (keySize valSize : Nat) :
    Kind memory where
  Op := OmapOp κ ν
  Ans := OmapAnswer κ ν
  State := Omap κ ν
  Abs := κ → Option ν
  create := omapCreate κ ν keySize valSize
  step := omapStep cmp
  destroy map m := some (omapDestroy map m)
  owned := omapBlocks
  Rep map _ g := OmapInv cmp map g
  opens := Opens True ClassMap.empty
  allows := OrderedMapStep cmp
  lasts rep _ := rep
  creates := struct_creates sizeofOmap (fun addr => ⟨addr, .nil, 0, keySize, valSize⟩)
    (fun m => by unfold omapCreate; rcases memAlloc m sizeofOmap with ⟨_ | _, _⟩ <;> rfl)
    (fun addr => by simp only [omapBlocks, Tree.blocks_nil, add_zero])
    (fun created => omapCreate_spec cmp created)
  steps op {map m g} inv := by
    obtain ⟨out, ⟨map', m'⟩, g', step, allowed, inv'⟩ := omapStep_refines laws op (map, m) g inv
    obtain ⟨_, _, again, -, traded⟩ := omapStep_keeps cmp op (map, m) inv.balanced
    obtain ⟨rfl, rfl⟩ := Prod.mk.inj (Option.some.inj (step.symm.trans again))
    exact ⟨out, map', m', g', step, allowed, inv', traded⟩
  destroys {map m g} _ := ⟨_, rfl, trades_destroy .., by
    simp only [memory, omapDestroy, memFree_refusals, freeSubtree_refusals]⟩

/-! ### Lists and rings -/

/-- A list of nodes, at its own addresses. -/
def linkedKind {β : Type} (mk : Option Nat → Option Nat → α → β) (next : β → Option Nat)
    (fits : ∀ p q x, next (mk p q x) = q)
    (step : LinkedOp α → ListState β → Option (Answer α × ListState β))
    (spec : ∀ op s items, LinkedInv mk s items → ∃ out s' items',
      step op s = some (out, s') ∧ LinkedTo mk op s items out s' items') (elemSize : Nat) :
    Kind memory where
  Op := LinkedOp α
  Ans := Answer α
  State := ListState β
  Abs := List (Nat × α)
  create := linkedCreate β elemSize
  step op s := (step op { s.1 with mem := s.2 }).map fun r => (r.1, r.2, r.2.mem)
  destroy s m := linkedDestroy next { s with mem := m }
  owned := linkedBlocks next
  Rep s m items := LinkedInv mk { s with mem := m } items
  opens := Opens True []
  allows := LinkedStep
  lasts rep traded := rep.atMem traded.later.requests_le
  creates m := by
    rcases created : linkedCreate β elemSize m with ⟨_ | s, m'⟩
    · unfold linkedCreate at created
      split at created
      · rename_i hm
        obtain ⟨-, rfl⟩ := Prod.mk.inj created
        exact ⟨memAlloc_refused hm, none, .none, .inl (memAlloc_less hm)⟩
      · simp at created
    · obtain ⟨inv, rfl, trades, -⟩ := linkedCreate_inv mk created
      refine ⟨?_, some [], .some inv, rfl, ?_⟩
      · rw [Option.elim_some, linkedBlocks_eq fits inv]
        exact trades
      · unfold linkedCreate at created
        split at created
        · simp at created
        · rename_i hm
          obtain ⟨-, same⟩ := Prod.mk.inj created
          exact same ▸ (memAlloc_some hm).2.2
  steps op {s m items} inv := by
    obtain ⟨out, s', items', call, moved⟩ := spec op { s with mem := m } items inv
    refine ⟨out, s', s'.mem, items', by rw [call]; rfl, moved.step, moved.inv, ?_⟩
    change m.Trades (linkedBlocks next { s with mem := m }) s'.mem (linkedBlocks next s')
    rw [linkedBlocks_eq fits inv, linkedBlocks_eq fits moved.inv, moved.addr]
    exact moved.trades.within {(s.addr, sizeofList)} (add_comm _ _) (add_comm _ _)
  destroys {s m items} inv := by
    obtain ⟨m', destroyed, freed⟩ := linkedDestroy_trades fits inv
    refine ⟨m', destroyed, freed, ?_⟩
    obtain ⟨s', cleared, moved⟩ := linkedClear_spec next fits inv
    have quiet : s'.mem.refusals = m.refusals := by
      have step := moved.step
      generalize hn : s'.mem.refusals = n' at step
      cases step
      rfl
    rw [linkedDestroy, cleared] at destroyed
    obtain rfl := Option.some.inj destroyed
    exact (memFree_refusals _ _ _).trans quiet

/-- `list_t`. -/
def listKind (α : Type) (elemSize : Nat) : Kind memory :=
  linkedKind (α := α) ListNode.linked ListNode.next (fun _ _ _ => rfl) listStep
    (fun op _ _ inv => listStep_spec op inv) elemSize

/-- `dlist_t`. -/
def dlistKind (α : Type) (elemSize : Nat) : Kind memory :=
  linkedKind (α := α) DlistNode.mk DlistNode.next (fun _ _ _ => rfl) dlistStep
    (fun op _ _ inv => dlistStep_spec op inv) elemSize

/-- `queue_t`. -/
def queueKind (α : Type) (elemSize : Nat) : Kind memory where
  Op := QueueOp α
  Ans := DequeAnswer α
  State := Option (Queue α)
  Abs := List α
  create m := ((queueCreate α elemSize m).1.map some, (queueCreate α elemSize m).2)
  step := queueStep
  destroy q m := some (queueDestroy q m)
  owned := queueBlocks
  Rep q _ xs := ∃ t, q = some t ∧ QueueInv t xs
  opens := Opens True []
  allows g op out g' := DequeStep g op.onDeque out g'
  lasts rep _ := rep
  creates := struct_creates sizeofQueue
    (fun addr => some ⟨addr, none, fun _ => none, 0, 0, 0, elemSize⟩)
    (fun m => by unfold queueCreate; rcases memAlloc m sizeofQueue with ⟨_ | _, _⟩ <;> rfl)
    (fun addr => by simp only [queueBlocks, bufferBlocks, Option.elim_none, add_zero])
    (fun {m s m'} created => by
      obtain ⟨made, -⟩ := Prod.mk.inj created
      obtain ⟨t, here, rfl⟩ := Option.map_eq_some_iff.mp made
      exact ⟨t, rfl, queueCreate_spec (Prod.ext here rfl)⟩)
  steps op {q m xs} rep := by
    obtain ⟨t, rfl, inv⟩ := rep
    obtain ⟨out, ⟨q', m'⟩, ⟨xs', n'⟩, step, allowed, t', rfl, inv', rfl⟩ :=
      queueStep_refines op (some t, m) (xs, m.refusals) ⟨t, rfl, inv, rfl⟩
    exact ⟨out, _, m', xs', step, allowed, ⟨t', rfl, inv'⟩, queueStep_trades step⟩
  destroys {q m xs} _ := by
    refine ⟨_, rfl, queueDestroy_trades q m, ?_⟩
    cases q with
    | none => rfl
    | some q => cases hb : q.buf <;> simp [memory, queueDestroy, hb]

/-- `ringbuf_t`. -/
def ringbufKind (α : Type) (elemSize : Nat) : Kind memory where
  Op := DequeOp α
  Ans := DequeAnswer α
  State := Option (Ringbuf α)
  Abs := List α
  create m := ((ringbufCreate α elemSize m).1.map some, (ringbufCreate α elemSize m).2)
  step := ringbufStep
  destroy r m := some (ringbufDestroy r m)
  owned := ringbufBlocks
  Rep r _ xs := ∃ t, r = some t ∧ RingbufInv t xs
  opens := Opens True []
  allows := DequeStep
  lasts rep _ := rep
  creates := struct_creates sizeofRingbuf
    (fun addr => some ⟨addr, none, fun _ => none, 0, 0, 0, elemSize⟩)
    (fun m => by unfold ringbufCreate; rcases memAlloc m sizeofRingbuf with ⟨_ | _, _⟩ <;> rfl)
    (fun addr => by simp only [ringbufBlocks, bufferBlocks, Option.elim_none, add_zero])
    (fun {m s m'} created => by
      obtain ⟨made, -⟩ := Prod.mk.inj created
      obtain ⟨t, here, rfl⟩ := Option.map_eq_some_iff.mp made
      exact ⟨t, rfl, ringbufCreate_spec (Prod.ext here rfl)⟩)
  steps op {r m xs} rep := by
    obtain ⟨t, rfl, inv⟩ := rep
    obtain ⟨out, ⟨r', m'⟩, ⟨xs', n'⟩, step, allowed, t', rfl, inv', rfl⟩ :=
      ringbufStep_refines op (some t, m) (xs, m.refusals) ⟨t, rfl, inv, rfl⟩
    exact ⟨out, _, m', xs', step, allowed, ⟨t', rfl, inv'⟩, ringbufStep_trades step⟩
  destroys {r m xs} _ := by
    refine ⟨_, rfl, ringbufDestroy_trades r m, ?_⟩
    cases r with
    | none => rfl
    | some r => cases hb : r.data <;> simp [memory, ringbufDestroy, hb]

/-! ### Over a vector -/

/-- `stack_t`. -/
def stackKind (α : Type) (elemSize : Nat) : Kind memory where
  Op := StackOp α
  Ans := DequeAnswer α
  State := Option (Stack α)
  Abs := List α
  create m := ((stackCreate α elemSize m).1.map some, (stackCreate α elemSize m).2)
  step := stackStep
  destroy s m := some (stackDestroy s m)
  owned := stackBlocks
  Rep s m xs := StackSound s m ∧ ∃ t, s = some t ∧ t.contents = xs
  opens := Opens (elemSize ≠ 0) []
  allows g op out g' := DequeStep g op.onDeque out g'
  lasts rep traded := ⟨fun t ht v hv => (rep.1 t ht v hv).later traded.later.requests_le, rep.2⟩
  creates m := by
    rcases created : stackCreate α elemSize m with ⟨_ | s, m'⟩
    · obtain ⟨trades, -⟩ := stackCreate_spec created
      exact ⟨trades, none, .none, stackCreate_fails created⟩
    · obtain ⟨trades, sound, empty⟩ := stackCreate_spec created
      exact ⟨trades, some [], .some ⟨sound, s, rfl, empty s rfl⟩, rfl, stackCreate_quiet created⟩
  steps op {s m xs} rep := by
    obtain ⟨sound, t, rfl, rfl⟩ := rep
    obtain ⟨out, ⟨s', m'⟩, ⟨xs', n'⟩, step, allowed, t', rfl, rfl, rfl⟩ :=
      stackStep_refines op (some t, m) (_, m.refusals) ⟨t, rfl, rfl, rfl⟩
    obtain ⟨sound', traded⟩ := stackStep_trades sound step
    exact ⟨out, _, m', _, step, allowed, ⟨sound', t', rfl, rfl⟩, traded⟩
  destroys {s m xs} _ := by
    refine ⟨_, rfl, stackDestroy_trades s m, ?_⟩
    cases s with
    | none => rfl
    | some s => simp [memory, stackDestroy]

/-- `pqueue_t` with the slices drained from it. It may lack its vector, if that was refused. -/
def pqueueKind {cmp : α → α → Int} (laws : Laws cmp) (elemSize : Nat) : Kind memory where
  Op := PqueueCall α
  Ans := PqueueReply α
  State := Pqueue α × List (Slice α)
  Abs := Bool × Multiset α
  create m := ((pqueueCreate α elemSize m).1.map fun q => (q, []), (pqueueCreate α elemSize m).2)
  step := pqueueCall cmp
  destroy s m := some (s.2.foldl (fun m s => sliceFree s m) (pqueueDestroy (some s.1) m))
  owned s := pqueueBlocks s.1 + slicesBlocks s.2
  Rep s m g := PqueueSound s.1 m ∧ s.1.data.isSome = g.1 ∧ Heap.Ordered cmp s.1.contents ∧
    g.2 = (s.1.contents : Multiset α)
  opens n a n' := match a with
    | none => n < n'
    | some g => g.2 = 0 ∧ n ≤ n' ∧ (n' = n → elemSize ≠ 0 → g.1 = true)
  allows g call out g' :=
    g'.1.1 = g.1.1 ∧ PqueueCalled cmp g.1.1 (g.1.2, g.2) call out (g'.1.2, g'.2)
  lasts rep traded := ⟨fun v hv => (rep.1 v hv).later traded.later.requests_le, rep.2⟩
  creates m := by
    rcases created : pqueueCreate α elemSize m with ⟨_ | q, m'⟩
    · obtain ⟨trades, -⟩ := pqueueCreate_trades created
      refine ⟨trades, none, .none, ?_⟩
      unfold pqueueCreate at created
      split at created
      · rename_i hm
        obtain ⟨-, rfl⟩ := Prod.mk.inj created
        exact memAlloc_less hm
      · simp at created
    · obtain ⟨trades, sound⟩ := pqueueCreate_trades created
      obtain ⟨empty, more, real⟩ := pqueueCreate_spec created
      refine ⟨?_, some (q.data.isSome, 0), .some ⟨sound q rfl, rfl, empty ▸ ordered_nil,
        by simp [empty]⟩, rfl, more, real⟩
      exact trades.within 0 (add_zero _).symm rfl
  steps call {s m g} rep := by
    obtain ⟨live, S⟩ := g
    obtain ⟨sound, real, ordered, rfl⟩ := rep
    obtain ⟨out, ⟨⟨q', held'⟩, m'⟩, ⟨S', n'⟩, step, allowed, real', ordered', same⟩ :=
      pqueueCall_refines laws live call (s, m) (_, m.refusals) ⟨real, ordered, rfl⟩
    obtain ⟨rfl, rfl⟩ := Prod.mk.inj same
    obtain ⟨traded, sound'⟩ := pqueueCall_trades sound step
    exact ⟨out, (q', held'), m', (live, (q'.contents : Multiset α)), step, ⟨rfl, allowed⟩,
      ⟨sound', real', ordered', rfl⟩, traded⟩
  destroys {s m g} _ := by
    refine ⟨_, rfl, ((pqueueDestroy_trades s.1 m).within (slicesBlocks s.2) rfl
      (zero_add _).symm).trans (sliceFree_all s.2 _), ?_⟩
    have freed (held : List (Slice α)) (m : Mem) :
        (held.foldl (fun m s => sliceFree s m) m).refusals = m.refusals := by
      induction held generalizing m with
      | nil => rfl
      | cons s held ih => simp only [List.foldl_cons, ih, sliceFree_refusals]
    simp [memory, freed, pqueueDestroy]

/-- `strbuf_t` with the strings copied out of it. -/
def strbufKind : Kind memory where
  Op := BuilderCall
  Ans := BuilderReply
  State := Strbuf × List Str
  Abs := List UInt8
  create m := ((strbufCreate m).1.map fun sb => (sb, []), (strbufCreate m).2)
  step := builderCall
  destroy s m := some (s.2.foldl (fun m s => stringFree s m) (strbufDestroy s.1 m))
  owned s := strbufBlocks s.1 + copiesBlocks s.2
  Rep s m bs := s.1.chars.Sound m ∧ s.1.chars.contents = bs
  opens := Opens True []
  allows := BuilderStep
  lasts rep traded := ⟨rep.1.later traded.later.requests_le, rep.2⟩
  creates m := by
    rcases strbufCreate_spec m with ⟨sb, m', created, empty, quiet⟩ | ⟨m', created, more⟩
    · obtain ⟨trades, sound⟩ := strbufCreate_trades created
      simp only [created]
      refine ⟨?_, some [], .some ⟨sound sb rfl, empty⟩, rfl, quiet⟩
      exact trades.within 0 (add_zero _).symm rfl
    · obtain ⟨trades, -⟩ := strbufCreate_trades created
      simp only [created]
      exact ⟨trades, none, .none, .inl more⟩
  steps call {s m bs} rep := by
    obtain ⟨sound, rfl⟩ := rep
    obtain ⟨out, ⟨⟨sb', held'⟩, m'⟩, ⟨_, _⟩, step, allowed, rfl, rfl⟩ :=
      builderCall_refines call (s, m) (_, m.refusals) ⟨rfl, rfl⟩
    obtain ⟨traded, sound'⟩ := builderCall_trades sound step
    exact ⟨out, (sb', held'), m', _, step, allowed, ⟨sound', rfl⟩, traded⟩
  destroys {s m bs} _ := by
    refine ⟨_, rfl, ((strbufDestroy_trades s.1 m).within (copiesBlocks s.2) rfl
      (zero_add _).symm).trans (stringFree_all s.2 _), ?_⟩
    have freed (held : List Str) (m : Mem) :
        (held.foldl (fun m s => stringFree s m) m).refusals = m.refusals := by
      induction held generalizing m with
      | nil => rfl
      | cons s held ih => simp only [List.foldl_cons, ih, stringFree_refusals]
    simp [memory, freed]

/-! ### Programs -/

/-- The objects of a program, with what it creates them with. -/
inductive Object : Type 1 where
  | hashmap (κ ν : Type) (ndebug : Bool) (f : KeyFns κ) (law : f.Lawful) (keySize valSize : Nat)
  | set (κ : Type) (ndebug : Bool) (f : KeyFns κ) (law : f.Lawful) (elemSize : Nat)
  | bstree (α : Type) (cmp : α → α → Int) (laws : Laws cmp) (elemSize : Nat)
  | avl (α : Type) (cmp : α → α → Int) (laws : Laws cmp) (elemSize : Nat)
  | omap (κ ν : Type) (cmp : κ → κ → Int) (laws : Laws cmp) (keySize valSize : Nat)
  | list (α : Type) (elemSize : Nat)
  | dlist (α : Type) (elemSize : Nat)
  | queue (α : Type) (elemSize : Nat)
  | ringbuf (α : Type) (elemSize : Nat)
  | stack (α : Type) (elemSize : Nat)
  | pqueue (α : Type) (cmp : α → α → Int) (laws : Laws cmp) (elemSize : Nat)
  | strbuf

def Object.kind : Object → Kind memory
  | .hashmap _ ν ndebug _ law keySize valSize => hashmapKind ν ndebug law keySize valSize
  | .set _ ndebug _ law elemSize => setKind ndebug law elemSize
  | .bstree _ _ laws elemSize => bstreeKind laws elemSize
  | .avl _ _ laws elemSize => avlKind laws elemSize
  | .omap _ ν _ laws keySize valSize => omapKind ν laws keySize valSize
  | .list α elemSize => listKind α elemSize
  | .dlist α elemSize => dlistKind α elemSize
  | .queue α elemSize => queueKind α elemSize
  | .ringbuf α elemSize => ringbufKind α elemSize
  | .stack α elemSize => stackKind α elemSize
  | .pqueue _ _ laws elemSize => pqueueKind laws elemSize
  | .strbuf => strbufKind

/-- Whatever a program does with any objects on one allocator, in any order and with any requests
refused: no call gets stuck, each object answers as it is specified to answer alone and is
well-formed, all their blocks are different and are all that the program got, and when it has
destroyed its objects, in any order, nothing is left. -/
theorem objects_share {ι : Type} [DecidableEq ι] [Fintype ι] (object : ι → Object) (m₀ : Mem)
    (acts : List (Action fun i => (object i).kind)) :
    ∃ outs objs m g, run (step fun i => (object i).kind) acts ((fun _ => none), m₀) =
        some (outs, (objs, m)) ∧
      SpecRun (Allows fun i => (object i).kind) ((fun _ => none), m₀.refusals) acts outs
        (g, m.refusals) ∧
      Reps (fun i => (object i).kind) objs m g ∧
      m₀.Trades 0 m (total objs) ∧ ((total objs).map Prod.fst).Nodup ∧
      ∀ order : List ι, (∀ i, objs i ≠ none → i ∈ order) →
        ∃ outs m', run (step fun i => (object i).kind) (order.map .destroy) (objs, m) =
          some (outs, ((fun _ => none), m')) ∧ m₀.Trades 0 m' 0 := by
  obtain ⟨outs, objs, m, g, ran, spec, reps, trades⟩ := @run_shares _ _ _ _ memory
    _ _ _ _ acts (fun _ => none) m₀ m₀ (fun _ => none) (fun _ => .none) (by
      rw [total_none]
      exact memory.refl m₀ 0)
  exact ⟨outs, objs, m, g, ran, spec, reps, trades, trades.distinct.nodup,
    fun order all => run_destroys order reps trades all⟩

end Seqc
