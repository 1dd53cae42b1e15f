import Seqc.Appends
import Seqc.Consumers
import Seqc.Holdings

/-! Runs of a builder: all its operations against a list of bytes, and what it and the strings
copied out of it hold of the allocator. `vsnprintf` is a parameter: the text it formats, which
does not depend on the builder. -/

namespace Seqc
open Runs

/-- `INT_MAX`. -/
def intMax : Nat := 2 ^ 31 - 1

/-- What `vsnprintf` formats: a text whose length is an `int`, or `none` if it returns a
negative number. -/
abbrev Formatted := Option { text : List UInt8 // text.length ≤ intMax }

/-- `char stack_buf[256]`. -/
def sizeofStackBuf : Nat := 256

def strbufClear (sb : Strbuf) : Strbuf :=
  ⟨sb.addr, { sb.chars with contents := [] },
    ⟨sb.bounded.elemSize, Nat.zero_le _, sb.bounded.cap_le, sb.bounded.null_cap⟩⟩

/-- The old name of `strbuf_view`. -/
def strbufFinish (sb : Strbuf) : Str := strbufView sb

def strbufIsEmpty (sb : Strbuf) : Bool := vecLen (some sb.chars) = 0

def strbufAppendFmt (sb : Strbuf) (fmt : Formatted) (m : Mem) : Status × Strbuf × Mem :=
  match fmt with
  | none => (.ok, sb, m)
  | some text =>
    if text.1.length = 0 then (.ok, sb, m)
    else if text.1.length + 1 ≤ sizeofStackBuf then strbufAppendBytes sb m text.1
    else
      match memAlloc m (text.1.length + 1) with
      | (none, m) => (.oom, sb, m)
      | (some buf, m) =>
        let (st, sb, m) := strbufAppendBytes sb m text.1
        (st, sb, memFree m (some buf) (text.1.length + 1))

/-- `vec_clear`. -/
theorem strbufClear_eq (sb : Strbuf) :
    vecClear (some sb.chars) = some (strbufClear sb).chars := rfl

/-! ### Calls -/

inductive BuilderCall where
  | op (op : StrbufOp)
  | appendFmt (text : Formatted)
  | truncate (len : Nat)
  | clear
  | view
  | finish
  | len
  | isEmpty
  | toString
  /-- `mem_free` of a string that was copied before. -/
  | release (i : Nat)

inductive BuilderReply where
  | status (st : Status)
  | bytes (bs : List UInt8)
  | size (n : Nat)
  | answer (b : Bool)
  | nothing

/-- The builder, the strings that were copied and not freed, and the allocator. -/
abbrev Building := (Strbuf × List Str) × Mem

/-- `mem_free(a, s.ptr, s.len)`; `ptr` may be NULL. -/
def stringFree (s : Str) (m : Mem) : Mem := memFree m s.ptr s.len

@[simp] theorem stringFree_refusals (s : Str) (m : Mem) :
    (stringFree s m).refusals = m.refusals :=
  memFree_refusals m s.ptr _

def builderCall (call : BuilderCall) (s : Building) : Option (BuilderReply × Building) :=
  match call with
  | .op op => (strbufStep op (s.1.1, s.2)).map fun r => (.status r.1, (r.2.1, s.1.2), r.2.2)
  | .appendFmt text =>
    let (st, sb, m) := strbufAppendFmt s.1.1 text s.2
    some (.status st, (sb, s.1.2), m)
  | .truncate len => some (.nothing, (strbufTruncate s.1.1 len, s.1.2), s.2)
  | .clear => some (.nothing, (strbufClear s.1.1, s.1.2), s.2)
  | .view => some (.bytes (strbufView s.1.1).bytes, s)
  | .finish => some (.bytes (strbufFinish s.1.1).bytes, s)
  | .len => some (.size (strbufLen s.1.1), s)
  | .isEmpty => some (.answer (strbufIsEmpty s.1.1), s)
  | .toString =>
    let (copy, m) := strbufToString s.1.1 s.2
    some (.bytes copy.bytes, (s.1.1, copy :: s.1.2), m)
  | .release i =>
    match s.1.2[i]? with
    | none => some (.nothing, s)
    | some copy => some (.nothing, (s.1.1, s.1.2.eraseIdx i), stringFree copy s.2)

/-- What a call is asked to append. -/
def BuilderCall.piece : BuilderCall → Option (List UInt8)
  | .op append => some append.piece
  | .appendFmt text => some (text.elim [] Subtype.val)
  | _ => none

/-- What a list of bytes answers. An append that fails has been refused a request, and leaves a
proper prefix of its piece. -/
inductive BuilderStep : List UInt8 × Nat → BuilderCall → BuilderReply → List UInt8 × Nat → Prop
  | appendOk (bs n call piece) (asked : call.piece = some piece) :
      BuilderStep (bs, n) call (.status .ok) (bs ++ piece, n)
  | appendOom (bs n n' call piece part) (asked : call.piece = some piece)
      (initial : part <+: piece) (proper : part ≠ piece) (refused : n < n') :
      BuilderStep (bs, n) call (.status .oom) (bs ++ part, n')
  | truncate (bs n len) : BuilderStep (bs, n) (.truncate len) .nothing (bs.take len, n)
  | clear (bs n) : BuilderStep (bs, n) .clear .nothing ([], n)
  | view (bs n) : BuilderStep (bs, n) .view (.bytes bs) (bs, n)
  | finish (bs n) : BuilderStep (bs, n) .finish (.bytes bs) (bs, n)
  | len (bs n) : BuilderStep (bs, n) .len (.size bs.length) (bs, n)
  | isEmpty (bs n) : BuilderStep (bs, n) .isEmpty (.answer bs.isEmpty) (bs, n)
  | toString (bs n) : BuilderStep (bs, n) .toString (.bytes bs) (bs, n)
  | toStringOom (bs n n') (refused : n < n') : BuilderStep (bs, n) .toString (.bytes []) (bs, n')
  | release (g i) : BuilderStep g (.release i) .nothing g

/-! ### What they append and hold -/

/-- A call appended its piece, or a proper prefix of it after a refused request. -/
def AppendsTo (sb : Strbuf) (m : Mem) (piece : List UInt8) (r : Status × Strbuf × Mem) : Prop :=
  (r.1 = .ok ∧ r.2.1.chars.contents = sb.chars.contents ++ piece ∧
      r.2.2.refusals = m.refusals) ∨
    (r.1 = .oom ∧ m.refusals < r.2.2.refusals ∧ ∃ part, part <+: piece ∧ part ≠ piece ∧
      r.2.1.chars.contents = sb.chars.contents ++ part)

section Appending
variable {sb sb' : Strbuf} {m m' : Mem} {st : Status}

theorem strbufAppendBytes_appends (bs : List UInt8) (sb : Strbuf) (m : Mem) :
    AppendsTo sb m bs (strbufAppendBytes sb m bs) := by
  obtain ⟨st, sb', m', run, outcome⟩ := strbufAppendBytes_spec bs sb m
  rw [run]
  exact outcome.imp_right fun failed => ⟨failed.1, by simp only [failed.2.1]; omega, failed.2.2⟩

theorem strbufAppendFmt_appends (fmt : Formatted) (sb : Strbuf) (m : Mem) :
    AppendsTo sb m (fmt.elim [] Subtype.val) (strbufAppendFmt sb fmt m) := by
  cases fmt with
  | none => exact .inl ⟨rfl, (List.append_nil _).symm, rfl⟩
  | some text =>
    simp only [strbufAppendFmt, Option.elim_some]
    by_cases nothing : text.1.length = 0
    · rw [if_pos nothing, List.length_eq_zero_iff.mp nothing]
      exact .inl ⟨rfl, (List.append_nil _).symm, rfl⟩
    rw [if_neg nothing]
    by_cases short : text.1.length + 1 ≤ sizeofStackBuf
    · rw [if_pos short]
      exact strbufAppendBytes_appends text.1 sb m
    rw [if_neg short]
    rcases hm : memAlloc m (text.1.length + 1) with ⟨_ | buf, m₁⟩
    · have more := memAlloc_none hm
      refine .inr ⟨rfl, by simp only [more]; omega, [], List.nil_prefix, fun same => ?_,
        (List.append_nil _).symm⟩
      exact nothing (congrArg List.length same).symm
    · have quiet := (memAlloc_some hm).2.2
      have appended := strbufAppendBytes_appends text.1 sb m₁
      simpa only [AppendsTo, quiet, memFree_refusals] using appended

theorem strbufAppendFmt_builds (sound : sb.chars.Sound m) {fmt : Formatted}
    (append : strbufAppendFmt sb fmt m = (st, sb', m')) : Builds sb m sb' m' := by
  cases fmt with
  | none =>
    cases append
    exact .refl sound
  | some text =>
    simp only [strbufAppendFmt] at append
    split at append
    · cases append
      exact .refl sound
    split at append
    · exact strbufAppendBytes_trades sound append
    split at append
    · rename_i hm
      cases append
      have refused := memAlloc_refused hm
      exact ⟨refused.within _ (zero_add _).symm (zero_add _).symm,
        sound.later refused.later.requests_le⟩
    · rename_i buf m₁ hm
      have granted := memAlloc_trades hm
      rcases call : strbufAppendBytes sb m₁ text.1 with ⟨st₁, sb₁, m₂⟩
      rw [call] at append
      cases append
      have built := strbufAppendBytes_trades (sound.later granted.later.requests_le) call
      have freed := memFree_trades m₂ buf (text.1.length + 1)
      refine ⟨?_, built.sound.later freed.later.requests_le⟩
      exact ((granted.within (strbufBlocks sb) (zero_add _).symm (add_comm _ _)).trans
        (built.trades.within _ rfl rfl)).trans
        (freed.within (strbufBlocks sb₁) (add_comm _ _) (zero_add _).symm)

/-- Other bytes, none if there were none, in the same buffer. -/
theorem Builds.edit (sound : sb.chars.Sound m) (same : sb'.addr = sb.addr) (bs : List UInt8)
    (chars : sb'.chars = { sb.chars with contents := bs })
    (null : sb.chars.contents = [] → bs = []) : Builds sb m sb' m := by
  have kept : sb'.chars.Sound m := chars ▸ sound.store fun h => null (sound.null h).2
  refine ⟨?_, kept⟩
  have blocks : strbufBlocks sb' = strbufBlocks sb := by
    simp only [strbufBlocks, vecBlocks, Vec.dataBlock, chars, same]
  rw [blocks]
  exact .refl m _

end Appending

/-- The block of a string that belongs to the caller. -/
def stringBlocks (s : Str) : Blocks := bufferBlocks s.ptr s.len

/-- The blocks of the strings that were copied and not freed. -/
def copiesBlocks (held : List Str) : Blocks := (held.map stringBlocks).sum

def buildingBlocks (s : Building) : Blocks := strbufBlocks s.1.1 + copiesBlocks s.1.2

/-- The state of a builder that holds the bytes `g.1`. -/
def BuilderOf (s : Building) (g : List UInt8 × Nat) : Prop :=
  s.1.1.chars.contents = g.1 ∧ g.2 = s.2.refusals

section Calls
variable {s s' : Building} {held : List Str} {i : Nat}

theorem stringFree_trades (s : Str) (m : Mem) :
    m.Trades (stringBlocks s) (stringFree s m) 0 := by
  rw [stringBlocks, stringFree]
  cases s.ptr with
  | none => exact ⟨Mem.Later.refl.free _ _, _, rfl, fun _ => rfl⟩
  | some addr => exact memFree_trades m addr _

theorem copiesBlocks_eraseIdx {copy : Str} (h : held[i]? = some copy) :
    copiesBlocks held = stringBlocks copy + copiesBlocks (held.eraseIdx i) := by
  induction held generalizing i with
  | nil => simp at h
  | cons t held ih =>
    cases i with
    | zero =>
      obtain rfl := Option.some.inj h
      rfl
    | succ i =>
      simp only [copiesBlocks, List.map_cons, List.sum_cons, List.eraseIdx_cons_succ] at ih ⊢
      rw [ih h]
      abel

/-- The strings are freed one after the other. -/
theorem stringFree_all (held : List Str) (m : Mem) :
    m.Trades (copiesBlocks held) (held.foldl (fun m s => stringFree s m) m) 0 := by
  induction held generalizing m with
  | nil => exact .refl m 0
  | cons s held ih =>
    exact ((stringFree_trades s m).within (copiesBlocks held) rfl (zero_add _).symm).trans (ih _)

theorem builderCall_refines (call : BuilderCall) (s : Building) (g : List UInt8 × Nat)
    (h : BuilderOf s g) :
    ∃ out s' g', builderCall call s = some (out, s') ∧ BuilderStep g call out g' ∧
      BuilderOf s' g' := by
  obtain ⟨⟨sb, held⟩, m⟩ := s
  obtain ⟨_, _⟩ := g
  obtain ⟨rfl, rfl⟩ := h
  have appends (call : BuilderCall) (piece : List UInt8) (asked : call.piece = some piece)
      (r : Status × Strbuf × Mem) (appended : AppendsTo sb m piece r)
      (run : builderCall call ((sb, held), m) = some (.status r.1, (r.2.1, held), r.2.2)) :
      ∃ out s' g', builderCall call ((sb, held), m) = some (out, s') ∧
        BuilderStep (sb.chars.contents, m.refusals) call out g' ∧ BuilderOf s' g' := by
    obtain ⟨st, sb', m'⟩ := r
    refine ⟨_, _, (sb'.chars.contents, m'.refusals), run, ?_, rfl, rfl⟩
    rcases appended with ⟨ok, contents, quiet⟩ | ⟨oom, more, part, initial, proper, contents⟩
    · simp only at ok contents quiet
      rw [ok, contents, quiet]
      exact .appendOk _ _ call piece asked
    · simp only at oom more contents
      rw [oom, contents]
      exact .appendOom _ _ _ call piece part asked initial proper more
  cases call with
  | op op =>
    refine appends (.op op) op.piece rfl _ (strbufAppendBytes_appends op.piece sb m) ?_
    simp only [builderCall, strbufStep_eq, Option.map_some]
  | appendFmt text =>
    exact appends (.appendFmt text) _ rfl _ (strbufAppendFmt_appends text sb m) rfl
  | truncate len => exact ⟨_, _, _, rfl, .truncate _ _ len, rfl, rfl⟩
  | clear => exact ⟨_, _, _, rfl, .clear _ _, rfl, rfl⟩
  | view => exact ⟨_, _, _, rfl, .view _ _, rfl, rfl⟩
  | finish => exact ⟨_, _, _, rfl, .finish _ _, rfl, rfl⟩
  | len => exact ⟨_, _, _, rfl, .len _ _, rfl, rfl⟩
  | isEmpty =>
    refine ⟨_, _, (sb.chars.contents, m.refusals), rfl, ?_, rfl, rfl⟩
    have same : strbufIsEmpty sb = sb.chars.contents.isEmpty := by
      rw [strbufIsEmpty, vecLen, vecContents]
      cases sb.chars.contents <;> simp
    rw [same]
    exact .isEmpty _ _
  | toString =>
    rcases copied : strbufToString sb m with ⟨copy, m'⟩
    refine ⟨.bytes copy.bytes, ((sb, copy :: held), m'), (sb.chars.contents, m'.refusals),
      by simp only [builderCall, copied], ?_, rfl, rfl⟩
    unfold strbufToString stringCopy at copied
    by_cases empty : (strbufView sb).ptr = none ∨ (strbufView sb).len = 0
    · rw [if_pos empty] at copied
      obtain ⟨rfl, rfl⟩ := Prod.mk.inj copied
      have nothing : sb.chars.contents = [] :=
        empty.elim (strbufView sb).null_empty List.length_eq_zero_iff.mp
      rw [nothing]
      exact .toString [] _
    rw [if_neg empty] at copied
    rcases hm : memAlloc m (strbufView sb).len with ⟨_ | buf, m₁⟩
    · simp only [hm] at copied
      obtain ⟨rfl, rfl⟩ := Prod.mk.inj copied
      have more := memAlloc_none hm
      exact .toStringOom _ _ _ (by simp only [more]; omega)
    · simp only [hm] at copied
      obtain ⟨rfl, rfl⟩ := Prod.mk.inj copied
      rw [(memAlloc_some hm).2.2]
      exact .toString _ _
  | release i =>
    simp only [builderCall]
    cases held[i]? with
    | none => exact ⟨_, _, _, rfl, .release _ i, rfl, rfl⟩
    | some copy =>
      refine ⟨_, _, (sb.chars.contents, m.refusals), rfl, .release _ i, rfl, ?_⟩
      simp only [stringFree_refusals]

theorem builderCall_trades (sound : s.1.1.chars.Sound s.2) {call : BuilderCall}
    {out : BuilderReply} (step : builderCall call s = some (out, s')) :
    s.2.Trades (buildingBlocks s) s'.2 (buildingBlocks s') ∧ s'.1.1.chars.Sound s'.2 := by
  obtain ⟨⟨sb, held⟩, m⟩ := s
  simp only at sound
  have builds (sb' : Strbuf) (m' : Mem) (same : ((sb', held), m') = s')
      (built : Builds sb m sb' m') :
      m.Trades (buildingBlocks ((sb, held), m)) s'.2 (buildingBlocks s') ∧
        s'.1.1.chars.Sound s'.2 := by
    subst same
    exact ⟨built.trades.within _ rfl rfl, built.sound⟩
  cases call with
  | op op =>
    rw [builderCall, strbufStep_eq, Option.map_some] at step
    obtain ⟨-, same⟩ := Prod.mk.inj (Option.some.inj step)
    exact builds _ _ same (strbufAppendBytes_trades sound rfl)
  | appendFmt text =>
    obtain ⟨-, same⟩ := Prod.mk.inj (Option.some.inj step)
    exact builds _ _ same (strbufAppendFmt_builds sound rfl)
  | truncate len =>
    obtain ⟨-, same⟩ := Prod.mk.inj (Option.some.inj step)
    exact builds _ _ same (.edit sound rfl (sb.chars.contents.take len) rfl
      fun empty => by simp [empty])
  | clear =>
    obtain ⟨-, same⟩ := Prod.mk.inj (Option.some.inj step)
    exact builds _ _ same (.edit sound rfl [] rfl fun _ => rfl)
  | view | finish | len | isEmpty =>
    obtain ⟨-, same⟩ := Prod.mk.inj (Option.some.inj step)
    exact builds sb m same (.refl sound)
  | toString =>
    rcases copied : strbufToString sb m with ⟨copy, m'⟩
    simp only [builderCall, copied] at step
    obtain ⟨-, rfl⟩ := Prod.mk.inj (Option.some.inj step)
    have granted : m.Trades 0 m' (stringBlocks copy) := stringCopy_trades copied
    refine ⟨granted.within (buildingBlocks ((sb, held), m)) (zero_add _).symm ?_,
      sound.later granted.later.requests_le⟩
    simp only [buildingBlocks, copiesBlocks, List.map_cons, List.sum_cons]
    abel
  | release i =>
    simp only [builderCall] at step
    split at step
    · obtain ⟨-, same⟩ := Prod.mk.inj (Option.some.inj step)
      exact builds sb m same (.refl sound)
    · rename_i copy here
      obtain ⟨-, rfl⟩ := Prod.mk.inj (Option.some.inj step)
      have freed := stringFree_trades copy m
      refine ⟨freed.within (strbufBlocks sb + copiesBlocks (held.eraseIdx i)) ?_
        (zero_add _).symm, sound.later freed.later.requests_le⟩
      simp only [buildingBlocks, copiesBlocks_eraseIdx here]
      abel

end Calls

/-! ### Runs -/

/-- Every run from `strbuf_create` is one of a list of bytes. At its end the live blocks are the
two structs and the buffer of the builder, and one for each string copied out of it and not
freed, of exactly its length. The copies outlive the builder; when they are freed too, in any
order, nothing is left. -/
theorem builder_run_refines {m₀ m₁ : Mem} {sb₀ : Strbuf}
    (created : strbufCreate m₀ = (some sb₀, m₁)) (calls : List BuilderCall) :
    ∃ outs sb held m, run builderCall calls ((sb₀, []), m₁) = some (outs, ((sb, held), m)) ∧
      SpecRun BuilderStep ([], m₁.refusals) calls outs ((strbufView sb).bytes, m.refusals) ∧
      m₀.Trades 0 m (strbufBlocks sb + copiesBlocks held) ∧
      ((strbufBlocks sb + copiesBlocks held).map Prod.fst).Nodup ∧
      m₀.Trades 0 (strbufDestroy sb m) (copiesBlocks held) ∧
      ∀ copies : List Str, copies.Perm held →
        m₀.Trades 0 (copies.foldl (fun m s => stringFree s m) (strbufDestroy sb m)) 0 := by
  obtain ⟨trades₀, sound₀⟩ := strbufCreate_trades created
  have empty : sb₀.chars.contents = [] := by
    rcases strbufCreate_spec m₀ with ⟨sb, m, made, empty, -⟩ | ⟨m, failed, -⟩
    · obtain ⟨here, -⟩ := Prod.mk.inj (created.symm.trans made)
      exact Option.some.inj here ▸ empty
    · simp [created] at failed
  obtain ⟨outs, ⟨⟨sb, held⟩, m⟩, ⟨_, _⟩, ran, spec, ⟨rfl, rfl⟩, -, trades⟩ :=
    run_refines builderCall BuilderStep
      (R := fun s g => BuilderOf s g ∧ s.1.1.chars.Sound s.2 ∧ m₀.Trades 0 s.2 (buildingBlocks s))
      (fun call s g h => by
        obtain ⟨out, s', g', step, spec, state⟩ := builderCall_refines call s g h.1
        obtain ⟨traded, sound⟩ := builderCall_trades h.2.1 step
        exact ⟨out, s', g', step, spec, state, sound, h.2.2.trans traded⟩)
      calls (s := ((sb₀, []), m₁)) (g := ([], m₁.refusals))
      ⟨⟨empty, rfl⟩, sound₀ sb₀ rfl, by simpa [buildingBlocks, copiesBlocks] using trades₀⟩
  have destroyed := trades.trans ((strbufDestroy_trades sb m).within (copiesBlocks held) rfl
    (zero_add _).symm)
  refine ⟨outs, sb, held, m, ran, spec, trades, trades.distinct.nodup, destroyed,
    fun copies order => destroyed.trans ?_⟩
  have same : copiesBlocks held = copiesBlocks copies := (order.map stringBlocks).sum_eq.symm
  rw [same]
  exact stringFree_all copies _

/-- A run whose first append is refused its buffer, and that keeps one copy. -/
theorem builder_run_refines_hi :
    ∃ outs sb held m, run builderCall
        [.op (.appendChar 72), .op (.appendChar 72), .appendFmt (some ⟨[105, 33], by decide⟩),
          .toString, .truncate 2, .view]
        ((⟨0, ⟨1, none, [], 0, 1, by decide⟩, ⟨rfl, le_rfl, Nat.zero_le _, fun _ => rfl⟩⟩, []),
          ⟨refusingOnce 2, 2, [.alloc 0 24, .alloc 1 48]⟩) = some (outs, ((sb, held), m)) ∧
      (Mem.start (refusingOnce 2)).Trades 0 (strbufDestroy sb m) (copiesBlocks held) := by
  have created : strbufCreate (.start (refusingOnce 2)) =
      (some ⟨0, ⟨1, none, [], 0, 1, by decide⟩, ⟨rfl, le_rfl, Nat.zero_le _, fun _ => rfl⟩⟩,
        ⟨refusingOnce 2, 2, [.alloc 0 24, .alloc 1 48]⟩) := rfl
  obtain ⟨outs, sb, held, m, ran, -, -, -, destroyed, -⟩ := builder_run_refines created
    [.op (.appendChar 72), .op (.appendChar 72), .appendFmt (some ⟨[105, 33], by decide⟩),
      .toString, .truncate 2, .view]
  exact ⟨outs, sb, held, m, ran, destroyed⟩

/-! ### Building again -/

/-- A byte for which there is room is stored without a request. -/
theorem strbufPush_room (sb : Strbuf) (b : UInt8) (m : Mem)
    (room : sb.chars.contents.length < sb.chars.cap) :
    ∃ sb', strbufPush sb b m = (.ok, sb', m) ∧ sb'.addr = sb.addr ∧
      sb'.chars = { sb.chars with contents := sb.chars.contents ++ [b] } := by
  have push : vecPush (some sb.chars) (some b) m =
      (.ok, some { sb.chars with contents := sb.chars.contents ++ [b] }, m) := by
    simp only [vecPush, vecGrow, if_neg room.ne]
  obtain ⟨st, sb', m', run, -⟩ := strbufPush_spec sb b m
  have pushed := run
  unfold strbufPush at pushed
  split at pushed
  · rename_i h
    cases pushed
    obtain ⟨rfl, same, rfl⟩ := by simpa using push.symm.trans h
    exact ⟨_, run, rfl, same.symm⟩
  · rename_i h
    simp [push] at h

theorem strbufAppendBytes_room (bs : List UInt8) (sb : Strbuf) (m : Mem)
    (room : sb.chars.contents.length + bs.length ≤ sb.chars.cap) :
    ∃ sb', strbufAppendBytes sb m bs = (.ok, sb', m) ∧ sb'.addr = sb.addr ∧
      sb'.chars = { sb.chars with contents := sb.chars.contents ++ bs } := by
  induction bs generalizing sb with
  | nil => exact ⟨sb, rfl, rfl, by simp⟩
  | cons b bs ih =>
    rw [List.length_cons] at room
    obtain ⟨sb₁, push, addr, chars⟩ := strbufPush_room sb b m (by omega)
    obtain ⟨sb₂, rest, addr₂, chars₂⟩ := ih sb₁ (by
      simp only [chars, List.length_append, List.length_singleton]
      omega)
    refine ⟨sb₂, by simp only [strbufAppendBytes, push, rest], addr₂.trans addr, ?_⟩
    rw [chars₂, chars]
    simp only [List.append_assoc, List.singleton_append]

/-- Cutting a builder back keeps its buffer: building again, up to its capacity, makes no
request, cannot fail, and writes where it was built before. -/
theorem truncate_rebuilds (sb : Strbuf) (m : Mem) (len : Nat) (ops : List StrbufOp)
    (fits : min len (strbufLen sb) + (ops.flatMap StrbufOp.piece).length ≤ sb.chars.cap) :
    ∃ sb', run strbufStep ops (strbufTruncate sb len, m) =
        some (List.replicate ops.length .ok, (sb', m)) ∧
      (strbufView sb').ptr = (strbufView sb).ptr ∧ sb'.chars.cap = sb.chars.cap ∧
      (strbufView sb').bytes = (strbufView sb).bytes.take len ++ ops.flatMap StrbufOp.piece := by
  have again (ops : List StrbufOp) : ∀ t : Strbuf,
      t.chars.contents.length + (ops.flatMap StrbufOp.piece).length ≤ t.chars.cap →
      ∃ sb', run strbufStep ops (t, m) = some (List.replicate ops.length .ok, (sb', m)) ∧
        sb'.chars =
          { t.chars with contents := t.chars.contents ++ ops.flatMap StrbufOp.piece } := by
    induction ops with
    | nil => exact fun t _ => ⟨t, rfl, by simp⟩
    | cons op ops ih =>
      intro t room
      rw [List.flatMap_cons, List.length_append] at room
      obtain ⟨t₁, call, -, chars⟩ := strbufAppendBytes_room op.piece t m (by omega)
      obtain ⟨t₂, rest, chars₂⟩ := ih t₁ (by
        simp only [chars, List.length_append]
        omega)
      refine ⟨t₂, by simp [run, strbufStep_eq, call, rest, List.replicate_succ], ?_⟩
      rw [chars₂, chars]
      simp only [List.append_assoc, List.flatMap_cons]
  obtain ⟨sb', ran, chars⟩ := again ops (strbufTruncate sb len) (by
    rw [strbufTruncate_contents, List.length_take]
    exact fits)
  refine ⟨sb', ran, ?_, ?_, ?_⟩
  · change sb'.chars.dataAddr = _
    rw [chars]
    rfl
  · rw [chars]
    rfl
  · rw [strbufView_bytes, chars]
    rfl

theorem truncate_rebuilds_hi :
    ∃ sb', run strbufStep [.appendChar 111, .append .null]
        (strbufTruncate ⟨0, ⟨1, some 2, [72, 105], 8, 1, by decide⟩,
          ⟨rfl, by decide, by decide, by simp⟩⟩ 1, Mem.start (refusingOnce 0)) =
        some ([.ok, .ok], (sb', .start (refusingOnce 0))) ∧
      (strbufView sb').bytes = [72, 111] := by
  obtain ⟨sb', ran, -, -, bytes⟩ := truncate_rebuilds
    ⟨0, ⟨1, some 2, [72, 105], 8, 1, by decide⟩, ⟨rfl, by decide, by decide, by simp⟩⟩
    (.start (refusingOnce 0)) 1 [.appendChar 111, .append .null] (by decide)
  exact ⟨sb', ran, bytes⟩

end Seqc
