import Mathlib.Data.List.Induction
import Mathlib.Data.List.Nodup
import Mathlib.Logic.Function.Basic

/-! Nodes in a heap, linked to both sides or to one. A node is made of the pointers to its
neighbours and its element by `mk`, which may forget one of the pointers. -/

namespace Chain

variable {ν α : Type*}

/-- Nodes by address; one that is not there was freed or never allocated. -/
abbrev Nodes (ν : Type*) := Nat → Option ν

def put (nodes : Nodes ν) (a : Nat) (n : ν) : Nodes ν := Function.update nodes a (some n)

def free (nodes : Nodes ν) (a : Nat) : Nodes ν := Function.update nodes a none

/-- A store to a node that is there. -/
def edit (nodes : Nodes ν) (a : Nat) (f : ν → ν) : Option (Nodes ν) :=
  (nodes a).map fun n => put nodes a (f n)

/-- The addresses of the items. -/
def addrs (items : List (Nat × α)) : List Nat := items.map Prod.fst

/-- The pointer to the first item; `q` if there is none. -/
def firstAddr (items : List (Nat × α)) (q : Option Nat) : Option Nat :=
  match items with
  | [] => q
  | (a, _) :: _ => some a

/-- The pointer to the last item; `p` if there is none. -/
def lastAddr (p : Option Nat) : List (Nat × α) → Option Nat
  | [] => p
  | (a, _) :: items => lastAddr (some a) items

/-- The items lie in the heap, linked to each other, with `p` before the first and `q` behind
the last. -/
def Laid (mk : Option Nat → Option Nat → α → ν) (nodes : Nodes ν) :
    Option Nat → List (Nat × α) → Option Nat → Prop
  | _, [], _ => True
  | p, (a, x) :: items, q =>
    nodes a = some (mk p (firstAddr items q) x) ∧ Laid mk nodes (some a) items q

/-- Following `succ` from `p` visits `as` and then ends. -/
def Walk (succ : ν → Option Nat) (nodes : Nodes ν) : Option Nat → List Nat → Prop
  | p, [] => p = none
  | p, a :: as => p = some a ∧ ∃ n, nodes a = some n ∧ Walk succ nodes (succ n) as

/-- The addresses that following `succ` from `p` visits, at most `fuel` of them. -/
def visited (succ : ν → Option Nat) (nodes : Nodes ν) : (fuel : Nat) → Option Nat → List Nat
  | 0, _ => []
  | _ + 1, none => []
  | fuel + 1, some a => a :: (nodes a).elim [] fun n => visited succ nodes fuel (succ n)

variable {mk : Option Nat → Option Nat → α → ν} {nodes nodes' : Nodes ν} {p q : Option Nat}
  {items pre post : List (Nat × α)} {a : Nat} {x : α}

@[simp] theorem put_same (nodes : Nodes ν) (a : Nat) (n : ν) : put nodes a n a = some n :=
  Function.update_self ..

theorem put_other (nodes : Nodes ν) (n : ν) {a b : Nat} (h : b ≠ a) : put nodes a n b = nodes b :=
  Function.update_of_ne h ..

@[simp] theorem free_same (nodes : Nodes ν) (a : Nat) : free nodes a a = none :=
  Function.update_self ..

theorem free_other (nodes : Nodes ν) {a b : Nat} (h : b ≠ a) : free nodes a b = nodes b :=
  Function.update_of_ne h ..

theorem edit_eq {n : ν} (there : nodes a = some n) (f : ν → ν) :
    edit nodes a f = some (put nodes a (f n)) := by
  rw [edit, there]
  rfl

@[simp] theorem addrs_nil : addrs ([] : List (Nat × α)) = [] := rfl

@[simp] theorem addrs_cons (i : Nat × α) (items : List (Nat × α)) :
    addrs (i :: items) = i.1 :: addrs items := rfl

@[simp] theorem addrs_append (pre post : List (Nat × α)) :
    addrs (pre ++ post) = addrs pre ++ addrs post := List.map_append

theorem length_addrs (items : List (Nat × α)) : (addrs items).length = items.length :=
  List.length_map ..

theorem firstAddr_append (pre post : List (Nat × α)) (q : Option Nat) :
    firstAddr (pre ++ post) q = firstAddr pre (firstAddr post q) := by
  cases pre <;> rfl

theorem lastAddr_append (p : Option Nat) (pre post : List (Nat × α)) :
    lastAddr p (pre ++ post) = lastAddr (lastAddr p pre) post := by
  induction pre generalizing p with
  | nil => rfl
  | cons i pre ih => exact ih (some i.1)

theorem lastAddr_concat (p : Option Nat) (pre : List (Nat × α)) (i : Nat × α) :
    lastAddr p (pre ++ [i]) = some i.1 := lastAddr_append p pre [i]

theorem lastAddr_eq (items : List (Nat × α)) : lastAddr none items = (addrs items).getLast? := by
  induction items using List.reverseRecOn with
  | nil => rfl
  | append_singleton pre i _ => rw [lastAddr_concat, addrs_append, addrs_cons, addrs_nil,
      List.getLast?_append, List.getLast?_singleton, Option.some_or]

theorem firstAddr_mem (some_item : items ≠ []) :
    ∃ a ∈ addrs items, ∀ q, firstAddr items q = some a := by
  cases items with
  | nil => exact absurd rfl some_item
  | cons i items => exact ⟨i.1, List.mem_cons_self, fun _ => rfl⟩

theorem firstAddr_eq_none : firstAddr items none = none ↔ items = [] := by
  cases items <;> simp [firstAddr]

theorem lastAddr_eq_none : lastAddr none items = none ↔ items = [] := by
  rw [lastAddr_eq, List.getLast?_eq_none_iff, addrs, List.map_eq_nil_iff]

/-! ### Parts of a heap -/

theorem laid_append (p q : Option Nat) (pre post : List (Nat × α)) :
    Laid mk nodes p (pre ++ post) q ↔
      Laid mk nodes p pre (firstAddr post q) ∧ Laid mk nodes (lastAddr p pre) post q := by
  induction pre generalizing p with
  | nil => simp [Laid, lastAddr]
  | cons i pre ih =>
    rw [List.cons_append, Laid, Laid, ih, firstAddr_append, lastAddr, and_assoc]

/-- What happens elsewhere does not matter. -/
theorem Laid.frame (h : Laid mk nodes p items q)
    (same : ∀ a ∈ addrs items, nodes' a = nodes a) : Laid mk nodes' p items q := by
  induction items generalizing p with
  | nil => trivial
  | cons i items ih =>
    obtain ⟨here, rest⟩ := h
    refine ⟨?_, ih rest fun a mem => same a (List.mem_cons_of_mem _ mem)⟩
    rw [same i.1 List.mem_cons_self]
    exact here

theorem Laid.there (h : Laid mk nodes p items q) : ∀ a ∈ addrs items, nodes a ≠ none := by
  induction items generalizing p with
  | nil => simp
  | cons i items ih =>
    obtain ⟨here, rest⟩ := h
    intro a mem
    cases mem with
    | head => simp [here]
    | tail _ mem => exact ih rest a mem

theorem Laid.node (h : Laid mk nodes p (pre ++ (a, x) :: post) q) :
    nodes a = some (mk (lastAddr p pre) (firstAddr post q) x) :=
  ((laid_append p q pre _).mp h).2.1

/-- Nodes that forget what is before them. -/
theorem Laid.forget (same : ∀ p p' q x, mk p q x = mk p' q x) (h : Laid mk nodes p items q)
    (p' : Option Nat) : Laid mk nodes p' items q := by
  cases items with
  | nil => trivial
  | cons i items => exact ⟨h.1.trans (congrArg some (same p p' _ i.2)), h.2⟩

/-- The last node is linked to another one behind it. -/
theorem Laid.setNext (h : Laid mk nodes p (pre ++ [(a, x)]) q)
    (distinct : (addrs (pre ++ [(a, x)])).Nodup) (q' : Option Nat) :
    Laid mk (put nodes a (mk (lastAddr p pre) q' x)) p (pre ++ [(a, x)]) q' := by
  obtain ⟨before, -⟩ := (laid_append p q pre _).mp h
  have apart : ∀ b ∈ addrs pre, b ≠ a := by
    rw [addrs_append] at distinct
    exact fun b mem same => List.disjoint_of_nodup_append distinct mem (by simp [same])
  refine (laid_append p q' pre _).mpr ⟨?_, by simp [firstAddr], trivial⟩
  exact before.frame fun b mem => put_other _ _ (apart b mem)

/-- The first node is linked to another one before it. -/
theorem Laid.setPrev (h : Laid mk nodes p ((a, x) :: post) q)
    (distinct : (addrs ((a, x) :: post)).Nodup) (p' : Option Nat) :
    Laid mk (put nodes a (mk p' (firstAddr post q) x)) p' ((a, x) :: post) q := by
  have apart := (List.nodup_cons.mp distinct).1
  exact ⟨put_same .., h.2.frame fun b mem => put_other _ _ fun same => apart (same ▸ mem)⟩

/-! ### Walks -/

theorem Laid.walk_next {next : ν → Option Nat} (fits : ∀ p q x, next (mk p q x) = q)
    (h : Laid mk nodes p items none) : Walk next nodes (firstAddr items none) (addrs items) := by
  induction items generalizing p with
  | nil => rfl
  | cons i items ih =>
    refine ⟨rfl, _, h.1, ?_⟩
    rw [fits]
    exact ih h.2

theorem Laid.walk_prev {prev : ν → Option Nat} (fits : ∀ p q x, prev (mk p q x) = p) :
    ∀ {q}, Laid mk nodes none items q →
      Walk prev nodes (lastAddr none items) (addrs items).reverse := by
  induction items using List.reverseRecOn with
  | nil =>
    intro q _
    rfl
  | append_singleton pre i ih =>
    intro q h
    obtain ⟨before, here, -⟩ := (laid_append none q pre [i]).mp h
    rw [lastAddr_concat, addrs_append, List.reverse_append]
    refine ⟨rfl, _, here, ?_⟩
    rw [fits]
    exact ih before

theorem Walk.visited_eq {succ : ν → Option Nat} {as : List Nat} (walk : Walk succ nodes p as) :
    visited succ nodes as.length p = as := by
  induction as generalizing p with
  | nil => rfl
  | cons a as ih =>
    obtain ⟨rfl, n, here, rest⟩ := walk
    rw [List.length_cons, visited, here, Option.elim_some, ih rest]

/-- The elements at the addresses of the items are theirs. -/
theorem Laid.elems {elem : ν → α} (fits : ∀ p q x, elem (mk p q x) = x)
    (h : Laid mk nodes p items q) :
    ∀ i ∈ items, ∃ n, nodes i.1 = some n ∧ elem n = i.2 := by
  induction items generalizing p with
  | nil => simp
  | cons i items ih =>
    intro j mem
    cases mem with
    | head => exact ⟨_, h.1, fits ..⟩
    | tail _ mem => exact ih h.2 j mem

end Chain
