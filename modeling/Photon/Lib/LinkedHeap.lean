import Mathlib.Data.Finset.Card
import Mathlib.Data.List.Nodup
import Mathlib.Tactic

/-!
Singly linked nodes in a heap. An address is a position in the list of nodes that were allocated,
so a new node gets an address no other has, and the nil pointer is `none`. `Seg heap a cells b`
says that the chain from `a` runs through `cells` and arrives at `b`. What a store into a `next`
field does to a chain is said by two rules: a chain that does not pass the node stays, and a chain
that ends with the node arrives elsewhere.
-/

namespace Photon.Lib

structure Node (T : Type) where
  val : T
  next : Option Nat
deriving DecidableEq

abbrev Heap (T : Type) := List (Node T)

inductive Fault where
  | nilDereference
  | looping
deriving DecidableEq

namespace Heap

variable {T : Type}

def load (heap : Heap T) (p : Option Nat) : Except Fault (Node T) :=
  match p.bind (heap[·]?) with
  | some node => .ok node
  | none => .error .nilDereference

def setNext (heap : Heap T) (p : Nat) (next : Option Nat) : Heap T :=
  heap.modify p fun node => {node with next := next}

def storeNext (heap : Heap T) (p next : Option Nat) : Except Fault (Heap T) :=
  match p with
  | some p => .ok (heap.setNext p next)
  | none => .error .nilDereference

theorem load_eq {heap : Heap T} {p : Nat} {node : Node T} (h : heap[p]? = some node) :
    heap.load (some p) = .ok node := by
  simp [load, h]

@[simp]
theorem storeNext_some (heap : Heap T) (p : Nat) (next : Option Nat) :
    heap.storeNext (some p) next = .ok (heap.setNext p next) := rfl

variable {next : Option Nat}

theorem getElem?_setNext_self {heap : Heap T} {p : Nat} {node : Node T} (h : heap[p]? = some node) :
    (heap.setNext p next)[p]? = some {node with next := next} := by
  rw [setNext, List.getElem?_modify_eq, h]
  rfl

theorem getElem?_setNext_ne {heap : Heap T} {p q : Nat} (h : p ≠ q) :
    (heap.setNext p next)[q]? = heap[q]? := List.getElem?_modify_ne _ _ h

/-- The chain from one pointer to another and the nodes it passes, with their values. -/
inductive Seg (heap : Heap T) : Option Nat → List (Nat × T) → Option Nat → Prop
  | nil (a : Option Nat) : Seg heap a [] a
  | cons {p : Nat} {v : T} {next stop : Option Nat} {rest : List (Nat × T)} :
      heap[p]? = some ⟨v, next⟩ → Seg heap next rest stop → Seg heap (some p) ((p, v) :: rest) stop

namespace Seg

variable {heap : Heap T} {a b c : Option Nat} {cells rest : List (Nat × T)}

theorem append (h : Seg heap a cells b) (hrest : Seg heap b rest c) :
    Seg heap a (cells ++ rest) c := by
  induction h with
  | nil => exact hrest
  | cons hnode _ ih => exact .cons hnode (ih hrest)

theorem split (h : Seg heap a (cells ++ rest) c) : ∃ b, Seg heap a cells b ∧ Seg heap b rest c := by
  induction cells generalizing a with
  | nil => exact ⟨a, .nil a, h⟩
  | cons cell cells ih =>
    cases h with
    | cons hnode htail =>
      obtain ⟨b, hfront, hback⟩ := ih htail
      exact ⟨b, .cons hnode hfront, hback⟩

variable {front back : List (Nat × T)} {p : Nat}

theorem single {v : T} (h : heap[p]? = some ⟨v, next⟩) :
    Seg heap (some p) [(p, v)] next := .cons h (.nil next)

/-- The first node of a chain, as a load finds it. -/
theorem load {v : T} (h : Seg heap a ((p, v) :: rest) b) :
    a = some p ∧ ∃ next, heap[p]? = some ⟨v, next⟩ ∧ heap.load a = .ok ⟨v, next⟩ ∧
      Seg heap next rest b := by
  cases h with
  | cons hnode htail => exact ⟨rfl, _, hnode, load_eq hnode, htail⟩

theorem start_eq (h : Seg heap a [] b) : a = b := by
  cases h
  rfl

theorem eq_nil_of_start_none (h : Seg heap none cells b) : cells = [] := by
  cases h
  rfl

/-- The last node of a chain points to where it arrives. -/
theorem last_node {v : T} (h : Seg heap a (cells ++ [(p, v)]) b) : heap[p]? = some ⟨v, b⟩ := by
  obtain ⟨m, -, hlast⟩ := h.split
  obtain ⟨rfl, next, hnode, -, hend⟩ := hlast.load
  cases hend.start_eq
  exact hnode

/-- A chain that passes a node starts at one. -/
theorem exists_start {cell : Nat × T} (h : Seg heap a (front ++ cell :: back) b) :
    ∃ p, a = some p := by
  cases front with
  | nil | cons _ _ => exact ⟨_, h.load.1⟩

/-- A chain that passes two nodes starts at one that is not the last. -/
theorem exists_next {cell next : Nat × T} (h : Seg heap a (front ++ cell :: next :: back) b) :
    ∃ first, heap.load a = .ok first ∧ ∃ p, first.next = some p := by
  cases front with
  | nil =>
    obtain ⟨-, _, -, hload, htail⟩ := h.load
    exact ⟨_, hload, _, htail.load.1⟩
  | cons _ _ =>
    obtain ⟨-, _, -, hload, htail⟩ := h.load
    exact ⟨_, hload, htail.exists_start⟩

/-- The chain from a pointer to nil is determined by the heap. -/
theorem unique {cells' : List (Nat × T)} (h : Seg heap a cells none) (h' : Seg heap a cells' none) :
    cells = cells' := by
  induction cells generalizing a cells' with
  | nil =>
    cases h
    exact h'.eq_nil_of_start_none.symm
  | cons cell rest ih =>
    obtain ⟨p, v⟩ := cell
    obtain ⟨rfl, next, hnode, -, htail⟩ := h.load
    cases h' with
    | cons hnode' htail' =>
      cases hnode.symm.trans hnode'
      rw [ih htail htail']

/-- A chain that ends passes no node twice: from the second visit it would go on as from the
first. -/
theorem nodup (h : Seg heap a cells none) : (cells.map Prod.fst).Nodup := by
  induction cells generalizing a with
  | nil => exact List.nodup_nil
  | cons cell rest ih =>
    obtain ⟨p, v⟩ := cell
    obtain ⟨rfl, next, -, -, htail⟩ := h.load
    refine List.nodup_cons.mpr ⟨fun hp => ?_, ih htail⟩
    obtain ⟨⟨q, w⟩, hmem, rfl⟩ := List.mem_map.mp hp
    obtain ⟨front, back, rfl⟩ := List.append_of_mem hmem
    obtain ⟨m, -, hback⟩ := htail.split
    have hagain : Seg heap (some q) ((q, w) :: back) none := hback.load.1 ▸ hback
    have hlength := congrArg List.length (h.unique hagain)
    simp at hlength
    omega

/-- The node in the middle of a chain that ends is passed nowhere else. -/
theorem notMem_of_split {v : T} (h : Seg heap a (front ++ (p, v) :: back) none) :
    p ∉ front.map Prod.fst ∧ p ∉ back.map Prod.fst := by
  have hnodup := h.nodup
  rw [List.map_append, List.map_cons, List.nodup_middle, List.nodup_cons, List.mem_append,
    not_or] at hnodup
  exact hnodup.1

theorem lt_length (h : Seg heap a cells b) (hp : p ∈ cells.map Prod.fst) : p < heap.length := by
  induction h with
  | nil => cases hp
  | cons hnode _ ih =>
    rcases List.mem_cons.mp hp with rfl | htail
    · exact (List.getElem?_eq_some_iff.mp hnode).1
    · exact ih htail

/-- A chain that ends is no longer than the heap. -/
theorem length_le (h : Seg heap a cells none) : cells.length ≤ heap.length := by
  have hsubset : (cells.map Prod.fst).toFinset ⊆ Finset.range heap.length := by
    intro p hp
    exact Finset.mem_range.mpr (h.lt_length (List.mem_toFinset.mp hp))
  have hcard := Finset.card_le_card hsubset
  rwa [List.toFinset_card_of_nodup h.nodup, Finset.card_range, List.length_map] at hcard

/-- Allocating a node keeps every chain. -/
theorem alloc (h : Seg heap a cells b) (node : Node T) : Seg (heap ++ [node]) a cells b := by
  induction h with
  | nil => exact .nil _
  | cons hnode _ ih =>
    have hlt := (List.getElem?_eq_some_iff.mp hnode).1
    exact .cons ((List.getElem?_append_left hlt).trans hnode) ih

/-- A chain that does not pass the node stays. -/
theorem setNext_of_notMem (h : Seg heap a cells b) (hp : p ∉ cells.map Prod.fst) :
    Seg (heap.setNext p next) a cells b := by
  induction h with
  | nil => exact .nil _
  | cons hnode _ ih =>
    rw [List.map_cons, List.mem_cons, not_or] at hp
    exact .cons ((getElem?_setNext_ne hp.1).trans hnode) (ih hp.2)

/-- A chain that ends with the node arrives where the store says. -/
theorem retarget {v : T} (h : Seg heap a (cells ++ [(p, v)]) b) (hp : p ∉ cells.map Prod.fst) :
    Seg (heap.setNext p next) a (cells ++ [(p, v)]) next := by
  obtain ⟨m, hfront, hlast⟩ := h.split
  obtain ⟨rfl, _, hnode, -, -⟩ := hlast.load
  exact (hfront.setNext_of_notMem hp).append (.single (getElem?_setNext_self hnode))

/-- Taking a node out of a chain: the node before it is linked to the one behind it. -/
theorem unlink {p q : Nat} {u w : T} (h : Seg heap a (front ++ [(p, u)] ++ (q, w) :: back) none) :
    ∃ next, heap[p]? = some ⟨u, some q⟩ ∧ heap[q]? = some ⟨w, next⟩ ∧
      Seg heap a (front ++ [(p, u)]) (some q) ∧ Seg heap next back none ∧
      Seg (heap.setNext p next) a (front ++ [(p, u)] ++ back) none := by
  have hp : p ∉ front.map Prod.fst ∧ p ∉ ((q, w) :: back).map Prod.fst := by
    rw [List.append_assoc] at h
    exact h.notMem_of_split
  obtain ⟨m, hfront, hback⟩ := h.split
  obtain ⟨rfl, next, hnode, -, htail⟩ := hback.load
  have hback' : p ∉ back.map Prod.fst := fun hmem => hp.2 (List.mem_cons_of_mem _ hmem)
  exact ⟨next, hfront.last_node, hnode, hfront, htail,
    (hfront.retarget hp.1).append (htail.setNext_of_notMem hback')⟩

end Seg

end Heap

end Photon.Lib
