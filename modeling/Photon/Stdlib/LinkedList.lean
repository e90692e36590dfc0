import Photon.Lib.Fallible
import Photon.Lib.LinkedHeap
import Photon.Lib.Machine

/-!
The list of `utils/stdlib/linkedlist.go` over a heap of nodes. `Prev` is never read or written by
its methods and is left out. Positions are `int`s and `pos - 1` wraps; the length is an integer
without a bound, as a list of `2^63` nodes does not fit into memory. A loop over pointers is given
one turn more than there are nodes; on a chain that ends this is never reached.
-/

namespace Photon.Stdlib

open Photon.Lib Heap

structure LinkedList (T : Type) where
  heap : Heap T
  head : Option Nat
  length : Int
deriving DecidableEq

namespace LinkedList

variable {T : Type}

/-- `NewLinkedList`, with nothing on the heap that a method could reach. -/
def new : LinkedList T := ⟨[], none, 0⟩

variable (ll : LinkedList T)

def count : Int := ll.length

def addAtBeg (val : T) : LinkedList T :=
  let n := ll.heap.length
  let heap := ll.heap ++ [⟨val, none⟩]
  ⟨heap.setNext n ll.head, some n, ll.length + 1⟩

/-- The loop of `AddAtEnd`: to the node without a next one. -/
def walkToLast (heap : Heap T) : Nat → Option Nat → Except Fault (Option Nat)
  | 0, _ => .error .looping
  | fuel + 1, cur => do
      let node ← heap.load cur
      match node.next with
      | none => return cur
      | some next => walkToLast heap fuel (some next)

def addAtEnd (val : T) : Except Fault (LinkedList T) :=
  let n := ll.heap.length
  let heap := ll.heap ++ [⟨val, none⟩]
  match ll.head with
  | none => .ok ⟨heap, some n, ll.length + 1⟩
  | some head => do
      let cur ← walkToLast heap (heap.length + 1) (some head)
      let heap ← heap.storeNext cur (some n)
      return ⟨heap, some head, ll.length + 1⟩

def delAtBeg [Inhabited T] : Except Fault (LinkedList T × T × Bool) :=
  match ll.head with
  | none => .ok (ll, default, false)
  | some head => do
      let cur ← ll.heap.load (some head)
      return ({ll with head := cur.next, length := ll.length - 1}, cur.val, true)

/-- The loop of `DelAtEnd`: to the node before the last. -/
def walkToSecondLast (heap : Heap T) : Nat → Option Nat → Except Fault (Option Nat)
  | 0, _ => .error .looping
  | fuel + 1, cur => do
      let node ← heap.load cur
      let next ← heap.load node.next
      match next.next with
      | none => return cur
      | some _ => walkToSecondLast heap fuel node.next

def delAtEnd [Inhabited T] : Except Fault (LinkedList T × T × Bool) :=
  match ll.head with
  | none => .ok (ll, default, false)
  | some head => do
      let first ← ll.heap.load (some head)
      match first.next with
      | none => ll.delAtBeg
      | some _ =>
        let cur ← walkToSecondLast ll.heap (ll.heap.length + 1) (some head)
        let node ← ll.heap.load cur
        let last ← ll.heap.load node.next
        let heap ← ll.heap.storeNext cur none
        return ({ll with heap := heap, length := ll.length - 1}, last.val, true)

/-- The loop of `DelByPos`, which makes `pos - 1` turns: the last two nodes it came to. -/
def advance (heap : Heap T) : Nat → Option Nat → Option Nat → Except Fault (Option Nat × Option Nat)
  | 0, prev, cur => .ok (prev, cur)
  | turns + 1, _, cur => do
      let node ← heap.load cur
      advance heap turns cur node.next

/-- `DelByPos` behind its switch. All reads stand before the store, so a nil dereference leaves
the list as it was. -/
def delBehind (turns : Nat) : Except Fault (LinkedList T × T × Bool) := do
  let (prev, cur) ← advance ll.heap turns none ll.head
  let node ← ll.heap.load cur
  let heap ← ll.heap.storeNext prev node.next
  return ({ll with heap := heap, length := ll.length - 1}, node.val, true)

def delByPos [Inhabited T] (pos : Int64) : Except Fault (LinkedList T × T × Bool) :=
  if ll.head = none then .ok (ll, default, false)
  else if (pos - 1).toInt > ll.length then .ok (ll, default, false)
  else if pos - 1 = 0 then ll.delAtBeg
  else if (pos - 1).toInt = ll.count then ll.delAtEnd
  else ll.delBehind (pos - 1).toInt.toNat

def reverseLoop : Nat → Heap T → Option Nat → Option Nat → Except Fault (Heap T × Option Nat)
  | _, heap, prev, none => .ok (heap, prev)
  | 0, _, _, some _ => .error .looping
  | fuel + 1, heap, prev, some cur => do
      let node ← heap.load (some cur)
      let heap ← heap.storeNext (some cur) prev
      reverseLoop fuel heap (some cur) node.next

def reverse : Except Fault (LinkedList T) := do
  let (heap, prev) ← reverseLoop (ll.heap.length + 1) ll.heap none ll.head
  return {ll with heap := heap, head := prev}

def checkRangeFromIndex (left right : Int64) : Option String :=
  if left > right then some "left boundary must smaller than right"
  else if left < 1 then some "left boundary starts from the first node"
  else if right.toInt > ll.length then
    some "right boundary cannot be greater than the length of the linked list"
  else none

/-- The first loop of `ReversePartition`. -/
def follow (heap : Heap T) : Nat → Option Nat → Except Fault (Option Nat)
  | 0, pre => .ok pre
  | turns + 1, pre => do
      let node ← heap.load pre
      follow heap turns node.next

/-- The second loop: the node behind `cur` is moved to the place behind `pre`. -/
def moveToFront (pre cur : Option Nat) : Nat → Heap T → Except Fault (Heap T)
  | 0, heap => .ok heap
  | turns + 1, heap => do
      let curNode ← heap.load cur
      let nextNode ← heap.load curNode.next
      let heap ← heap.storeNext cur nextNode.next
      let preNode ← heap.load pre
      let heap ← heap.storeNext curNode.next preNode.next
      let heap ← heap.storeNext pre curNode.next
      moveToFront pre cur turns heap

def reversePartition [Inhabited T] (left right : Int64) :
    Except Fault (LinkedList T × Option String) :=
  match ll.checkRangeFromIndex left right with
  | some err => .ok (ll, some err)
  | none => do
      let tmpNode := ll.heap.length
      let heap := ll.heap ++ [⟨default, ll.head⟩]
      let pre ← follow heap (left - 1).toInt.toNat (some tmpNode)
      let preNode ← heap.load pre
      let heap ← moveToFront pre preNode.next (right - left).toInt.toNat heap
      let tmp ← heap.load (some tmpNode)
      return ({ll with heap := heap, head := tmp.next}, none)

/-! ### Lists that hold a content -/

/-- The nodes reachable from the head, in their order, end at nil; the length is their number. -/
structure Chain (ll : LinkedList T) (cells : List (Nat × T)) : Prop where
  seg : Seg ll.heap ll.head cells none
  length : ll.length = cells.length

def Holds (l : List T) : Prop :=
  ∃ cells, ll.Chain cells ∧ cells.map Prod.snd = l

variable {ll : LinkedList T} {l : List T} {cells : List (Nat × T)}

theorem Holds.length (h : ll.Holds l) : ll.length = l.length := by
  obtain ⟨cells, hchain, rfl⟩ := h
  rw [hchain.length, List.length_map]

theorem holds_new : (new : LinkedList T).Holds [] := ⟨[], ⟨.nil none, rfl⟩, rfl⟩

theorem addAtBeg_holds (h : ll.Holds l) (val : T) : (ll.addAtBeg val).Holds (val :: l) := by
  obtain ⟨cells, hchain, rfl⟩ := h
  have hfresh : ll.heap.length ∉ cells.map Prod.fst := fun hmem =>
    Nat.lt_irrefl _ (hchain.seg.lt_length hmem)
  have hnode : (ll.heap ++ [⟨val, none⟩])[ll.heap.length]? = some ⟨val, none⟩ := by simp
  refine ⟨(ll.heap.length, val) :: cells, ⟨?_, ?_⟩, rfl⟩
  · exact .cons (getElem?_setNext_self hnode)
      ((hchain.seg.alloc ⟨val, none⟩).setNext_of_notMem hfresh)
  · show ll.length + 1 = _
    rw [hchain.length]
    rfl

/-- The walk ends at the last node of the chain, given more turns than nodes before it. -/
theorem walkToLast_eq {heap : Heap T} {p : Nat} {v : T} {cur : Option Nat}
    (h : Seg heap cur (cells ++ [(p, v)]) none) {fuel : Nat} (hfuel : cells.length < fuel) :
    walkToLast heap fuel cur = .ok (some p) := by
  induction cells generalizing cur fuel with
  | nil =>
    obtain ⟨fuel, rfl⟩ := Nat.exists_eq_succ_of_ne_zero hfuel.ne'
    obtain ⟨rfl, next, -, hload, htail⟩ := h.load
    cases htail.start_eq
    rw [walkToLast, hload]
    rfl
  | cons cell rest ih =>
    obtain ⟨fuel, rfl⟩ := Nat.exists_eq_succ_of_ne_zero (Nat.ne_zero_of_lt hfuel)
    obtain ⟨-, next, -, hload, htail⟩ := h.load
    have hnext := ih htail (Nat.lt_of_succ_lt_succ hfuel)
    obtain ⟨q, rfl⟩ := htail.exists_start
    rw [walkToLast, hload]
    exact hnext

theorem addAtEnd_holds (h : ll.Holds l) (val : T) :
    ∃ next, ll.addAtEnd val = .ok next ∧ next.Holds (l ++ [val]) := by
  obtain ⟨cells, hchain, rfl⟩ := h
  obtain ⟨hseg, hlength⟩ := hchain
  have hnode : (ll.heap ++ [⟨val, none⟩])[ll.heap.length]? = some ⟨val, none⟩ := by simp
  rcases List.eq_nil_or_concat' cells with rfl | ⟨front, ⟨p, v⟩, rfl⟩
  · have hhead := hseg.start_eq
    simp only [addAtEnd, hhead]
    refine ⟨_, rfl, [(ll.heap.length, val)], ⟨.single hnode, ?_⟩, rfl⟩
    simp [hlength]
  · have hfresh : ll.heap.length ∉ (front ++ [(p, v)]).map Prod.fst := fun hmem =>
      Nat.lt_irrefl _ (hseg.lt_length hmem)
    have hseg' := hseg.alloc (⟨val, none⟩ : Node T)
    have hne : p ≠ ll.heap.length := fun heq => hfresh (by simp [heq])
    have hkept : ((ll.heap ++ [⟨val, none⟩] : Heap T).setNext p (some ll.heap.length))[
        ll.heap.length]? = some ⟨val, none⟩ := (getElem?_setNext_ne hne).trans hnode
    have hwalk := walkToLast_eq hseg' (Nat.lt_succ_of_le ((by simp : front.length ≤ _).trans
      hseg'.length_le))
    obtain ⟨head, hhead⟩ := hseg.exists_start
    simp only [addAtEnd, hhead] at hwalk ⊢
    rw [hwalk, ok_bind, storeNext_some, ok_bind]
    refine ⟨_, rfl, front ++ [(p, v)] ++ [(ll.heap.length, val)], ⟨?_, ?_⟩, by simp⟩
    · rw [← hhead]
      exact (hseg'.retarget hseg.notMem_of_split.1).append (.single hkept)
    · show ll.length + 1 = _
      simp only [hlength, List.length_append, List.length_cons, List.length_nil]
      omega

theorem delAtBeg_holds [Inhabited T] {v : T} (h : ll.Holds (v :: l)) :
    ∃ next, ll.delAtBeg = .ok (next, v, true) ∧ next.Holds l := by
  obtain ⟨cells, ⟨hseg, hlength⟩, hvalues⟩ := h
  obtain ⟨⟨p, w⟩, rest, rfl, rfl, rfl⟩ := List.map_eq_cons_iff.mp hvalues
  obtain ⟨hhead, next, -, hload, htail⟩ := hseg.load
  simp only [delAtBeg, hhead] at hload ⊢
  rw [hload]
  refine ⟨_, rfl, rest, ⟨htail, ?_⟩, rfl⟩
  simp [hlength]

theorem walkToSecondLast_eq {heap : Heap T} {p q : Nat} {v w : T} {cur : Option Nat}
    (h : Seg heap cur (cells ++ [(p, v), (q, w)]) none) {fuel : Nat} (hfuel : cells.length < fuel) :
    walkToSecondLast heap fuel cur = .ok (some p) := by
  induction cells generalizing cur fuel with
  | nil =>
    obtain ⟨fuel, rfl⟩ := Nat.exists_eq_succ_of_ne_zero hfuel.ne'
    obtain ⟨rfl, next, -, hload, htail⟩ := h.load
    obtain ⟨-, last, -, hlast, hend⟩ := htail.load
    cases hend.start_eq
    rw [walkToSecondLast, hload, ok_bind, hlast]
    rfl
  | cons cell rest ih =>
    obtain ⟨fuel, rfl⟩ := Nat.exists_eq_succ_of_ne_zero (Nat.ne_zero_of_lt hfuel)
    obtain ⟨-, next, -, hload, htail⟩ := h.load
    have hwalk := ih htail (Nat.lt_of_succ_lt_succ hfuel)
    -- Two nodes are still behind this one, so the loop goes on.
    obtain ⟨second, hsecond, r, hr⟩ := htail.exists_next
    rw [walkToSecondLast, hload, ok_bind, hsecond, ok_bind]
    simp only [hr]
    exact hwalk

theorem delAtEnd_holds [Inhabited T] {v : T} (h : ll.Holds (l ++ [v])) :
    ∃ next, ll.delAtEnd = .ok (next, v, true) ∧ next.Holds l := by
  obtain ⟨cells, ⟨hseg, hlength⟩, hvalues⟩ := h
  obtain ⟨cells, last, rfl, rfl, hlast⟩ := List.map_eq_append_iff.mp hvalues
  obtain ⟨⟨q, w⟩, rest, rfl, rfl, hrest⟩ := List.map_eq_cons_iff.mp hlast
  cases List.map_eq_nil_iff.mp hrest
  obtain ⟨head, hhead⟩ := hseg.exists_start
  rcases List.eq_nil_or_concat' cells with rfl | ⟨front, ⟨p, u⟩, rfl⟩
  · -- The only node: `DelAtBeg` deletes it.
    have hone : ll.Holds [w] := ⟨[(q, w)], ⟨hseg, hlength⟩, rfl⟩
    obtain ⟨next, hdel, hnext⟩ := delAtBeg_holds hone
    obtain ⟨-, after, -, hload, htail⟩ := hseg.load
    cases htail.start_eq
    rw [hhead] at hload
    simp only [delAtEnd, hhead]
    rw [hload, ok_bind]
    exact ⟨next, hdel, hnext⟩
  · have htwo : Seg ll.heap ll.head (front ++ [(p, u), (q, w)]) none := by
      rwa [List.append_assoc] at hseg
    have hwalk := walkToSecondLast_eq htwo
      (Nat.lt_succ_of_le ((by simp : front.length ≤ _).trans hseg.length_le))
    obtain ⟨next, hnode, hlast, -, hend, hcut⟩ := hseg.unlink
    cases hend.start_eq
    obtain ⟨first, hfirst, r, hr⟩ := htwo.exists_next
    rw [hhead] at hfirst hwalk
    simp only [delAtEnd, hhead]
    rw [hfirst, ok_bind]
    simp only [hr]
    rw [hwalk, ok_bind, load_eq hnode, ok_bind, load_eq hlast, ok_bind, storeNext_some, ok_bind]
    refine ⟨_, rfl, front ++ [(p, u)], ⟨?_, ?_⟩, rfl⟩
    · rwa [List.append_nil, hhead] at hcut
    · show ll.length - 1 = _
      simp only [hlength, List.length_append, List.length_cons, List.length_nil]
      omega

/-- `turns` links further, with the node before. -/
theorem advance_eq {heap : Heap T} {q : Nat} {w : T} {cur stop : Option Nat}
    (h : Seg heap cur (cells ++ [(q, w)]) stop) (prev : Option Nat) :
    advance heap (cells.length + 1) prev cur = .ok (some q, stop) := by
  induction cells generalizing prev cur with
  | nil =>
    obtain ⟨rfl, next, -, hload, htail⟩ := h.load
    cases htail.start_eq
    rw [List.length_nil, advance, hload]
    rfl
  | cons cell rest ih =>
    obtain ⟨-, next, -, hload, htail⟩ := h.load
    rw [List.length_cons, advance, hload]
    exact ih htail cur

/-- Deletion of a node that has one before it. -/
theorem delBehind_holds {front back : List T} {u v : T} (h : ll.Holds (front ++ u :: v :: back)) :
    ∃ next, ll.delBehind (front.length + 1) = .ok (next, v, true) ∧
      next.Holds (front ++ u :: back) := by
  obtain ⟨cells, ⟨hseg, hlength⟩, hvalues⟩ := h
  obtain ⟨front, tail, rfl, rfl, htail⟩ := List.map_eq_append_iff.mp hvalues
  obtain ⟨⟨p, u⟩, tail, rfl, rfl, hrest⟩ := List.map_eq_cons_iff.mp htail
  obtain ⟨⟨q, v⟩, back, rfl, rfl, rfl⟩ := List.map_eq_cons_iff.mp hrest
  have hseg' : Seg ll.heap ll.head (front ++ [(p, u)] ++ (q, v) :: back) none := by
    rwa [List.append_assoc]
  obtain ⟨next, -, hnode, hfront, -, hcut⟩ := hseg'.unlink
  have hadvance := advance_eq hfront none
  rw [List.length_map, delBehind, hadvance, ok_bind]
  simp only [load_eq hnode, ok_bind, storeNext_some]
  refine ⟨_, rfl, front ++ [(p, u)] ++ back, ⟨hcut, ?_⟩, by simp⟩
  simp only [hlength, List.length_append, List.length_cons, List.length_nil]
  omega

/-- Without a turn there is no node before, and the store goes through nil. -/
theorem delBehind_zero {v : T} (h : ll.Holds (v :: l)) :
    ll.delBehind 0 = .error .nilDereference := by
  obtain ⟨cells, ⟨hseg, -⟩, hvalues⟩ := h
  obtain ⟨⟨p, w⟩, rest, rfl, -, -⟩ := List.map_eq_cons_iff.mp hvalues
  obtain ⟨-, next, -, hload, -⟩ := hseg.load
  rw [delBehind, advance, ok_bind]
  simp only [hload, ok_bind]
  rfl

end LinkedList

end Photon.Stdlib
