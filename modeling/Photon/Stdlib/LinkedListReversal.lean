import Photon.Lib.MachineInt
import Photon.Stdlib.LinkedList

/-!
Reversal in place. `Reverse` moves node after node from the front of the rest to the front of what
it has reversed; `ReversePartition` leaves `cur` where it is and moves the node behind it to the
place behind `pre`, so that the nodes between `pre` and `cur` are the reversed part.
-/

namespace Photon.Stdlib.LinkedList

open Photon.Lib Heap

variable {T : Type} {heap : Heap T}

/-- The invariant of `Reverse`: the rest from `cur` and the reversed part from `prev` share no
node. -/
theorem reverseLoop_eq {cells done : List (Nat × T)} {prev cur : Option Nat}
    (hcur : Seg heap cur cells none) (hprev : Seg heap prev done none)
    (hnodup : ((cells ++ done).map Prod.fst).Nodup) {fuel : Nat} (hfuel : cells.length < fuel) :
    ∃ heap' prev', reverseLoop fuel heap prev cur = .ok (heap', prev') ∧
      Seg heap' prev' (cells.reverse ++ done) none := by
  induction cells generalizing heap done prev cur fuel with
  | nil =>
    cases hcur.start_eq
    refine ⟨heap, prev, ?_, hprev⟩
    rw [reverseLoop]
  | cons cell rest ih =>
    obtain ⟨p, v⟩ := cell
    obtain ⟨fuel, rfl⟩ := Nat.exists_eq_succ_of_ne_zero (Nat.ne_zero_of_lt hfuel)
    obtain ⟨rfl, next, hnode, hload, htail⟩ := hcur.load
    rw [List.cons_append, List.map_cons, List.nodup_cons, List.map_append, List.mem_append,
      not_or] at hnodup
    obtain ⟨⟨hrest, hdone⟩, hboth⟩ := hnodup
    have hmoved : Seg (heap.setNext p prev) (some p) ((p, v) :: done) none :=
      .cons (getElem?_setNext_self hnode) (hprev.setNext_of_notMem hdone)
    have hnodup' : ((rest ++ (p, v) :: done).map Prod.fst).Nodup := by
      rw [List.map_append, List.map_cons, List.nodup_middle, List.nodup_cons, List.mem_append,
        not_or]
      exact ⟨⟨hrest, hdone⟩, hboth⟩
    obtain ⟨heap', prev', hloop, hseg⟩ := ih (htail.setNext_of_notMem hrest) hmoved hnodup'
      (Nat.lt_of_succ_lt_succ hfuel)
    refine ⟨heap', prev', ?_, ?_⟩
    · rw [reverseLoop, hload, ok_bind, storeNext_some, ok_bind]
      exact hloop
    · rw [List.reverse_cons, List.append_assoc]
      exact hseg

variable {ll : LinkedList T}

theorem reverse_holds {l : List T} (h : ll.Holds l) :
    ∃ next, ll.reverse = .ok next ∧ next.Holds l.reverse := by
  obtain ⟨cells, ⟨hseg, hlength⟩, rfl⟩ := h
  have hnodup : ((cells ++ []).map Prod.fst).Nodup := by
    rw [List.append_nil]
    exact hseg.nodup
  obtain ⟨heap', prev', hloop, hreversed⟩ :=
    reverseLoop_eq hseg (.nil none) hnodup (Nat.lt_succ_of_le hseg.length_le)
  rw [List.append_nil] at hreversed
  rw [reverse, hloop, ok_bind]
  refine ⟨_, rfl, cells.reverse, ⟨hreversed, ?_⟩, List.map_reverse⟩
  rw [List.length_reverse]
  exact hlength

theorem follow_eq {cells : List (Nat × T)} {pre stop : Option Nat} (h : Seg heap pre cells stop) :
    follow heap cells.length pre = .ok stop := by
  induction cells generalizing pre with
  | nil =>
    cases h.start_eq
    rfl
  | cons cell rest ih =>
    obtain ⟨-, next, -, hload, htail⟩ := h.load
    rw [List.length_cons, follow, hload]
    exact ih htail

/--
One turn of the second loop: the chain runs through `front`, `pre`, the nodes moved so far, `cur`
and the rest; the first node of the rest comes to stand behind `pre`.
-/
theorem moveToFront_step {start : Option Nat} {front moved rest : List (Nat × T)}
    {pre cur q : Nat} {u v w : T}
    (h : Seg heap start (front ++ [(pre, u)] ++ (moved ++ [(cur, v)] ++ (q, w) :: rest)) none)
    (turns : Nat) :
    ∃ heap', moveToFront (some pre) (some cur) (turns + 1) heap =
        moveToFront (some pre) (some cur) turns heap' ∧
      Seg heap' start (front ++ [(pre, u)] ++ ((q, w) :: moved ++ [(cur, v)] ++ rest)) none := by
  have hpre : pre ∉ front.map Prod.fst ∧
      pre ∉ (moved ++ [(cur, v)] ++ (q, w) :: rest).map Prod.fst := by
    rw [List.append_assoc] at h
    exact h.notMem_of_split
  have hcur : cur ∉ (front ++ [(pre, u)] ++ moved).map Prod.fst := by
    rw [List.append_assoc moved, ← List.append_assoc] at h
    exact h.notMem_of_split.1
  have hq : q ∉ (front ++ [(pre, u)] ++ (moved ++ [(cur, v)])).map Prod.fst ∧
      q ∉ rest.map Prod.fst := by
    rw [← List.append_assoc] at h
    exact h.notMem_of_split
  simp only [List.map_append, List.map_cons, List.map_nil, List.mem_append, List.mem_cons,
    not_or] at hpre hcur hq
  obtain ⟨m, hfront, hback⟩ := h.split
  obtain ⟨next, hnodeCur, hnodeQ, -, -, hcut⟩ := hback.unlink
  let heap₁ := heap.setNext cur next
  let heap₂ := heap₁.setNext q m
  let heap₃ := heap₂.setNext pre (some q)
  have hfront₁ : Seg heap₁ start (front ++ [(pre, u)]) m :=
    hfront.setNext_of_notMem (by simp [hcur])
  have hfront₃ : Seg heap₃ start (front ++ [(pre, u)]) (some q) :=
    (hfront₁.setNext_of_notMem (by simp [hq])).retarget hpre.1
  have hcut₂ : Seg heap₂ m (moved ++ [(cur, v)] ++ rest) none :=
    hcut.setNext_of_notMem (by simp [hq])
  have hnode₂ : heap₂[q]? = some ⟨w, m⟩ :=
    getElem?_setNext_self ((getElem?_setNext_ne (Ne.symm hq.1.2.2.1)).trans hnodeQ)
  have hback₃ : Seg heap₃ (some q) ((q, w) :: (moved ++ [(cur, v)] ++ rest)) none :=
    (Seg.cons hnode₂ hcut₂).setNext_of_notMem (by simp [hpre])
  refine ⟨heap₃, ?_, ?_⟩
  · rw [moveToFront, load_eq hnodeCur, ok_bind, load_eq hnodeQ, ok_bind, storeNext_some, ok_bind,
      load_eq hfront₁.last_node, ok_bind, storeNext_some, ok_bind, storeNext_some, ok_bind]
  · exact hfront₃.append hback₃

/-- The nodes moved by the second loop come out in reverse. -/
theorem moveToFront_eq {start : Option Nat} {front moved next rest : List (Nat × T)}
    {pre cur : Nat} {u v : T}
    (h : Seg heap start (front ++ [(pre, u)] ++ (moved ++ [(cur, v)] ++ (next ++ rest))) none) :
    ∃ heap', moveToFront (some pre) (some cur) next.length heap = .ok heap' ∧
      Seg heap' start
        (front ++ [(pre, u)] ++ (next.reverse ++ moved ++ [(cur, v)] ++ rest)) none := by
  induction next generalizing heap moved with
  | nil => exact ⟨heap, rfl, h⟩
  | cons cell next ih =>
    obtain ⟨q, w⟩ := cell
    obtain ⟨heap₁, hturn, hseg⟩ := moveToFront_step h next.length
    obtain ⟨heap', hloop, hseg'⟩ := ih hseg
    refine ⟨heap', hturn.trans hloop, ?_⟩
    rw [List.reverse_cons, List.append_assoc next.reverse]
    exact hseg'

variable {left right : Int64}

theorem checkRangeFromIndex_eq_none :
    ll.checkRangeFromIndex left right = none ↔
      1 ≤ left.toInt ∧ left.toInt ≤ right.toInt ∧ right.toInt ≤ ll.length := by
  have hone : (1 : Int64).toInt = 1 := rfl
  simp only [checkRangeFromIndex, gt_iff_lt, Int64.lt_iff_toInt_lt, hone]
  split_ifs <;> simp only [false_iff, true_iff] <;> omega

/-- With the boundaries inside, the part from `left` to `right` is reversed where it stands. -/
theorem reversePartition_holds [Inhabited T] {before part behind : List T} {v : T}
    (h : ll.Holds (before ++ v :: (part ++ behind))) (hleft : left.toInt = before.length + 1)
    (hright : right.toInt = left.toInt + part.length) :
    ∃ next, ll.reversePartition left right = .ok (next, none) ∧
      next.Holds (before ++ ((v :: part).reverse ++ behind)) := by
  have hcheck : ll.checkRangeFromIndex left right = none := by
    have hlength := h.length
    rw [List.length_append, List.length_cons, List.length_append] at hlength
    rw [checkRangeFromIndex_eq_none]
    omega
  have hone : (1 : Int64).toInt = 1 := rfl
  have hfollow : (left - 1).toInt.toNat = before.length := by
    have hlt := left.toInt_lt
    rw [toInt_sub_of_bounds (by omega) (by omega)]
    omega
  have hmove : (right - left).toInt.toNat = part.length := by
    have hlt := right.toInt_lt
    rw [toInt_sub_of_bounds (by omega) (by omega)]
    omega
  obtain ⟨cells, ⟨hseg, hlength⟩, hvalues⟩ := h
  obtain ⟨before, tail, rfl, rfl, htail⟩ := List.map_eq_append_iff.mp hvalues
  obtain ⟨⟨cur, v⟩, tail, rfl, rfl, hrest⟩ := List.map_eq_cons_iff.mp htail
  obtain ⟨part, behind, rfl, rfl, rfl⟩ := List.map_eq_append_iff.mp hrest
  rw [List.length_map] at hfollow hmove
  -- The node before the list, so that the node `pre` exists also when `left` is one.
  let tmp := ll.heap.length
  let heap : Heap T := ll.heap ++ [⟨default, ll.head⟩]
  have htmp : heap[tmp]? = some ⟨default, ll.head⟩ := by simp [heap, tmp]
  have hall : Seg heap (some tmp)
      ((tmp, default) :: (before ++ (cur, v) :: (part ++ behind))) none :=
    .cons htmp (hseg.alloc _)
  obtain ⟨front, ⟨pre, u⟩, hfront⟩ :
      ∃ front cell, (tmp, default) :: before = front ++ [cell] := by
    rcases List.eq_nil_or_concat' ((tmp, default) :: before) with hnil | hconcat
    · cases hnil
    · exact hconcat
  have hsize : front.length = before.length := by
    have hlen := congrArg List.length hfront
    simpa using hlen.symm
  rw [← List.cons_append, hfront] at hall
  obtain ⟨m, hpre, htail⟩ := hall.split
  obtain ⟨rfl, -⟩ := htail.load
  obtain ⟨m, hwalk, hlast⟩ := hpre.split
  obtain ⟨rfl, -⟩ := hlast.load
  have hfound := follow_eq hwalk
  have hstart : Seg heap (some tmp)
      (front ++ [(pre, u)] ++ ([] ++ [(cur, v)] ++ (part ++ behind))) none := hall
  obtain ⟨heap', hloop, hmoved⟩ := moveToFront_eq hstart
  rw [← hfront, List.cons_append] at hmoved
  obtain ⟨-, next, -, hload, hdone⟩ := hmoved.load
  rw [hsize] at hfound
  simp only [reversePartition, hcheck, hfollow, hmove]
  rw [hfound, ok_bind, load_eq hpre.last_node, ok_bind, hloop, ok_bind, hload, ok_bind]
  refine ⟨_, rfl, _, ⟨hdone, ?_⟩, ?_⟩
  · simp only [hlength, List.length_append, List.length_cons, List.length_reverse, List.length_nil]
    omega
  · simp

def reversedPart (l : List T) (left right : Nat) : List T :=
  l.take (left - 1) ++ (((l.take right).drop (left - 1)).reverse ++ l.drop right)

theorem reversedPart_append (before part behind : List T) (v : T) :
    reversedPart (before ++ v :: (part ++ behind)) (before.length + 1)
        (before.length + 1 + part.length) = before ++ ((v :: part).reverse ++ behind) := by
  have htake : (before ++ v :: (part ++ behind)).take (before.length + 1 + part.length) =
      before ++ v :: part := by
    rw [← List.cons_append, ← List.append_assoc]
    exact List.take_left' (by simp; omega)
  have hdrop : (before ++ v :: (part ++ behind)).drop (before.length + 1 + part.length) =
      behind := by
    rw [← List.cons_append, ← List.append_assoc]
    exact List.drop_left' (by simp; omega)
  rw [reversedPart, htake, hdrop, Nat.add_sub_cancel, List.take_left', List.drop_left'] <;> rfl

/-- Boundaries inside a list cut it into the part between them and the rest. -/
theorem exists_parts {l : List T} {skipped right : Nat} (hlt : skipped < right)
    (hright : right ≤ l.length) :
    ∃ before v part behind, l = before ++ v :: (part ++ behind) ∧ before.length = skipped ∧
      right = before.length + 1 + part.length := by
  have hbound : skipped < l.length := by omega
  refine ⟨l.take skipped, l[skipped], (l.drop (skipped + 1)).take (right - (skipped + 1)),
    (l.drop (skipped + 1)).drop (right - (skipped + 1)), ?_, ?_, ?_⟩
  · rw [List.take_append_drop, List.cons_getElem_drop_succ, List.take_append_drop]
  · rw [List.length_take]
    omega
  · rw [List.length_take, List.length_take, List.length_drop]
    omega

/-- Inside the list `ReversePartition` succeeds and reverses the part. -/
theorem reversePartition_inside [Inhabited T] {l : List T} (h : ll.Holds l)
    (hinside : 1 ≤ left.toInt ∧ left.toInt ≤ right.toInt ∧ right.toInt ≤ l.length) :
    ∃ next, ll.reversePartition left right = .ok (next, none) ∧
      next.Holds (reversedPart l left.toInt.toNat right.toInt.toNat) := by
  obtain ⟨hleft, hle, hright⟩ := hinside
  have hlt : left.toInt.toNat - 1 < right.toInt.toNat := by omega
  have hbound : right.toInt.toNat ≤ l.length := by omega
  obtain ⟨before, v, part, behind, rfl, hbefore, hr⟩ := exists_parts hlt hbound
  have hl : left.toInt.toNat = before.length + 1 := by omega
  rw [hr, hl, reversedPart_append]
  exact reversePartition_holds h (by omega) (by omega)

theorem reversedPart_all (l : List T) : reversedPart l 1 l.length = l.reverse := by
  simp [reversedPart]

theorem length_reversedPart {l : List T} {left right : Nat} (hle : left - 1 ≤ right)
    (hright : right ≤ l.length) : (reversedPart l left right).length = l.length := by
  simp only [reversedPart, List.length_append, List.length_take, List.length_reverse,
    List.length_drop]
  omega

/--
For every list content and all boundaries: `ReversePartition` succeeds exactly when they are in
order and inside, and then reverses the part between them; an error leaves the list. `Reverse`
does what `ReversePartition` from one to the length does, and twice it gives the content back.
-/
theorem reversePartition_spec [Inhabited T] (ll : LinkedList T) (l : List T) (h : ll.Holds l) :
    (∀ left right : Int64,
      if 1 ≤ left.toInt ∧ left.toInt ≤ right.toInt ∧ right.toInt ≤ l.length then
        ∃ next, ll.reversePartition left right = .ok (next, none) ∧
          next.Holds (reversedPart l left.toInt.toNat right.toInt.toNat) ∧ next.count = ll.count
      else ∃ err, ll.reversePartition left right = .ok (ll, some err)) ∧
    (∀ n : Int64, 1 ≤ n.toInt → n.toInt = l.length →
      ∃ reversed partition, ll.reverse = .ok reversed ∧
        ll.reversePartition 1 n = .ok (partition, none) ∧
        reversed.Holds l.reverse ∧ partition.Holds l.reverse) ∧
    ∃ once twice, ll.reverse = .ok once ∧ once.reverse = .ok twice ∧ twice.Holds l := by
  refine ⟨fun left right => ?_, fun n hpos hn => ?_, ?_⟩
  · split
    · next hinside =>
        obtain ⟨next, hrun, hnext⟩ := reversePartition_inside h hinside
        refine ⟨next, hrun, hnext, ?_⟩
        rw [count, count, hnext.length, h.length, length_reversedPart (by omega) (by omega)]
    · next houtside =>
        rw [← h.length, ← checkRangeFromIndex_eq_none] at houtside
        obtain ⟨err, herr⟩ := Option.ne_none_iff_exists'.mp houtside
        exact ⟨err, by rw [reversePartition, herr]⟩
  · have hone : (1 : Int64).toInt = 1 := rfl
    obtain ⟨reversed, hreverse, hreversed⟩ := reverse_holds h
    have hinside : 1 ≤ (1 : Int64).toInt ∧ (1 : Int64).toInt ≤ n.toInt ∧ n.toInt ≤ l.length := by
      omega
    obtain ⟨partition, hrun, hpartition⟩ := reversePartition_inside h hinside
    have hsize : n.toInt.toNat = l.length := by omega
    rw [hone, hsize, Int.toNat_one, reversedPart_all] at hpartition
    exact ⟨reversed, partition, hreverse, hrun, hreversed, hpartition⟩
  · obtain ⟨once, honce, hreversed⟩ := reverse_holds h
    obtain ⟨twice, htwice, hback⟩ := reverse_holds hreversed
    rw [List.reverse_reverse] at hback
    exact ⟨once, twice, honce, htwice, hback⟩

theorem reversePartition_of_three :
    ∃ ll : LinkedList Nat, ll.Holds [4, 5, 6] ∧
      ∃ next, ll.reversePartition 2 3 = .ok (next, none) ∧ next.Holds [4, 6, 5] := by
  refine ⟨((new.addAtBeg 6).addAtBeg 5).addAtBeg 4, ?_, ?_⟩
  · exact addAtBeg_holds (addAtBeg_holds (addAtBeg_holds holds_new 6) 5) 4
  · obtain ⟨next, hrun, hnext, -⟩ := (reversePartition_spec _ _
      (addAtBeg_holds (addAtBeg_holds (addAtBeg_holds holds_new 6) 5) 4)).1 2 3
    exact ⟨next, hrun, hnext⟩

end Photon.Stdlib.LinkedList
