import Mathlib.Data.List.AList
import Photon.Lib.Recency

/-!
The recency cache of `utils/stdlib/lru.go`. The bottom layer follows the
source: payloads live at addresses, the linked list is the list of addresses
from most to least recently used, and an index maps each key to the address of
its element. `RawLru.Wf` ties the three together; `Lru` carries that fact, so
clients only meet caches whose index and list agree. The results at the end
describe every operation on the list of keys alone.
-/

namespace Photon.Stdlib

open Photon.Lib Photon.Lib.Recency

variable {K V : Type}

/-- The fields of the source's `LRU`. `evict` is `none` for a nil hook and
otherwise the calls the hook has received so far. -/
structure RawLru (K V : Type) where
  cap : Nat
  heap : List (K × V)
  ll : List Nat
  items : AList (fun _ : K => Nat)
  evict : Option (List (K × V))

namespace RawLru

def keyAt (c : RawLru K V) (e : Nat) : Option K := (c.heap[e]?).map Prod.fst

variable {c : RawLru K V} {key : K} {e : Nat}

theorem keyAt_eq_some : c.keyAt e = some key ↔ ∃ value, c.heap[e]? = some (key, value) := by
  unfold keyAt
  constructor
  · intro h
    obtain ⟨⟨name, value⟩, hp, rfl⟩ := Option.map_eq_some_iff.mp h
    exact ⟨value, hp⟩
  · rintro ⟨value, hp⟩
    simp [hp]

variable [DecidableEq K]

/-- `container/list` leaves the list alone when the element is not on it. -/
def moveToFront (ll : List Nat) (e : Nat) : List Nat :=
  if e ∈ ll then e :: ll.erase e else ll

def new (capacity : Nat) (hook : Bool) : RawLru K V :=
  ⟨capacity, [], [], ∅, if hook then some [] else none⟩

def get (c : RawLru K V) (key : K) : RawLru K V × Option V :=
  match c.items.lookup key with
  | some e => ({c with ll := moveToFront c.ll e}, (c.heap[e]?).map Prod.snd)
  | none => (c, none)

def removeElement (c : RawLru K V) (e : Nat) (callEvict : Bool) : RawLru K V :=
  match c.heap[e]? with
  | some p => {c with
      ll := c.ll.erase e
      items := c.items.erase p.1
      evict := if callEvict then c.evict.map (· ++ [p]) else c.evict}
  | none => c

def evictTail (c : RawLru K V) : RawLru K V :=
  match c.ll.getLast? with
  | some e => c.removeElement e true
  | none => c

/-- The branch of `Set` that links a new element and indexes it. -/
def pushFront (c : RawLru K V) (key : K) (value : V) : RawLru K V :=
  {c with
    heap := c.heap ++ [(key, value)]
    ll := c.heap.length :: c.ll
    items := c.items.insert key c.heap.length}

def set (c : RawLru K V) (key : K) (value : V) : RawLru K V × Bool :=
  match c.items.lookup key with
  | some e => ({c with
      heap := c.heap.set e (key, value)
      ll := moveToFront c.ll e}, false)
  | none =>
    let pushed := c.pushFront key value
    if 0 < pushed.cap ∧ pushed.cap < pushed.ll.length then
      (pushed.evictTail, true)
    else (pushed, false)

def delete (c : RawLru K V) (key : K) : RawLru K V × Bool :=
  match c.items.lookup key with
  | some e => (c.removeElement e true, true)
  | none => (c, false)

def peek (c : RawLru K V) (key : K) : Option V :=
  match c.items.lookup key with
  | some e => (c.heap[e]?).map Prod.snd
  | none => none

/-- The hook is called for the elements from the back of the list to its front. -/
def purge (c : RawLru K V) : RawLru K V :=
  {c with
    ll := []
    items := ∅
    evict := c.evict.map (· ++ c.ll.reverse.filterMap fun e => c.heap[e]?)}

def keys (c : RawLru K V) : List K := c.ll.filterMap c.keyAt

def tailKey (c : RawLru K V) : Option K :=
  match c.ll.getLast? with
  | some e => c.keyAt e
  | none => none

/-- The list has no repeated element, every linked element is the one its key
is indexed to, and the index points at linked elements only. -/
structure Wf (c : RawLru K V) : Prop where
  nodup : c.ll.Nodup
  indexed : ∀ e ∈ c.ll, ∃ p, c.heap[e]? = some p ∧ c.items.lookup p.1 = some e
  linked : ∀ key e, c.items.lookup key = some e →
    e ∈ c.ll ∧ ∃ value, c.heap[e]? = some (key, value)

theorem mem_moveToFront {ll : List Nat} {e x : Nat} : x ∈ moveToFront ll e ↔ x ∈ ll := by
  unfold moveToFront
  split
  · next hmem =>
      by_cases hx : x = e
      · subst hx
        simp [hmem]
      · simp [hx, List.mem_erase_of_ne hx]
  · rfl

theorem nodup_moveToFront {ll : List Nat} (hnodup : ll.Nodup) (e : Nat) :
    (moveToFront ll e).Nodup := by
  unfold moveToFront
  split
  · exact List.nodup_cons.mpr ⟨hnodup.not_mem_erase, hnodup.erase e⟩
  · exact hnodup

theorem new_wf (capacity : Nat) (hook : Bool) : (new capacity hook : RawLru K V).Wf := by
  constructor
  · exact List.nodup_nil
  · intro e he
    cases he
  · intro key e he
    cases he

section

variable (h : c.Wf)
include h

theorem get_wf (key : K) : (c.get key).1.Wf := by
  unfold get
  split
  · next e he =>
      constructor
      · exact nodup_moveToFront h.nodup e
      · intro x hx
        exact h.indexed x (mem_moveToFront.mp hx)
      · intro name x hx
        obtain ⟨hmem, hvalue⟩ := h.linked name x hx
        exact ⟨mem_moveToFront.mpr hmem, hvalue⟩
  · exact h

/-- Removing a linked element also removes exactly its own index entry. -/
theorem removeElement_wf (he : e ∈ c.ll) (callEvict : Bool) : (c.removeElement e callEvict).Wf := by
  obtain ⟨p, hp, hindex⟩ := h.indexed e he
  unfold removeElement
  simp only [hp]
  constructor
  · exact h.nodup.erase e
  · intro x hx
    obtain ⟨hxe, hxl⟩ := h.nodup.mem_erase_iff.mp hx
    obtain ⟨q, hq, hqindex⟩ := h.indexed x hxl
    refine ⟨q, hq, ?_⟩
    have hkey : q.1 ≠ p.1 := by
      intro heq
      rw [heq, hindex] at hqindex
      exact hxe (Option.some.inj hqindex).symm
    exact (AList.lookup_erase_ne hkey).trans hqindex
  · intro name x hx
    have hname : name ≠ p.1 := by
      intro heq
      subst heq
      rw [AList.lookup_erase] at hx
      cases hx
    rw [AList.lookup_erase_ne hname] at hx
    obtain ⟨hmem, value, hvalue⟩ := h.linked name x hx
    have hxe : x ≠ e := by
      intro heq
      subst heq
      rw [hp] at hvalue
      exact hname (congrArg Prod.fst (Option.some.inj hvalue)).symm
    exact ⟨h.nodup.mem_erase_iff.mpr ⟨hxe, hmem⟩, value, hvalue⟩

theorem evictTail_wf : c.evictTail.Wf := by
  unfold evictTail
  split
  · next e he => exact removeElement_wf h (List.mem_of_getLast? he) true
  · exact h

theorem lt_length_of_mem (he : e ∈ c.ll) : e < c.heap.length := by
  obtain ⟨p, hp, _⟩ := h.indexed e he
  exact (List.getElem?_eq_some_iff.mp hp).1

theorem pushFront_wf (hmiss : c.items.lookup key = none) (value : V) :
    (c.pushFront key value).Wf := by
  unfold pushFront
  constructor
  · refine List.nodup_cons.mpr ⟨?_, h.nodup⟩
    intro hmem
    exact Nat.lt_irrefl _ (lt_length_of_mem h hmem)
  · intro x hx
    rcases List.mem_cons.mp hx with rfl | hx
    · exact ⟨(key, value), by simp, AList.lookup_insert _⟩
    · obtain ⟨p, hp, hindex⟩ := h.indexed x hx
      have hkey : p.1 ≠ key := by
        intro heq
        rw [heq, hmiss] at hindex
        cases hindex
      refine ⟨p, ?_, (AList.lookup_insert_ne hkey).trans hindex⟩
      exact (List.getElem?_append_left (lt_length_of_mem h hx)).trans hp
  · intro name x hx
    by_cases hname : name = key
    · subst hname
      rw [AList.lookup_insert] at hx
      cases hx
      exact ⟨List.mem_cons_self, value, by simp⟩
    · rw [AList.lookup_insert_ne hname] at hx
      obtain ⟨hmem, stored, hstored⟩ := h.linked name x hx
      refine ⟨List.mem_cons_of_mem _ hmem, stored, ?_⟩
      exact (List.getElem?_append_left (lt_length_of_mem h hmem)).trans hstored

/-- Overwriting the payload of the element a key is indexed to keeps its key. -/
theorem set_hit_wf (hhit : c.items.lookup key = some e) (value : V) :
    ({c with
      heap := c.heap.set e (key, value)
      ll := moveToFront c.ll e} : RawLru K V).Wf := by
  obtain ⟨hmem, old, hold⟩ := h.linked key e hhit
  have hlt := lt_length_of_mem h hmem
  constructor
  · exact nodup_moveToFront h.nodup e
  · intro x hx
    obtain ⟨p, hp, hindex⟩ := h.indexed x (mem_moveToFront.mp hx)
    by_cases hxe : x = e
    · subst hxe
      exact ⟨(key, value), by simp [hlt], hhit⟩
    · exact ⟨p, by simpa [List.getElem?_set_ne (Ne.symm hxe)] using hp, hindex⟩
  · intro name x hx
    obtain ⟨hxl, stored, hstored⟩ := h.linked name x hx
    refine ⟨mem_moveToFront.mpr hxl, ?_⟩
    by_cases hxe : x = e
    · subst hxe
      have hname : name = key := by
        rw [hold] at hstored
        exact (congrArg Prod.fst (Option.some.inj hstored)).symm
      exact ⟨value, by simp [hlt, hname]⟩
    · exact ⟨stored, by simpa [List.getElem?_set_ne (Ne.symm hxe)] using hstored⟩

theorem set_wf (key : K) (value : V) : (c.set key value).1.Wf := by
  unfold set
  split
  · next e he => exact set_hit_wf h he value
  · next hmiss =>
      have hpushed := pushFront_wf h hmiss value
      dsimp only
      split
      · exact evictTail_wf hpushed
      · exact hpushed

theorem delete_wf (key : K) : (c.delete key).1.Wf := by
  unfold delete
  split
  · next e he => exact removeElement_wf h (h.linked key e he).1 true
  · exact h

end

theorem purge_wf (c : RawLru K V) : c.purge.Wf := by
  constructor
  · exact List.nodup_nil
  · intro e he
    cases he
  · intro key e he
    cases he

/-- Among linked elements the key determines the element. -/
theorem Wf.address_unique (h : c.Wf) {x e : Nat} (hx : x ∈ c.ll) (hkey : c.keyAt x = some key)
    (hindex : c.items.lookup key = some e) :
    x = e := by
  obtain ⟨p, hp, hlookup⟩ := h.indexed x hx
  obtain ⟨value, hvalue⟩ := keyAt_eq_some.mp hkey
  rw [hp] at hvalue
  cases hvalue
  exact Option.some.inj (hlookup.symm.trans hindex)

theorem Wf.mem_keys (h : c.Wf) : key ∈ c.keys ↔ key ∈ c.items := by
  unfold keys
  rw [List.mem_filterMap, ← AList.lookup_isSome, Option.isSome_iff_exists]
  constructor
  · rintro ⟨e, he, hkey⟩
    obtain ⟨p, hp, hlookup⟩ := h.indexed e he
    obtain ⟨value, hvalue⟩ := keyAt_eq_some.mp hkey
    rw [hp] at hvalue
    cases hvalue
    exact ⟨e, hlookup⟩
  · rintro ⟨e, he⟩
    obtain ⟨hmem, hvalue⟩ := h.linked key e he
    exact ⟨e, hmem, keyAt_eq_some.mpr hvalue⟩

theorem Wf.keys_nodup (h : c.Wf) : c.keys.Nodup := by
  apply List.pairwise_filterMap.mpr
  refine h.nodup.imp_of_mem ?_
  intro x y hx hy hne key hkey name hname heq
  subst heq
  obtain ⟨p, hp, hlookup⟩ := h.indexed x hx
  obtain ⟨value, hvalue⟩ := keyAt_eq_some.mp hkey
  rw [hp] at hvalue
  cases hvalue
  exact hne (h.address_unique hy hname hlookup).symm

def pairs (c : RawLru K V) : List (K × V) := c.ll.filterMap (c.heap[·]?)

omit [DecidableEq K] in
theorem keys_eq_map_pairs (c : RawLru K V) : c.keys = c.pairs.map Prod.fst := by
  rw [pairs, List.map_filterMap]
  rfl

theorem Wf.pairs_nodup (h : c.Wf) : (c.pairs.map Prod.fst).Nodup := by
  rw [← keys_eq_map_pairs]
  exact h.keys_nodup

theorem Wf.length_pairs (h : c.Wf) : c.pairs.length = c.ll.length := by
  have hall : ∀ e ∈ c.ll, (c.heap[e]?).isSome := by
    intro e he
    obtain ⟨p, hp, _⟩ := h.indexed e he
    simp [hp]
  exact List.filterMap_length_eq_length.mpr hall

section

variable (h : c.Wf) (hindex : c.items.lookup key = some e)
include h hindex

/-- Unlinking an indexed element takes the pair of its key away. -/
theorem Wf.filterMap_erase : (c.ll.erase e).filterMap (c.heap[·]?) = without key c.pairs := by
  obtain ⟨-, value, hvalue⟩ := h.linked key e hindex
  rw [h.nodup.erase_eq_filter, List.filterMap_filter, without, pairs, List.filter_filterMap]
  refine List.filterMap_congr fun x hx => ?_
  obtain ⟨p, hp, hown⟩ := h.indexed x hx
  by_cases hxe : x = e
  · subst hxe
    cases hvalue.symm.trans hp
    simp [hvalue, Option.filter]
  · have hkey : p.1 ≠ key := by
      rintro rfl
      exact hxe (Option.some.inj (hown.symm.trans hindex))
    simp [hxe, hp, hkey, Option.filter]

/-- Moving an indexed element to the front moves its pair to the front. -/
theorem Wf.filterMap_moveToFront {value : V} (hvalue : c.heap[e]? = some (key, value)) :
    (moveToFront c.ll e).filterMap (c.heap[·]?) = promote key value c.pairs := by
  rw [moveToFront, if_pos (h.linked key e hindex).1, List.filterMap_cons_some hvalue,
    h.filterMap_erase hindex]
  rfl

theorem Wf.pairs_get {value : V} (hvalue : c.heap[e]? = some (key, value)) :
    (c.get key).1.pairs = promote key value c.pairs := by
  simp only [get, hindex]
  exact h.filterMap_moveToFront hindex hvalue

/-- Storing an indexed key overwrites its payload and moves it to the front. -/
theorem Wf.pairs_set_hit (value : V) : (c.set key value).1.pairs = promote key value c.pairs := by
  obtain ⟨hmem, old, -⟩ := h.linked key e hindex
  have hown : (c.heap.set e (key, value))[e]? = some (key, value) := by
    simp [lt_length_of_mem h hmem]
  have hothers : (c.ll.erase e).filterMap ((c.heap.set e (key, value))[·]?) =
      (c.ll.erase e).filterMap (c.heap[·]?) := by
    refine List.filterMap_congr fun x hx => ?_
    have hne : e ≠ x := (h.nodup.mem_erase_iff.mp hx).1.symm
    simp [List.getElem?_set_ne hne]
  simp only [set, hindex]
  change (moveToFront c.ll e).filterMap ((c.heap.set e (key, value))[·]?) = _
  rw [moveToFront, if_pos hmem, List.filterMap_cons_some hown, hothers, h.filterMap_erase hindex]
  rfl

end

theorem Wf.pairs_pushFront (h : c.Wf) (key : K) (value : V) :
    (c.pushFront key value).pairs = (key, value) :: c.pairs := by
  have hown : (c.heap ++ [(key, value)])[c.heap.length]? = some (key, value) := by simp
  have hothers : c.ll.filterMap ((c.heap ++ [(key, value)])[·]?) = c.pairs :=
    List.filterMap_congr fun x hx => List.getElem?_append_left (lt_length_of_mem h hx)
  change (c.heap.length :: c.ll).filterMap ((c.heap ++ [(key, value)])[·]?) = _
  rw [List.filterMap_cons_some hown, hothers]

theorem Wf.pairs_delete (h : c.Wf) (hindex : c.items.lookup key = some e) :
    (c.delete key).1.pairs = without key c.pairs := by
  obtain ⟨-, value, hvalue⟩ := h.linked key e hindex
  simp only [delete, hindex, removeElement, hvalue]
  exact h.filterMap_erase hindex

/-- Evicting the tail takes the last pair away and hands it to the hook. -/
theorem Wf.evictTail_eq (h : c.Wf) :
    c.evictTail.pairs = c.pairs.dropLast ∧
      c.evictTail.evict = c.evict.map (· ++ c.pairs.getLast?.toList) := by
  unfold evictTail
  cases hlast : c.ll.getLast? with
  | none =>
    have hempty : c.pairs = [] := by
      rw [pairs, List.getLast?_eq_none_iff.mp hlast, List.filterMap_nil]
    simp [hempty]
  | some e =>
    obtain ⟨front, hfront⟩ := List.getLast?_eq_some_iff.mp hlast
    obtain ⟨p, hp, -⟩ := h.indexed e (List.mem_of_getLast? hlast)
    have hpairs : c.pairs = front.filterMap (c.heap[·]?) ++ [p] := by
      rw [pairs, hfront, List.filterMap_append, List.filterMap_cons_some hp, List.filterMap_nil]
    have hfresh : e ∉ front := by
      have hnodup := h.nodup
      rw [hfront, List.nodup_append] at hnodup
      exact fun hmem => hnodup.2.2 e hmem e List.mem_cons_self rfl
    have herase : c.ll.erase e = front := by
      rw [hfront, List.erase_append_right _ hfresh, List.erase_cons_head, List.append_nil]
    simp only [removeElement, hp, if_true, hpairs, List.dropLast_concat, List.getLast?_concat,
      Option.toList_some]
    exact ⟨by rw [pairs, herase], trivial⟩

/-- An absent key becomes the first pair, and at a full positive capacity the last
pair leaves. -/
theorem Wf.set_miss (h : c.Wf) (hmiss : c.items.lookup key = none) (value : V) :
    (c.set key value).1.pairs = (enter c.cap key value c.pairs).1 ∧
    (c.set key value).1.evict = c.evict.map (· ++ (enter c.cap key value c.pairs).2) ∧
    (c.set key value).2 = decide (0 < c.cap ∧ c.cap ≤ c.pairs.length) := by
  have hpushed := pushFront_wf h hmiss value
  have hpairs := h.pairs_pushFront key value
  have hlimit : (0 < (c.pushFront key value).cap ∧
      (c.pushFront key value).cap < (c.pushFront key value).ll.length) ↔
      0 < c.cap ∧ c.cap ≤ c.pairs.length := by
    rw [h.length_pairs]
    exact and_congr_right fun _ => Nat.lt_succ_iff
  by_cases hfull : 0 < c.cap ∧ c.cap ≤ c.pairs.length
  · obtain ⟨hkept, hevict⟩ := hpushed.evictTail_eq
    have hne : c.pairs ≠ [] := List.ne_nil_of_length_pos (by omega)
    simp only [set, hmiss, if_pos (hlimit.mpr hfull), enter, if_pos hfull, hkept, hevict, hpairs,
      List.dropLast_cons_of_ne_nil hne, decide_eq_true hfull]
    refine ⟨trivial, ?_, trivial⟩
    rw [List.getLast?_cons_of_ne_nil hne]
    rfl
  · simp only [set, hmiss, if_neg (hlimit.not.mpr hfull), enter, if_neg hfull, hpairs,
      List.append_nil, decide_eq_false hfull]
    exact ⟨trivial, Option.map_id'.symm ▸ rfl, trivial⟩

@[simp]
theorem cap_set (c : RawLru K V) (key : K) (value : V) : (c.set key value).1.cap = c.cap := by
  unfold set
  split
  · rfl
  · dsimp only
    split
    · unfold evictTail removeElement
      split
      · split <;> rfl
      · rfl
    · rfl

theorem Wf.keys_promote (h : c.Wf) (key : K) (value : V) :
    (promote key value c.pairs).map Prod.fst = key :: c.keys.erase key := by
  rw [keys_eq_map_pairs, ← map_fst_without h.pairs_nodup]
  rfl

theorem Wf.keys_get (h : c.Wf) (hmem : key ∈ c.keys) :
    (c.get key).1.keys = key :: c.keys.erase key := by
  obtain ⟨e, he⟩ := Option.isSome_iff_exists.mp
    (AList.lookup_isSome.mpr (h.mem_keys.mp hmem))
  obtain ⟨-, value, hvalue⟩ := h.linked key e he
  rw [keys_eq_map_pairs (c.get key).1, h.pairs_get he hvalue, h.keys_promote]

theorem Wf.keys_delete (h : c.Wf) (key : K) : (c.delete key).1.keys = c.keys.erase key := by
  cases hindex : c.items.lookup key with
  | some e =>
    rw [keys_eq_map_pairs (c.delete key).1, h.pairs_delete hindex,
      map_fst_without h.pairs_nodup, keys_eq_map_pairs]
  | none =>
    have habsent : key ∉ c.keys := by
      rw [h.mem_keys]
      exact AList.lookup_eq_none.mp hindex
    simp only [delete, hindex]
    exact (List.erase_of_not_mem habsent).symm

/-- With no entry limit, storing a key always makes it the most recent one and
evicts nothing. -/
theorem Wf.keys_set (h : c.Wf) (hcap : c.cap = 0) (key : K) (value : V) :
    (c.set key value).1.keys = key :: c.keys.erase key := by
  rw [keys_eq_map_pairs (c.set key value).1]
  cases hindex : c.items.lookup key with
  | some e => rw [h.pairs_set_hit hindex, h.keys_promote]
  | none =>
    have habsent : key ∉ c.keys := by
      rw [h.mem_keys]
      exact AList.lookup_eq_none.mp hindex
    rw [(h.set_miss hindex value).1, List.erase_of_not_mem habsent, keys_eq_map_pairs]
    simp [enter, hcap]

/-- Every linked element has a key, so the last address names the last key. -/
theorem Wf.tailKey_eq (h : c.Wf) : c.tailKey = c.keys.getLast? := by
  unfold tailKey keys
  cases hlast : c.ll.getLast? with
  | none =>
    rw [List.getLast?_eq_none_iff] at hlast
    simp [hlast]
  | some e =>
    obtain ⟨front, hfront⟩ := List.getLast?_eq_some_iff.mp hlast
    obtain ⟨p, hp, _⟩ := h.indexed e (List.mem_of_getLast? hlast)
    have hkey : c.keyAt e = some p.1 := keyAt_eq_some.mpr ⟨p.2, hp⟩
    rw [hfront, List.filterMap_append]
    simp [hkey]

end RawLru

structure Lru (K V : Type) [DecidableEq K] where
  raw : RawLru K V
  wf : raw.Wf

namespace Lru

variable [DecidableEq K]

def new (capacity : Nat) (hook : Bool) : Lru K V :=
  ⟨RawLru.new capacity hook, RawLru.new_wf capacity hook⟩

def get (c : Lru K V) (key : K) : Lru K V × Option V :=
  (⟨(c.raw.get key).1, RawLru.get_wf c.wf key⟩, (c.raw.get key).2)

def set (c : Lru K V) (key : K) (value : V) : Lru K V × Bool :=
  (⟨(c.raw.set key value).1, RawLru.set_wf c.wf key value⟩, (c.raw.set key value).2)

def delete (c : Lru K V) (key : K) : Lru K V × Bool :=
  (⟨(c.raw.delete key).1, RawLru.delete_wf c.wf key⟩, (c.raw.delete key).2)

def keys (c : Lru K V) : List K := c.raw.keys

def tailKey (c : Lru K V) : Option K := c.raw.tailKey

def cap (c : Lru K V) : Nat := c.raw.cap

variable (c : Lru K V)

theorem keys_nodup : c.keys.Nodup := c.wf.keys_nodup

@[simp]
theorem keys_new (capacity : Nat) (hook : Bool) : (new capacity hook : Lru K V).keys = [] := rfl

theorem keys_get {key : K} (hmem : key ∈ c.keys) :
    (c.get key).1.keys = key :: c.keys.erase key := c.wf.keys_get hmem

@[simp]
theorem keys_delete (key : K) : (c.delete key).1.keys = c.keys.erase key := c.wf.keys_delete key

theorem keys_set (hcap : c.cap = 0) (key : K) (value : V) :
    (c.set key value).1.keys = key :: c.keys.erase key := c.wf.keys_set hcap key value

theorem tailKey_eq : c.tailKey = c.keys.getLast? := c.wf.tailKey_eq

theorem keys_get_of_not_mem {key : K} (habsent : key ∉ c.keys) : (c.get key).1.keys = c.keys := by
  have hmiss : c.raw.items.lookup key = none := by
    rw [AList.lookup_eq_none, ← c.wf.mem_keys]
    exact habsent
  simp [get, keys, RawLru.get, hmiss]

/-- A lookup reorders the keys and keeps their set. -/
theorem mem_keys_get (key name : K) : name ∈ (c.get key).1.keys ↔ name ∈ c.keys := by
  by_cases hmem : key ∈ c.keys
  · rw [c.keys_get hmem]
    exact (List.perm_cons_erase hmem).mem_iff.symm
  · rw [c.keys_get_of_not_mem hmem]

theorem mem_keys_delete (key name : K) :
    name ∈ (c.delete key).1.keys ↔ name ≠ key ∧ name ∈ c.keys := by
  rw [keys_delete]
  exact c.keys_nodup.mem_erase_iff

@[simp]
theorem cap_get (key : K) : (c.get key).1.cap = c.cap := by
  simp only [get, cap, RawLru.get]
  split <;> rfl

@[simp]
theorem cap_delete (key : K) : (c.delete key).1.cap = c.cap := by
  simp only [delete, cap, RawLru.delete, RawLru.removeElement]
  split
  · split <;> rfl
  · rfl

theorem cap_set (hcap : c.cap = 0) (key : K) (value : V) : (c.set key value).1.cap = 0 :=
  (RawLru.cap_set c.raw key value).trans hcap

end Lru

end Photon.Stdlib
