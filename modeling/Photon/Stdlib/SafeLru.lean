import Photon.Lib.ReadersWriter
import Photon.Stdlib.Lru

/-!
`SafeLRU` of `utils/stdlib/lru.go`, with the steps of its calls. The methods of
`syncRWMutexImpl`, which `NewSafeLRU` builds its lock from, do nothing, so the calls
of several goroutines interleave in any way. A list operation on an element that is
not linked leaves the list alone.
-/

namespace Photon.Stdlib.SafeLru

open Photon.Lib

variable {K V : Type}

inductive Op (K V : Type) where
  | set (key : K) (value : V)
  | get (key : K)
  | peek (key : K)
  | delete (key : K)
  | purge
  | len
deriving DecidableEq

inductive Result (V : Type) where
  | flag (b : Bool)
  | value (v : Option V)
  | count (n : Nat)
  | done
deriving DecidableEq

inductive Pc (K V : Type) where
  | setLookup (key : K) (value : V)
  | setValue (e : Nat) (key : K) (value : V)
  | setMove (e : Nat)
  | setPush (key : K) (value : V)
  | setStore (key : K) (e : Nat)
  | setLimit
  | evictBack
  | getLookup (key : K)
  | getMove (e : Nat)
  | peekLookup (key : K)
  | readValue (e : Nat)
  | deleteLookup (key : K)
  | remove (e : Nat)
  | unindex (e : Nat)
  | callEvict (p : K × V)
  | purgeStart
  | purgeEvict (e : Option Nat)
  | purgeInit
  | purgeItems
  | readLen
deriving DecidableEq

def reads : Op K V → Bool
  | .peek _ => true
  | .len => true
  | _ => false

def start : Op K V → Pc K V
  | .set key value => .setLookup key value
  | .get key => .getLookup key
  | .peek key => .peekLookup key
  | .delete key => .deleteLookup key
  | .purge => .purgeStart
  | .len => .readLen

def prevOf : List Nat → Nat → Option Nat
  | front :: next :: rest, e => if next = e then some front else prevOf (next :: rest) e
  | _, _ => none

variable [DecidableEq K]

def bodyStep (pc : Pc K V) (c : RawLru K V) : RawLru K V × (Pc K V ⊕ Result V) :=
  match pc with
  | .setLookup key value =>
    match c.items.lookup key with
    | some e => (c, .inl (.setValue e key value))
    | none => (c, .inl (.setPush key value))
  | .setValue e key value => ({c with heap := c.heap.set e (key, value)}, .inl (.setMove e))
  | .setMove e => ({c with ll := RawLru.moveToFront c.ll e}, .inr (.flag false))
  | .setPush key value =>
    ({c with heap := c.heap ++ [(key, value)], ll := c.heap.length :: c.ll},
      .inl (.setStore key c.heap.length))
  | .setStore key e => ({c with items := c.items.insert key e}, .inl .setLimit)
  | .setLimit =>
    if 0 < c.cap ∧ c.cap < c.ll.length then (c, .inl .evictBack) else (c, .inr (.flag false))
  | .evictBack =>
    match c.ll.getLast? with
    | some e => (c, .inl (.remove e))
    | none => (c, .inr (.flag true))
  | .getLookup key =>
    match c.items.lookup key with
    | some e => (c, .inl (.getMove e))
    | none => (c, .inr (.value none))
  | .getMove e => ({c with ll := RawLru.moveToFront c.ll e}, .inl (.readValue e))
  | .peekLookup key =>
    match c.items.lookup key with
    | some e => (c, .inl (.readValue e))
    | none => (c, .inr (.value none))
  | .readValue e => (c, .inr (.value ((c.heap[e]?).map Prod.snd)))
  | .deleteLookup key =>
    match c.items.lookup key with
    | some e => (c, .inl (.remove e))
    | none => (c, .inr (.flag false))
  | .remove e => ({c with ll := c.ll.erase e}, .inl (.unindex e))
  | .unindex e =>
    match c.heap[e]? with
    | some p => ({c with items := c.items.erase p.1},
        if c.evict.isSome then .inl (.callEvict p) else .inr (.flag true))
    | none => (c, .inr (.flag true))
  | .callEvict p => ({c with evict := c.evict.map (· ++ [p])}, .inr (.flag true))
  | .purgeStart =>
    (c, if c.evict.isSome then .inl (.purgeEvict c.ll.getLast?) else .inl .purgeInit)
  | .purgeEvict none => (c, .inl .purgeInit)
  | .purgeEvict (some e) =>
    ({c with evict := c.evict.map (· ++ (c.heap[e]?).toList)}, .inl (.purgeEvict (prevOf c.ll e)))
  | .purgeInit => ({c with ll := []}, .inl .purgeItems)
  | .purgeItems =>
    match c.items.entries with
    | entry :: _ => ({c with items := c.items.erase entry.1}, .inl .purgeItems)
    | [] => (c, .inr .done)
  | .readLen => (c, .inr (.count c.ll.length))

def quiet : Pc K V → Bool
  | .peekLookup _ => true
  | .readValue _ => true
  | .readLen => true
  | _ => false

def object (K V : Type) [DecidableEq K] :
    SharedObject (RawLru K V) (Op K V) (Pc K V) (Result V) where
  reads := reads
  start := start
  step := bodyStep
  Quiet pc := quiet pc = true
  quiet_start op h := by
    cases op with
    | peek _ | len => rfl
    | set _ _ | get _ | delete _ | purge => cases h
  quiet_step pc c h := by
    cases pc with
    | peekLookup key =>
      simp only [bodyStep]
      split <;> rfl
    | readValue _ | readLen => rfl
    | _ => cases h
  quiet_next pc c next h hnext := by
    cases pc with
    | peekLookup key =>
      simp only [bodyStep] at hnext
      split at hnext
      · cases hnext
        rfl
      · cases hnext
    | readValue _ | readLen => cases hnext
    | _ => cases h

def perform (c : RawLru K V) : Op K V → RawLru K V × Result V
  | .set key value => ((c.set key value).1, .flag (c.set key value).2)
  | .get key => ((c.get key).1, .value (c.get key).2)
  | .peek key => (c, .value (c.peek key))
  | .delete key => ((c.delete key).1, .flag (c.delete key).2)
  | .purge => (c.purge, .done)
  | .len => (c, .count c.ll.length)

def performAll (c : RawLru K V) : List (Op K V) → RawLru K V × List (Result V)
  | [] => (c, [])
  | op :: ops =>
    let (next, result) := perform c op
    let (final, results) := performAll next ops
    (final, result :: results)

section Bodies

variable {c : RawLru K V}

theorem exec_remove {e : Nat} {p : K × V} (hp : c.heap[e]? = some p) :
    (object K V).Exec (.remove e) c (c.removeElement e true) (.flag true) := by
  obtain ⟨cap, heap, ll, items, evict⟩ := c
  have hp : heap[e]? = some p := hp
  have hremoved : RawLru.removeElement ⟨cap, heap, ll, items, evict⟩ e true =
      ⟨cap, heap, ll.erase e, items.erase p.1, evict.map (· ++ [p])⟩ := by
    simp [RawLru.removeElement, hp]
  have hunindex : bodyStep (.unindex e) ⟨cap, heap, ll.erase e, items, evict⟩ =
      (⟨cap, heap, ll.erase e, items.erase p.1, evict⟩,
        if evict.isSome then .inl (.callEvict p) else .inr (.flag true)) := by
    simp [bodyStep, hp]
  rw [hremoved]
  cases evict with
  | none => exact .more rfl (.last hunindex)
  | some calls => exact .more rfl (.more hunindex (.last rfl))

theorem exec_set (hc : c.Wf) (key : K) (value : V) :
    (object K V).Exec (.setLookup key value) c (c.set key value).1 (.flag (c.set key value).2) := by
  cases hhit : c.items.lookup key with
  | some e =>
    have hlookup : bodyStep (.setLookup key value) c = (c, .inl (.setValue e key value)) := by
      simp [bodyStep, hhit]
    have hset : c.set key value = ({c with
        heap := c.heap.set e (key, value), ll := RawLru.moveToFront c.ll e}, false) := by
      simp [RawLru.set, hhit]
    rw [hset]
    exact .more hlookup (.more rfl (.last rfl))
  | none =>
    have hlookup : bodyStep (.setLookup key value) c = (c, .inl (.setPush key value)) := by
      simp [bodyStep, hhit]
    have hpushed := RawLru.pushFront_wf hc hhit value
    suffices hlimit : (object K V).Exec .setLimit (c.pushFront key value) (c.set key value).1
        (.flag (c.set key value).2) from .more hlookup (.more rfl (.more rfl hlimit))
    by_cases hover : 0 < (c.pushFront key value).cap ∧
        (c.pushFront key value).cap < (c.pushFront key value).ll.length
    · obtain ⟨e, he⟩ : ∃ e, (c.pushFront key value).ll.getLast? = some e :=
        ⟨_, List.getLast?_eq_some_getLast (List.cons_ne_nil _ _)⟩
      obtain ⟨p, hp, -⟩ := hpushed.indexed e (List.mem_of_getLast? he)
      have hset : c.set key value = ((c.pushFront key value).removeElement e true, true) := by
        simp only [RawLru.set, hhit, if_pos hover, RawLru.evictTail, he]
      have hback : bodyStep .evictBack (c.pushFront key value) =
          (c.pushFront key value, .inl (.remove e)) := by
        simp [bodyStep, he]
      rw [hset]
      exact .more (if_pos hover) (.more hback (exec_remove hp))
    · have hset : c.set key value = (c.pushFront key value, false) := by
        simp only [RawLru.set, hhit, if_neg hover]
      rw [hset]
      exact .last (if_neg hover)

theorem exec_get (key : K) :
    (object K V).Exec (.getLookup key) c (c.get key).1 (.value (c.get key).2) := by
  cases hhit : c.items.lookup key with
  | some e =>
    have hlookup : bodyStep (.getLookup key) c = (c, .inl (.getMove e)) := by
      simp [bodyStep, hhit]
    simp only [RawLru.get, hhit]
    exact .more hlookup (.more rfl (.last rfl))
  | none =>
    simp only [RawLru.get, hhit]
    exact .last (by simp [object, bodyStep, hhit])

theorem exec_peek (key : K) :
    (object K V).Exec (.peekLookup key) c c (.value (c.peek key)) := by
  cases hhit : c.items.lookup key with
  | some e =>
    have hlookup : bodyStep (.peekLookup key) c = (c, .inl (.readValue e)) := by
      simp [bodyStep, hhit]
    simp only [RawLru.peek, hhit]
    exact .more hlookup (.last rfl)
  | none =>
    simp only [RawLru.peek, hhit]
    exact .last (by simp [object, bodyStep, hhit])

theorem exec_delete (hc : c.Wf) (key : K) :
    (object K V).Exec (.deleteLookup key) c (c.delete key).1 (.flag (c.delete key).2) := by
  cases hhit : c.items.lookup key with
  | some e =>
    have hlookup : bodyStep (.deleteLookup key) c = (c, .inl (.remove e)) := by
      simp [bodyStep, hhit]
    obtain ⟨-, value, hp⟩ := hc.linked key e hhit
    simp only [RawLru.delete, hhit]
    exact .more hlookup (exec_remove hp)
  | none =>
    simp only [RawLru.delete, hhit]
    exact .last (by simp [object, bodyStep, hhit])

omit [DecidableEq K] in
theorem prevOf_eq_none {front e : Nat} {ll : List Nat} (h : e ∉ ll) :
    prevOf (front :: ll) e = none := by
  induction ll generalizing front with
  | nil => rfl
  | cons next ll ih =>
    have hne : next ≠ e := fun heq => h (heq ▸ List.mem_cons_self)
    rw [prevOf, if_neg hne]
    exact ih fun hmem => h (List.mem_cons_of_mem _ hmem)

/-- The element before `e`, if the list names `e` once. -/
theorem prevOf_append {front back : List Nat} {e : Nat} (h : (front ++ e :: back).Nodup) :
    prevOf (front ++ e :: back) e = front.getLast? := by
  induction front with
  | nil => exact prevOf_eq_none (List.nodup_cons.mp h).1
  | cons first front ih =>
    have hrest := (List.nodup_cons.mp h).2
    cases front with
    | nil => simp [prevOf]
    | cons next front =>
      have hne : next ≠ e := by
        rintro rfl
        exact (List.nodup_cons.mp hrest).1 (by simp)
      rw [List.cons_append, List.cons_append, prevOf, if_neg hne, List.getLast?_cons_cons]
      exact ih hrest

/-- The loop of `Purge` that calls the hook. -/
theorem exec_purgeEvict {final : RawLru K V} {r : Result V} (front : List Nat) :
    ∀ (c : RawLru K V) (back : List Nat), c.ll = front ++ back → c.ll.Nodup →
      (object K V).Exec .purgeInit
        {c with evict := c.evict.map (· ++ front.reverse.filterMap fun e => c.heap[e]?)} final r →
      (object K V).Exec (.purgeEvict front.getLast?) c final r := by
  induction front using List.reverseRecOn with
  | nil =>
    intro c back _ _ hexec
    have hsame : {c with evict := c.evict.map (· ++ ([] : List Nat).reverse.filterMap
        fun e => c.heap[e]?)} = c := by
      simp
    rw [hsame] at hexec
    exact .more rfl hexec
  | append_singleton front e ih =>
    intro c back hll hnodup hexec
    rw [List.append_assoc, List.singleton_append] at hll
    have hprev : prevOf c.ll e = front.getLast? := by
      rw [hll] at hnodup ⊢
      exact prevOf_append hnodup
    have hstep : bodyStep (.purgeEvict (some e)) c =
        ({c with evict := c.evict.map (· ++ (c.heap[e]?).toList)},
          .inl (.purgeEvict front.getLast?)) := by
      rw [bodyStep, hprev]
    rw [List.getLast?_concat]
    refine .more hstep (ih _ (e :: back) hll hnodup ?_)
    have hcalls : (c.evict.map (· ++ (c.heap[e]?).toList)).map
          (· ++ front.reverse.filterMap fun e => c.heap[e]?) =
        c.evict.map (· ++ (front ++ [e]).reverse.filterMap fun e => c.heap[e]?) := by
      rw [Option.map_map, List.reverse_append, List.reverse_singleton, List.singleton_append]
      congr 1
      funext calls
      cases hvalue : c.heap[e]? with
      | none | some => simp [hvalue]
    simp only [hcalls]
    exact hexec

/-- The loop of `Purge` that empties the index. -/
theorem exec_purgeItems (c : RawLru K V) :
    (object K V).Exec .purgeItems c {c with items := ∅} .done := by
  obtain ⟨cap, heap, ll, items, evict⟩ := c
  induction hentries : items.entries generalizing items with
  | nil =>
    have hitems : items = ∅ := AList.ext hentries
    subst hitems
    exact .last rfl
  | cons entry rest ih =>
    have hstep : bodyStep .purgeItems (⟨cap, heap, ll, items, evict⟩ : RawLru K V) =
        (⟨cap, heap, ll, items.erase entry.1, evict⟩, .inl .purgeItems) := by
      simp [bodyStep, hentries]
    refine .more hstep (ih (items.erase entry.1) ?_)
    have herase : (items.erase entry.1).entries = items.entries.kerase entry.1 := rfl
    rw [herase, hentries, List.kerase_cons_eq rfl]

theorem exec_purge (hc : c.Wf) : (object K V).Exec .purgeStart c c.purge .done := by
  have hinit : ∀ evict, (object K V).Exec .purgeInit {c with evict := evict}
      {c with ll := [], items := ∅, evict := evict} .done :=
    fun evict => .more rfl (exec_purgeItems _)
  cases hevict : c.evict with
  | none =>
    have hstep : bodyStep .purgeStart c = (c, .inl .purgeInit) := by
      simp only [bodyStep, hevict]
      rfl
    refine .more hstep ?_
    have hsame : {c with evict := none} = c := by rw [← hevict]
    have hbody := hinit none
    rw [hsame] at hbody
    simpa only [RawLru.purge, hevict, Option.map_none] using hbody
  | some calls =>
    have hstep : bodyStep .purgeStart c = (c, .inl (.purgeEvict c.ll.getLast?)) := by
      simp only [bodyStep, hevict]
      rfl
    exact .more hstep (exec_purgeEvict c.ll c [] (by simp) hc.nodup (hinit _))

/-- Run alone, a body does what the call does. -/
theorem exec_perform (hc : c.Wf) (op : Op K V) :
    (object K V).Exec (start op) c (perform c op).1 (perform c op).2 := by
  cases op with
  | set key value => exact exec_set hc key value
  | get key => exact exec_get key
  | peek key => exact exec_peek key
  | delete key => exact exec_delete hc key
  | purge => exact exec_purge hc
  | len => exact .last rfl

end Bodies

section Invariant

structure Sound (capacity : Nat) (c : RawLru K V) : Prop where
  wf : c.Wf
  cap : c.cap = capacity
  bounded : 0 < capacity → c.ll.length ≤ capacity

theorem length_moveToFront (ll : List Nat) (e : Nat) :
    (RawLru.moveToFront ll e).length = ll.length := by
  unfold RawLru.moveToFront
  split
  · rename_i hmem
    rw [List.length_cons, List.length_erase_of_mem hmem, Nat.sub_add_cancel
      (List.length_pos_of_mem hmem)]
  · rfl

/-- Removing a linked element makes the list shorter by one. -/
theorem removeElement_length {c : RawLru K V} (hc : c.Wf) {e : Nat} (he : e ∈ c.ll) :
    (c.removeElement e true).cap = c.cap ∧
      (c.removeElement e true).ll.length = c.ll.length - 1 := by
  obtain ⟨p, hp, -⟩ := hc.indexed e he
  simp only [RawLru.removeElement, hp]
  exact ⟨trivial, List.length_erase_of_mem he⟩

variable {capacity : Nat} {c : RawLru K V}

theorem set_sound (hc : Sound capacity c) (key : K) (value : V) :
    Sound capacity (c.set key value).1 := by
  have hwf := RawLru.set_wf hc.wf key value
  have hcap := hc.cap
  have hbounded := hc.bounded
  cases hhit : c.items.lookup key with
  | some e =>
    simp only [RawLru.set, hhit] at hwf ⊢
    exact ⟨hwf, hcap, by rw [length_moveToFront]; exact hbounded⟩
  | none =>
    have hpushed := RawLru.pushFront_wf hc.wf hhit value
    have hlength : (c.pushFront key value).ll.length = c.ll.length + 1 := rfl
    have hcap' : (c.pushFront key value).cap = c.cap := rfl
    simp only [RawLru.set, hhit] at hwf ⊢
    split at hwf
    · rename_i hover
      obtain ⟨e, he⟩ : ∃ e, (c.pushFront key value).ll.getLast? = some e :=
        ⟨_, List.getLast?_eq_some_getLast (List.cons_ne_nil _ _)⟩
      obtain ⟨hsame, hshorter⟩ := removeElement_length hpushed (List.mem_of_getLast? he)
      rw [if_pos hover]
      refine ⟨hwf, ?_, ?_⟩ <;> simp only [RawLru.evictTail, he, hsame, hshorter] <;> omega
    · rename_i hover
      rw [if_neg hover]
      refine ⟨hwf, hcap, fun hpos => ?_⟩
      dsimp only
      omega

theorem get_sound (hc : Sound capacity c) (key : K) : Sound capacity (c.get key).1 := by
  have hwf := RawLru.get_wf hc.wf key
  cases hhit : c.items.lookup key with
  | some e =>
    simp only [RawLru.get, hhit] at hwf ⊢
    exact ⟨hwf, hc.cap, by rw [length_moveToFront]; exact hc.bounded⟩
  | none =>
    simp only [RawLru.get, hhit]
    exact hc

theorem delete_sound (hc : Sound capacity c) (key : K) : Sound capacity (c.delete key).1 := by
  have hwf := RawLru.delete_wf hc.wf key
  cases hhit : c.items.lookup key with
  | some e =>
    obtain ⟨hsame, hshorter⟩ := removeElement_length hc.wf (hc.wf.linked key e hhit).1
    simp only [RawLru.delete, hhit] at hwf ⊢
    refine ⟨hwf, hsame.trans hc.cap, fun hcap => ?_⟩
    rw [hshorter]
    exact (Nat.sub_le _ _).trans (hc.bounded hcap)
  | none =>
    simp only [RawLru.delete, hhit]
    exact hc

theorem perform_sound (hc : Sound capacity c) (op : Op K V) : Sound capacity (perform c op).1 := by
  cases op with
  | set key value => exact set_sound hc key value
  | get key => exact get_sound hc key
  | delete key => exact delete_sound hc key
  | purge => exact ⟨RawLru.purge_wf c, hc.cap, fun _ => Nat.zero_le _⟩
  | peek _ | len => exact hc

theorem performAll_snoc (c : RawLru K V) (ops : List (Op K V)) (op : Op K V) :
    performAll c (ops ++ [op]) = ((perform (performAll c ops).1 op).1,
      (performAll c ops).2 ++ [(perform (performAll c ops).1 op).2]) := by
  induction ops generalizing c with
  | nil => rfl
  | cons first ops ih =>
    rw [List.cons_append, performAll, performAll]
    simp only [ih]
    rfl

theorem performAll_sound (hc : Sound capacity c) (ops : List (Op K V)) :
    Sound capacity (performAll c ops).1 := by
  induction ops generalizing c with
  | nil => exact hc
  | cons op ops ih => exact ih (perform_sound hc op)

/-- A sequential run of the bodies is one of the calls. -/
theorem performAll_of_sequential {core final : RawLru K V} (hcore : Sound capacity core)
    {calls : List (Op K V × Result V)} (h : (object K V).Sequential core calls final) :
    performAll core (calls.map Prod.fst) = (final, calls.map Prod.snd) := by
  induction h with
  | nil => rfl
  | @snoc calls middle next op r _ hexec ih =>
    have hmiddle : Sound capacity middle := by
      have hsound := performAll_sound hcore (calls.map Prod.fst)
      rw [ih] at hsound
      exact hsound
    obtain ⟨hnext, hresult⟩ := hexec.unique (exec_perform hmiddle.wf op)
    rw [List.map_append, List.map_append, List.map_singleton, List.map_singleton, performAll_snoc,
      ih, ← hnext, ← hresult]

theorem length_keys (hc : c.Wf) : c.keys.length = c.ll.length := by
  refine List.filterMap_length_eq_length.mpr fun e he => ?_
  obtain ⟨p, hp, -⟩ := hc.indexed e he
  rw [RawLru.keyAt, hp]
  rfl

end Invariant

/-- If every call passes its lock only when a readers-writer lock would let it pass,
the finished calls had the results of a sequential order, and whenever no writing call
is in its body the cache is in the state of that order: the list and the index hold the
same keys once each, and the capacity is kept. -/
theorem exclusive_calls_atomic (capacity : Nat) (hook : Bool) (used : List (Op K V))
    (actions : List (PoolAction (Op K V))) :
    let core := (performAll (RawLru.new capacity hook) used).1
    let p := (object K V).pool.run ⟨core, []⟩ actions
    (object K V).pool.AllSteps (object K V).Excludes ⟨core, []⟩ actions →
    (object K V).Undisturbed p.calls →
    (∃ order : List (Op K V × Result V), order.Perm p.finished ∧
      performAll core (order.map Prod.fst) = (p.state, order.map Prod.snd)) ∧
    p.state.keys.Nodup ∧ p.state.keys.length = p.state.ll.length ∧
    (∀ key, key ∈ p.state.keys ↔ key ∈ p.state.items) ∧
    (0 < capacity → p.state.ll.length ≤ capacity) := by
  intro core p hexcludes hundisturbed
  have hcore : Sound capacity core :=
    performAll_sound ⟨RawLru.new_wf capacity hook, rfl, fun _ => Nat.zero_le _⟩ used
  obtain ⟨order, base, hlinear⟩ := SharedObject.linearizes_run core actions hexcludes
  have hbase : base = p.state := hlinear.settled hundisturbed
  have hperform := performAll_of_sequential hcore hlinear.sequential
  have hstate : Sound capacity p.state := by
    have hsound := performAll_sound hcore (order.map Prod.fst)
    rw [hperform] at hsound
    exact hbase ▸ hsound
  refine ⟨⟨order, hlinear.finished, hbase ▸ hperform⟩, hstate.wf.keys_nodup,
    length_keys hstate.wf, fun key => hstate.wf.mem_keys, hstate.bounded⟩

/-- Two writing calls one after the other, then two reading calls that overlap. -/
theorem locked_calls_atomic :
    let actions : List (PoolAction (Op Nat Nat)) :=
      [.call (.set 1 10), .call (.set 2 20), .call (.peek 1), .call (.peek 2)] ++
        ([0, 0, 0, 0, 0, 0, 1, 1, 1, 1, 1, 1, 1, 1, 1, 2, 3, 2, 3, 3, 2, 3].map .step)
    let p := (object Nat Nat).pool.run ⟨RawLru.new 1 false, []⟩ actions
    p.calls.map Call.phase = [.returned (.flag false), .returned (.flag true),
      .returned (.value none), .returned (.value (some 20))] ∧
    ∃ order : List (Op Nat Nat × Result Nat), order.Perm p.finished ∧
      performAll (RawLru.new 1 false) (order.map Prod.fst) = (p.state, order.map Prod.snd) := by
  intro actions p
  refine ⟨by decide +kernel, ?_⟩
  exact (exclusive_calls_atomic 1 false [] actions (by decide +kernel) (by decide +kernel)).1

/-- Two goroutines set one key, and both look it up before either of them stores it. -/
theorem overlapping_sets_link_twice :
    let actions : List (PoolAction (Op Nat Nat)) :=
      [.call (.set 1 10), .call (.set 1 20)] ++ ([0, 1, 0, 1, 0, 1, 0, 1, 0, 1, 0, 1].map .step)
    let p := (object Nat Nat).pool.run ⟨RawLru.new 2 false, []⟩ actions
    p.calls.map Call.phase = [.returned (.flag false), .returned (.flag false)] ∧
    p.state.keys = [1, 1] ∧ p.state.items.keys = [1] ∧
    ∀ order : List (Op Nat Nat × Result Nat), order.Perm p.finished →
      (performAll (RawLru.new 2 false) (order.map Prod.fst)).1.keys = [1] := by
  intro actions p
  have hfinished : p.finished = [(.set 1 10, .flag false), (.set 1 20, .flag false)] := by
    decide +kernel
  refine ⟨by decide +kernel, by decide +kernel, by decide +kernel, fun order horder => ?_⟩
  rw [hfinished, ← List.mem_permutations'] at horder
  have horders : ∀ order ∈ ([(.set 1 10, .flag false), (.set 1 20, .flag false)] :
      List (Op Nat Nat × Result Nat)).permutations',
      (performAll (RawLru.new 2 false) (order.map Prod.fst)).1.keys = [1] := by decide +kernel
  exact horders order horder

end Photon.Stdlib.SafeLru
