import Photon.FlashDb.Frame
import Photon.Stdlib.SketchSteps

/-!
The store's one frequency sketch under the locks of the shards. A call holds the lock of
its key's shard while it works on the shard and on the sketch; every read and write
of a counter is a step of its own. Nobody else sees the shard meanwhile, so a call
takes the shard when it starts and puts it back when it ends.
-/

namespace Photon.FlashDb

open Photon.Lib Photon.Stdlib

inductive SketchCall where
  | get (key : String) (now : Time)
  | set (key : String) (value : FieldMap) (ttl : Int) (now : Time)
  | increment (key : String) (offsets : GoMap Int64) (now : Time)
  | append (key : String) (appends : GoMap String) (now : Time)
  | setTTL (key : String) (ttl : Int) (now : Time)

def SketchCall.key : SketchCall → String
  | .get key _ | .set key _ _ _ | .increment key _ _ | .append key _ _ | .setTTL key _ _ => key

def SketchCall.toCall : SketchCall → Call
  | .get key now => .get key now
  | .set key value ttl now => .set key value ttl now
  | .increment key offsets now => .increment key offsets now
  | .append key appends now => .append key appends now
  | .setTTL key ttl now => .setTTL key ttl now

/-- A call that takes a lock. With the empty key, a method returns before that. -/
structure LockedCall where
  call : SketchCall
  named : call.key ≠ ""

/-- Steps on the sketch of the store, whose parameters are those of `p`. -/
def onSketch {R : Type} (p : CountMinSketch) :
    Steps CountMinSketch R → Steps (Store (TinyLfu String)) R
  | .done r => .done r
  | .act change next => .act
      (fun st => {st with lfu := st.lfu.map fun t => {t with cms := change t.cms}})
      (fun st => onSketch p (next ((st.lfu.map TinyLfu.cms).getD p)))

def recordSteps (lfu : Option (TinyLfu String)) (key : String) :
    Steps (Store (TinyLfu String)) Unit :=
  match lfu with
  | none => pure ()
  | some t => onSketch t.cms (t.cms.incrementSteps (t.hash key))

def shouldAdmitSteps (lfu : Option (TinyLfu String)) (incoming victim : String) :
    Steps (Store (TinyLfu String)) Bool :=
  match lfu with
  | none => pure true
  | some t => do
      let fi ← onSketch t.cms (t.cms.estimateSteps (t.hash incoming))
      let fv ← onSketch t.cms (t.cms.estimateSteps (t.hash victim))
      return if t.admitOnEq then decide (fv ≤ fi) else decide (fv < fi)

def admitSteps (lfu : Option (TinyLfu String)) (key : String) (newCost : Nat) :
    Nat → Shard → Steps (Store (TinyLfu String)) (Shard × Bool)
  | 0, sh => pure (sh, false)
  | fuel + 1, sh =>
    if sh.isFullAfter newCost then
      match sh.tailKeyLocked with
      | none => pure (sh, false)
      | some vk => do
          let admitted ← shouldAdmitSteps lfu key vk
          if admitted then admitSteps lfu key newCost fuel (sh.removeLocked vk)
          else pure (sh, false)
    else pure (sh, true)

def storeSteps (lfu : Option (TinyLfu String)) (key : String) (value : FieldMap) (exp : Time)
    (sh : Shard) : Steps (Store (TinyLfu String)) Bool :=
  match sh.data.lookup key with
  | some record => do
      Steps.modify fun st => st.putShard key (sh.update key record value exp)
      return true
  | none =>
    let newCost := costOf key value
    if sh.capacity < newCost then return false
    else do
      let room ← admitSteps lfu key newCost (sh.lru.keys.length + 1) sh
      let final := if room.2 then room.1.insert key value exp else room.1
      Steps.modify fun st => st.putShard key final
      return room.2

/-- `Set`. The options and the parameters of the sketch never change. -/
def setSteps (key : String) (value : FieldMap) (ttl : Int) (now : Time) :
    Steps (Store (TinyLfu String)) (Except Err Bool) := do
  let (opts, lfu) ← Steps.read fun st => (st.opts, st.lfu)
  recordSteps lfu key
  let sh ← Steps.read fun st => st.shardFor key
  let stored ← storeSteps lfu key value (opts.expiryFor ttl now) sh
  return .ok stored

def recordedSteps {α : Type} (key : String) (work : Shard → Shard × Except Err α) :
    Steps (Store (TinyLfu String)) (Except Err α) := do
  let lfu ← Steps.read Store.lfu
  let sh ← Steps.read fun st => st.shardFor key
  match (work sh).2 with
  | .ok _ => recordSteps lfu key
  | .error _ => pure ()
  Steps.modify fun st => st.putShard key (work sh).1
  return (work sh).2

def SketchCall.steps : SketchCall → Steps (Store (TinyLfu String)) Reply
  | .get key now => do
      let answer ← recordedSteps key fun sh => sh.get key now
      return .value answer
  | .set key value ttl now => do
      let answer ← setSteps key value ttl now
      return .stored answer
  | .increment key offsets now => do
      let answer ← recordedSteps key fun sh => sh.increment key offsets now
      return .done answer
  | .append key appends now => do
      let answer ← recordedSteps key fun sh => sh.append key appends now
      return .done answer
  | .setTTL key ttl now => do
      let answer ← recordedSteps key fun sh => sh.setTTL key ttl now
      return .done answer

def storeObject : SharedObject (Store (TinyLfu String)) LockedCall
    (Steps (Store (TinyLfu String)) Reply) Reply :=
  Steps.object LockedCall fun c => c.call.steps

def SketchShaped (st : Store (TinyLfu String)) : Prop := ∀ t ∈ st.lfu, t.cms.Shaped

section Alone

variable {st : Store (TinyLfu String)} {key : String}

theorem alone_onSketch {R : Type} {t : TinyLfu String} (p : CountMinSketch)
    (steps : Steps CountMinSketch R) (hst : st.lfu = some t) :
    (onSketch p steps).alone st =
      ({st with lfu := some {t with cms := (steps.alone t.cms).1}}, (steps.alone t.cms).2) := by
  induction steps generalizing st t with
  | done r =>
    obtain ⟨shards, opts, lfu, nonempty⟩ := st
    cases hst
    rfl
  | act change next ih =>
    have hnext : ({st with lfu := some {t with cms := change t.cms}} :
        Store (TinyLfu String)).lfu = some {t with cms := change t.cms} := rfl
    rw [onSketch, Steps.alone, hst]
    exact ih t.cms hnext

theorem alone_recordSteps (hst : SketchShaped st) (key : String) :
    (recordSteps st.lfu key).alone st = (st.recordAccess key, ()) := by
  obtain ⟨shards, opts, lfu, nonempty⟩ := st
  cases lfu with
  | none => rfl
  | some t =>
    have hsame : t.cms.SameParameters t.cms := ⟨rfl, rfl, rfl, rfl, rfl⟩
    simp only [recordSteps]
    rw [alone_onSketch t.cms _ rfl, CountMinSketch.alone_incrementSteps hsame (hst t rfl)]
    rfl

def SameSketch : Option (TinyLfu String) → Option (TinyLfu String) → Prop
  | none, none => True
  | some t, some t' => t.cms.SameParameters t'.cms ∧ t'.hash = t.hash ∧ t'.admitOnEq = t.admitOnEq
  | _, _ => False

theorem sameSketch_recordAccess (st : Store (TinyLfu String)) (key : String) :
    SameSketch st.lfu (st.recordAccess key).lfu := by
  obtain ⟨shards, opts, lfu, nonempty⟩ := st
  cases lfu with
  | none => trivial
  | some t => exact ⟨CountMinSketch.sameParameters_perform t.cms (.observe (t.hash key)), rfl, rfl⟩

variable {lfu : Option (TinyLfu String)}

theorem alone_shouldAdmitSteps (hsame : SameSketch lfu st.lfu) (incoming victim : String) :
    (shouldAdmitSteps lfu incoming victim).alone st = (st, st.admits incoming victim) := by
  obtain ⟨shards, opts, lfu', nonempty⟩ := st
  match lfu, lfu', hsame with
  | none, none, _ => rfl
  | some t, some t', ⟨hparameters, hhash, hadmit⟩ =>
    simp only [shouldAdmitSteps]
    rw [Steps.alone_bind, alone_onSketch t.cms _ rfl,
      CountMinSketch.alone_estimateSteps hparameters, Steps.alone_bind,
      alone_onSketch t.cms _ rfl, CountMinSketch.alone_estimateSteps hparameters, ← hhash,
      ← hadmit]
    rfl

theorem alone_admitSteps (hsame : SameSketch lfu st.lfu) {newCost fuel : Nat} {sh : Shard}
    {out : Shard × Bool} (hloop : sh.admitLoop (st.admits key) newCost fuel = some out) :
    (admitSteps lfu key newCost fuel sh).alone st = (st, out) := by
  induction fuel generalizing sh with
  | zero => cases hloop
  | succ fuel ih =>
    unfold Shard.admitLoop at hloop
    unfold admitSteps
    split at hloop
    · next hfull =>
        rw [if_pos hfull]
        cases htail : sh.tailKeyLocked with
        | none =>
          rw [htail] at hloop
          cases hloop
          rfl
        | some vk =>
          rw [htail] at hloop
          dsimp only at hloop ⊢
          rw [Steps.alone_bind, alone_shouldAdmitSteps hsame]
          split at hloop
          · next hadmitted =>
              rw [hadmitted]
              exact ih hloop
          · next hrefused =>
              rw [if_neg hrefused]
              cases hloop
              rfl
    · next hroom =>
        rw [if_neg hroom]
        cases hloop
        rfl

theorem alone_storeSteps (key : String) (hsame : SameSketch lfu st.lfu) (value : FieldMap)
    (exp : Time) :
    (storeSteps lfu key value exp (st.shardFor key)).alone st =
      (st.putShard key ((st.shardFor key).set (st.admits key) key value exp).1,
        ((st.shardFor key).set (st.admits key) key value exp).2) := by
  have hput := st.putShard_self key
  generalize st.shardFor key = sh at hput ⊢
  unfold storeSteps Shard.set
  cases sh.data.lookup key with
  | some record => simp
  | none =>
    generalize costOf key value = newCost
    by_cases hlarge : sh.capacity < newCost
    · rw [if_pos hlarge, if_pos hlarge, hput, Steps.alone_pure]
    · have hloop := sh.admitLoop_eq_makeRoom (st.admits key) newCost (Nat.lt_succ_self _)
      rw [if_neg hlarge, if_neg hlarge, Steps.alone_bind, alone_admitSteps hsame hloop,
        Steps.alone_bind, Steps.alone_modify, Steps.alone_pure]
      rcases sh.makeRoom (st.admits key) newCost with ⟨room, admitted⟩
      cases admitted <;> rfl

theorem alone_setSteps (hst : SketchShaped st) (hkey : key ≠ "") (value : FieldMap) (ttl : Int)
    (now : Time) : (setSteps key value ttl now).alone st = st.set key value ttl now := by
  have hstore := alone_storeSteps key (sameSketch_recordAccess st key) value
    (st.opts.expiryFor ttl now)
  rw [Store.recordAccess_shardFor] at hstore
  rw [st.set_eq hkey]
  unfold setSteps
  simp only [Steps.alone_bind, Steps.alone_read, alone_recordSteps hst, Store.recordAccess_shardFor,
    hstore, Steps.alone_pure]

theorem alone_recordedSteps {α : Type} (hst : SketchShaped st) (key : String)
    (work : Shard → Shard × Except Err α) :
    (recordedSteps key work).alone st =
      ((st.putShard key (work (st.shardFor key)).1).recordOk key (work (st.shardFor key)).2,
        (work (st.shardFor key)).2) := by
  unfold recordedSteps
  simp only [Steps.alone_bind, Steps.alone_read]
  cases hanswer : (work (st.shardFor key)).2 with
  | error e => rfl
  | ok value =>
    rw [Steps.alone_bind, alone_recordSteps hst]
    rfl

/-- Undisturbed, the steps of a call are the call. -/
theorem alone_steps (hst : SketchShaped st) (c : LockedCall) :
    c.call.steps.alone st = perform st c.call.toCall := by
  obtain ⟨call, hkey⟩ := c
  simp only [SketchCall.key] at hkey
  cases call with
  | set key value ttl now =>
    simp only [SketchCall.steps, Steps.alone_bind, alone_setSteps hst hkey, Steps.alone_pure,
      SketchCall.toCall, perform]
    rfl
  | get | increment | append | setTTL =>
    simp only [SketchCall.steps, Steps.alone_bind, alone_recordedSteps hst, Steps.alone_pure,
      SketchCall.toCall, perform, Store.get, Store.increment, Store.append, Store.setTTL,
      if_neg hkey]
    rfl

end Alone

/-- The call has recorded an access of its key: `Set` always does, the others if they
succeed. -/
def recordsAccess (event : LockedCall × Reply) : Bool :=
  match event.2 with
  | .value (.ok _) | .done (.ok _) | .stored _ => true
  | _ => false

def recordsKey (key : String) (event : LockedCall × Reply) : Bool :=
  recordsAccess event && decide (event.1.call.key = key)

variable (hash : String → UInt64) (order : List (LockedCall × Reply))

def recordedHashes : List UInt64 :=
  (order.filter recordsAccess).map fun event => hash event.1.call.key

section Sequence

variable {st : Store (TinyLfu String)}

theorem recordsAccess_value (c : LockedCall) (answer : Except Err FieldMap) :
    recordsAccess (c, .value answer) = answer.isOk := by
  cases answer <;> rfl

theorem recordsAccess_done (c : LockedCall) (answer : Except Err Unit) :
    recordsAccess (c, .done answer) = answer.isOk := by
  cases answer <;> rfl

theorem lfu_recordOk {α : Type} (st : Store (TinyLfu String)) (key : String)
    (answer : Except Err α) :
    (st.recordOk key answer).lfu = if answer.isOk then (st.recordAccess key).lfu else st.lfu := by
  cases answer <;> rfl

theorem lfu_perform (st : Store (TinyLfu String)) (c : LockedCall) :
    (perform st c.call.toCall).1.lfu =
      if recordsAccess (c, (perform st c.call.toCall).2) then (st.recordAccess c.call.key).lfu
      else st.lfu := by
  obtain ⟨call, hkey⟩ := c
  cases call with
  | set key value ttl now =>
    simp only [SketchCall.toCall, perform, st.set_eq (show key ≠ "" from hkey)]
    rfl
  | get key | increment key | append key | setTTL key =>
    simp only [SketchCall.toCall, perform, Store.get, Store.increment, Store.append,
      Store.setTTL, if_neg (show key ≠ "" from hkey), Prod.map_fst, Prod.map_snd, id, lfu_recordOk,
      recordsAccess_value, recordsAccess_done]
    rfl

theorem recordedHashes_snoc (event : LockedCall × Reply) :
    recordedHashes hash (order ++ [event]) = recordedHashes hash order ++
      if recordsAccess event then [hash event.1.call.key] else [] := by
  rw [recordedHashes, List.filter_append, List.map_append, List.filter_singleton, recordedHashes]
  cases recordsAccess event <;> rfl

theorem shaped_performAll {c : CountMinSketch} (h : c.Shaped) (events : List (Tally UInt64)) :
    (c.performAll events).Shaped := by
  induction events using List.reverseRecOn with
  | nil => exact h
  | append_singleton events event ih =>
    rw [CountMinSketch.performAll, List.foldl_append]
    exact ih.perform event

/-- After a sequence of calls, the sketch has counted what they recorded. -/
theorem lfu_of_sequential {order : List (LockedCall × Reply)} {base : Store (TinyLfu String)}
    (h : storeObject.Sequential st order base) {t : TinyLfu String} (ht : st.lfu = some t)
    (hshaped : t.cms.Shaped) :
    base.lfu =
      some {t with cms := t.cms.performAll ((recordedHashes t.hash order).map .observe)} := by
  induction h with
  | nil => exact ht
  | @snoc order middle next c reply _ hexec hlfu =>
    have hmiddle : SketchShaped middle := by
      intro t' ht'
      cases hlfu.symm.trans ht'
      exact shaped_performAll hshaped _
    have halone := hexec.unique (Steps.exec_alone _ c.call.steps middle)
    rw [alone_steps hmiddle] at halone
    obtain ⟨rfl, rfl⟩ := halone
    rw [lfu_perform, recordedHashes_snoc]
    split
    · simp only [Store.recordAccess, hlfu, Option.map_some, List.map_append, List.map_singleton,
        CountMinSketch.performAll, List.foldl_append]
      rfl
    · rw [List.append_nil]
      exact hlfu

theorem new_sketch {opts : Options} (hnew : new opts = .ok st) :
    ∃ t, st.lfu = some t ∧ CountMinSketch.new st.opts.lfuDepth st.opts.lfuWidth
      st.opts.lfuAgingEvery = .ok t.cms := by
  unfold new newWith newTinyLfu TinyLfu.new at hnew
  dsimp only at hnew
  cases hcms : CountMinSketch.new opts.withDefaults.lfuDepth opts.withDefaults.lfuWidth
      opts.withDefaults.lfuAgingEvery with
  | error e =>
    rw [hcms] at hnew
    cases hnew
  | ok cms =>
    rw [hcms] at hnew
    simp only [Except.bind, bind, pure, Except.pure] at hnew
    split at hnew
    · cases hnew
    · cases hnew
      exact ⟨⟨cms, hash64String, true⟩, rfl, hcms⟩

/-- Every recorded access of a key is an observation of its hash. -/
theorem countP_recordsKey_le (key : String) :
    order.countP (recordsKey key) ≤ (recordedHashes hash order).count (hash key) := by
  rw [recordedHashes, List.count, List.countP_map, List.countP_filter]
  refine List.countP_mono_left fun event _ hevent => ?_
  simp only [recordsKey, Bool.and_eq_true, decide_eq_true_eq] at hevent
  simp [hevent.1, hevent.2]

end Sequence

def LockedCall.shard (c : LockedCall) (count : Nat) : Nat := shardIndex count c.call.key

abbrev StorePool : Type :=
  Pool (Store (TinyLfu String)) LockedCall (Steps (Store (TinyLfu String)) Reply) Reply

/-- A call enters only while nobody holds the lock of its shard. -/
def ShardLocks (p : StorePool) : PoolAction LockedCall → Prop
  | .call _ => True
  | .step i => ∀ call, p.calls[i]? = some call → call.phase = .waiting →
      ∀ other ∈ p.calls, other.holding = true →
        other.op.shard p.state.shards.length ≠ call.op.shard p.state.shards.length

/-- A call enters only while no call of another shard is inside. -/
def OtherShardsIdle (p : StorePool) : PoolAction LockedCall → Prop
  | .call _ => True
  | .step i => ∀ call, p.calls[i]? = some call → call.phase = .waiting →
      ∀ other ∈ p.calls, other.holding = true →
        other.op.shard p.state.shards.length = call.op.shard p.state.shards.length

theorem excludes_of_locks (p : StorePool) (a : PoolAction LockedCall)
    (h : ShardLocks p a ∧ OtherShardsIdle p a) : storeObject.Excludes p a := by
  cases a with
  | call op => trivial
  | step i =>
    intro call hcall hwaiting other hother hholding
    exact absurd (h.2 call hcall hwaiting other hother hholding)
      (h.1 call hcall hwaiting other hother hholding)

/-- Calls of which no two may be inside at once. -/
theorem length_holding_le_one {calls : List (Lib.Call LockedCall
      (Steps (Store (TinyLfu String)) Reply) Reply)}
    (h : calls.Pairwise storeObject.Compatible) : (calls.filter Lib.Call.holding).length ≤ 1 := by
  have hnone : (calls.filter Lib.Call.holding).Pairwise fun _ _ => False := by
    refine (h.filter _).imp_of_mem fun hfirst hsecond hboth => ?_
    have hreads := hboth (List.mem_filter.mp hfirst).2 (List.mem_filter.mp hsecond).2
    exact absurd hreads.1 Bool.false_ne_true
  match hcalls : calls.filter Lib.Call.holding with
  | [] => exact Nat.zero_le 1
  | [_] => exact le_rfl
  | first :: second :: rest =>
    rw [hcalls] at hnone
    exact (List.rel_of_pairwise_cons hnone List.mem_cons_self).elim

instance {Pc R : Type} (phase : Phase Pc R) : Decidable (phase = .waiting) :=
  decidable_of_iff (phase.isWaiting = true) phase.isWaiting_iff

instance (p : StorePool) : (a : PoolAction LockedCall) → Decidable (ShardLocks p a)
  | .call _ => .isTrue trivial
  | .step i =>
    decidable_of_iff (∀ call ∈ p.calls[i]?, call.phase = .waiting → ∀ other ∈ p.calls,
      other.holding = true → other.op.shard p.state.shards.length ≠
        call.op.shard p.state.shards.length) Iff.rfl

instance (p : StorePool) : (a : PoolAction LockedCall) → Decidable (OtherShardsIdle p a)
  | .call _ => .isTrue trivial
  | .step i =>
    decidable_of_iff (∀ call ∈ p.calls[i]?, call.phase = .waiting → ∀ other ∈ p.calls,
      other.holding = true → other.op.shard p.state.shards.length =
        call.op.shard p.state.shards.length) Iff.rfl

/-- In every run under the locks of the shards in which no call enters while a call of
another shard is inside, at most one call works on the sketch at a time. Once all calls
have finished, and before the sketch ages, an estimate is at least the number of
recorded accesses, up to the largest counter. -/
theorem sketch_exact_while_other_shards_idle {opts : Options} {st : Store (TinyLfu String)}
    (hnew : new opts = .ok st) (actions : List (PoolAction LockedCall))
    (hsteps : storeObject.pool.AllSteps (fun p a => ShardLocks p a ∧ OtherShardsIdle p a)
      ⟨st, []⟩ actions) :
    (∀ before, before <+: actions →
      ((storeObject.pool.run ⟨st, []⟩ before).calls.filter Lib.Call.holding).length ≤ 1) ∧
    ((∀ call ∈ (storeObject.pool.run ⟨st, []⟩ actions).calls, call.inBody = false) →
      (storeObject.pool.run ⟨st, []⟩ actions).finished.countP recordsAccess <
        st.opts.lfuAgingEvery.toNat →
      ∀ key, ∃ t, (storeObject.pool.run ⟨st, []⟩ actions).state.lfu = some t ∧
        min maxCounter ((storeObject.pool.run ⟨st, []⟩ actions).finished.countP (recordsKey key)) ≤
          t.estimate key) := by
  have hexcludes := hsteps.imp excludes_of_locks
  refine ⟨?_, ?_⟩
  · rintro before ⟨after, rfl⟩
    obtain ⟨order, base, hlinear⟩ := SharedObject.linearizes_run st before hexcludes.of_append.1
    exact length_holding_le_one hlinear.exclusive
  · intro hfinished hfew key
    obtain ⟨t, ht, hcms⟩ := new_sketch hnew
    obtain ⟨order, base, hlinear⟩ := SharedObject.linearizes_run st actions hexcludes
    have hbase := hlinear.settled fun call hcall hbody =>
      absurd (hbody.symm.trans (hfinished call hcall)) (by decide)
    have hlfu := lfu_of_sequential hlinear.sequential ht (CountMinSketch.new_shaped hcms)
    rw [← hlinear.finished.countP_eq] at hfew ⊢
    rw [List.countP_eq_length_filter, ← List.length_map] at hfew
    refine ⟨_, hbase ▸ hlfu, ?_⟩
    refine le_trans (min_le_min_left _ (countP_recordsKey_le t.hash order key)) ?_
    exact CountMinSketch.count_le_estimate hcms hfew (t.hash key)

private def pairOptions : Options := {smallOptions with shards := 2}

private def setU : LockedCall := ⟨.set "u" (counterRecord 1) 0 1, by decide⟩

private def setV : LockedCall := ⟨.set "v" (counterRecord 1) 0 1, by decide⟩

private def inTurn : List (PoolAction LockedCall) :=
  [.call setU, .call setV] ++ List.replicate 11 (.step 0) ++ List.replicate 11 (.step 1)

/-- The call on `v` begins, two calls on `u` run from beginning to end, and the call on
`v` goes on. -/
private def interleaved : List (PoolAction LockedCall) :=
  [.call setV, .call setU, .call setU] ++ List.replicate 3 (.step 0) ++
    List.replicate 11 (.step 1) ++ List.replicate 11 (.step 2) ++ List.replicate 8 (.step 0)

theorem sketch_after_two_sets :
    ∃ st, new pairOptions = .ok st ∧
      ∃ t, (storeObject.pool.run ⟨st, []⟩ inTurn).state.lfu = some t ∧ 1 ≤ t.estimate "u" := by
  obtain ⟨st, hst⟩ : ∃ st, new pairOptions = .ok st := ⟨_, rfl⟩
  have hrun : storeObject.pool.AllSteps (fun p a => ShardLocks p a ∧ OtherShardsIdle p a) ⟨st, []⟩
        inTurn ∧
      (∀ call ∈ (storeObject.pool.run ⟨st, []⟩ inTurn).calls, call.inBody = false) ∧
      (storeObject.pool.run ⟨st, []⟩ inTurn).finished.countP recordsAccess <
        st.opts.lfuAgingEvery.toNat ∧
      1 ≤ min maxCounter
        ((storeObject.pool.run ⟨st, []⟩ inTurn).finished.countP (recordsKey "u")) := by
    cases hst
    decide +kernel
  obtain ⟨hsteps, hfinished, hfew, hone⟩ := hrun
  obtain ⟨t, ht, hestimate⟩ :=
    (sketch_exact_while_other_shards_idle hst inTurn hsteps).2 hfinished hfew "u"
  exact ⟨st, hst, t, ht, hone.trans hestimate⟩

/-- The call on `v` has read a counter that `u` shares when the calls on `u` increment
it; then it writes back what it read, and an access of `u` is lost. -/
theorem sketch_loses_access :
    ∃ st, new pairOptions = .ok st ∧
      storeObject.pool.AllSteps ShardLocks ⟨st, []⟩ interleaved ∧
      (∀ call ∈ (storeObject.pool.run ⟨st, []⟩ interleaved).calls, call.inBody = false) ∧
      (storeObject.pool.run ⟨st, []⟩ interleaved).finished.countP (recordsKey "u") = 2 ∧
      (storeObject.pool.run ⟨st, []⟩ interleaved).finished.countP recordsAccess <
        st.opts.lfuAgingEvery.toNat ∧
      (storeObject.pool.run ⟨st, []⟩ interleaved).state.lfu.map (fun t => t.estimate "u") =
        some 1 := by
  refine ⟨_, rfl, ?_, ?_, ?_, ?_, ?_⟩ <;> decide +kernel

end Photon.FlashDb
