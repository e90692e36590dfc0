import Photon.FlashDb.Invariant
import Photon.FlashDb.Store

/-!
From one shard to every run of the store. `perform_cases` says once what a call can
do: the work of its critical section on one shard, nothing, or a sweep. Batch methods
and janitor ticks are shown to be the calls they are made of, each call keeps the
invariant of every shard, and so does every finite sequence of methods on a new
store. The only assumption is that no accounted size reaches `2^63`.
-/

namespace Photon.FlashDb

open Photon.Lib Photon.Stdlib

variable {L : Type}

namespace Store

def Inv (st : Store L) : Prop := ∀ sh ∈ st.shards, sh.Inv

variable (st : Store L) (key : String)

theorem shardFor_mem : st.shardFor key ∈ st.shards :=
  List.get_mem _ _

structure SameShape (st next : Store L) : Prop where
  length : next.shards.length = st.shards.length
  opts : next.opts = st.opts

theorem SameShape.refl : SameShape st st := ⟨rfl, rfl⟩

@[simp]
theorem putShard_opts (sh : Shard) : (st.putShard key sh).opts = st.opts := rfl

theorem Inv.shardFor {st : Store L} (h : st.Inv) (key : String) : (st.shardFor key).Inv :=
  h _ (st.shardFor_mem key)

theorem forall_putShard {P : Shard → Prop} {st : Store L} (h : ∀ sh ∈ st.shards, P sh)
    (key : String) {sh : Shard} (hsh : P sh) : ∀ other ∈ (st.putShard key sh).shards, P other := by
  intro other hother
  rcases List.mem_or_eq_of_mem_set hother with hmem | rfl
  · exact h other hmem
  · exact hsh

theorem forall_sweepShard {P : Shard → Prop} {st : Store L} (h : ∀ sh ∈ st.shards, P sh) (i : Nat)
    {now : Time} {order : RangeOrder} (hsweep : ∀ sh, P sh → P (sh.sweep now order)) :
    ∀ other ∈ (st.sweepShard i now order).shards, P other := by
  intro other hother
  obtain ⟨j, hj, rfl⟩ := List.mem_iff_getElem.mp hother
  simp only [sweepShard, List.getElem_modify]
  have hmem := h _ (List.getElem_mem (l := st.shards) (by simpa [sweepShard] using hj))
  split
  · exact hsweep _ hmem
  · exact hmem

variable [AdmissionPolicy L]

@[simp]
theorem recordAccess_shardFor (key name : String) :
    (st.recordAccess key).shardFor name = st.shardFor name := rfl

@[simp]
theorem recordOk_shards {α : Type} (answer : Except Err α) :
    (st.recordOk key answer).shards = st.shards := by
  cases answer <;> rfl

@[simp]
theorem recordOk_opts {α : Type} (answer : Except Err α) :
    (st.recordOk key answer).opts = st.opts := by
  cases answer <;> rfl

@[simp]
theorem recordAccess_opts : (st.recordAccess key).opts = st.opts := rfl

@[simp]
theorem recordAccess_putShard_shards (key name : String) (sh : Shard) :
    ((st.recordAccess key).putShard name sh).shards = (st.putShard name sh).shards := rfl

end Store

/-- The accounted sizes a call works with: the totals of all shards before it,
and the size it charges the record for. -/
def SizesBelow (st : Store L) (c : Call) : Prop :=
  (∀ sh ∈ st.shards, sh.accounted < 2 ^ 63) ∧
    match c with
    | .set key value _ _ => exactSize key value < 2 ^ 63
    | .append key appends _ => ∀ record, (st.shardFor key).data.lookup key = some record →
        exactSize key (appendLoop appends record.value).1 < 2 ^ 63
    | _ => True

variable {c : Call}

theorem currentSize_lt {st : Store L} (h : st.Inv) (hsizes : SizesBelow st c) (key : String) :
    (st.shardFor key).currentSize < 2 ^ 63 := by
  have hbelow := hsizes.1 _ (st.shardFor_mem key)
  have hcounter := (h.shardFor key).counter
  omega

/-- A new store has only empty shards. -/
theorem newWith_shards {newLfu : Options → Except String L} {opts : Options} {st : Store L}
    (hnew : newWith newLfu opts = .ok st) {sh : Shard} (hsh : sh ∈ st.shards) :
    ∃ perShard, sh = emptyShard perShard := by
  unfold newWith at hnew
  dsimp only at hnew
  split at hnew
  · cases hnew
  · split at hnew
    · cases hnew
    · cases hnew
      exact ⟨_, List.eq_of_mem_replicate hsh⟩

theorem newWith_inv {newLfu : Options → Except String L} {opts : Options} {st : Store L}
    (hnew : newWith newLfu opts = .ok st) :
    st.Inv := by
  intro sh hsh
  obtain ⟨perShard, rfl⟩ := newWith_shards hnew hsh
  exact Shard.emptyShard_inv perShard

variable [AdmissionPolicy L]

def Call.key? : Call → Option String
  | .existsKey key _ | .get key _ | .set key _ _ _ | .delete key | .increment key _ _
  | .decrement key _ _ | .append key _ _ | .getTTL key _ _ | .setTTL key _ _ => some key
  | .sweepShard _ _ _ => none

def Call.refusal : Call → Reply
  | .existsKey _ _ => .found (.error .invalidKey)
  | .get _ _ => .value (.error .invalidKey)
  | .set _ _ _ _ => .stored (.error .invalidKey)
  | .delete _ => .deleted (.error .invalidKey)
  | .increment _ _ _ | .decrement _ _ _ | .append _ _ _ | .setTTL _ _ _ =>
    .done (.error .invalidKey)
  | .getTTL _ _ _ => .seconds (.error .invalidKey)
  | .sweepShard _ _ _ => .swept

def Call.critical (st : Store L) (sh : Shard) : Call → Shard × Reply
  | .existsKey key now => (sh.existsKey key now).map id (.found ∘ .ok)
  | .get key now => (sh.get key now).map id .value
  | .set key value ttl now =>
    (sh.set ((st.recordAccess key).admits key) key value (st.opts.expiryFor ttl now)).map id
      (.stored ∘ .ok)
  | .delete key => (sh.delete key).map id (.deleted ∘ .ok)
  | .increment key offsets now => (sh.increment key offsets now).map id .done
  | .decrement key offsets now => (sh.increment key (negativeOffsets offsets) now).map id .done
  | .append key appends now => (sh.append key appends now).map id .done
  | .getTTL key now remaining => (sh.getTTL key now remaining).map id .seconds
  | .setTTL key ttl now => (sh.setTTL key ttl now).map id .done
  | .sweepShard _ now order => (sh.sweep now order, .swept)

/-- A call replaces the shard of its key and answers, both as its critical section says;
the sketch may have recorded the access. -/
structure Call.Works (c : Call) (st : Store L) (key : String) : Prop where
  key_eq : c.key? = some key
  shards : (perform st c).1.shards = (st.putShard key (c.critical st (st.shardFor key)).1).shards
  opts : (perform st c).1.opts = st.opts
  answer : (perform st c).2 = (c.critical st (st.shardFor key)).2

variable (st : Store L)

variable {st} in
theorem perform_refused (hkey : c.key? = some "") : perform st c = (st, c.refusal) := by
  cases c with
  | sweepShard => cases hkey
  | existsKey | get | set | delete | increment | decrement | append | getTTL | setTTL =>
    cases hkey
    simp [perform, Store.existsKey, Store.get, Store.set, Store.delete, Store.increment,
      Store.decrement, Store.append, Store.getTTL, Store.setTTL, Call.refusal]

theorem perform_works {key : String} (hkey : c.key? = some key) (hne : key ≠ "") :
    c.Works st key := by
  cases c with
  | sweepShard => cases hkey
  | existsKey | get | set | delete | increment | decrement | append | getTTL | setTTL =>
    cases hkey
    constructor <;>
      simp [perform, Store.existsKey, Store.get, Store.set, Store.delete, Store.increment,
        Store.decrement, Store.append, Store.getTTL, Store.setTTL, hne, Call.critical, Call.key?]

/-- All that a call can do: its work on one shard, nothing for an empty key, or a sweep. -/
theorem perform_cases (c : Call) :
    (∃ key, c.Works st key) ∨ perform st c = (st, c.refusal) ∨
      ∃ i now order, c = .sweepShard i now order := by
  cases hkey : c.key? with
  | some key =>
    by_cases hne : key = ""
    · exact Or.inr (Or.inl (perform_refused (hne ▸ hkey)))
    · exact Or.inl ⟨key, perform_works st hkey hne⟩
  | none =>
    cases c with
    | sweepShard i now order => exact Or.inr (Or.inr ⟨i, now, order, rfl⟩)
    | _ => cases hkey

abbrev Event := Call × Reply

def usedOn {α : Type} (key : String) : Except Err α → Option String
  | .ok _ => some key
  | .error _ => none

def usedBy : Event → Option String
  | (.set key _ _ _, .stored (.ok true)) => some key
  | (.get key _, .value answer) => usedOn key answer
  | (.increment key _ _, .done answer) => usedOn key answer
  | (.decrement key _ _, .done answer) => usedOn key answer
  | (.append key _ _, .done answer) => usedOn key answer
  | (.setTTL key _ _, .done answer) => usedOn key answer
  | _ => none

def ttlExpiry (ttl : Int) (now : Time) : Time := if ttl ≤ 0 then 0 else now + ttl.toNat

/-- The records a call can store for its key. -/
def Call.Stores (opts : Options) (sh : Shard) : Call → Record → Prop
  | .set key value ttl now => (· = ⟨value, computeSize key value, opts.expiryFor ttl now⟩)
  | .increment key _ _ | .decrement key _ _ => sh.Rewrites key Record.expiry
  | .append key appends _ => fun next => sh.Rewrites key Record.expiry next ∨
      ∃ record, sh.data.lookup key = some record ∧ next.expiry = record.expiry ∧
        next.size = computeSize key (appendLoop appends record.value).1
  | .setTTL key ttl now => sh.Rewrites key fun _ => ttlExpiry ttl now
  | _ => fun _ => False

theorem usedOn_eq {α : Type} (key : String) (answer : Except Err α) :
    usedOn key answer = if answer.isOk then some key else none := by
  cases answer <;> rfl

/-- The critical section of a call is an edit of its shard, and a use of the key if it succeeds. -/
theorem Call.critical_edit {key : String} (hkey : c.key? = some key) (sh : Shard) :
    ∃ used, sh.Edit key (c.Stores st.opts sh) (c.critical st sh).1 used ∧
      usedBy (c, (c.critical st sh).2) = if used then some key else none := by
  cases c with
  | existsKey _ now =>
    cases hkey
    exact ⟨false, sh.existsKey_edit key now _, rfl⟩
  | get _ now =>
    cases hkey
    exact ⟨_, sh.get_edit key now _, usedOn_eq key _⟩
  | set _ value ttl now =>
    cases hkey
    simp only [Call.critical, Prod.map_fst, Prod.map_snd, id, Function.comp_apply]
    refine ⟨_, sh.set_edit ((st.recordAccess key).admits key) key value _ _ rfl, ?_⟩
    cases (sh.set ((st.recordAccess key).admits key) key value (st.opts.expiryFor ttl now)).2 <;>
      rfl
  | delete _ =>
    cases hkey
    exact ⟨false, sh.delete_edit key _, rfl⟩
  | increment _ offsets now =>
    cases hkey
    exact ⟨_, sh.increment_edit key offsets now fun r hr => ⟨r, hr, rfl, rfl⟩, usedOn_eq key _⟩
  | decrement _ offsets now =>
    cases hkey
    exact ⟨_, sh.increment_edit key (negativeOffsets offsets) now fun r hr => ⟨r, hr, rfl, rfl⟩,
      usedOn_eq key _⟩
  | append _ appends now =>
    cases hkey
    refine ⟨_, sh.append_edit key appends now fun r hr _ => ?_, usedOn_eq key _⟩
    refine ⟨fun _ => Or.inl ⟨r, hr, rfl, rfl⟩, Or.inr ⟨r, hr, rfl, ?_⟩⟩
    dsimp only
  | getTTL _ now remaining =>
    cases hkey
    exact ⟨false, sh.getTTL_edit key now remaining _, rfl⟩
  | setTTL _ ttl now =>
    cases hkey
    exact ⟨_, sh.setTTL_edit key ttl now fun r hr => ⟨r, hr, rfl, rfl⟩, usedOn_eq key _⟩
  | sweepShard i now order => cases hkey

omit [AdmissionPolicy L] in
theorem Call.Stores.size_bounds {st : Store L} {key : String} {next : Record}
    (hkey : c.key? = some key) (h : st.Inv) (hsizes : SizesBelow st c)
    (hstores : c.Stores st.opts (st.shardFor key) next) : 0 ≤ next.size ∧ next.size < 2 ^ 63 := by
  have hrewrites {name : String} {expiry : Record → Time}
      (hnext : (st.shardFor key).Rewrites name expiry next) :
      0 ≤ next.size ∧ next.size < 2 ^ 63 := by
    obtain ⟨record, hlookup, hsize, -⟩ := hnext
    have hsum := currentSize_lt h hsizes key
    have hnonneg := (h.shardFor key).sizes _ _ hlookup
    have hle := (h.shardFor key).size_le hlookup
    omega
  cases c with
  | set name value ttl now =>
    have hsize := congrArg Record.size hstores
    dsimp only at hsize
    rw [hsize]
    exact Shard.computeSize_bounds hsizes.2
  | increment | decrement | setTTL => exact hrewrites hstores
  | append name appends now =>
    cases hkey
    rcases hstores with hkept | ⟨record, hlookup, -, hsize⟩
    · exact hrewrites hkept
    · rw [hsize]
      exact Shard.computeSize_bounds (hsizes.2 record hlookup)
  | existsKey | get | delete | getTTL | sweepShard => exact hstores.elim

/-- The critical section of a call keeps the books of its shard. -/
theorem Call.critical_inv {st : Store L} {key : String} (hkey : c.key? = some key) (h : st.Inv)
    (hsizes : SizesBelow st c) : (c.critical st (st.shardFor key)).1.Inv := by
  obtain ⟨used, hedit, -⟩ := Call.critical_edit st hkey (st.shardFor key)
  exact hedit.inv (h.shardFor key) (currentSize_lt h hsizes key)
    fun next hstores => hstores.size_bounds hkey h hsizes

/-- One call keeps the invariant of every shard. -/
theorem perform_inv (c : Call) (h : st.Inv) (hsizes : SizesBelow st c) : (perform st c).1.Inv := by
  rcases perform_cases st c with ⟨key, hworks⟩ | hrefused | ⟨i, now, order, rfl⟩
  · rw [Store.Inv, hworks.shards]
    exact Store.forall_putShard h key (Call.critical_inv hworks.key_eq h hsizes)
  · rw [hrefused]
    exact h
  · exact Store.forall_sweepShard h i fun sh hsh => hsh.sweepLoop now _ _ 0

/-- No call adds or drops a shard or changes the options. -/
theorem perform_sameShape (c : Call) : Store.SameShape st (perform st c).1 := by
  rcases perform_cases st c with ⟨key, hworks⟩ | hrefused | ⟨i, now, order, rfl⟩
  · refine ⟨?_, hworks.opts⟩
    rw [hworks.shards]
    exact List.length_set
  · rw [hrefused]
    exact .refl st
  · exact ⟨List.length_modify .., rfl⟩

theorem run_length (calls : List Call) :
    (storeMachine.run st calls).shards.length = st.shards.length := by
  induction calls generalizing st with
  | nil => rfl
  | cons c rest ih => exact (ih _).trans (perform_sameShape st c).length

/-- A batch whose items are calls leaves the store that the calls of its
non-empty keys leave, whatever it collects. -/
theorem batch_eq_run {ι α ρ : Type} (keyOf : ι → String)
    (one : Store L → ι → Store L × Except Err α) (skip : GoMap ρ → ι → GoMap ρ)
    (collect : GoMap ρ → ι → Except Err α → GoMap ρ) (callOf : ι → Call)
    (hcall : ∀ st item, (perform st (callOf item)).1 = (one st item).1) (st : Store L)
    (items : List ι) (res : GoMap ρ) :
    (Store.batch keyOf one skip collect st items res).1 =
      storeMachine.run st ((items.filter (fun item => keyOf item ≠ "")).map callOf) := by
  induction items generalizing st res with
  | nil => rfl
  | cons item rest ih =>
    unfold Store.batch
    by_cases hkey : keyOf item = ""
    · rw [if_pos hkey, ih]
      simp [hkey]
    · have hstep : (storeMachine.step st (callOf item)).1 = (one st item).1 :=
        hcall st item
      rw [if_neg hkey, ih]
      simp [hkey, Machine.run_cons, hstep]

/-- A method leaves the store its calls leave. -/
theorem execute_eq_run (op : Op) :
    execute st op = storeMachine.run st (op.calls st.shards.length) := by
  cases op with
  | call c => rfl
  | multiGet keys =>
    exact batch_eq_run _ _ _ _ (fun item => .get item.1 item.2) (fun _ _ => rfl) st keys ∅
  | multiSet items ttl =>
    exact batch_eq_run _ _ _ _ (fun item => .set item.1 item.2.1 ttl item.2.2)
      (fun _ _ => rfl) st items ∅
  | multiDelete keys => exact batch_eq_run _ _ _ _ .delete (fun _ _ => rfl) st keys ∅
  | janitor now order =>
    simp only [execute, Op.calls, Machine.run_eq_foldl, List.foldl_map]
    rfl

def callsOf (count : Nat) (ops : List Op) : List Call := ops.flatMap (Op.calls count)

theorem executeAll_eq_run (ops : List Op) :
    ops.foldl execute st = storeMachine.run st (callsOf st.shards.length ops) := by
  induction ops generalizing st with
  | nil => rfl
  | cons op rest ih =>
    have hlength : (execute st op).shards.length = st.shards.length := by
      rw [execute_eq_run]
      exact run_length st _
    simp only [List.foldl_cons, callsOf, List.flatMap_cons, Machine.run_append]
    rw [ih, hlength, execute_eq_run]
    rfl

/-- After every finite sequence of methods on a new store, each shard's map and
recency list hold the same keys once each, its counter is the unwrapped sum of
the recorded sizes and stays within the capacity. Both eviction loops are left
from every shard state a call can reach. -/
theorem store_runs_keep_books {newLfu : Options → Except String L} {opts : Options}
    {st : Store L} (hnew : newWith newLfu opts = .ok st) (ops : List Op)
    (hsizes : storeMachine.AllSteps SizesBelow st (callsOf st.shards.length ops)) :
    (∀ sh ∈ (ops.foldl execute st).shards,
      sh.data.keys.Nodup ∧ sh.lru.keys.Nodup ∧
      (∀ key, key ∈ sh.data.keys ↔ key ∈ sh.lru.keys) ∧
      (sh.currentSize : Int) = (sh.data.entries.map (fun entry => entry.2.size)).sum ∧
      sh.currentSize < 2 ^ 64 ∧ sh.currentSize ≤ sh.capacity) ∧
    (∀ sh : Shard, ∃ bound, ∀ fuel, bound ≤ fuel →
      Shard.trimLoop fuel sh = some sh.trim) ∧
    (∀ (sh : Shard) (shouldAdmit : String → Bool) (newCost : Nat), ∃ bound, ∀ fuel,
      bound ≤ fuel →
        Shard.admitLoop shouldAdmit newCost fuel sh =
          some (sh.makeRoom shouldAdmit newCost)) := by
  have hinv : (ops.foldl execute st).Inv := by
    rw [executeAll_eq_run]
    exact storeMachine.run_invariant Store.Inv SizesBelow perform_inv st _
      (newWith_inv hnew) hsizes
  refine ⟨?_, ?_, ?_⟩
  · intro sh hsh
    have h := hinv sh hsh
    exact ⟨sh.data.keys_nodup, sh.lru.keys_nodup, h.sameKeys, h.counter,
      h.counterBound, h.budget⟩
  · intro sh
    exact ⟨sh.lru.keys.length + 1, fun fuel hfuel => sh.trimLoop_eq_trim hfuel⟩
  · intro sh shouldAdmit newCost
    exact ⟨sh.lru.keys.length + 1, fun fuel hfuel =>
      sh.admitLoop_eq_makeRoom shouldAdmit newCost hfuel⟩

/-- One shard of 1000 bytes without a default TTL, and a sketch that never ages
within the runs below. -/
def smallOptions : Options := ⟨1, 1000, 0, -1, 1, 16, 1000000⟩

theorem exists_small : ∃ st, newWith newTinyLfu smallOptions = .ok st := ⟨_, rfl⟩

def storedOrder : RangeOrder := ⟨id, fun keys => List.Perm.refl keys⟩

def counterRecord (n : Int64) : FieldMap := some (AList.singleton "n" (.int n))

theorem store_books_of_small_run :
    ∃ st : Store (TinyLfu String), new smallOptions = .ok st ∧
      ∀ sh ∈ ([Op.multiSet [("a", counterRecord 1, 5), ("b", counterRecord 2, 6)] 10,
        .call (.get "a" 7), .janitor 20 storedOrder].foldl execute st).shards,
        sh.currentSize ≤ sh.capacity := by
  obtain ⟨st, hst⟩ := exists_small
  refine ⟨st, hst, fun sh hsh => ?_⟩
  refine ((store_runs_keep_books hst _ ?_).1 sh hsh).2.2.2.2.2
  cases hst
  refine ⟨⟨?_, ?_⟩, ⟨?_, ?_⟩, ⟨?_, trivial⟩, ⟨?_, trivial⟩, trivial⟩ <;> decide +kernel

end Photon.FlashDb
