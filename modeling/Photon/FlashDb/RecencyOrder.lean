import Photon.FlashDb.Eviction
import Photon.FlashDb.History

/-!
The recency order of a shard, read off the history of answers. A key is used by a
successful `Set`, `Get`, `Increment`, `Decrement`, `Append` or `SetTTL`. The list a
shard keeps is always a sublist of its keys in the order of their last use, so it is
that order restricted to the keys the shard holds, and what a write evicts can be said
of the history alone.
-/

namespace Photon.FlashDb

open Photon.Lib Photon.Lib.Recency Photon.Stdlib

/-- The uses of the keys of one shard among `count`, in the order of the history. -/
def usesIn (count i : Nat) (past : List Event) : List String :=
  (past.filterMap usedBy).filter fun key => decide (shardIndex count key = i)

theorem usesIn_unused {event : Event} (h : usedBy event = none) (count i : Nat)
    (past : List Event) : usesIn count i (past ++ [event]) = usesIn count i past := by
  simp [usesIn, h]

theorem usesIn_used {event : Event} {key : String} (h : usedBy event = some key) {count i : Nat}
    (past : List Event) : usesIn count i (past ++ [event]) =
      usesIn count i past ++ if shardIndex count key = i then [key] else [] := by
  rw [usesIn, List.filterMap_append, List.filter_append]
  congr 1
  by_cases hindex : shardIndex count key = i <;> simp [h, hindex]

namespace Shard

/-- The recency list of a shard follows a call on `key`: a use makes `key` the most recent
key, a call that is no use promotes none, and either may drop keys. -/
def Follows (key : String) (before after : Shard) (used : Option String) : Prop :=
  used = none ∧ after.lru.keys.Sublist before.lru.keys ∨
    used = some key ∧ after.lru.keys.Sublist (key :: before.lru.keys.erase key)

variable (sh : Shard) (key : String)

theorem removeLocked_sublist : (sh.removeLocked key).lru.keys.Sublist sh.lru.keys := by
  rw [removeLocked_lru]
  exact List.erase_sublist

theorem touch_sublist : (sh.touch key).lru.keys.Sublist (key :: sh.lru.keys.erase key) := by
  by_cases hmem : key ∈ sh.lru.keys
  · have hkeys : (sh.touch key).lru.keys = key :: sh.lru.keys.erase key := sh.lru.keys_get hmem
    rw [hkeys]
  · have hkeys : (sh.touch key).lru.keys = sh.lru.keys := sh.lru.keys_get_of_not_mem hmem
    rw [hkeys, List.erase_of_not_mem hmem]
    exact List.sublist_cons_self key _

theorem trim_sublist : sh.trim.lru.keys.Sublist sh.lru.keys :=
  (trim_rule (fun s => s.lru.keys.Sublist sh.lru.keys)
    (fun s vk hs _ _ => (s.removeLocked_sublist vk).trans hs) sh (List.Sublist.refl _)).1

theorem makeRoom_sublist (shouldAdmit : String → Bool) (newCost : Nat) :
    (sh.makeRoom shouldAdmit newCost).1.lru.keys.Sublist sh.lru.keys :=
  (makeRoom_rule shouldAdmit newCost (fun s => s.lru.keys.Sublist sh.lru.keys)
    (fun s vk hs _ _ _ => (s.removeLocked_sublist vk).trans hs) sh (List.Sublist.refl _)).1

theorem sweepLoop_sublist (now : Time) (limit : Nat) (keys : List String) (deleted : Nat)
    (sh : Shard) :
    (sweepLoop now limit keys deleted sh).lru.keys.Sublist sh.lru.keys := by
  induction keys generalizing sh deleted with
  | nil => exact List.Sublist.refl _
  | cons key rest ih =>
    unfold sweepLoop
    split
    · exact ih deleted sh
    · split
      · split
        · exact sh.removeLocked_sublist key
        · exact (ih (deleted + 1) (sh.removeLocked key)).trans (sh.removeLocked_sublist key)
      · exact ih deleted sh

/-- The recency list of a shard follows an edit. -/
theorem Edit.follows {sh after : Shard} {key : String} {Stores : Record → Prop} {used : Bool}
    (e : Edit key sh Stores after used) (h : sh.Balanced) :
    Follows key sh after (if used then some key else none) := by
  cases e with
  | idle | overwrite => exact Or.inl ⟨rfl, List.Sublist.refl _⟩
  | remove => exact Or.inl ⟨rfl, sh.removeLocked_sublist key⟩
  | touch => exact Or.inr ⟨rfl, sh.touch_sublist key⟩
  | refuse shouldAdmit newCost _ => exact Or.inl ⟨rfl, sh.makeRoom_sublist shouldAdmit newCost⟩
  | rewrite => exact Or.inr ⟨rfl, touch_sublist _ key⟩
  | recharge => exact Or.inr ⟨rfl, (trim_sublist _).trans (touch_sublist _ key)⟩
  | @insert shouldAdmit room value exp _ hlookup hroom =>
    have hsublist := sh.makeRoom_sublist shouldAdmit (costOf key value)
    obtain ⟨hbalanced, -, -, -⟩ := h.makeRoom shouldAdmit
      (costOf key value) (AList.lookup_eq_none.mp hlookup)
    rw [hroom] at hsublist hbalanced
    refine Or.inr ⟨rfl, ?_⟩
    rw [insert_lru, room.lru.keys_set hbalanced.unlimited]
    exact (hsublist.erase key).cons_cons key

end Shard

def Tracked (past : List Event) (shards : List Shard) : Prop :=
  ∀ (i : Nat) (sh : Shard), shards[i]? = some sh →
    sh.lru.keys.Sublist (lastUsed (usesIn shards.length i past))

section Tracking

variable {L : Type} {past : List Event} {st : Store L} {event : Event}

theorem newWith_tracked {newLfu : Options → Except String L} {opts : Options}
    (hnew : newWith newLfu opts = .ok st) :
    Tracked [] st.shards := by
  intro i sh hsh
  obtain ⟨perShard, rfl⟩ := newWith_shards hnew (List.mem_of_getElem? hsh)
  exact List.nil_sublist _

theorem Tracked.unused (h : Tracked past st.shards) (hused : usedBy event = none) :
    Tracked (past ++ [event]) st.shards := by
  intro i sh hsh
  rw [usesIn_unused hused]
  exact h i sh hsh

theorem getElem?_shardIndex (st : Store L) (key : String) :
    st.shards[shardIndex st.shards.length key]? = some (st.shardFor key) :=
  List.getElem?_eq_getElem (st.shardIndex_lt key)

variable {key : String}

/-- Replacing the shard of `key` is tracked when its own list is: the uses of the keys
of the other shards have not changed. -/
theorem Tracked.putShard (h : Tracked past st.shards) {sh : Shard}
    (hown : sh.lru.keys.Sublist (lastUsed (usesIn st.shards.length
      (shardIndex st.shards.length key) (past ++ [event]))))
    (hother : ∀ i, i ≠ shardIndex st.shards.length key →
      usesIn st.shards.length i (past ++ [event]) = usesIn st.shards.length i past) :
    Tracked (past ++ [event]) (st.putShard key sh).shards := by
  intro i found hfound
  simp only [Store.putShard, List.length_set] at hfound ⊢
  by_cases hi : i = shardIndex st.shards.length key
  · subst hi
    rw [List.getElem?_set_self (st.shardIndex_lt key)] at hfound
    cases hfound
    exact hown
  · rw [List.getElem?_set_ne (Ne.symm hi)] at hfound
    rw [hother i hi]
    exact h i found hfound

theorem Tracked.putShard_follows (h : Tracked past st.shards) {sh : Shard}
    (hfollows : Shard.Follows key (st.shardFor key) sh (usedBy event)) :
    Tracked (past ++ [event]) (st.putShard key sh).shards := by
  have hbefore := h _ _ (getElem?_shardIndex st key)
  rcases hfollows with ⟨hused, hkeys⟩ | ⟨hused, hkeys⟩
  · refine h.putShard ?_ fun i _ => usesIn_unused hused _ i past
    rw [usesIn_unused hused]
    exact hkeys.trans hbefore
  · refine h.putShard ?_ fun i hi => ?_
    · rw [usesIn_used hused, if_pos rfl, lastUsed_snoc]
      exact hkeys.trans ((hbefore.erase key).cons_cons key)
    · rw [usesIn_used hused, if_neg (Ne.symm hi), List.append_nil]

theorem Tracked.sweepShard (h : Tracked past st.shards) (i : Nat) (now : Time)
    (order : RangeOrder) (hused : usedBy event = none) :
    Tracked (past ++ [event]) (st.sweepShard i now order).shards := by
  intro j sh hsh
  simp only [Store.sweepShard, List.length_modify] at hsh ⊢
  rw [usesIn_unused hused]
  rw [List.getElem?_modify] at hsh
  obtain ⟨old, hold, rfl⟩ := Option.map_eq_some_iff.mp hsh
  have hbefore := h j old hold
  split
  · exact (Shard.sweepLoop_sublist now _ _ 0 old).trans hbefore
  · exact hbefore

variable [AdmissionPolicy L]

/-- One call keeps every shard's list in the order of last use. -/
theorem Tracked.perform (h : Tracked past st.shards) (hinv : st.Inv) (c : Call) :
    Tracked (past ++ [(c, (perform st c).2)]) (FlashDb.perform st c).1.shards := by
  rcases perform_cases st c with ⟨key, hworks⟩ | hrefused | ⟨i, now, order, rfl⟩
  · rw [hworks.shards, hworks.answer]
    obtain ⟨used, hedit, hused⟩ := Call.critical_edit st hworks.key_eq (st.shardFor key)
    refine h.putShard_follows ?_
    rw [hused]
    exact hedit.follows (hinv.shardFor key).toBalanced
  · rw [hrefused]
    exact h.unused (by cases c <;> rfl)
  · exact h.sweepShard i now order rfl

/-- Along a run on a new store the books are kept and the lists follow the history. -/
theorem run_tracked {newLfu : Options → Except String L} {opts : Options}
    (hnew : newWith newLfu opts = .ok st) (calls : List Call)
    (hsizes : storeMachine.AllSteps SizesBelow st calls) :
    (storeMachine.run st calls).Inv ∧
      Tracked (storeMachine.trace st calls) (storeMachine.run st calls).shards :=
  storeMachine.trace_invariant (fun past st => st.Inv ∧ Tracked past st.shards) SizesBelow
    (fun _ s c h hsize => ⟨perform_inv s c h.1 hsize, h.2.perform h.1 c⟩) [] st calls
    ⟨newWith_inv hnew, newWith_tracked hnew⟩ hsizes

omit [AdmissionPolicy L] in
/-- The keys held by the shard of `key`, in the order of their last use. -/
def recencyOrder (past : List Event) (st : Store L) (key : String) : List String :=
  (lastUsed (usesIn st.shards.length (shardIndex st.shards.length key) past)).filter
    fun name => ((st.shardFor key).data.lookup name).isSome

omit [AdmissionPolicy L] in
theorem Tracked.keys_eq (h : Tracked past st.shards) (hinv : st.Inv) (key : String) :
    (st.shardFor key).lru.keys = recencyOrder past st key := by
  have hsublist := h _ _ (getElem?_shardIndex st key)
  rw [eq_filter_of_sublist hsublist (List.nodup_reverse.mpr (List.nodup_dedup _)),
    recencyOrder]
  refine List.filter_congr fun name _ => ?_
  rw [Bool.eq_iff_iff, decide_eq_true_iff, AList.lookup_isSome]
  exact ((hinv.shardFor key).sameKeys name).symm

/-- A call that writes `next` to `key` does to the shard's keys and records what `Change`
says, in the order of last use before and after it. -/
def Writes (Change : List String → List String → Shard → Shard → String → Record → Prop)
    (past : List Event) (st : Store L) (c : Call) (key : String) (next : Record) : Prop :=
  Change (recencyOrder past st key)
    (recencyOrder (past ++ [(c, (perform st c).2)]) (perform st c).1 key)
    (st.shardFor key) ((perform st c).1.shardFor key) key next

/-- Between calls the order of last use is the order of the shard's own list. -/
theorem Tracked.writes
    {Change : List String → List String → Shard → Shard → String → Record → Prop}
    (h : Tracked past st.shards) (hinv : st.Inv) {c : Call} (hsizes : SizesBelow st c)
    {next : Record}
    (hchange : Change (st.shardFor key).lru.keys ((FlashDb.perform st c).1.shardFor key).lru.keys
      (st.shardFor key) ((FlashDb.perform st c).1.shardFor key) key next) :
    Writes Change past st c key next := by
  rw [Writes, ← h.keys_eq hinv, ← (h.perform hinv c).keys_eq (perform_inv st c hinv hsizes)]
  exact hchange

theorem Store.set_shardFor (st : Store L) (hkey : key ≠ "") (value : FieldMap) (ttl : Int)
    (now : Time) :
    (perform st (.set key value ttl now)).1.shardFor key =
      ((st.shardFor key).set ((st.recordAccess key).admits key) key value
        (st.opts.expiryFor ttl now)).1 := by
  simp [perform, st.set_eq hkey, Store.putShard_shardFor_self]

theorem Store.append_shardFor (st : Store L) (hkey : key ≠ "") (appends : GoMap String)
    (now : Time) :
    (perform st (.append key appends now)).1.shardFor key =
      ((st.shardFor key).append key appends now).1 := by
  simp only [perform, Store.append, if_neg hkey, Prod.map_fst, id, Store.recordOk_shardFor,
    Store.putShard_shardFor_self]

/-- Whenever no accounted size has reached `2^63` in a run on a new store, a `Set` of an
absent key that answers true evicts the shortest run of least recently used keys that
makes room for the record; a `Set` of a present key and a successful `Append` evict, once
the record is the most recent one, the shortest such run that brings the shard back to
its capacity, and nothing when it is not over it. The other records keep their values,
expiries and order. A failed `Append` takes no other record away. -/
theorem evicts_least_recent_only {newLfu : Options → Except String L} {opts : Options}
    (hnew : newWith newLfu opts = .ok st) (calls : List Call)
    (hsizes : storeMachine.AllSteps SizesBelow st calls) {full : Store L}
    (hfull : full = storeMachine.run st calls) (key : String) (now : Time) :
    (∀ value ttl, SizesBelow full (.set key value ttl now) →
      (full.recordOf key = none → (full.set key value ttl now).2 = .ok true →
        Writes Shard.Inserted (storeMachine.trace st calls) full (.set key value ttl now) key
          ⟨value, computeSize key value, full.opts.expiryFor ttl now⟩) ∧
      (∀ stored, full.recordOf key ≠ none → (full.set key value ttl now).2 = .ok stored →
        Writes Shard.Replaced (storeMachine.trace st calls) full (.set key value ttl now) key
          ⟨value, computeSize key value, full.opts.expiryFor ttl now⟩)) ∧
    (∀ appends, SizesBelow full (.append key appends now) →
      ((full.append key appends now).2 = .ok () →
        ∃ record, full.recordOf key = some record ∧
          Writes Shard.Replaced (storeMachine.trace st calls) full (.append key appends now) key
            ⟨(appendLoop appends record.value).1,
              computeSize key (appendLoop appends record.value).1, record.expiry⟩) ∧
      (∀ e, (full.append key appends now).2 = .error e → ∀ name, name ≠ key →
        (full.append key appends now).1.recordOf name = full.recordOf name)) := by
  obtain ⟨hinv, htracked⟩ := run_tracked hnew calls hsizes
  rw [← hfull] at hinv htracked
  have hshard := hinv.shardFor key
  by_cases hkey : key = ""
  · refine ⟨fun value ttl _ => ⟨fun _ hanswer => ?_, fun stored _ hanswer => ?_⟩,
      fun appends _ => ⟨fun hanswer => ?_, fun e _ name _ => ?_⟩⟩
    · rw [Store.set, if_pos hkey] at hanswer
      cases hanswer
    · rw [Store.set, if_pos hkey] at hanswer
      cases hanswer
    · rw [Store.append, if_pos hkey] at hanswer
      cases hanswer
    · rw [Store.append, if_pos hkey]
  · refine ⟨fun value ttl hsize => ⟨fun hlookup hanswer => ?_, fun stored hpresent _ => ?_⟩,
      fun appends hsize => ⟨fun hanswer => ?_, fun e hanswer name hname => ?_⟩⟩
    · refine htracked.writes hinv hsize ?_
      rw [full.set_eq hkey, Except.ok.injEq] at hanswer
      rw [full.set_shardFor hkey]
      exact hshard.set_inserted _ hlookup hsize.2 (currentSize_lt hinv hsize key) hanswer
    · refine htracked.writes hinv hsize ?_
      obtain ⟨record, hlookup⟩ := Option.ne_none_iff_exists'.mp hpresent
      have hset := full.set_shardFor hkey value ttl now
      simp only [Shard.set, show (full.shardFor key).data.lookup key = some record from hlookup]
        at hset
      rw [hset]
      exact hshard.update_replaced hlookup value _ hsize.2 (currentSize_lt hinv hsize key)
    · rcases (full.shardFor key).append_cases key appends now with
        ⟨record, hlookup, happend⟩ | ⟨e, herror, -⟩
      · refine ⟨record, hlookup, htracked.writes hinv hsize ?_⟩
        rw [full.append_shardFor hkey, happend]
        dsimp only
        exact hshard.recharge_replaced hlookup (hsize.2 record hlookup)
          (currentSize_lt hinv hsize key)
      · rw [Store.append_answer hkey, herror] at hanswer
        cases hanswer
    · rcases (full.shardFor key).append_cases key appends now with
        ⟨record, hlookup, happend⟩ | ⟨e, -, hothers⟩
      · rw [Store.append_answer hkey, happend] at hanswer
        cases hanswer
      · rw [Store.append, if_neg hkey, Store.recordOf_recordOk, Store.recordOf, Store.recordOf]
        rcases full.putShard_shardFor key name ((full.shardFor key).append key appends now).1 with
          ⟨hput, hsame⟩ | hother
        · rw [hput, hsame]
          exact hothers name hname
        · rw [hother]

end Tracking

def firstRead : List Call :=
  [.set "a" (counterRecord 1) 0 1, .set "b" (counterRecord 2) 0 2, .get "a" 3]

/-- Two records fill the shard and the older one is read; the newcomer takes the place of
the other one. -/
theorem unread_record_makes_room :
    ∃ st : Store (TinyLfu String), new tightOptions = .ok st ∧
      ∃ full, full = storeMachine.run st firstRead ∧
      (full.set "c" (counterRecord 3) 0 4).2 = .ok true ∧
      Writes Shard.Inserted (storeMachine.trace st firstRead) full
        (.set "c" (counterRecord 3) 0 4) "c"
        ⟨counterRecord 3, computeSize "c" (counterRecord 3), full.opts.expiryFor 0 4⟩ := by
  obtain ⟨st, hst⟩ : ∃ st, newWith newTinyLfu tightOptions = .ok st := ⟨_, rfl⟩
  have hstored : ((storeMachine.run st firstRead).set "c" (counterRecord 3) 0 4).2 = .ok true := by
    cases hst
    decide +kernel
  refine ⟨st, hst, _, rfl, hstored, ?_⟩
  refine ((evicts_least_recent_only hst _ ?_ rfl "c" 4).1 (counterRecord 3) 0 ?_).1 ?_ hstored
  · cases hst
    refine ⟨⟨?_, ?_⟩, ⟨?_, ?_⟩, ⟨?_, trivial⟩, trivial⟩ <;> decide +kernel
  · cases hst
    refine ⟨?_, ?_⟩ <;> decide +kernel
  · cases hst
    rfl

def doubled : Nat → String
  | 0 => "x"
  | n + 1 => doubled n ++ doubled n

theorem doubled_size (n : Nat) : (doubled n).utf8ByteSize = 2 ^ n := by
  induction n with
  | zero => rfl
  | succ n ih =>
    rw [doubled, String.utf8ByteSize_append, ih]
    ring

/-- One field: 65536 rows of 65536 references to one text of 1.5 GiB. The rows are one
row too, so the value takes little more than the text. -/
def vastRecord : FieldMap :=
  some (AList.singleton "s" (.slice (List.replicate 65536
    (.slice (List.replicate 65536 (.string (doubled 30 ++ doubled 29)))))))

theorem sliceSize_replicate {v : Value} {size : Int} (hv : getInMemorySizeInBytes v = .ok size)
    (hsize : 0 ≤ size) (n : Nat) {start : Int} (hstart : 0 ≤ start)
    (hlt : start + n * size < 2 ^ 63) :
    sliceSize start (List.replicate n v) = .ok (start + n * size) := by
  induction n generalizing start with
  | zero => simp [sliceSize]
  | succ n ih =>
    have hsplit : start + ((n + 1 : Nat) : Int) * size = start + size + n * size := by
      push_cast
      ring
    have hrest : 0 ≤ (n : Int) * size := Int.mul_nonneg (Int.natCast_nonneg n) hsize
    have hwrap : wrapI64 (start + size) = start + size :=
      wrapI64_of_bounds (by omega) (by omega)
    rw [List.replicate_succ, sliceSize, hv]
    change sliceSize (wrapI64 (start + size)) (List.replicate n v) = _
    rw [hwrap, ih (by omega) (by omega), hsplit]

/-- Every reference is charged for the whole text. -/
theorem vastRecord_size : safeDeepSize vastRecord.toValue = 6917529096362131545 := by
  have htext : getInMemorySizeInBytes (.string (doubled 30 ++ doubled 29)) =
      .ok 1610612752 := by
    rw [getInMemorySizeInBytes, String.utf8ByteSize_append, doubled_size, doubled_size]
    rfl
  have hrow : getInMemorySizeInBytes
      (.slice (List.replicate 65536 (.string (doubled 30 ++ doubled 29)))) =
        .ok 105553117315096 := by
    rw [getInMemorySizeInBytes, sliceSize_replicate htext (by norm_num) _ (by decide) (by decide)]
    rfl
  have hrows : getInMemorySizeInBytes (.slice (List.replicate 65536
      (.slice (List.replicate 65536 (.string (doubled 30 ++ doubled 29)))))) =
        .ok 6917529096362131480 := by
    rw [getInMemorySizeInBytes, sliceSize_replicate hrow (by norm_num) _ (by decide) (by decide)]
    rfl
  have hvalue : vastRecord.toValue = .mapping [(.string "s", .slice (List.replicate 65536
      (.slice (List.replicate 65536 (.string (doubled 30 ++ doubled 29))))))] := rfl
  have hname : getInMemorySizeInBytes (.string "s") = .ok 17 := by
    have hbyte : "s".utf8ByteSize = 1 := rfl
    rw [getInMemorySizeInBytes, hbyte]
    rfl
  have hfields : getInMemorySizeInBytes vastRecord.toValue = .ok 6917529096362131545 := by
    rw [hvalue, getInMemorySizeInBytes, mappingSize, hname, hrows]
    rfl
  rw [safeDeepSize, hfields]
  rfl

theorem vastRecord_computeSize (key : String) (hkey : key.utf8ByteSize = 1) :
    computeSize key vastRecord = 6917529096362131642 := by
  have hexact : exactSize key vastRecord = 6917529096362131642 := by
    rw [exactSize, vastRecord_size, hkey]
    rfl
  rw [computeSize_eq_exactSize (by omega), hexact]

theorem Shard.makeRoom_of_room {sh : Shard} {newCost : Nat} (shouldAdmit : String → Bool)
    (hroom : sh.isFullAfter newCost = false) : sh.makeRoom shouldAdmit newCost = (sh, true) := by
  have hloop := sh.admitLoop_eq_makeRoom shouldAdmit newCost (Nat.lt_succ_self sh.lru.keys.length)
  rw [admitLoop, hroom, if_neg Bool.false_ne_true] at hloop
  exact (Option.some.inj hloop).symm

/-- At the largest capacity no sum of sizes is too large, since the sum wraps. -/
theorem Shard.set_largest_capacity {sh : Shard} (hcapacity : sh.capacity = 2 ^ 64 - 1)
    (shouldAdmit : String → Bool) {key : String} {value : FieldMap} (exp : Time)
    (hlookup : sh.data.lookup key = none) (hsize : computeSize key value < 2 ^ 63) :
    sh.set shouldAdmit key value exp = (sh.insert key value exp, true) := by
  have hfits : costOf key value ≤ sh.capacity := by
    unfold costOf nonNegativeInt64ToUint64
    split <;> omega
  have hroom : sh.isFullAfter (costOf key value) = false := by
    have hsum : addU64 sh.currentSize (costOf key value) < 2 ^ 64 :=
      Nat.mod_lt _ (by norm_num)
    rw [isFullAfter, decide_eq_false_iff_not]
    omega
  rw [set_of_absent shouldAdmit exp hlookup hfits, makeRoom_of_room shouldAdmit hroom]

section SingleShard

variable {L : Type} {st : Store L} {sh : Shard}

theorem Store.shardFor_single (hshards : st.shards = [sh]) (key : String) :
    st.shardFor key = sh := by
  have hmem := st.shardFor_mem key
  rw [hshards] at hmem
  exact List.mem_singleton.mp hmem

theorem Store.putShard_single (hshards : st.shards = [sh]) (key : String) (next : Shard) :
    (st.putShard key next).shards = [next] := by
  change st.shards.set (shardIndex st.shards.length key) next = [next]
  rw [hshards, shardIndex, List.length_singleton, Nat.mod_one]
  rfl

theorem Store.set_single [AdmissionPolicy L] (hshards : st.shards = [sh]) {key : String}
    (hkey : key ≠ "") (hcapacity : sh.capacity = 2 ^ 64 - 1) {value : FieldMap} (ttl : Int)
    (now : Time) (hlookup : sh.data.lookup key = none) (hsize : computeSize key value < 2 ^ 63) :
    (st.set key value ttl now).1.shards = [sh.insert key value (st.opts.expiryFor ttl now)] ∧
      (st.set key value ttl now).2 = .ok true := by
  rw [st.set_eq hkey, Store.shardFor_single hshards,
    Shard.set_largest_capacity hcapacity _ _ hlookup hsize]
  exact ⟨Store.putShard_single hshards key _, rfl⟩

end SingleShard

def vastOptions : Options := {smallOptions with maxStorageSize := 18446744073709551615}

/-- Two records of three quarters of `2 ^ 63` bytes fit the shard, a third one does not
without the removal of the first. Its `Set` answers true and nothing is evicted: the sum
of the three sizes wraps around. -/
theorem wrapped_sum_evicts_nothing :
    ∃ st : Store (TinyLfu String), new vastOptions = .ok st ∧
      ∃ full, full = storeMachine.run st [.set "a" vastRecord 0 1, .set "b" vastRecord 0 2] ∧
      (full.shardFor "c").lru.keys = ["b", "a"] ∧
      (full.shardFor "c").charges ["b"] + computeSize "c" vastRecord ≤
        (full.shardFor "c").capacity ∧
      (full.shardFor "c").capacity <
        (full.shardFor "c").charges ["b", "a"] + computeSize "c" vastRecord ∧
      (full.set "c" vastRecord 0 3).2 = .ok true ∧
      ((full.set "c" vastRecord 0 3).1.shardFor "c").lru.keys = ["c", "b", "a"] := by
  obtain ⟨st, hst⟩ : ∃ st, new vastOptions = .ok st := ⟨_, rfl⟩
  have hshards : st.shards = [emptyShard (2 ^ 64 - 1)] := by
    cases hst
    rfl
  have hsize (key : String) (hkey : key.utf8ByteSize = 1) :
      computeSize key vastRecord < 2 ^ 63 := by
    rw [vastRecord_computeSize key hkey]
    norm_num
  have hother (sh : Shard) {key name : String} (exp : Time) (hne : name ≠ key) :
      (sh.insert key vastRecord exp).data.lookup name = sh.data.lookup name := by
    rw [Shard.insert_data, AList.lookup_insert_ne hne]
  have hown (sh : Shard) (key : String) (exp : Time) :
      (sh.insert key vastRecord exp).data.lookup key =
        some ⟨vastRecord, computeSize key vastRecord, exp⟩ := by
    rw [Shard.insert_data, AList.lookup_insert]
  obtain ⟨first, hfirst⟩ : ∃ first, first = (st.set "a" vastRecord 0 1).1 := ⟨_, rfl⟩
  obtain ⟨full, hfull⟩ : ∃ full, full = (first.set "b" vastRecord 0 2).1 := ⟨_, rfl⟩
  have hone := (Store.set_single hshards (by decide) rfl 0 1 rfl (hsize "a" rfl)).1
  rw [← hfirst] at hone
  have htwo := (Store.set_single hone (by decide) rfl 0 2 (hother _ _ (by decide))
    (hsize "b" rfl)).1
  rw [← hfull] at htwo
  have hthree := Store.set_single htwo (by decide) rfl 0 3
    ((hother _ _ (by decide)).trans (hother _ _ (by decide))) (hsize "c" rfl)
  have hshard := Store.shardFor_single htwo "c"
  have hcapacity : (full.shardFor "c").capacity = 2 ^ 64 - 1 := by
    rw [hshard]
    rfl
  have hcharges : (full.shardFor "c").charges ["b"] = 6917529096362131642 ∧
      (full.shardFor "c").charges ["b", "a"] = 13835058192724263284 := by
    rw [hshard, Shard.charges, Shard.charges, totalOn_cons, totalOn_cons, totalOn_cons, totalOn_nil,
      hown, hother _ _ (by decide), hown, Option.elim_some, Option.elim_some,
      vastRecord_computeSize "a" rfl, vastRecord_computeSize "b" rfl]
    norm_num
  refine ⟨st, hst, full, ?_, ?_, ?_, ?_, hthree.2, ?_⟩
  · rw [hfull, hfirst]
    rfl
  · rw [hshard]
    rfl
  · rw [hcharges.1, vastRecord_computeSize "c" rfl, hcapacity]
    norm_num
  · rw [hcharges.2, vastRecord_computeSize "c" rfl, hcapacity]
    norm_num
  · rw [Store.shardFor_single hthree.1]
    rfl

end Photon.FlashDb
