import Photon.Caching.FlashTtl

/-!
`MultiSet` of the cache on top of FlashDB against one `Set` for each of its keys. Both give the
keys to the store one after another, and where nothing is evicted or rejected their order does not
matter. Each of them chooses the map that it stores for a value on its own, and they differ in nil:
`Set` stores no fields for it, `MultiSet` a field `bin` that is nil.
-/

namespace Photon.FlashDb.Store

variable {L : Type}

theorem newWith_recordOf {newLfu : Options → Except String L} {opts : Options}
    {st : Store L} (hnew : newWith newLfu opts = .ok st) (name : String) :
    st.recordOf name = none := by
  obtain ⟨perShard, hempty⟩ :=
    newWith_shards hnew (List.get_mem st.shards ⟨_, st.shardIndex_lt name⟩)
  rw [recordOf, shardFor, hempty]
  rfl

variable [AdmissionPolicy L]

/-- A `Set` that is accepted and evicts neither its own record nor another one. -/
structure SetKeeps (st : Store L) (key : String) (value : FieldMap) (ttl : Int) (now : Time) :
    Prop where
  accepted : (st.set key value ttl now).2 = .ok true
  kept : ∀ name, name = key ∨ st.recordOf name ≠ none →
    (st.set key value ttl now).1.recordOf name ≠ none

variable {st : Store L} {key name : String} {value : FieldMap} {ttl : Int} {now : Time}

theorem SetKeeps.recordOf_self (h : st.SetKeeps key value ttl now) (hkey : key ≠ "") :
    (st.set key value ttl now).1.recordOf key =
      some ⟨value, computeSize key value, st.opts.expiryFor ttl now⟩ := by
  have hkept := h.kept key (.inl rfl)
  rw [set_eq st hkey, recordOf, putShard_shardFor_self] at hkept ⊢
  exact (((st.shardFor key).set_lookup_self _ key value _).resolve_left hkept).2

theorem SetKeeps.recordOf_ne (h : st.SetKeeps key value ttl now) (hne : name ≠ key) :
    (st.set key value ttl now).1.recordOf name = st.recordOf name := by
  rcases st.set_recordOf_ne value ttl now hne with hnone | hsame
  · have hbefore : st.recordOf name = none := by
      by_contra hthere
      exact h.kept name (.inr hthere) hnone
    rw [hnone, hbefore]
  · exact hsame

end Photon.FlashDb.Store

namespace Photon.Caching

open Photon.FlashDb Photon.Lib

namespace FlashDBCache

section Defs

variable {L V : Type} [AdmissionPolicy L] (R : AnyValue V) (nil : V) (c : FlashDBCache L)
  (req : MultiSetRequest V) (ttl : Int) (clock : String → Time) (value : String → FieldMap)
  (keys : List String)

def multiPayload (key : String) : FieldMap :=
  if key ∈ req.fieldsMap then some (((req.fieldsMap.lookup key).getD none).getD ∅)
  else valuePayload R ((req.valueMap.lookup key).getD nil)

def single (key : String) : SetRequest V :=
  let address := ⟨req.ns, req.coll, key⟩
  if key ∈ req.fieldsMap then ⟨address, nil, (req.fieldsMap.lookup key).getD none, req.ttl⟩
  else ⟨address, (req.valueMap.lookup key).getD nil, none, req.ttl⟩

/-- The store gets the keys of a request one after another, each with the map that `value` gives. -/
def puts : Machine (MultiSetState L) String Unit :=
  ⟨fun s key => (s.put ⟨req.ns, req.coll, key⟩ (value key) ttl (clock key), ())⟩

def Roomy : Prop :=
  (puts req (c.effectiveTTL req.ttl) clock value).AllSteps (fun s key => ∀ k,
    composeKey req.ns req.coll key = .ok k →
      s.cache.store.SetKeeps k (value key) (c.effectiveTTL req.ttl) (clock key)) ⟨c, ∅, none⟩ keys

def setTurn (done : FlashDBCache L × GoMap Bool) (key : String) : FlashDBCache L × GoMap Bool :=
  match done.1.setContext R none (some (single nil req key)) (clock key) with
  | (c, .ok ok) => (c, done.2.insert key ok)
  | (c, .error _) => (c, done.2.insert key false)

/-- One `Set` for each of the keys, and their answers. -/
def setEach : FlashDBCache L × GoMap Bool :=
  keys.foldl (setTurn R nil req clock) (c, ∅)

def visited (order : RangeOrder) : List String :=
  order.arrange req.fieldsMap.keys ++
    (order.arrange req.valueMap.keys).filter (· ∉ req.fieldsMap)

/-- What the store and the answers are once the keys are stored. -/
structure HoldsAll (s : MultiSetState L) : Prop where
  opts : s.cache.store.opts = c.store.opts
  answered : ∀ key ∈ keys, key ≠ "" → s.result.lookup key = some true
  stored : ∀ key ∈ keys, ∀ k, composeKey req.ns req.coll key = .ok k →
    s.cache.store.recordOf k = some ⟨value key, computeSize k (value key),
      c.store.opts.expiryFor (c.effectiveTTL req.ttl) (clock key)⟩
  others : ∀ name, (∀ key ∈ keys, composeKey req.ns req.coll key ≠ .ok name) →
    s.cache.store.recordOf name = c.store.recordOf name

end Defs

variable {L V : Type} {R : AnyValue V} {nil : V} {req : MultiSetRequest V} {key k : String}

theorem payload_single_of_mem (hnil : R.isNil nil = true) (hmem : key ∈ req.fieldsMap) :
    payload R (single nil req key) = multiPayload R nil req key := by
  rw [single, multiPayload, if_pos hmem, if_pos hmem, payload]
  cases (req.fieldsMap.lookup key).getD none with
  | some fields => rfl
  | none => simp [hnil]

theorem payload_single_of_value {value : V} (hmem : key ∉ req.fieldsMap)
    (hvalue : req.valueMap.lookup key = some value) :
    payload R (single nil req key) =
      if R.isNil value then some ∅ else multiPayload R nil req key := by
  rw [single, multiPayload, if_neg hmem, if_neg hmem, hvalue]
  rfl

theorem mem_visited {order : RangeOrder} :
    key ∈ visited req order ↔ key ∈ req.fieldsMap ∨ key ∈ req.valueMap := by
  rw [visited, List.mem_append, List.mem_filter, (order.perm _).mem_iff, (order.perm _).mem_iff,
    ← AList.mem_keys, ← AList.mem_keys]
  by_cases hmem : key ∈ req.fieldsMap <;> simp [hmem]

variable [AdmissionPolicy L]

section Puts

variable {c : FlashDBCache L} {clock : String → Time} {value : String → FieldMap}
  {s : MultiSetState L} {ttl : Int}

theorem put_of_ok {payload : FieldMap} {now : Time} {ok : Bool}
    (hk : composeKey req.ns req.coll key = .ok k)
    (hset : (s.cache.store.set k payload ttl now).2 = .ok ok) :
    s.put ⟨req.ns, req.coll, key⟩ payload ttl now =
      ⟨{s.cache with store := (s.cache.store.set k payload ttl now).1}, s.result.insert key ok,
        s.firstErr⟩ := by
  simp only [MultiSetState.put, if_neg (composeKey_key_ne_empty hk), hk, hset]

theorem composeKey_error {ns coll e : String} (h : composeKey ns coll key = .error e) :
    key = "" := by
  by_contra hkey
  obtain ⟨before, hbefore⟩ := composeKey_eq_append ns coll
  rw [hbefore key hkey] at h
  cases h

theorem HoldsAll.put {keys : List String} (h : HoldsAll c req clock value keys s)
    (hkeeps : ∀ k, composeKey req.ns req.coll key = .ok k →
      s.cache.store.SetKeeps k (value key) (c.effectiveTTL req.ttl) (clock key)) :
    HoldsAll c req clock value (keys ++ [key])
      (s.put ⟨req.ns, req.coll, key⟩ (value key) (c.effectiveTTL req.ttl) (clock key)) := by
  have hbefore : ∀ name, name ∈ keys ++ [key] → name ≠ key → name ∈ keys :=
    fun name hname hne => (List.mem_append.mp hname).resolve_right (by simpa using hne)
  cases hk : composeKey req.ns req.coll key with
  | error e =>
    obtain rfl := composeKey_error hk
    refine ⟨h.opts, fun name hname hne => ?_, fun name hname k hok => ?_, fun name hname => ?_⟩
    · exact (AList.lookup_insert_ne hne).trans (h.answered name (hbefore name hname hne) hne)
    · exact h.stored name (hbefore name hname (composeKey_key_ne_empty hok)) k hok
    · exact h.others name fun other hother => hname other (List.mem_append_left _ hother)
  | ok k =>
    have hset := hkeeps k hk
    rw [put_of_ok hk hset.accepted]
    refine ⟨(Store.set_opts _ _ _ _ _).trans h.opts, fun name hname hne => ?_,
      fun name hname other hother => ?_, fun name hname => ?_⟩
    · by_cases heq : name = key
      · rw [heq, AList.lookup_insert]
      · rw [AList.lookup_insert_ne heq]
        exact h.answered name (hbefore name hname heq) hne
    · by_cases heq : name = key
      · subst heq
        cases hk.symm.trans hother
        exact (hset.recordOf_self (composeKey_ne_empty hk)).trans (by rw [h.opts])
      · have hne : other ≠ k := fun hsame => heq (composeKey_key_inj hother (hsame ▸ hk))
        exact (hset.recordOf_ne hne).trans (h.stored name (hbefore name hname heq) other hother)
    · have hne : name ≠ k := fun hsame => hname key (by simp) (hsame ▸ hk)
      exact (hset.recordOf_ne hne).trans
        (h.others name fun other hother => hname other (List.mem_append_left _ hother))

theorem Roomy.holdsAll {keys : List String} (hroom : Roomy c req clock value keys) :
    HoldsAll c req clock value keys
      ((puts req (c.effectiveTTL req.ttl) clock value).run ⟨c, ∅, none⟩ keys) := by
  induction keys using List.reverseRecOn with
  | nil => exact ⟨rfl, by simp, by simp, fun name _ => rfl⟩
  | append_singleton before key ih =>
    obtain ⟨hbefore, hlast⟩ := Machine.AllSteps.of_append hroom
    rw [Machine.run_append]
    exact (ih hbefore).put hlast.1

theorem put_result (s : MultiSetState L) (a : Address) (payload : FieldMap) (ttl : Int)
    (now : Time) : ∃ ok, (s.put a payload ttl now).result = s.result.insert a.key ok := by
  rw [MultiSetState.put]
  split
  · exact ⟨false, rfl⟩
  · split
    · exact ⟨false, rfl⟩
    · dsimp only
      split
      · exact ⟨_, rfl⟩
      · exact ⟨false, rfl⟩

theorem mem_run_result (keys : List String) :
    key ∈ ((puts req ttl clock value).run s keys).result ↔ key ∈ keys ∨ key ∈ s.result := by
  induction keys generalizing s with
  | nil => simp
  | cons first rest ih =>
    obtain ⟨ok, hput⟩ := put_result s ⟨req.ns, req.coll, first⟩ (value first) ttl (clock first)
    rw [Machine.run_cons, ih]
    simp only [puts, hput, AList.mem_insert, List.mem_cons]
    tauto

/-- The loop over `ValueMap` stores the keys without an answer. -/
theorem foldl_putValue {keys : List String} (hnodup : keys.Nodup)
    (hkeys : ∀ key ∈ keys, key ∈ req.valueMap ∧ (key ∈ s.result ↔ key ∈ req.fieldsMap)) :
    keys.foldl (.putValue R req ttl clock) s =
      (puts req ttl clock (multiPayload R nil req)).run s
        (keys.filter (· ∉ req.fieldsMap)) := by
  induction keys generalizing s with
  | nil => rfl
  | cons key rest ih =>
    obtain ⟨hfresh, hnodup⟩ := List.nodup_cons.mp hnodup
    obtain ⟨⟨hvalue, hdone⟩, hrest⟩ := List.forall_mem_cons.mp hkeys
    rw [List.foldl_cons, MultiSetState.putValue.eq_def, List.filter_cons]
    by_cases hmem : key ∈ req.fieldsMap
    · obtain ⟨ok, hok⟩ := Option.isSome_iff_exists.mp (AList.lookup_isSome.mpr (hdone.mpr hmem))
      simp only [hok, hmem, not_true_eq_false, decide_false, Bool.false_eq_true, if_false]
      exact ih hnodup hrest
    · obtain ⟨given, hgiven⟩ := Option.isSome_iff_exists.mp (AList.lookup_isSome.mpr hvalue)
      have hnone := AList.lookup_eq_none.mpr (mt hdone.mp hmem)
      have hpayload : multiPayload R nil req key = valuePayload R given := by
        rw [multiPayload, if_neg hmem, hgiven]
        rfl
      simp only [hnone, hgiven, hmem, not_false_eq_true, decide_true, if_true, Machine.run_cons,
        puts, hpayload]
      refine ih hnodup fun other hother => ?_
      obtain ⟨ok, hput⟩ := put_result s ⟨req.ns, req.coll, key⟩ (valuePayload R given) ttl
        (clock key)
      have hne : other ≠ key := fun heq => hfresh (heq ▸ hother)
      rw [hput, AList.mem_insert, or_iff_right hne]
      exact hrest other hother

theorem multiSetContext_eq_puts (R : AnyValue V) (nil : V) (c : FlashDBCache L)
    (req : MultiSetRequest V) (order : RangeOrder) (clock : String → Time) :
    c.multiSetContext R none (some req) order clock =
      let done := (puts req (c.effectiveTTL req.ttl) clock (multiPayload R nil req)).run
        ⟨c, ∅, none⟩ (visited req order)
      (done.cache, .ok (done.result, done.firstErr)) := by
  simp only [multiSetContext]
  split
  · next hempty =>
      have hnone : visited req order = [] := List.eq_nil_iff_forall_not_mem.mpr fun key hkey => by
        rw [mem_visited, AList.mem_keys, AList.mem_keys, hempty.1, hempty.2] at hkey
        simp at hkey
      rw [hnone]
      rfl
  · have hfields : (order.arrange req.fieldsMap.keys).foldl
        (.putFields req (c.effectiveTTL req.ttl) clock) (⟨c, ∅, none⟩ : MultiSetState L) =
        (puts req (c.effectiveTTL req.ttl) clock (multiPayload R nil req)).run ⟨c, ∅, none⟩
          (order.arrange req.fieldsMap.keys) := by
      rw [Machine.run_eq_foldl]
      refine List.foldl_ext _ _ _ fun s key hkey => ?_
      rw [(order.perm _).mem_iff] at hkey
      simp only [MultiSetState.putFields, puts, multiPayload, if_pos (AList.mem_keys.mpr hkey)]
    rw [hfields, visited, Machine.run_append, ← foldl_putValue]
    · exact (order.perm _).nodup_iff.mpr req.valueMap.keys_nodup
    · intro key hkey
      rw [(order.perm _).mem_iff] at hkey
      refine ⟨AList.mem_keys.mpr hkey, ?_⟩
      rw [mem_run_result, (order.perm _).mem_iff, ← AList.mem_keys]
      simp

theorem setTurn_eq_put (s : MultiSetState L) (key : String) :
    setTurn R nil req clock (s.cache, s.result) key =
      let next := s.put ⟨req.ns, req.coll, key⟩ (payload R (single nil req key))
        (s.cache.effectiveTTL req.ttl) (clock key)
      (next.cache, next.result) := by
  have haddress : (single nil req key).address = ⟨req.ns, req.coll, key⟩ := by
    unfold single
    split <;> rfl
  have httl : (single nil req key).ttl = req.ttl := by
    unfold single
    split <;> rfl
  simp only [setTurn, setContext, withKey, haddress]
  cases hk : composeKey req.ns req.coll key with
  | error e =>
    obtain rfl := composeKey_error hk
    rfl
  | ok k =>
    cases hset : (s.cache.store.set k (payload R (single nil req key))
        (s.cache.effectiveTTL req.ttl) (clock key)).2 with
    | ok ok => simp only [httl, after, hset, put_of_ok hk hset, Except.mapError]
    | error e =>
      simp only [httl, after, hset, MultiSetState.put, if_neg (composeKey_key_ne_empty hk), hk,
        Except.mapError]

theorem setEach_eq_puts (R : AnyValue V) (nil : V) (c : FlashDBCache L) (req : MultiSetRequest V)
    (clock : String → Time) (keys : List String) :
    c.setEach R nil req clock keys =
      let done := (puts req (c.effectiveTTL req.ttl) clock (payload R ∘ single nil req)).run
        ⟨c, ∅, none⟩ keys
      (done.cache, done.result) := by
  suffices hall : ∀ s : MultiSetState L, s.cache.defaultTTL = c.defaultTTL →
      keys.foldl (setTurn R nil req clock) (s.cache, s.result) =
        let done :=
          (puts req (c.effectiveTTL req.ttl) clock (payload R ∘ single nil req)).run s keys
        (done.cache, done.result) from hall ⟨c, ∅, none⟩ rfl
  induction keys with
  | nil => exact fun s _ => rfl
  | cons key rest ih =>
    intro s hs
    have httl : s.cache.effectiveTTL req.ttl = c.effectiveTTL req.ttl := by
      rw [effectiveTTL, effectiveTTL, hs]
    rw [List.foldl_cons, setTurn_eq_put, httl]
    refine ih _ (Eq.trans ?_ hs)
    rw [MultiSetState.put]
    split
    · rfl
    · split
      · rfl
      · dsimp only
        split <;> rfl

end Puts

/-- `MultiSet` answers for every key as its `Set` does, and leaves the same records. -/
def EqualsSets (R : AnyValue V) (nil : V) (c : FlashDBCache L) (req : MultiSetRequest V)
    (order : RangeOrder) (clock : String → Time) (keys : List String) : Prop :=
  ∃ done result firstErr,
    c.multiSetContext R none (some req) order clock = (done, .ok (result, firstErr)) ∧
      (∀ key ∈ keys, result.lookup key = (c.setEach R nil req clock keys).2.lookup key) ∧
      ∀ name, done.store.recordOf name = (c.setEach R nil req clock keys).1.store.recordOf name

/--
On a store on which nothing is evicted or rejected, a `MultiSet` equals the `Set`s of its keys that
are not empty, in whatever orders these and the maps are gone through, if and only if none of the
keys that `MultiSet` takes from `ValueMap` has the value nil.
-/
theorem multi_set_equals_sets_iff (R : AnyValue V) (nil : V) (hnil : R.isNil nil = true)
    (hmap : ∀ v, R.isNil v = true → R.asFields v = none) (c : FlashDBCache L)
    (req : MultiSetRequest V) (order : RangeOrder) (clock : String → Time) (keys : List String)
    (hkeys : ∀ key, key ∈ keys ↔ key ≠ "" ∧ (key ∈ req.fieldsMap ∨ key ∈ req.valueMap))
    (hmulti : c.Roomy req clock (multiPayload R nil req) (visited req order))
    (hsets : c.Roomy req clock (payload R ∘ single nil req) keys) :
    c.EqualsSets R nil req order clock keys ↔
      ∀ key value, key ≠ "" → key ∉ req.fieldsMap → req.valueMap.lookup key = some value →
        R.isNil value = false := by
  have hdone := hmulti.holdsAll
  have heach := hsets.holdsAll
  rw [EqualsSets, multiSetContext_eq_puts R nil, setEach_eq_puts]
  constructor
  · rintro ⟨done, result, firstErr, hrun, -, hrecords⟩ key value hkey hmem hvalue
    obtain ⟨rfl, -⟩ := Prod.mk.inj hrun
    by_contra hbad
    have hisNil := Bool.not_eq_false _ ▸ hbad
    have hthere : key ∈ req.valueMap := AList.lookup_isSome.mp (by simp [hvalue])
    obtain ⟨before, hbefore⟩ := composeKey_eq_append req.ns req.coll
    have hsame := hrecords (before ++ key)
    rw [hdone.stored key (mem_visited.mpr (.inr hthere)) _ (hbefore key hkey),
      heach.stored key ((hkeys key).mpr ⟨hkey, .inr hthere⟩) _ (hbefore key hkey)] at hsame
    have hpayload := congrArg Record.value (Option.some.inj hsame)
    simp only [Function.comp, payload_single_of_value hmem hvalue, hisNil, if_true, multiPayload,
      if_neg hmem, hvalue, Option.getD_some, valuePayload, hmap value hisNil] at hpayload
    cases hpayload
  · intro hvalues
    have hsame : ∀ key ∈ keys, multiPayload R nil req key = payload R (single nil req key) := by
      intro key hkey
      obtain ⟨hne, hthere⟩ := (hkeys key).mp hkey
      by_cases hmem : key ∈ req.fieldsMap
      · exact (payload_single_of_mem hnil hmem).symm
      · obtain ⟨value, hvalue⟩ :=
          Option.isSome_iff_exists.mp (AList.lookup_isSome.mpr (hthere.resolve_left hmem))
        rw [payload_single_of_value hmem hvalue, hvalues key value hne hmem hvalue]
        rfl
    refine ⟨_, _, _, rfl, fun key hkey => ?_, fun name => ?_⟩
    · obtain ⟨hne, hthere⟩ := (hkeys key).mp hkey
      exact (hdone.answered key (mem_visited.mpr hthere) hne).trans
        (heach.answered key hkey hne).symm
    · by_cases hname : ∃ key ∈ keys, composeKey req.ns req.coll key = .ok name
      · obtain ⟨key, hkey, hk⟩ := hname
        rw [hdone.stored key (mem_visited.mpr ((hkeys key).mp hkey).2) name hk,
          heach.stored key hkey name hk, hsame key hkey]
        rfl
      · rw [hdone.others name, heach.others name]
        · exact fun key hkey hk => hname ⟨key, hkey, hk⟩
        · exact fun key hkey hk => hname ⟨key, (hkeys key).mpr
            ⟨composeKey_key_ne_empty hk, mem_visited.mp hkey⟩, hk⟩

end FlashDBCache

open FlashDBCache

def optionalTexts : AnyValue (Option String) where
  isNil := Option.isNone
  asFields _ := none
  stored v := v.elim .nilInterface .string
  asBytes v := v
  marshal v := .ok (v.getD "null")

def oneValue (value : Option String) : MultiSetRequest (Option String) :=
  ⟨"", "", ∅, AList.singleton "k" value, 60⟩

theorem one_text_as_by_set :
    ∃ c : FlashDBCache (Photon.Stdlib.TinyLfu String), FlashDb.new smallOptions = .ok c.store ∧
      c.EqualsSets optionalTexts none (oneValue (some "v")) storedOrder (fun _ => 5) ["k"] := by
  obtain ⟨st, hst⟩ : ∃ st, FlashDb.new smallOptions = .ok st := ⟨_, rfl⟩
  have hkeeps : st.SetKeeps "k" (some (AList.singleton "bin" (.string "v"))) 60000000000 5 := by
    refine ⟨?_, fun name hname => ?_⟩
    · cases hst
      rfl
    · obtain rfl := hname.resolve_right fun hthere => hthere (Store.newWith_recordOf hst name)
      cases hst
      exact Option.some_ne_none _
  have hmem : ∀ key, key ∈ (oneValue (some "v")).valueMap ↔ key = "k" := by
    simp [AList.mem_keys, oneValue]
  refine ⟨⟨st, 0⟩, hst, (multi_set_equals_sets_iff optionalTexts none rfl (fun _ _ => rfl) ⟨st, 0⟩
    (oneValue (some "v")) storedOrder (fun _ => 5) ["k"] ?_ ?_ ?_).mpr ?_⟩
  · intro key
    have hnone : key ∉ (oneValue (some "v")).fieldsMap := AList.notMem_empty key
    rw [List.mem_singleton, hmem, or_iff_right hnone]
    exact ⟨fun h => ⟨h ▸ by decide, h⟩, And.right⟩
  · exact ⟨fun k hk => Except.ok.inj hk ▸ hkeeps, trivial⟩
  · exact ⟨fun k hk => Except.ok.inj hk ▸ hkeeps, trivial⟩
  · intro key value _ _ hvalue
    obtain rfl := (hmem key).mp (AList.lookup_isSome.mp (by simp [hvalue]))
    cases hvalue
    rfl

/-- `MultiSet` stores a nil as the field `bin`, and `Set` stores no field. -/
theorem nil_stored_as_bin :
    ∃ c : FlashDBCache (Photon.Stdlib.TinyLfu String), FlashDb.new smallOptions = .ok c.store ∧
      (∀ name, c.store.recordOf name = none) ∧
      (c.multiSetContext optionalTexts none (some (oneValue none)) storedOrder fun _ => 5).2 =
        .ok (AList.singleton "k" true, none) ∧
      ((c.multiSetContext optionalTexts none (some (oneValue none)) storedOrder
        fun _ => 5).1.store.recordOf "k").map Record.value =
          some (some (AList.singleton "bin" .nilInterface)) ∧
      (c.setEach optionalTexts none (oneValue none) (fun _ => 5) ["k"]).2 =
        AList.singleton "k" true ∧
      ((c.setEach optionalTexts none (oneValue none) (fun _ => 5) ["k"]).1.store.recordOf
        "k").map Record.value = some (some ∅) := by
  obtain ⟨st, hst⟩ : ∃ st, FlashDb.new smallOptions = .ok st := ⟨_, rfl⟩
  refine ⟨⟨st, 0⟩, hst, Store.newWith_recordOf hst, ?_⟩
  cases hst
  exact ⟨rfl, rfl, rfl, rfl⟩

end Photon.Caching
