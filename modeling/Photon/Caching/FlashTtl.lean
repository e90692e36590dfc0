import Photon.Caching.Isolation

/-!
TTLs of the cache on top of FlashDB. Seconds become nanoseconds in 64 bits, and the product wraps
from about 292 years on: to a negative duration, which the store takes as no expiry, to zero, which
the cache takes as its default, or to a positive duration that is far too short.
-/

variable {record : Record} {now : Time}

namespace Photon.FlashDb.Store

variable {L : Type} [AdmissionPolicy L]

/-- The record a `Set` leaves under its key has the expiry of the call. -/
theorem set_recordOf_expiry (st : Store L) {key : String} (hkey : key ≠ "") {value : FieldMap}
    {ttl : Int} (h : (st.set key value ttl now).1.recordOf key = some record) :
    record.expiry = st.opts.expiryFor ttl now := by
  rw [set_eq st hkey, recordOf, putShard_shardFor_self] at h
  rcases (st.shardFor key).set_lookup_self ((st.recordAccess key).admits key) key value
    (st.opts.expiryFor ttl now) with hnone | ⟨-, hsome⟩
  · rw [hnone] at h
    cases h
  · rw [hsome] at h
    cases h
    rfl

theorem setTTL_recordOf_expiry (st : Store L) {key : String} {ttl : Int}
    (hok : (st.setTTL key ttl now).2 = .ok ())
    (h : (st.setTTL key ttl now).1.recordOf key = some record) :
    record.expiry = if ttl ≤ 0 then 0 else now + ttl.toNat := by
  by_cases hkey : key = ""
  · rw [setTTL, if_pos hkey] at hok
    cases hok
  · rw [setTTL, if_neg hkey] at hok h
    rw [recordOf_recordOk, recordOf, putShard_shardFor_self] at h
    rcases (st.shardFor key).setTTL_cases key ttl now with ⟨old, -, -, hdata⟩ | ⟨hmissing, -⟩
    · rw [hdata, AList.lookup_insert] at h
      cases h
      rfl
    · rw [hmissing] at hok
      cases hok

theorem set_opts (st : Store L) (key : String) (value : FieldMap) (ttl : Int) (now : Time) :
    (st.set key value ttl now).1.opts = st.opts := by
  rw [set]
  split <;> rfl

end Photon.FlashDb.Store

namespace Photon.Caching

open Photon.FlashDb Photon.Lib

/-- For a namespace and a collection the key is put behind a fixed text. -/
theorem composeKey_eq_append (ns coll : String) :
    ∃ before : String, ∀ key, key ≠ "" → composeKey ns coll key = .ok (before ++ key) := by
  by_cases hns : ns = "" <;> by_cases hcoll : coll = ""
  · exact ⟨"", fun key hkey => by simp [composeKey, hkey, hns, hcoll]⟩
  · exact ⟨coll ++ "::", fun key hkey => by simp [composeKey, hkey, hns, hcoll]⟩
  · exact ⟨ns ++ "::", fun key hkey => by simp [composeKey, hkey, hns, hcoll]⟩
  · exact ⟨ns ++ "::" ++ coll ++ "::", fun key hkey => by simp [composeKey, hkey, hns, hcoll]⟩

theorem composeKey_key_ne_empty {ns coll key k : String} (h : composeKey ns coll key = .ok k) :
    key ≠ "" := by
  rintro rfl
  cases h

theorem composeKey_ne_empty {ns coll key k : String} (h : composeKey ns coll key = .ok k) :
    k ≠ "" := by
  have hkey := composeKey_key_ne_empty h
  obtain ⟨before, hbefore⟩ := composeKey_eq_append ns coll
  rw [hbefore key hkey] at h
  cases h
  intro hempty
  exact hkey (String.append_eq_empty_iff.mp hempty).2

theorem composeKey_key_inj {ns coll key key' k : String} (h : composeKey ns coll key = .ok k)
    (h' : composeKey ns coll key' = .ok k) : key = key' := by
  obtain ⟨before, hbefore⟩ := composeKey_eq_append ns coll
  rw [hbefore key (composeKey_key_ne_empty h)] at h
  rw [hbefore key' (composeKey_key_ne_empty h')] at h'
  have hsame : before ++ key = before ++ key' := (Except.ok.inj h).trans (Except.ok.inj h').symm
  exact String.append_right_inj before |>.mp hsame

namespace FlashDBCache

variable {L V : Type}

/-- The default TTL of the cache and of its store come from the same number of seconds. -/
structure ConfiguredWith (c : FlashDBCache L) (seconds : Int64) : Prop where
  cache : c.defaultTTL = secondsToDuration seconds
  store : c.store.opts.defaultTTL = secondsToDuration seconds

theorem secondsToDuration_max_zero (seconds : Int64) :
    secondsToDuration (maxInt64 0 seconds) = secondsToDuration seconds := by
  have hzero : (0 : Int64).toInt = 0 := rfl
  rw [maxInt64]
  split
  · next hneg =>
      have hlt : seconds.toInt < 0 := Int64.lt_iff_toInt_lt.mp hneg
      rw [secondsToDuration, secondsToDuration, hzero, if_pos le_rfl, if_pos hlt.le]
  · rfl

variable {c : FlashDBCache L}

theorem newFlashDBCache_configured {newLfu : Options → Except String L} {seconds : Int64}
    (h : newFlashDBCache newLfu seconds = .ok c) :
    c.ConfiguredWith seconds := by
  rw [newFlashDBCache] at h
  split at h
  · cases h
  · next store hstore =>
      cases h
      refine ⟨rfl, ?_⟩
      rw [newWith] at hstore
      split at hstore
      · cases hstore
      · split at hstore
        · cases hstore
        · cases hstore
          exact secondsToDuration_max_zero seconds

def expiryAt (c : FlashDBCache L) (ttl : Int64) (now : Time) : Time :=
  if 0 < c.effectiveTTL ttl then now + (c.effectiveTTL ttl).toNat else 0

/-- `Set` of the store adds nothing to the choice of the cache between TTL and default. -/
theorem ConfiguredWith.expiryFor {seconds : Int64} (h : c.ConfiguredWith seconds) (ttl : Int64)
    (now : Time) :
    c.store.opts.expiryFor (c.effectiveTTL ttl) now = c.expiryAt ttl now := by
  have hdefault : c.effectiveTTL ttl = 0 → ¬0 < c.store.opts.defaultTTL := by
    intro hzero
    rw [effectiveTTL, h.cache] at hzero
    rw [h.store]
    split at hzero <;> omega
  rw [Options.expiryFor, expiryAt]
  simp only [not_and.mpr hdefault, if_false]

/-- What a call with the right context and request does under its key. -/
theorem withKey_some {ρ α : Type} (c : FlashDBCache L) (req : ρ) (nilText : String)
    (address : ρ → Address) (body : ρ → String → FlashDBCache L × Except CacheError α)
    {k : String} (hkey : composeKey (address req).ns (address req).coll (address req).key = .ok k) :
    c.withKey none (some req) nilText address body = body req k := by
  simp [withKey, hkey]

theorem after_eq_ok {α : Type} {out : Store L × Except Err α} {a : α}
    (h : (c.after out).2 = .ok a) :
    out.2 = .ok a := by
  obtain ⟨st, answer⟩ := out
  cases answer with
  | error e => cases h
  | ok value =>
    cases h
    rfl

theorem recordAt_eq_some {a : Address} (h : c.recordAt a = some record) :
    ∃ k, composeKey a.ns a.coll a.key = .ok k ∧ c.store.recordOf k = some record := by
  rw [recordAt] at h
  split at h
  · next k hk => exact ⟨k, hk, h⟩
  · cases h

variable [AdmissionPolicy L]

inductive Written (R : AnyValue V) (c : FlashDBCache L) (ttl : Int64) (now : Time) :
    Record → Prop
  | set {req : SetRequest V} {record : Record} (httl : req.ttl = ttl)
      (accepted : (c.setContext R none (some req) now).2 = .ok true)
      (found : (c.setContext R none (some req) now).1.recordAt req.address = some record) :
      Written R c ttl now record
  | multiSet {req : MultiSetRequest V} {order : RangeOrder} {clock : String → Time}
      {key : String} {record : Record} {result : GoMap Bool} {firstErr : Option CacheError}
      (httl : req.ttl = ttl) (hnow : clock key = now)
      (answered : (c.multiSetContext R none (some req) order clock).2 = .ok (result, firstErr))
      (accepted : result.lookup key = some true)
      (found : (c.multiSetContext R none (some req) order clock).1.recordAt
        ⟨req.ns, req.coll, key⟩ = some record) : Written R c ttl now record
  | setTTL {req : SetTTLRequest} {record : Record} (httl : req.ttl = ttl)
      (accepted : (c.setTTLContext none (some req) now).2 = .ok ())
      (found : (c.setTTLContext none (some req) now).1.recordAt req.address = some record) :
      Written R c ttl now record

section MultiSet

variable {c : FlashDBCache L} {req : MultiSetRequest V} {clock : String → Time} {seconds : Int64}

/-- What the loops of `MultiSet` keep: the configuration, and that every record found under a key
that was accepted has the expiry of that call. -/
structure Stored (c : FlashDBCache L) (req : MultiSetRequest V) (clock : String → Time)
    (s : MultiSetState L) : Prop where
  opts : s.cache.store.opts = c.store.opts
  expiry : ∀ key record, s.result.lookup key = some true →
    s.cache.recordAt ⟨req.ns, req.coll, key⟩ = some record →
    record.expiry = c.store.opts.expiryFor (c.effectiveTTL req.ttl) (clock key)

variable {s : MultiSetState L}

omit [AdmissionPolicy L] in
theorem Stored.reject (h : Stored c req clock s) (key : String) (firstErr : Option CacheError) :
    Stored c req clock {s with result := s.result.insert key false, firstErr := firstErr} where
  opts := h.opts
  expiry name record hname hfound := by
    by_cases heq : name = key
    · subst heq
      rw [AList.lookup_insert] at hname
      cases hname
    · rw [AList.lookup_insert_ne heq] at hname
      exact h.expiry name record hname hfound

theorem Stored.set (h : Stored c req clock s) {key k : String}
    (hk : composeKey req.ns req.coll key = .ok k) (payload : FieldMap) (ok : Bool)
    (firstErr : Option CacheError) :
    Stored c req clock
      ⟨{s.cache with
          store := (s.cache.store.set k payload (c.effectiveTTL req.ttl) (clock key)).1},
        s.result.insert key ok, firstErr⟩ where
  opts := (s.cache.store.set_opts _ _ _ _).trans h.opts
  expiry name record hname hfound := by
    obtain ⟨kn, hkn, hrecord⟩ := recordAt_eq_some hfound
    by_cases heq : name = key
    · subst heq
      cases hk.symm.trans hkn
      rw [s.cache.store.set_recordOf_expiry (composeKey_ne_empty hk) hrecord, h.opts]
    · have hne : kn ≠ k := fun hsame => heq (composeKey_key_inj hkn (hsame ▸ hk))
      rw [AList.lookup_insert_ne heq] at hname
      refine h.expiry name record hname ?_
      rcases s.cache.store.set_recordOf_ne payload (c.effectiveTTL req.ttl) (clock key) hne with
        hnone | hkept
      · rw [hnone] at hrecord
        cases hrecord
      · rw [hkept] at hrecord
        simpa only [recordAt, hkn] using hrecord

theorem Stored.put (h : Stored c req clock s) (key : String) (payload : FieldMap) :
    Stored c req clock (s.put ⟨req.ns, req.coll, key⟩ payload (c.effectiveTTL req.ttl)
      (clock key)) := by
  rw [MultiSetState.put]
  split
  · exact h.reject key s.firstErr
  · split
    · exact h.reject key _
    · next k hk =>
        dsimp only
        split <;> exact h.set hk payload _ _

omit [AdmissionPolicy L] in
/-- Both loops keep it. -/
theorem Stored.foldl (h : Stored c req clock s)
    {turn : MultiSetState L → String → MultiSetState L}
    (hturn : ∀ s key, Stored c req clock s → Stored c req clock (turn s key)) (keys : List String) :
    Stored c req clock (keys.foldl turn s) := by
  induction keys generalizing s with
  | nil => exact h
  | cons key rest ih => exact ih (hturn s key h)

theorem Stored.putValue (h : Stored c req clock s) (R : AnyValue V) (key : String) :
    Stored c req clock (s.putValue R req (c.effectiveTTL req.ttl) clock key) := by
  rw [MultiSetState.putValue]
  split
  · exact h.put key _
  · exact h

theorem multiSet_stored (R : AnyValue V) (c : FlashDBCache L) (req : MultiSetRequest V)
    (order : RangeOrder) (clock : String → Time) {result : GoMap Bool}
    {firstErr : Option CacheError}
    (h : (c.multiSetContext R none (some req) order clock).2 = .ok (result, firstErr)) :
    Stored c req clock
      ⟨(c.multiSetContext R none (some req) order clock).1, result, firstErr⟩ := by
  have hstart : Stored c req clock ⟨c, ∅, none⟩ :=
    ⟨rfl, fun key record hkey _ => by cases hkey⟩
  simp only [multiSetContext] at h ⊢
  split at h
  · next hnone =>
      cases h
      rw [if_pos hnone]
      exact hstart
  · next hsome =>
      cases h
      rw [if_neg hsome]
      exact (hstart.foldl (fun s key hs => hs.put key _) _).foldl
        (fun s key hs => hs.putValue R key) _

end MultiSet

/-- A record that was written has the expiry of its TTL. -/
theorem Written.expiry {R : AnyValue V} {seconds ttl : Int64} (hc : c.ConfiguredWith seconds)
    (h : Written R c ttl now record) : record.expiry = c.expiryAt ttl now := by
  cases h with
  | set httl accepted found =>
    subst httl
    obtain ⟨k, hk, hrecord⟩ := recordAt_eq_some found
    rw [setContext, withKey_some _ _ _ _ _ hk] at hrecord
    rw [← hc.expiryFor]
    exact c.store.set_recordOf_expiry (composeKey_ne_empty hk) hrecord
  | multiSet httl hnow answered accepted found =>
    subst httl hnow
    rw [← hc.expiryFor]
    exact (multiSet_stored R c _ _ _ answered).expiry _ record accepted found
  | setTTL httl accepted found =>
    subst httl
    obtain ⟨k, hk, hrecord⟩ := recordAt_eq_some found
    rw [setTTLContext, withKey_some _ _ _ _ _ hk] at hrecord accepted
    rw [c.store.setTTL_recordOf_expiry (after_eq_ok accepted) hrecord, expiryAt]
    split_ifs <;> first | rfl | omega

end FlashDBCache

/-! ### Seconds in 64 bits -/

def nanoseconds (seconds : Int64) : Int := seconds.toInt * 1000000000

theorem secondsToDuration_of_pos {seconds : Int64} (hpos : 0 < seconds.toInt) :
    secondsToDuration seconds =
      if nanoseconds seconds % 2 ^ 64 < 2 ^ 63 then nanoseconds seconds % 2 ^ 64
      else nanoseconds seconds % 2 ^ 64 - 2 ^ 64 := by
  rw [secondsToDuration, if_neg (by omega), wrapI64, Int.bmod]
  rfl

theorem secondsToDuration_lt (seconds : Int64) : secondsToDuration seconds < 2 ^ 63 := by
  rcases le_or_gt seconds.toInt 0 with hle | hpos
  · rw [secondsToDuration, if_pos hle]
    decide
  · rw [secondsToDuration_of_pos hpos]
    split <;> omega

namespace FlashDBCache

variable {L V : Type}

/-- The nanoseconds fit, or wrap to a negative duration, or to zero without a default to take. -/
def NotCutShort (c : FlashDBCache L) (ttl : Int64) : Prop :=
  nanoseconds ttl < 2 ^ 63 ∨ 2 ^ 63 ≤ nanoseconds ttl % 2 ^ 64 ∨
    (nanoseconds ttl % 2 ^ 64 = 0 ∧ c.defaultTTL ≤ 0)

variable {c : FlashDBCache L}

/-- The lifetime is the one asked for, or there is no expiry, just if the TTL is not cut short. -/
theorem ConfiguredWith.notCutShort_iff {seconds ttl : Int64} (hc : c.ConfiguredWith seconds)
    (hpos : 0 < ttl.toInt) :
    c.NotCutShort ttl ↔
      c.effectiveTTL ttl ≤ 0 ∨ c.effectiveTTL ttl = nanoseconds ttl := by
  have hdefault := secondsToDuration_lt seconds
  have hnano : 0 < nanoseconds ttl := by
    rw [nanoseconds]
    omega
  rw [NotCutShort, effectiveTTL, hc.cache, secondsToDuration_of_pos hpos]
  generalize nanoseconds ttl = n at hnano ⊢
  split_ifs <;> omega

/-- A TTL that is cut short leaves a lifetime at least two nanoseconds too short. -/
theorem ConfiguredWith.cut {seconds ttl : Int64} (hc : c.ConfiguredWith seconds)
    (hpos : 0 < ttl.toInt) (hcut : ¬c.NotCutShort ttl) :
    0 < c.effectiveTTL ttl ∧ c.effectiveTTL ttl + 1 < nanoseconds ttl := by
  have hdefault := secondsToDuration_lt seconds
  have hnano : 0 < nanoseconds ttl := by
    rw [nanoseconds]
    omega
  rw [NotCutShort] at hcut
  rw [effectiveTTL, secondsToDuration_of_pos hpos]
  rw [hc.cache] at hcut ⊢
  generalize nanoseconds ttl = n at hnano hcut ⊢
  split_ifs at * <;> omega

def LivesFor (record : Record) (now : Time) (ttl : Int64) : Prop :=
  ∀ t : Time, t < now + (nanoseconds ttl).toNat → record.isExpired t = false

theorem livesFor_iff {seconds ttl : Int64} (hc : c.ConfiguredWith seconds) (hpos : 0 < ttl.toInt)
    (hexpiry : record.expiry = c.expiryAt ttl now) :
    LivesFor record now ttl ↔ c.NotCutShort ttl := by
  constructor
  · intro hlives
    by_contra hcut
    obtain ⟨hlow, hhigh⟩ := hc.cut hpos hcut
    -- One nanosecond after the expiry, and still before the TTL is over.
    have hshort : (c.effectiveTTL ttl).toNat + 1 < (nanoseconds ttl).toNat := by omega
    have hafter := hlives _ (Nat.add_lt_add_left hshort now)
    rw [record.isExpired_eq_false, hexpiry, expiryAt, if_pos hlow] at hafter
    rcases hafter with hzero | hlate
    · have hnone := (Nat.add_eq_zero_iff.mp hzero).2
      omega
    · exact Nat.not_succ_le_self _ hlate
  · intro hkept t ht
    rw [record.isExpired_eq_false, hexpiry, expiryAt]
    rcases (hc.notCutShort_iff hpos).mp hkept with hnever | heq
    · exact .inl (if_neg (by omega))
    · rw [heq]
      split
      · exact .inr ht.le
      · exact .inl rfl

theorem effectiveTTL_of_fits (c : FlashDBCache L) {ttl : Int64} (hpos : 0 < ttl.toInt)
    (hfits : nanoseconds ttl < 2 ^ 63) :
    c.effectiveTTL ttl = nanoseconds ttl := by
  have hnano : 0 < nanoseconds ttl := by
    rw [nanoseconds]
    omega
  rw [effectiveTTL, secondsToDuration_of_pos hpos]
  split_ifs <;> omega

/-- If the longer TTL is not cut short, its record does not expire before that of the shorter. -/
theorem expires_in_order {c c' : FlashDBCache L} {seconds ttl ttl' : Int64}
    (hc' : c'.ConfiguredWith seconds) (hpos : 0 < ttl.toInt) (hle : ttl.toInt ≤ ttl'.toInt)
    (hkept' : c'.NotCutShort ttl') {record record' : Record}
    (hexpiry : record.expiry = c.expiryAt ttl now)
    (hexpiry' : record'.expiry = c'.expiryAt ttl' now) (t : Time) (h : record'.isExpired t = true) :
    record.isExpired t = true := by
  have hnano : 0 < nanoseconds ttl ∧ nanoseconds ttl ≤ nanoseconds ttl' := by
    rw [nanoseconds, nanoseconds]
    omega
  rw [← Bool.not_eq_false, record'.isExpired_eq_false, hexpiry', expiryAt] at h
  rw [← Bool.not_eq_false, record.isExpired_eq_false, hexpiry, expiryAt]
  rcases (hc'.notCutShort_iff (by omega)).mp hkept' with hnever | heq'
  · exact absurd (.inl (if_neg (by omega))) h
  · have hfits' : c'.effectiveTTL ttl' < 2 ^ 63 := by
      rw [effectiveTTL, hc'.cache]
      split <;> exact secondsToDuration_lt _
    -- The longer TTL fits, so the shorter one does, and both lifetimes are those asked for.
    have heq : c.effectiveTTL ttl = nanoseconds ttl := c.effectiveTTL_of_fits hpos (by omega)
    rw [heq', if_pos (by omega)] at h
    rw [heq, if_pos hnano.1]
    have hless : (nanoseconds ttl).toNat ≤ (nanoseconds ttl').toNat := by omega
    rintro (hzero | hbefore)
    · have hnone := (Nat.add_eq_zero_iff.mp hzero).2
      omega
    · exact h (.inr (hbefore.trans (Nat.add_le_add_left hless now)))

variable [AdmissionPolicy L]

/--
Two records written at the same time, the second with a TTL at least as long: neither is expired
before its TTL is over, and the second does not expire before the first, if and only if neither
TTL is cut short.
-/
theorem flash_ttl_kept_iff (R : AnyValue V) (c c' : FlashDBCache L) (seconds : Int64)
    (hc : c.ConfiguredWith seconds) (hc' : c'.ConfiguredWith seconds) (ttl ttl' : Int64)
    (hpos : 0 < ttl.toInt) (hle : ttl.toInt ≤ ttl'.toInt) (now : Time) (record record' : Record)
    (h : Written R c ttl now record) (h' : Written R c' ttl' now record') :
    (LivesFor record now ttl ∧ LivesFor record' now ttl' ∧
      ∀ t, record'.isExpired t = true → record.isExpired t = true) ↔
      c.NotCutShort ttl ∧ c'.NotCutShort ttl' := by
  have hpos' : 0 < ttl'.toInt := by omega
  have hfirst := livesFor_iff hc hpos (h.expiry hc)
  have hsecond := livesFor_iff hc' hpos' (h'.expiry hc')
  constructor
  · rintro ⟨hlives, hlives', -⟩
    exact ⟨hfirst.mp hlives, hsecond.mp hlives'⟩
  · rintro ⟨hkept, hkept'⟩
    exact ⟨hfirst.mpr hkept, hsecond.mpr hkept',
      expires_in_order hc' hpos hle hkept' (h.expiry hc) (h'.expiry hc')⟩

end FlashDBCache

open FlashDBCache

def minuteRequest : SetRequest String := ⟨⟨"users", "", "k"⟩, "v", none, 60⟩

theorem one_minute_lives_for_a_minute :
    ∃ (c : FlashDBCache (Photon.Stdlib.TinyLfu String)) (record : Record),
      Written stringValues c 60 5 record ∧ LivesFor record 5 60 := by
  obtain ⟨st, hst⟩ : ∃ st, FlashDb.new smallOptions = .ok st := ⟨_, rfl⟩
  have hc : ConfiguredWith ⟨st, 0⟩ 0 := by
    cases hst
    exact ⟨rfl, rfl⟩
  obtain ⟨record, haccepted, hfound⟩ : ∃ record,
      (setContext stringValues ⟨st, 0⟩ none (some minuteRequest) 5).2 = .ok true ∧
        (setContext stringValues ⟨st, 0⟩ none (some minuteRequest) 5).1.recordAt
          minuteRequest.address = some record := by
    cases hst
    exact ⟨_, rfl, rfl⟩
  have hwritten : Written stringValues ⟨st, 0⟩ 60 5 record := .set rfl haccepted hfound
  have hkept : NotCutShort (⟨st, 0⟩ : FlashDBCache (Photon.Stdlib.TinyLfu String)) 60 :=
    .inl (by decide)
  exact ⟨⟨st, 0⟩, record, hwritten, ((flash_ttl_kept_iff stringValues _ _ 0 hc hc 60 60 (by decide)
    le_rfl 5 record record hwritten hwritten).mpr ⟨hkept, hkept⟩).1⟩

/-- A TTL of 584 years is over within a second. -/
theorem centuries_expire_within_a_second :
    ∃ c : FlashDBCache (Photon.Stdlib.TinyLfu String),
      FlashDb.new smallOptions = .ok c.store ∧ c.ConfiguredWith 0 ∧
      (c.setContext stringValues none
        (some ⟨⟨"users", "", "k"⟩, "v", none, 18446744074⟩) 5).2 = .ok true ∧
      ((c.setContext stringValues none
        (some ⟨⟨"users", "", "k"⟩, "v", none, 18446744074⟩) 5).1.getContext none
          (some (⟨"users", "", "k"⟩, [])) 1000000005).2 = .error (.store .notFound) := by
  obtain ⟨st, hst⟩ : ∃ st, FlashDb.new smallOptions = .ok st := ⟨_, rfl⟩
  refine ⟨⟨st, 0⟩, hst, ⟨rfl, ?_⟩, ?_, ?_⟩
  · cases hst
    rfl
  · cases hst
    rfl
  · cases hst
    rfl

end Photon.Caching
