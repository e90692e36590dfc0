import Photon.FlashDb.Admission
import Photon.FlashDb.FieldUpdate

/-!
Whether an acknowledged write can be read back. Updates and appends charge the
record for its new size, bump it to the front of the recency list and then trim
from the tail without asking which record the tail holds. The record just
written is the last victim, so it survives exactly when dropping other records
is enough. An insertion never trims, and rejects what cannot fit.
-/

namespace Photon.FlashDb

open Photon.Lib Photon.Stdlib

namespace Shard

/-- The outcome of a trim loop that was left after the victims `gone`, with the
victims `left` still in place. -/
structure Trimming (sh : Shard) (gone left : List String) (out : Shard) : Prop where
  order : sh.victimOrder = gone ++ left
  state : out = sh.evictAll gone
  pressed : ∀ part, part <+: gone → part ≠ gone → sh.capacity < sh.sizeWithout part
  settled : left = [] ∨ sh.sizeWithout gone ≤ sh.capacity

variable {key : String} (sh : Shard)

theorem trim_trimming : ∃ gone left, sh.Trimming gone left sh.trim := by
  obtain ⟨roomy, hevicts⟩ := sh.trim_evicts
  obtain ⟨gone, left, h⟩ := hevicts.exists_eviction
  have hfull : ∀ part, part <+: gone →
      ((sh.evictAll part).isFull = true ↔ sh.capacity < sh.sizeWithout part) := by
    intro part hpart
    rw [isFull, decide_eq_true_iff, evictAll_currentSize (h.nodup hpart), evictAll_capacity]
  refine ⟨gone, left, h.order, h.state,
    fun part hpart hne => (hfull part hpart).mp (h.pressed part hpart hne), ?_⟩
  cases roomy with
  | true =>
    refine .inr (not_lt.mp ?_)
    rw [← hfull gone List.prefix_rfl, h.room rfl]
    exact Bool.false_ne_true
  | false =>
    refine .inl (List.head?_eq_none_iff.mp (Option.eq_none_iff_forall_ne_some.mpr fun vk hvk => ?_))
    cases (h.refused rfl).2 vk hvk

theorem shrinks_evictAll (victims : List String) : Shrinks sh (sh.evictAll victims) := by
  induction victims generalizing sh with
  | nil => exact Shrinks.refl sh
  | cons vk rest ih => exact (shrinks_removeLocked sh vk).trans (ih (sh.removeLocked vk))

theorem evictAll_lookup_of_not_mem {sh : Shard} {victims : List String} (hkey : key ∉ victims) :
    (sh.evictAll victims).data.lookup key = sh.data.lookup key := by
  induction victims generalizing sh with
  | nil => rfl
  | cons vk rest ih =>
    have hne : key ≠ vk := List.ne_of_not_mem_cons hkey
    have hrest : key ∉ rest := List.not_mem_of_not_mem_cons hkey
    exact (ih hrest).trans (removeLocked_lookup_ne sh hne)

theorem evictAll_lookup_of_mem {sh : Shard} {victims : List String} (hkey : key ∈ victims) :
    (sh.evictAll victims).data.lookup key = none := by
  induction victims generalizing sh with
  | nil => cases hkey
  | cons vk rest ih =>
    rcases List.mem_cons.mp hkey with rfl | hmem
    · rcases shrinks_evictAll (sh.removeLocked key) rest key with hnone | heq
      · exact hnone
      · exact heq.trans (removeLocked_lookup_self sh key)
    · exact ih hmem

/-- Trimming reaches the front record only when no run of other victims brings
the byte count within the capacity. -/
theorem trim_lookup_front {sh : Shard} {others : List String} {record : Record}
    (horder : sh.victimOrder = others ++ [key]) (hlookup : sh.data.lookup key = some record) :
    sh.trim.data.lookup key = some record ↔
      ∃ part, part <+: others ∧ sh.sizeWithout part ≤ sh.capacity := by
  obtain ⟨gone, left, h⟩ := sh.trim_trimming
  have hnodup : (others ++ [key]).Nodup := horder ▸ sh.victimOrder_nodup
  have hlast : key ∉ others := fun hmem =>
    (List.nodup_append.mp hnodup).2.2 key hmem key (List.mem_singleton_self key) rfl
  have hsplit : gone ++ left = others ++ [key] := h.order.symm.trans horder
  rcases List.eq_nil_or_concat left with rfl | ⟨front, last, rfl⟩
  · rw [List.append_nil] at hsplit
    subst hsplit
    rw [h.state, evictAll_lookup_of_mem (by simp)]
    refine iff_of_false (by simp) ?_
    rintro ⟨part, hpart, hfits⟩
    have hless : part ≠ others ++ [key] := by
      rintro rfl
      exact hlast (hpart.subset (by simp))
    have hfull := h.pressed part (hpart.trans (List.prefix_append _ _)) hless
    omega
  · rw [List.concat_eq_append, ← List.append_assoc] at hsplit
    obtain ⟨hothers, hkey⟩ := List.append_inj' hsplit rfl
    have hearly : gone <+: others := ⟨front, hothers⟩
    have hkept : key ∉ gone := fun hmem => hlast (hearly.subset hmem)
    rw [h.state, evictAll_lookup_of_not_mem hkept]
    refine iff_of_true hlookup ⟨gone, hearly, ?_⟩
    rcases h.settled with hnil | hfits
    · simp at hnil
    · exact hfits

/-- The shard in which a written record enters the trim loop, at the byte count
`size`. -/
def charged (sh : Shard) (key : String) (next : Record) (size : Nat) : Shard :=
  {sh with data := sh.data.insert key next, currentSize := size}.touch key

/-- Charged to the byte count `size`, the record of `key` is not reached by the
trim loop: dropping other records from the tail is enough. -/
def KeepsFront (sh : Shard) (key : String) (size : Nat) : Prop :=
  key ∈ sh.lru.keys →
    ∃ part, part <+: sh.victimOrder.erase key ∧ part.foldl sh.sizeLosing size ≤ sh.capacity

theorem charged_victimOrder {sh : Shard} (next : Record) (size : Nat) (hmem : key ∈ sh.lru.keys) :
    (sh.charged key next size).victimOrder = sh.victimOrder.erase key ++ [key] := by
  have hkeys : (sh.charged key next size).lru.keys = key :: sh.lru.keys.erase key :=
    sh.lru.keys_get hmem
  rw [victimOrder, hkeys, List.reverse_cons, victimOrder,
    (List.nodup_reverse.mpr sh.lru.keys_nodup).erase_eq_filter,
    sh.lru.keys_nodup.erase_eq_filter, List.filter_reverse]

theorem charged_trim_lookup (key : String) (next : Record) (size : Nat) :
    (sh.charged key next size).trim.data.lookup key = some next ↔ sh.KeepsFront key size := by
  have hnew : (sh.charged key next size).data.lookup key = some next := AList.lookup_insert _
  by_cases hmem : key ∈ sh.lru.keys
  · rw [trim_lookup_front (charged_victimOrder next size hmem) hnew, KeepsFront,
      imp_iff_right hmem]
    have hsize {part : List String} (hpart : part <+: sh.victimOrder.erase key) :
        (sh.charged key next size).sizeWithout part = part.foldl sh.sizeLosing size := by
      apply foldl_sizeLosing_congr
      intro other hother
      have hne : other ≠ key := by
        rintro rfl
        exact sh.victimOrder_nodup.not_mem_erase (hpart.subset hother)
      exact AList.lookup_insert_ne hne
    constructor
    · rintro ⟨part, hpart, hfits⟩
      exact ⟨part, hpart, hsize hpart ▸ hfits⟩
    · rintro ⟨part, hpart, hfits⟩
      exact ⟨part, hpart, (hsize hpart).symm ▸ hfits⟩
  · refine iff_of_true ?_ (fun h => absurd h hmem)
    obtain ⟨gone, left, h⟩ := (sh.charged key next size).trim_trimming
    have hkept : key ∉ gone := by
      intro hgone
      have hvictim : key ∈ (sh.charged key next size).lru.keys := by
        rw [← List.mem_reverse]
        change key ∈ (sh.charged key next size).victimOrder
        rw [h.order]
        exact List.mem_append_left left hgone
      exact hmem ((Lru.mem_keys_get sh.lru key key).mp hvictim)
    rw [h.state, evictAll_lookup_of_not_mem hkept, hnew]

def updatedSize (sh : Shard) (record : Record) (newSize : Int) : Nat :=
  if 0 ≤ newSize then sh.rechargedSize record.size newSize else sh.currentSize

theorem update_eq (key : String) (record : Record) (value : FieldMap) (exp : Time) :
    sh.update key record value exp =
      (sh.charged key ⟨value, computeSize key value, exp⟩
        (sh.updatedSize record (computeSize key value))).trim := by
  simp [update, clone_eq, charged, updatedSize]

theorem recharge_eq (key : String) (record : Record) (fields : FieldMap) :
    sh.recharge key record fields =
      (sh.charged key ⟨fields, computeSize key fields, record.expiry⟩
        (sh.rechargedSize record.size (computeSize key fields))).trim := by
  simp [recharge, charged]

theorem set_absent_stored {sh : Shard} {shouldAdmit : String → Bool} {value : FieldMap}
    {exp : Time} (hlookup : sh.data.lookup key = none)
    (hstored : (sh.set shouldAdmit key value exp).2 = true) :
    (sh.set shouldAdmit key value exp).1.data.lookup key =
      some ⟨value, computeSize key value, exp⟩ := by
  rcases Nat.lt_or_ge sh.capacity (costOf key value) with hlarge | hfits
  · simp only [set, hlookup, if_pos hlarge] at hstored
    cases hstored
  · rw [set_of_absent shouldAdmit exp hlookup hfits] at hstored ⊢
    rcases hroom : sh.makeRoom shouldAdmit (costOf key value) with ⟨room, flag⟩
    rw [hroom] at hstored
    cases flag with
    | false => exact absurd hstored Bool.false_ne_true
    | true =>
      rw [insert_data, AList.lookup_insert]

/-- An acknowledged `Set` leaves its record in place exactly when the key was
absent or the trim loop does not reach it. -/
theorem set_stored_iff (shouldAdmit : String → Bool) (key : String) (value : FieldMap)
    (exp : Time) :
    ((sh.set shouldAdmit key value exp).2 = true →
      (sh.set shouldAdmit key value exp).1.data.lookup key =
        some ⟨value, computeSize key value, exp⟩) ↔
    ∀ record, sh.data.lookup key = some record →
      sh.KeepsFront key (sh.updatedSize record (computeSize key value)) := by
  cases hlookup : sh.data.lookup key with
  | some record =>
    have hset : sh.set shouldAdmit key value exp = (sh.update key record value exp, true) := by
      simp [set, hlookup]
    rw [hset, update_eq, charged_trim_lookup]
    simp
  | none =>
    exact iff_of_true (fun hstored => set_absent_stored hlookup hstored)
      (fun _ h => by cases h)

/-- `Append` on a live record whose fields all take their suffix leaves the
appended record in place exactly when the trim loop does not reach it. -/
theorem append_stored_iff {sh : Shard} {record : Record} {now : Time}
    (hlookup : sh.data.lookup key = some record) (hlive : record.isExpired now = false)
    {appends : GoMap String} (hok : (appendLoop appends record.value).2 = .ok ()) :
    (∃ next, (sh.append key appends now).1.data.lookup key = some next) ↔
      sh.KeepsFront key (sh.rechargedSize record.size
        (computeSize key (appendLoop appends record.value).1)) := by
  have happend : (sh.append key appends now).1 =
      sh.recharge key record (appendLoop appends record.value).1 := by
    simp only [append, liveRecord_of_live hlookup hlive]
    rcases hloop : appendLoop appends record.value with ⟨fields, answer⟩
    rw [hloop] at hok
    obtain rfl : answer = .ok () := hok
    dsimp only
  rw [happend]
  constructor
  · rintro ⟨next, hnext⟩
    rcases sh.recharge_lookup_self key record (appendLoop appends record.value).1 with
      hnone | hnew
    · rw [hnext] at hnone
      cases hnone
    · rw [recharge_eq] at hnew
      exact (charged_trim_lookup sh key _ _).mp hnew
  · intro hkeeps
    rw [recharge_eq]
    exact ⟨_, (charged_trim_lookup sh key _ _).mpr hkeeps⟩

end Shard

theorem appendLoop_ok_iff (appends : GoMap String) (m : FieldMap) :
    (appendLoop appends m).2 = .ok () ↔
      ∀ change ∈ appends.entries, Changeable appendString m change := by
  constructor
  · intro hok change hchange
    obtain ⟨cur, next, hcur, hnext, _⟩ :=
      (updateLoop_ok appends.nodupKeys hok).listed change hchange
    exact ⟨cur, next, hcur, hnext⟩
  · intro hall
    obtain ⟨done, left, hsplit, _, hanswer⟩ :=
      updateLoop_split appendString appends.entries appends.nodupKeys m
    rcases hanswer with ⟨hok, _⟩ | ⟨failing, rest, _, rfl, hfails, _⟩
    · exact hok
    · exact absurd (hall failing (hsplit ▸ by simp)) hfails

section Readable

variable {L : Type} [AdmissionPolicy L] {key : String}

theorem Store.set_readable_iff (st : Store L) (hkey : key ≠ "") (value : FieldMap) (ttl : Int)
    (now : Time) :
    ((st.set key value ttl now).2 = .ok true →
      ∀ t, now ≤ t → st.opts.expiryFor ttl now = 0 ∨ t ≤ st.opts.expiryFor ttl now →
        ((st.set key value ttl now).1.get key t).2 = .ok value) ↔
    ∀ record, st.recordOf key = some record → (st.shardFor key).KeepsFront key
      ((st.shardFor key).updatedSize record (computeSize key value)) := by
  have hshard := (st.shardFor key).set_stored_iff ((st.recordAccess key).admits key) key value
    (st.opts.expiryFor ttl now)
  unfold Store.recordOf
  rw [← hshard, st.set_eq hkey, Except.ok.injEq]
  refine imp_congr_right fun _ => ?_
  constructor
  · intro hread
    have hnow : st.opts.expiryFor ttl now = 0 ∨ now ≤ st.opts.expiryFor ttl now :=
      st.opts.expiryFor_live ttl now
    obtain ⟨record, hrecord, _, _⟩ :=
      (Store.get_eq_ok_iff _ hkey now value).mp (hread now le_rfl hnow)
    rw [Store.recordOf, Store.putShard_shardFor_self] at hrecord
    rcases Shard.set_lookup_self (st.shardFor key) ((st.recordAccess key).admits key) key value
      (st.opts.expiryFor ttl now) with hnone | ⟨_, hnew⟩
    · rw [hrecord] at hnone
      cases hnone
    · exact hnew
  · intro hnew t _ hlive
    rw [Store.get_eq_ok_iff _ hkey]
    refine ⟨⟨value, computeSize key value, st.opts.expiryFor ttl now⟩, ?_, rfl,
      (Record.isExpired_eq_false _ t).mpr hlive⟩
    rw [Store.recordOf, Store.putShard_shardFor_self]
    exact hnew

theorem Store.append_answer {st : Store L} (hkey : key ≠ "") (appends : GoMap String) (now : Time) :
    (st.append key appends now).2 =
      ((st.shardFor key).append key appends now).2 := by
  rw [Store.append, if_neg hkey]

theorem Store.append_recordOf {st : Store L} (hkey : key ≠ "") (appends : GoMap String)
    (now : Time) :
    (st.append key appends now).1.recordOf key =
      ((st.shardFor key).append key appends now).1.data.lookup key := by
  rw [Store.append, if_neg hkey, Store.recordOf_recordOk, Store.recordOf,
    Store.putShard_shardFor_self]

theorem Store.append_readable_iff (st : Store L) (hkey : key ≠ "") (appends : GoMap String)
    (now : Time) :
    ((st.append key appends now).2 = .ok () →
      ∀ record, st.recordOf key = some record →
      ∀ t, now ≤ t → record.expiry = 0 ∨ t ≤ record.expiry →
        ∃ fields, ((st.append key appends now).1.get key t).2 = .ok fields ∧
          AppliedOnce appendString appends.entries record.value fields) ↔
    ∀ record, st.recordOf key = some record → record.isExpired now = false →
      (∀ change ∈ appends.entries, Changeable appendString record.value change) →
      (st.shardFor key).KeepsFront key ((st.shardFor key).rechargedSize record.size
        (computeSize key (appendLoop appends record.value).1)) := by
  constructor
  · intro hread record hrecord hlive hall
    have hok := (appendLoop_ok_iff appends record.value).mpr hall
    have hanswer : (st.append key appends now).2 = .ok () := by
      rw [Store.append_answer hkey, (Shard.append_live hrecord hlive appends).1, hok]
    obtain ⟨fields, hget, _⟩ := hread hanswer record hrecord now le_rfl
      ((record.isExpired_eq_false now).mp hlive)
    obtain ⟨next, hnext, _, _⟩ := (Store.get_eq_ok_iff _ hkey now fields).mp hget
    rw [Store.append_recordOf hkey] at hnext
    exact (Shard.append_stored_iff hrecord hlive hok).mp ⟨next, hnext⟩
  · intro hkeeps hanswer record hrecord t hnow hlater
    have hlive : record.isExpired now = false := by
      rw [record.isExpired_eq_false]
      exact hlater.imp_right hnow.trans
    obtain ⟨hloop, hstored⟩ := Shard.append_live hrecord hlive appends
    rw [Store.append_answer hkey, hloop] at hanswer
    have hall := (appendLoop_ok_iff appends record.value).mp hanswer
    obtain ⟨other, hother⟩ :=
      (Shard.append_stored_iff hrecord hlive hanswer).mpr (hkeeps record hrecord hlive hall)
    rcases hstored with ⟨_, hnone⟩ | ⟨next, hvalue, hexpiry, hnext⟩
    · rw [hother] at hnone
      cases hnone
    · refine ⟨(appendLoop appends record.value).1, ?_, updateLoop_ok appends.nodupKeys hanswer⟩
      rw [Store.get_eq_ok_iff _ hkey]
      refine ⟨next, (Store.append_recordOf hkey appends now).trans hnext, hvalue, ?_⟩
      rw [next.isExpired_eq_false, hexpiry]
      exact hlater

/-- A `Set` that answers `(true, nil)` and an `Append` that answers `nil` can be
read back until they expire exactly when the record they leave is not reached
by the trim loop: for `Set` the key was absent or dropping other records makes
up for the new size, for `Append` the same holds of the appended record. -/
theorem acknowledged_write_readable_iff (st : Store L) (key : String) (now : Time) :
    (∀ (value : FieldMap) (ttl : Int),
      ((st.set key value ttl now).2 = .ok true →
        ∀ t, now ≤ t → st.opts.expiryFor ttl now = 0 ∨ t ≤ st.opts.expiryFor ttl now →
          ((st.set key value ttl now).1.get key t).2 = .ok value) ↔
      (key ≠ "" → ∀ record, st.recordOf key = some record →
        (st.shardFor key).KeepsFront key
          ((st.shardFor key).updatedSize record (computeSize key value)))) ∧
    (∀ appends : GoMap String,
      ((st.append key appends now).2 = .ok () →
        ∀ record, st.recordOf key = some record →
        ∀ t, now ≤ t → record.expiry = 0 ∨ t ≤ record.expiry →
          ∃ fields, ((st.append key appends now).1.get key t).2 = .ok fields ∧
            AppliedOnce appendString appends.entries record.value fields) ↔
      (key ≠ "" → ∀ record, st.recordOf key = some record →
        record.isExpired now = false →
        (∀ change ∈ appends.entries, Changeable appendString record.value change) →
        (st.shardFor key).KeepsFront key ((st.shardFor key).rechargedSize record.size
          (computeSize key (appendLoop appends record.value).1)))) := by
  by_cases hkey : key = ""
  · refine ⟨fun value ttl => ?_, fun appends => ?_⟩
    · refine iff_of_true (fun hanswer => ?_) (fun hne => absurd hkey hne)
      rw [Store.set, if_pos hkey] at hanswer
      cases hanswer
    · refine iff_of_true (fun hanswer => ?_) (fun hne => absurd hkey hne)
      rw [Store.append, if_pos hkey] at hanswer
      cases hanswer
  · refine ⟨fun value ttl => ?_, fun appends => ?_⟩
    · rw [st.set_readable_iff hkey, imp_iff_right hkey]
    · rw [st.append_readable_iff hkey, imp_iff_right hkey]

end Readable

def longText : String := "0123456789012345678901234567890123456789012345678901234567890"

def tinyOptions : Options := {smallOptions with maxStorageSize := 200}

/-- An update and an append that outgrow the shard are acknowledged, and the
record is gone. -/
theorem acknowledged_write_is_lost :
    ∃ st : Store (TinyLfu String), new tinyOptions = .ok st ∧
      ∃ stored, stored = storeMachine.run st [.set "a" (textRecord "x") 0 1] ∧
      (stored.get "a" 2).2 = .ok (textRecord "x") ∧
      (stored.set "a" (textRecord longText) 0 2).2 = .ok true ∧
      ((stored.set "a" (textRecord longText) 0 2).1.get "a" 3).2 = .error .notFound ∧
      (stored.append "a" (AList.singleton "s" longText) 2).2 = .ok () ∧
      ((stored.append "a" (AList.singleton "s" longText) 2).1.get "a" 3).2 =
        .error .notFound := by
  refine ⟨_, rfl, _, rfl, ?_, ?_, ?_, ?_, ?_⟩ <;> rfl

end Photon.FlashDb
