import Photon.FlashDb.StoreInvariant

/-!
Frame conditions. Evictions and expiry can only take records away, so most of a
call's work is described by `Shrinks`; what a call does beyond that concerns the
record of its own key. At the store level `recordOf` looks a key up in its own
shard, and replacing a shard is invisible to keys of other shards.
-/

namespace Photon.FlashDb

open Photon.Lib Photon.Stdlib

namespace Shard

/-- Every record that is still there is the one that was there before. -/
def Shrinks (before after : Shard) : Prop :=
  ∀ key, after.data.lookup key = none ∨ after.data.lookup key = before.data.lookup key

variable (sh : Shard) (key : String) (now : Time) (shouldAdmit : String → Bool)

theorem Shrinks.refl : Shrinks sh sh := fun _ => Or.inr rfl

theorem Shrinks.trans {first second third : Shard} (h : Shrinks first second)
    (h' : Shrinks second third) :
    Shrinks first third := by
  intro key
  rcases h' key with hnone | heq
  · exact Or.inl hnone
  · rw [heq]
    exact h key

theorem Shrinks.lookup_eq_some {before after : Shard} (h : Shrinks before after) {key : String}
    {record : Record} (hrecord : after.data.lookup key = some record) :
    before.data.lookup key = some record := by
  rcases h key with hnone | heq
  · cases hnone.symm.trans hrecord
  · exact heq.symm.trans hrecord

theorem removeLocked_lookup_self : (sh.removeLocked key).data.lookup key = none := by
  rw [removeLocked_data, AList.lookup_erase]

theorem removeLocked_lookup_ne {key name : String} (hne : name ≠ key) :
    (sh.removeLocked key).data.lookup name = sh.data.lookup name := by
  rw [removeLocked_data, AList.lookup_erase_ne hne]

theorem shrinks_removeLocked : Shrinks sh (sh.removeLocked key) := by
  intro name
  by_cases hname : name = key
  · subst hname
    exact Or.inl (removeLocked_lookup_self sh name)
  · exact Or.inr (removeLocked_lookup_ne sh hname)

theorem shrinks_trim : Shrinks sh sh.trim :=
  (trim_rule (Shrinks sh) (fun s vk hs _ _ => hs.trans (shrinks_removeLocked s vk))
    sh (Shrinks.refl sh)).1

theorem shrinks_makeRoom (newCost : Nat) : Shrinks sh (sh.makeRoom shouldAdmit newCost).1 :=
  (makeRoom_rule shouldAdmit newCost (Shrinks sh)
    (fun s vk hs _ _ _ => hs.trans (shrinks_removeLocked s vk)) sh (Shrinks.refl sh)).1

/-- The sweep loop removes expired records only. -/
theorem sweepLoop_keeps (limit : Nat) (keys : List String) (deleted : Nat) (sh : Shard)
    (key : String) :
    (sweepLoop now limit keys deleted sh).data.lookup key = sh.data.lookup key ∨
      ((sweepLoop now limit keys deleted sh).data.lookup key = none ∧
        ∃ record, sh.data.lookup key = some record ∧ record.isExpired now = true) := by
  induction keys generalizing sh deleted with
  | nil => exact Or.inl rfl
  | cons name rest ih =>
    unfold sweepLoop
    cases hlookup : sh.data.lookup name with
    | none => exact ih deleted sh
    | some record =>
      dsimp only
      split
      · next hexpired =>
          by_cases hkey : key = name
          · subst hkey
            refine Or.inr ⟨?_, record, hlookup, hexpired⟩
            split
            · exact removeLocked_lookup_self sh key
            · rcases ih (deleted + 1) (sh.removeLocked key) with heq | hnone
              · exact heq.trans (removeLocked_lookup_self sh key)
              · exact hnone.1
          · have hframe := removeLocked_lookup_ne sh hkey
            split
            · exact Or.inl hframe
            · rw [← hframe]
              exact ih (deleted + 1) (sh.removeLocked name)
      · exact ih deleted sh

/-- Every record that has not expired by `now` is still there. -/
def KeepsLive (now : Time) (before after : Shard) : Prop :=
  ∀ key record, before.data.lookup key = some record → record.isExpired now = false →
    after.data.lookup key = some record

theorem sweep_keepsLive (order : RangeOrder) : KeepsLive now sh (sh.sweep now order) := by
  intro key record hlookup hlive
  rcases sweepLoop_keeps now maxDeletePerShard (order.arrange sh.data.keys) 0 sh key with
    heq | ⟨_, expired, hexpired, hpast⟩
  · exact heq.trans hlookup
  · cases hlookup.symm.trans hexpired
    rw [hlive] at hpast
    cases hpast

theorem shrinks_sweep (order : RangeOrder) : Shrinks sh (sh.sweep now order) := by
  intro key
  rcases sweepLoop_keeps now maxDeletePerShard (order.arrange sh.data.keys) 0 sh key with
    heq | hnone
  · exact Or.inr heq
  · exact Or.inl hnone.1

section Edits

variable {sh : Shard} {key name : String} {Stores : Record → Prop} {after : Shard} {used : Bool}
  {record : Record}

/-- A record found after an edit was there before, or was stored for the edited key. -/
theorem Edit.lookup_eq_some (e : Edit key sh Stores after used)
    (h : after.data.lookup name = some record) :
    name = key ∧ Stores record ∨ sh.data.lookup name = some record := by
  have hinsert {before : Shard} {next : Record} (hstores : Stores next)
      (hshrinks : Shrinks sh before)
      (hrecord : (before.data.insert key next).lookup name = some record) :
      name = key ∧ Stores record ∨ sh.data.lookup name = some record := by
    by_cases hname : name = key
    · subst hname
      rw [AList.lookup_insert] at hrecord
      cases hrecord
      exact Or.inl ⟨rfl, hstores⟩
    · rw [AList.lookup_insert_ne hname] at hrecord
      exact Or.inr (hshrinks.lookup_eq_some hrecord)
  cases e with
  | idle | touch => exact Or.inr h
  | remove => exact Or.inr ((shrinks_removeLocked sh key).lookup_eq_some h)
  | refuse shouldAdmit newCost _ =>
    exact Or.inr ((shrinks_makeRoom sh shouldAdmit newCost).lookup_eq_some h)
  | overwrite hstores | rewrite hstores => exact hinsert hstores (.refl sh) h
  | recharge size hstores =>
    exact hinsert hstores (.refl sh) ((shrinks_trim _).lookup_eq_some h)
  | @insert shouldAdmit room value exp hstores _ hroom =>
    have hshrinks := shrinks_makeRoom sh shouldAdmit (costOf key value)
    rw [hroom] at hshrinks
    rw [insert_data] at h
    exact hinsert hstores hshrinks h

/-- An edit that stores nothing only takes records away. -/
theorem Edit.lookup_of_no_stores (e : Edit key sh (fun _ => False) after used)
    (h : after.data.lookup name = some record) : sh.data.lookup name = some record :=
  (e.lookup_eq_some h).resolve_left And.right

/-- An edit touches other keys only by evicting them. -/
theorem Edit.lookup_ne (e : Edit key sh Stores after used) (hne : name ≠ key) :
    after.data.lookup name = none ∨ after.data.lookup name = sh.data.lookup name := by
  cases hlookup : after.data.lookup name with
  | none => exact Or.inl rfl
  | some record =>
    exact Or.inr ((e.lookup_eq_some hlookup).resolve_left fun hself => hne hself.1).symm

end Edits

theorem delete_lookup_ne {name : String} (hne : name ≠ key) :
    (sh.delete key).1.data.lookup name = sh.data.lookup name := by
  unfold delete
  split
  · rfl
  · exact removeLocked_lookup_ne sh hne

theorem increment_lookup_ne (offsets : GoMap Int64) (now : Time) {name : String}
    (hne : name ≠ key) :
    (sh.increment key offsets now).1.data.lookup name = sh.data.lookup name := by
  unfold increment
  rcases liveRecord_cases sh key now with ⟨_, _, _, hlive⟩ | hlive | ⟨_, _, _, hlive⟩
  · simp only [hlive]
    split <;> exact AList.lookup_insert_ne hne
  · simp [hlive]
  · simp only [hlive]
    exact removeLocked_lookup_ne sh hne

/-- A rejected `Set` leaves its own key as it was; a stored one leaves either
the new record or, when trimming reached it, none. -/
theorem set_lookup_self (key : String) (value : FieldMap) (exp : Time) :
    (sh.set shouldAdmit key value exp).1.data.lookup key = none ∨
      ((sh.set shouldAdmit key value exp).2 = true ∧
        (sh.set shouldAdmit key value exp).1.data.lookup key =
          some ⟨value, computeSize key value, exp⟩) := by
  cases hlookup : sh.data.lookup key with
  | some record =>
    simp only [set, hlookup, update, clone_eq]
    rcases shrinks_trim _ key with hnone | heq
    · exact Or.inl hnone
    · exact Or.inr ⟨trivial, heq.trans (AList.lookup_insert _)⟩
  | none =>
    simp only [set, hlookup]
    split
    · exact Or.inl hlookup
    · have hshrink := shrinks_makeRoom sh shouldAdmit (costOf key value) key
      split
      · next room hroom =>
          rw [hroom, hlookup] at hshrink
          exact Or.inl (by simpa using hshrink)
      · next room hroom =>
          refine Or.inr ⟨rfl, ?_⟩
          rw [insert_data, AList.lookup_insert]

/-- `SetTTL` changes the expiry of its own live record and nothing else. -/
theorem setTTL_cases (ttl : Int) (now : Time) :
    (∃ record, sh.data.lookup key = some record ∧
      (sh.setTTL key ttl now).2 = .ok () ∧
      (sh.setTTL key ttl now).1.data = sh.data.insert key
        {record with expiry := if ttl ≤ 0 then 0 else now + ttl.toNat}) ∨
    ((sh.setTTL key ttl now).2 = .error .notFound ∧ Shrinks sh (sh.setTTL key ttl now).1) := by
  unfold setTTL
  rcases liveRecord_cases sh key now with ⟨record, hlookup, _, hlive⟩ | hlive | ⟨_, _, _, hlive⟩
  · simp only [hlive]
    exact Or.inl ⟨record, hlookup, trivial, rfl⟩
  · simp only [hlive]
    exact Or.inr ⟨trivial, Shrinks.refl sh⟩
  · simp only [hlive]
    exact Or.inr ⟨trivial, shrinks_removeLocked sh key⟩

end Shard

namespace Store

variable {L : Type}

/-- The record stored for a key, looked up in the key's own shard. -/
def recordOf (st : Store L) (key : String) : Option Record := (st.shardFor key).data.lookup key

variable (st : Store L) (key : String)

@[simp]
theorem putShard_shardFor_self (sh : Shard) : (st.putShard key sh).shardFor key = sh := by
  simp [shardFor, putShard]

/-- Putting a shard back unchanged. -/
theorem putShard_self : st.putShard key (st.shardFor key) = st := by
  simp [putShard, shardFor]

/-- Keys of other shards do not see the replacement of a shard. -/
theorem putShard_shardFor (key name : String) (sh : Shard) :
    (st.putShard key sh).shardFor name = sh ∧ st.shardFor name = st.shardFor key ∨
      (st.putShard key sh).shardFor name = st.shardFor name := by
  by_cases hindex : shardIndex st.shards.length key = shardIndex st.shards.length name
  · left
    simp [shardFor, putShard, hindex]
  · right
    simp [shardFor, putShard, List.getElem_set_ne hindex]

theorem recordOf_congr {st next : Store L} (h : next.shards = st.shards) (key : String) :
    next.recordOf key = st.recordOf key := by
  obtain ⟨shards, opts, lfu, nonempty⟩ := st
  obtain ⟨others, opts', lfu', nonempty'⟩ := next
  obtain rfl : others = shards := h
  rfl

/-- A name sees of a new shard at most what the shard holds for it. -/
theorem recordOf_putShard_cases (sh : Shard) (name : String) :
    (st.putShard key sh).recordOf name = sh.data.lookup name ∧
        st.recordOf name = (st.shardFor key).data.lookup name ∨
      (st.putShard key sh).recordOf name = st.recordOf name := by
  unfold recordOf
  rcases putShard_shardFor st key name sh with ⟨hput, hsame⟩ | hother
  · exact Or.inl ⟨by rw [hput], by rw [hsame]⟩
  · exact Or.inr (by rw [hother])

theorem delete_recordOf_ne {key name : String} (hne : name ≠ key) :
    (st.delete key).1.recordOf name = st.recordOf name := by
  unfold delete
  split
  · rfl
  · rcases st.recordOf_putShard_cases key ((st.shardFor key).delete key).1 name with
      ⟨hput, hsame⟩ | hother
    · exact hput.trans ((Shard.delete_lookup_ne _ key hne).trans hsame.symm)
    · exact hother

theorem sweepShard_recordOf (i : Nat) (now : Time) (order : RangeOrder) (key : String) :
    (st.sweepShard i now order).recordOf key = none ∨
      (st.sweepShard i now order).recordOf key = st.recordOf key := by
  unfold recordOf
  simp only [shardFor, sweepShard, List.length_modify, List.get_eq_getElem,
    List.getElem_modify]
  split
  · exact Shard.shrinks_sweep _ now order key
  · exact Or.inr rfl

/-- A janitor tick drops no live record of any shard. -/
theorem janitor_keepsLive (now : Time) (order : RangeOrder) {i : Nat} {sh : Shard}
    (hsh : st.shards[i]? = some sh) :
    ∃ swept, (st.janitor now order).shards[i]? = some swept ∧ Shard.KeepsLive now sh swept := by
  have hfold (indices : List Nat) (cur : Store L) (mid : Shard)
      (hmid : cur.shards[i]? = some mid) (hkeeps : Shard.KeepsLive now sh mid) :
      ∃ swept, (indices.foldl (fun st j => st.sweepShard j now order) cur).shards[i]? =
        some swept ∧ Shard.KeepsLive now sh swept := by
    induction indices generalizing cur mid with
    | nil => exact ⟨mid, hmid, hkeeps⟩
    | cons j rest ih =>
      by_cases hj : j = i
      · subst hj
        apply ih (cur.sweepShard j now order) (mid.sweep now order)
        · simp [sweepShard, hmid]
        · intro key record hlookup hlive
          exact Shard.sweep_keepsLive mid now order key record
            (hkeeps key record hlookup hlive) hlive
      · apply ih (cur.sweepShard j now order) mid _ hkeeps
        simpa [sweepShard, List.getElem?_modify_ne _ _ hj] using hmid
  exact hfold _ st sh hsh (fun _ _ hlookup _ => hlookup)

section Keyed

variable [AdmissionPolicy L] (st : Store L) {key : String}

@[simp]
theorem recordOk_shardFor {α : Type} (name : String) (answer : Except Err α) (other : String) :
    (st.recordOk name answer).shardFor other = st.shardFor other := by
  cases answer <;> rfl

theorem recordOf_recordOk {α : Type} (name : String) (answer : Except Err α)
    (other : String) : (st.recordOk name answer).recordOf other = st.recordOf other := by
  rw [recordOf, recordOf, recordOk_shardFor]

/-- `Set` works on the shard of its key, after the sketch recorded the access. -/
theorem set_eq (hkey : key ≠ "") (value : FieldMap) (ttl : Int) (now : Time) :
    st.set key value ttl now =
      ((st.recordAccess key).putShard key
        ((st.shardFor key).set ((st.recordAccess key).admits key) key value
          (st.opts.expiryFor ttl now)).1,
      .ok ((st.shardFor key).set ((st.recordAccess key).admits key) key value
        (st.opts.expiryFor ttl now)).2) := by
  rw [set, if_neg hkey]
  rfl

theorem set_recordOf_ne (value : FieldMap) (ttl : Int) (now : Time) {name : String}
    (hne : name ≠ key) :
    (st.set key value ttl now).1.recordOf name = none ∨
      (st.set key value ttl now).1.recordOf name = st.recordOf name := by
  by_cases hkey : key = ""
  · rw [set, if_pos hkey]
    exact Or.inr rfl
  · rw [set_eq st hkey]
    rcases (st.recordAccess key).recordOf_putShard_cases key ((st.shardFor key).set
        ((st.recordAccess key).admits key) key value (st.opts.expiryFor ttl now)).1 name with
      ⟨hput, hsame⟩ | hother
    · change _ = none ∨ _ = (st.recordAccess key).recordOf name
      rw [hput, hsame]
      exact (Shard.set_edit _ _ key value _ (fun _ => True) trivial).lookup_ne hne
    · exact Or.inr hother

theorem increment_recordOf_ne (offsets : GoMap Int64) (now : Time) {name : String}
    (hne : name ≠ key) : (st.increment key offsets now).1.recordOf name = st.recordOf name := by
  unfold increment
  split
  · rfl
  · dsimp only
    rw [recordOf_recordOk]
    rcases st.recordOf_putShard_cases key ((st.shardFor key).increment key offsets now).1 name with
      ⟨hput, hsame⟩ | hother
    · exact hput.trans ((Shard.increment_lookup_ne _ key offsets now hne).trans hsame.symm)
    · exact hother

/-- `Get` answers with the fields of a stored record that has not expired. -/
theorem get_eq_ok_iff (hkey : key ≠ "") (now : Time) (value : FieldMap) :
    (st.get key now).2 = .ok value ↔
      ∃ record, st.recordOf key = some record ∧ record.value = value ∧
        record.isExpired now = false := by
  simp only [get, if_neg hkey, Shard.get, recordOf]
  rcases (st.shardFor key).liveRecord_cases key now with
    ⟨record, hlookup, hlive, heq⟩ | heq | ⟨record, hlookup, hpast, heq⟩
  · simp only [heq, clone_eq, Except.ok.injEq]
    constructor
    · intro hvalue
      exact ⟨record, hlookup, hvalue, hlive⟩
    · rintro ⟨other, hother, hvalue, _⟩
      cases hlookup.symm.trans hother
      exact hvalue
  · simp only [heq]
    refine iff_of_false (fun h => by cases h) ?_
    rintro ⟨other, hother, _, hlive⟩
    simp [Shard.liveRecord, hother, hlive] at heq
  · simp only [heq]
    refine iff_of_false (fun h => by cases h) ?_
    rintro ⟨other, hother, _, hlive⟩
    cases hlookup.symm.trans hother
    rw [hpast] at hlive
    cases hlive

end Keyed

end Store

end Photon.FlashDb
