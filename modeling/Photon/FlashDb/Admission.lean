import Photon.FlashDb.Frame

/-!
What the admission loop of `Set` evicts. The victims are taken from the recency
tail one by one, each one judged only when its turn comes, so the loop is
described by the run of victims it has already let go and by the sizes they
leave behind. A newcomer that is refused late has already cost records.
-/

namespace Photon.FlashDb

open Photon.Lib Photon.Stdlib

namespace Shard

variable (sh : Shard)

/-- The byte count `size` without the charge of one record. -/
def sizeLosing (size : Nat) (key : String) : Nat :=
  match sh.data.lookup key with
  | some record => subU64 size (nonNegativeInt64ToUint64 record.size)
  | none => size

/-- `currentSize` without the charges of some records. -/
def sizeWithout (victims : List String) : Nat :=
  victims.foldl sh.sizeLosing sh.currentSize

/-- The shard is too full for `newCost` more bytes even without some records. -/
def FullWithout (newCost : Nat) (victims : List String) : Prop :=
  sh.capacity < addU64 (sh.sizeWithout victims) newCost

def evictAll (victims : List String) : Shard := victims.foldl removeLocked sh

def victimOrder : List String := sh.lru.keys.reverse

theorem victimOrder_nodup : sh.victimOrder.Nodup :=
  List.nodup_reverse.mpr sh.lru.keys_nodup

theorem tailKeyLocked_eq : sh.tailKeyLocked = sh.victimOrder.head? := by
  rw [tailKeyLocked, Lru.tailKey_eq, victimOrder, List.head?_reverse]

variable {sh : Shard} {shouldAdmit : String → Bool} {gone left : List String}
  {victims : List String} {newCost : Nat}

theorem removeLocked_victimOrder {vk : String} {rest : List String}
    (horder : sh.victimOrder = vk :: rest) :
    (sh.removeLocked vk).victimOrder = rest := by
  have hnodup : (vk :: rest).Nodup := horder ▸ sh.victimOrder_nodup
  have hkeys : sh.lru.keys = rest.reverse ++ [vk] := by
    have h := congrArg List.reverse horder
    simpa [victimOrder] using h
  have hfresh : vk ∉ rest.reverse := by
    simpa using (List.nodup_cons.mp hnodup).1
  rw [victimOrder, removeLocked_lru, hkeys, List.erase_append_right _ hfresh]
  simp

theorem foldl_sizeLosing_congr {sh other : Shard} (size : Nat)
    (hsame : ∀ vk ∈ victims, sh.data.lookup vk = other.data.lookup vk) :
    victims.foldl sh.sizeLosing size = victims.foldl other.sizeLosing size := by
  induction victims generalizing size with
  | nil => rfl
  | cons vk rest ih =>
    have hone : sh.sizeLosing size vk = other.sizeLosing size vk := by
      rw [sizeLosing, sizeLosing, hsame vk List.mem_cons_self]
    rw [List.foldl_cons, List.foldl_cons, hone]
    exact ih _ (fun later hlater => hsame later (List.mem_cons_of_mem vk hlater))

/-- Evicting one record leaves the charges of the others alone. -/
theorem removeLocked_sizeWithout {vk : String} (hfresh : vk ∉ victims) :
    (sh.removeLocked vk).sizeWithout victims = sh.sizeWithout (vk :: victims) := by
  apply foldl_sizeLosing_congr
  intro other hother
  have hne : other ≠ vk := fun heq => hfresh (heq ▸ hother)
  rw [removeLocked_data, AList.lookup_erase_ne hne]

theorem evictAll_currentSize (hnodup : victims.Nodup) :
    (sh.evictAll victims).currentSize = sh.sizeWithout victims := by
  induction victims generalizing sh with
  | nil => rfl
  | cons vk rest ih =>
    obtain ⟨hfresh, hrest⟩ := List.nodup_cons.mp hnodup
    exact (ih hrest).trans (removeLocked_sizeWithout hfresh)

theorem evictAll_capacity (sh : Shard) (victims : List String) :
    (sh.evictAll victims).capacity = sh.capacity := by
  induction victims generalizing sh with
  | nil => rfl
  | cons vk rest ih => exact ih (sh.removeLocked vk)

/-- The outcome of a loop that was left after the victims `gone`, with the victims `left` still to
come. -/
structure Eviction (full : Shard → Bool) (mayGo : String → Bool) (sh : Shard)
    (gone left : List String) (out : Shard × Bool) : Prop where
  order : sh.victimOrder = gone ++ left
  state : out.1 = sh.evictAll gone
  allowed : ∀ vk ∈ gone, mayGo vk = true
  pressed : ∀ part, part <+: gone → part ≠ gone → full (sh.evictAll part) = true
  room : out.2 = true → full (sh.evictAll gone) = false
  refused : out.2 = false →
    full (sh.evictAll gone) = true ∧ ∀ vk, left.head? = some vk → mayGo vk = false

theorem Evicts.exists_eviction {full : Shard → Bool} {mayGo : String → Bool} {out : Shard × Bool}
    (h : Evicts full mayGo sh out) : ∃ gone left, Eviction full mayGo sh gone left out := by
  have hnone : ∀ {s : Shard} (part : List String), part <+: [] → part ≠ [] →
      full (s.evictAll part) = true :=
    fun part hpart hne => absurd (List.prefix_nil.mp hpart) hne
  induction h with
  | @room sh hroom =>
    exact ⟨[], sh.victimOrder, rfl, rfl, by simp, hnone, fun _ => hroom, by simp⟩
  | @stuck sh hfull hstuck =>
    rw [tailKeyLocked_eq] at hstuck
    exact ⟨[], sh.victimOrder, rfl, rfl, by simp, hnone, by simp, fun _ => ⟨hfull, hstuck⟩⟩
  | @evict sh vk out hfull htail hgo _ ih =>
    obtain ⟨gone, left, h⟩ := ih
    rw [tailKeyLocked_eq] at htail
    have horder := (List.cons_head?_tail htail).symm
    rw [← removeLocked_victimOrder horder, h.order] at horder
    refine ⟨vk :: gone, left, horder, h.state, ?_, fun part hpart hne => ?_, h.room, h.refused⟩
    · exact List.forall_mem_cons.mpr ⟨hgo, h.allowed⟩
    · cases part with
      | nil => exact hfull
      | cons first others =>
        obtain ⟨rfl, hothers⟩ := List.cons_prefix_cons.mp hpart
        exact h.pressed others hothers fun heq => hne (heq ▸ rfl)

theorem Eviction.nodup {full : Shard → Bool} {mayGo : String → Bool} {out : Shard × Bool}
    (h : Eviction full mayGo sh gone left out) {part : List String} (hpart : part <+: gone) :
    part.Nodup :=
  (List.nodup_append.mp (h.order ▸ sh.victimOrder_nodup)).1.sublist hpart.sublist

/-- The outcome of an admission loop that was left after the victims `gone`,
with the victims `left` still to come. -/
structure Admission (sh : Shard) (shouldAdmit : String → Bool) (newCost : Nat)
    (gone left : List String) (out : Shard × Bool) : Prop where
  order : sh.victimOrder = gone ++ left
  state : out.1 = sh.evictAll gone
  allowed : ∀ vk ∈ gone, shouldAdmit vk = true
  pressed : ∀ part, part <+: gone → part ≠ gone → sh.FullWithout newCost part
  room : out.2 = true → ¬ sh.FullWithout newCost gone
  refused : out.2 = false →
    sh.FullWithout newCost gone ∧ ∀ vk, left.head? = some vk → shouldAdmit vk = false

theorem makeRoom_admission (sh : Shard) (shouldAdmit : String → Bool) (newCost : Nat) :
    ∃ gone left, sh.Admission shouldAdmit newCost gone left (sh.makeRoom shouldAdmit newCost) := by
  obtain ⟨gone, left, h⟩ := (makeRoom_evicts shouldAdmit sh newCost).exists_eviction
  have hfull : ∀ part, part <+: gone →
      ((sh.evictAll part).isFullAfter newCost = true ↔ sh.FullWithout newCost part) := by
    intro part hpart
    rw [isFullAfter, decide_eq_true_iff, evictAll_currentSize (h.nodup hpart), evictAll_capacity,
      FullWithout]
  refine ⟨gone, left, h.order, h.state, h.allowed, fun part hpart hne => ?_, fun hroom => ?_,
    fun hrefused => ⟨?_, (h.refused hrefused).2⟩⟩
  · exact (hfull part hpart).mp (h.pressed part hpart hne)
  · rw [← hfull gone List.prefix_rfl, h.room hroom]
    exact Bool.false_ne_true
  · exact (hfull gone List.prefix_rfl).mp (h.refused hrefused).1

/-- The victims a loop has let go are determined by the shard and the sketch. -/
theorem Admission.gone_eq {out : Shard × Bool}
    (h : sh.Admission shouldAdmit newCost gone left out) {other others : List String}
    (horder : sh.victimOrder = other ++ others) (hallowed : ∀ vk ∈ other, shouldAdmit vk = true)
    (hpressed : ∀ part, part <+: other → sh.FullWithout newCost part)
    (hnext : ∀ vk, others.head? = some vk → shouldAdmit vk = false) :
    gone = other := by
  rcases List.append_eq_append_iff.mp (h.order.symm.trans horder) with
    ⟨more, rfl, rfl⟩ | ⟨more, rfl, rfl⟩
  · cases more with
    | nil => simp
    | cons vk more =>
      have hrefused : out.2 = false := by
        rcases hflag : out.2 with _ | _
        · rfl
        · exact absurd (hpressed gone (List.prefix_append _ _)) (h.room hflag)
      have hno := (h.refused hrefused).2 vk rfl
      rw [hallowed vk (by simp)] at hno
      cases hno
  · cases more with
    | nil => simp
    | cons vk more =>
      have hno := hnext vk rfl
      rw [h.allowed vk (by simp)] at hno
      cases hno

/-- The sketch lets the newcomer replace the first victims, these do not free
enough, and the next victim is refused or there is none. -/
def RefusedMidway (sh : Shard) (shouldAdmit : String → Bool) (newCost : Nat) : Prop :=
  ∃ gone left, sh.victimOrder = gone ++ left ∧ gone ≠ [] ∧
    (∀ vk ∈ gone, shouldAdmit vk = true) ∧
    (∀ part, part <+: gone → sh.FullWithout newCost part) ∧
    (∀ vk, left.head? = some vk → shouldAdmit vk = false)

def SameContents (before after : Shard) : Prop :=
  after.data = before.data ∧ after.lru.keys = before.lru.keys ∧
    after.currentSize = before.currentSize

theorem evictAll_length (horder : sh.victimOrder = gone ++ left) :
    (sh.evictAll gone).lru.keys.length + gone.length = sh.lru.keys.length := by
  induction gone generalizing sh with
  | nil => rfl
  | cons vk rest ih =>
    have hrest := ih (removeLocked_victimOrder horder)
    have htail : sh.tailKeyLocked = some vk := by
      rw [tailKeyLocked_eq, horder]
      rfl
    have hone := removeLocked_tail_length htail
    simp only [evictAll, List.foldl_cons, List.length_cons] at hrest ⊢
    omega

/-- A loop that was refused midway has changed the shard. -/
theorem makeRoom_of_refusedMidway (h : sh.RefusedMidway shouldAdmit newCost) :
    (sh.makeRoom shouldAdmit newCost).2 = false ∧
      ¬ SameContents sh (sh.makeRoom shouldAdmit newCost).1 := by
  obtain ⟨gone, left, horder, hne, hallowed, hpressed, hnext⟩ := h
  obtain ⟨taken, rest, hadmission⟩ := sh.makeRoom_admission shouldAdmit newCost
  obtain rfl := hadmission.gone_eq horder hallowed hpressed hnext
  refine ⟨?_, ?_⟩
  · rcases hflag : (sh.makeRoom shouldAdmit newCost).2 with _ | _
    · rfl
    · exact absurd (hpressed taken (List.prefix_refl _)) (hadmission.room hflag)
  · rintro ⟨_, hkeys, _⟩
    have hlength := evictAll_length hadmission.order
    have hpos := List.length_pos_iff.mpr hne
    rw [← hadmission.state, hkeys] at hlength
    omega

/-- A loop that was refused, but not midway, has changed nothing. -/
theorem makeRoom_of_not_refusedMidway (h : ¬ sh.RefusedMidway shouldAdmit newCost)
    (hrefused : (sh.makeRoom shouldAdmit newCost).2 = false) :
    (sh.makeRoom shouldAdmit newCost).1 = sh := by
  obtain ⟨gone, left, hadmission⟩ := sh.makeRoom_admission shouldAdmit newCost
  obtain ⟨hfull, hnext⟩ := hadmission.refused hrefused
  have hnone : gone = [] := by
    by_contra hne
    apply h
    refine ⟨gone, left, hadmission.order, hne, hadmission.allowed, ?_, hnext⟩
    intro part hpart
    rcases eq_or_ne part gone with rfl | hless
    · exact hfull
    · exact hadmission.pressed part hpart hless
  rw [hadmission.state, hnone]
  rfl

/-- The state of a shard in which a `Set` of an absent key is refused midway. -/
def SetRefusedMidway (sh : Shard) (shouldAdmit : String → Bool) (key : String)
    (value : FieldMap) : Prop :=
  sh.data.lookup key = none ∧
    costOf key value ≤ sh.capacity ∧
    sh.RefusedMidway shouldAdmit (costOf key value)

/-- `Set` of an absent key that fits the shard, by the outcome of its loop. -/
theorem set_of_absent (shouldAdmit : String → Bool) {key : String} {value : FieldMap} (exp : Time)
    (hlookup : sh.data.lookup key = none)
    (hfits : costOf key value ≤ sh.capacity) :
    sh.set shouldAdmit key value exp =
      match sh.makeRoom shouldAdmit (costOf key value) with
      | (room, false) => (room, false)
      | (room, true) => (room.insert key value exp, true) := by
  rcases hroom : sh.makeRoom shouldAdmit (costOf key value) with
    ⟨room, _ | _⟩ <;> simp only [set, hlookup, if_neg (Nat.not_lt.mpr hfits), hroom]

theorem set_rejected_iff (sh : Shard) (shouldAdmit : String → Bool) (key : String)
    (value : FieldMap) (exp : Time) :
    ((sh.set shouldAdmit key value exp).2 = false →
      SameContents sh (sh.set shouldAdmit key value exp).1) ↔
    ¬ sh.SetRefusedMidway shouldAdmit key value := by
  constructor
  · rintro h ⟨hlookup, hfits, hmidway⟩
    obtain ⟨hflag, hchanged⟩ := makeRoom_of_refusedMidway hmidway
    rw [set_of_absent shouldAdmit exp hlookup hfits] at h
    rcases hroom : sh.makeRoom shouldAdmit (costOf key value) with ⟨room, flag⟩
    rw [hroom] at h hflag hchanged
    obtain rfl : flag = false := hflag
    exact hchanged (h rfl)
  · intro h hrejected
    cases hlookup : sh.data.lookup key with
    | some record =>
      simp only [set, hlookup] at hrejected
      cases hrejected
    | none =>
      rcases Nat.lt_or_ge sh.capacity (costOf key value) with hlarge | hfits
      · simp only [set, hlookup, if_pos hlarge]
        exact ⟨rfl, rfl, rfl⟩
      · rw [set_of_absent shouldAdmit exp hlookup hfits] at hrejected ⊢
        have hstill := makeRoom_of_not_refusedMidway
          (fun hmidway => h ⟨hlookup, hfits, hmidway⟩)
        rcases hroom : sh.makeRoom shouldAdmit (costOf key value) with ⟨room, flag⟩
        rw [hroom] at hrejected hstill
        cases flag with
        | true => cases hrejected
        | false =>
          obtain rfl : room = sh := hstill rfl
          exact ⟨rfl, rfl, rfl⟩

end Shard

section Rejected

variable {L : Type} [AdmissionPolicy L]

/-- A `Set` that answers `(false, nil)` leaves its shard's records, recency order
and byte count alone exactly when it was not refused midway: when the sketch,
having recorded the access, does not first give up tail records that do not
free enough and then keep the next one. -/
theorem rejected_set_keeps_shard_iff (st : Store L) (key : String) (value : FieldMap)
    (ttl : Int) (now : Time) :
    ((st.set key value ttl now).2 = .ok false →
      Shard.SameContents (st.shardFor key) ((st.set key value ttl now).1.shardFor key)) ↔
    ¬ (key ≠ "" ∧
      (st.shardFor key).SetRefusedMidway ((st.recordAccess key).admits key) key value) := by
  by_cases hkey : key = ""
  · have herror : (st.set key value ttl now).2 = .error .invalidKey := by
      rw [Store.set, if_pos hkey]
    refine iff_of_true (fun hrejected => ?_) (fun hmidway => hmidway.1 hkey)
    rw [herror] at hrejected
    cases hrejected
  · rw [st.set_eq hkey, Store.putShard_shardFor_self, Except.ok.injEq,
      Shard.set_rejected_iff, and_iff_right hkey]

end Rejected

def textRecord (text : String) : FieldMap := some (AList.singleton "s" (.string text))

def tightOptions : Options := {smallOptions with maxStorageSize := 400}

/-- Two records fill the shard and the second one is read twice. The newcomer
needs both places; it takes the first and is refused the second, so the call
answers `(false, nil)` and the first record is gone. -/
theorem rejected_set_evicts :
    ∃ st : Store (TinyLfu String), new tightOptions = .ok st ∧
      ∃ full, full = storeMachine.run st [.set "a" (counterRecord 1) 0 1,
        .set "b" (counterRecord 2) 0 2, .get "b" 3, .get "b" 4] ∧
      (full.shardFor "c").data.keys = ["b", "a"] ∧
      let big := textRecord "0123456789012345678901234567890123456789012345678901234567890"
      (full.set "c" big 0 5).2 = .ok false ∧
      ((full.set "c" big 0 5).1.shardFor "c").data.keys = ["b"] := by
  refine ⟨_, rfl, _, rfl, ?_, ?_, ?_⟩ <;> decide +kernel

end Photon.FlashDb
