import Photon.FlashDb.Value
import Photon.Lib.AssocTotal
import Photon.Stdlib.Lru

/-!
One shard of the store: `storage/flashdb/shard.go`, `record.go` and the parts of
`store.go` that run under the shard lock. Frequency recording belongs to the
store, so an insertion receives the admission test as a function of the victim.
Both eviction loops are run on fuel and shown to finish within one iteration
per recency entry, after which `trim` and `makeRoom` are total.
-/

namespace Photon.FlashDb

open Photon.Lib Photon.Stdlib

/-- Nanoseconds since Go's zero time, so `0` is the unset time. -/
abbrev Time := Nat

inductive Err where
  | notFound
  | badType
  | illegalField
  | invalidKey
deriving DecidableEq

def Err.message : Err → String
  | .notFound => "flashdb: key not found"
  | .badType => "flashdb: value type mismatch"
  | .illegalField => "flashdb: illegal or missing field"
  | .invalidKey => "flashdb: invalid/empty key"

structure Record where
  value : FieldMap
  size : Int
  expiry : Time

def Record.isExpired (r : Record) (now : Time) : Bool :=
  decide (r.expiry ≠ 0) && decide (r.expiry < now)

theorem Record.isExpired_eq_false (r : Record) (now : Time) :
    r.isExpired now = false ↔ r.expiry = 0 ∨ now ≤ r.expiry := by
  simp [isExpired, imp_iff_not_or]

structure Shard where
  data : GoMap Record
  lru : Lru String Unit
  capacity : Nat
  currentSize : Nat

namespace Shard

variable (key : String) (sh : Shard)

def tailKeyLocked : Option String := sh.lru.tailKey

def removeLocked (key : String) : Shard :=
  {sh with
    data := sh.data.erase key
    lru := (sh.lru.delete key).1
    currentSize := match sh.data.lookup key with
      | some record => subU64 sh.currentSize (nonNegativeInt64ToUint64 record.size)
      | none => sh.currentSize}

def isFull : Bool := decide (sh.capacity < sh.currentSize)

def isFullAfter (newSize : Nat) : Bool :=
  decide (sh.capacity < addU64 sh.currentSize newSize)

/-- The unconditional eviction loop of updates; `none` means that the fuel ran
out before the loop was left. -/
def trimLoop : Nat → Shard → Option Shard
  | 0, _ => none
  | fuel + 1, sh =>
    if sh.isFull then
      match sh.tailKeyLocked with
      | none => some sh
      | some vk => trimLoop fuel (sh.removeLocked vk)
    else some sh

/-- The admission loop of insertions. The flag tells whether room was made;
`false` covers both ways of rejecting the newcomer. -/
def admitLoop (shouldAdmit : String → Bool) (newCost : Nat) :
    Nat → Shard → Option (Shard × Bool)
  | 0, _ => none
  | fuel + 1, sh =>
    if sh.isFullAfter newCost then
      match sh.tailKeyLocked with
      | none => some (sh, false)
      | some vk =>
        if shouldAdmit vk then
          admitLoop shouldAdmit newCost fuel (sh.removeLocked vk)
        else some (sh, false)
    else some (sh, true)

variable (shouldAdmit : String → Bool) (sh : Shard)

@[simp]
theorem removeLocked_lru : (sh.removeLocked key).lru.keys = sh.lru.keys.erase key := by
  simp [removeLocked]

@[simp]
theorem removeLocked_data : (sh.removeLocked key).data = sh.data.erase key := rfl

@[simp]
theorem removeLocked_capacity : (sh.removeLocked key).capacity = sh.capacity := rfl

theorem mem_keys_of_tail {sh : Shard} {vk : String} (htail : sh.tailKeyLocked = some vk) :
    vk ∈ sh.lru.keys := by
  unfold tailKeyLocked at htail
  rw [Lru.tailKey_eq] at htail
  exact List.mem_of_getLast? htail

/-- Evicting the tail shortens the recency list by one. -/
theorem removeLocked_tail_length {sh : Shard} {vk : String} (htail : sh.tailKeyLocked = some vk) :
    (sh.removeLocked vk).lru.keys.length + 1 = sh.lru.keys.length := by
  have hmem := mem_keys_of_tail htail
  have hpos := List.length_pos_of_mem hmem
  rw [removeLocked_lru, List.length_erase_of_mem hmem]
  omega

/-- How both loops run: victims go from the tail while the shard is `full` and the tail may go.
The flag tells whether room was made. -/
inductive Evicts (full : Shard → Bool) (mayGo : String → Bool) : Shard → Shard × Bool → Prop
  | room {sh : Shard} (hroom : full sh = false) : Evicts full mayGo sh (sh, true)
  | stuck {sh : Shard} (hfull : full sh = true)
      (hstuck : ∀ vk ∈ sh.tailKeyLocked, mayGo vk = false) : Evicts full mayGo sh (sh, false)
  | evict {sh : Shard} {vk : String} {out : Shard × Bool} (hfull : full sh = true)
      (htail : sh.tailKeyLocked = some vk) (hgo : mayGo vk = true)
      (hrest : Evicts full mayGo (sh.removeLocked vk) out) : Evicts full mayGo sh out

section Loops

variable {full : Shard → Bool} {mayGo : String → Bool} {sh : Shard} {out : Shard × Bool}

theorem exists_evicts (full : Shard → Bool) (mayGo : String → Bool) (sh : Shard) :
    ∃ out, Evicts full mayGo sh out := by
  induction hlength : sh.lru.keys.length using Nat.strong_induction_on generalizing sh with
  | h length ih =>
    cases hfull : full sh with
    | false => exact ⟨_, .room hfull⟩
    | true =>
      cases htail : sh.tailKeyLocked with
      | none => exact ⟨_, .stuck hfull (by simp [htail])⟩
      | some vk =>
        cases hgo : mayGo vk with
        | false => exact ⟨_, .stuck hfull (by simpa [htail] using hgo)⟩
        | true =>
          have hless := removeLocked_tail_length htail
          obtain ⟨out, hrest⟩ := ih _ (by omega) (sh.removeLocked vk) rfl
          exact ⟨out, .evict hfull htail hgo hrest⟩

/-- The trim loop stops within one iteration per recency entry. -/
theorem trimLoop_of_evicts (h : Evicts isFull (fun _ => true) sh out) {fuel : Nat}
    (hfuel : sh.lru.keys.length < fuel) : trimLoop fuel sh = some out.1 := by
  induction h generalizing fuel with
  | room hroom =>
    obtain ⟨fuel, rfl⟩ := Nat.exists_eq_add_of_lt hfuel
    simp [trimLoop, hroom]
  | stuck hfull hstuck =>
    obtain ⟨fuel, rfl⟩ := Nat.exists_eq_add_of_lt hfuel
    have htail := Option.eq_none_iff_forall_not_mem.mpr fun vk hvk =>
      Bool.noConfusion (hstuck vk hvk)
    simp [trimLoop, hfull, htail]
  | evict hfull htail _ _ ih =>
    obtain ⟨fuel, rfl⟩ := Nat.exists_eq_add_of_lt hfuel
    have hless := removeLocked_tail_length htail
    simp only [trimLoop, hfull, htail]
    exact ih (by omega)

theorem admitLoop_of_evicts {newCost : Nat} (h : Evicts (isFullAfter · newCost) mayGo sh out)
    {fuel : Nat} (hfuel : sh.lru.keys.length < fuel) :
    admitLoop mayGo newCost fuel sh = some out := by
  induction h generalizing fuel with
  | room hroom =>
    obtain ⟨fuel, rfl⟩ := Nat.exists_eq_add_of_lt hfuel
    simp [admitLoop, hroom]
  | @stuck sh hfull hstuck =>
    obtain ⟨fuel, rfl⟩ := Nat.exists_eq_add_of_lt hfuel
    cases htail : sh.tailKeyLocked with
    | none => simp [admitLoop, hfull, htail]
    | some vk => simp [admitLoop, hfull, htail, hstuck vk htail]
  | evict hfull htail hgo _ ih =>
    obtain ⟨fuel, rfl⟩ := Nat.exists_eq_add_of_lt hfuel
    have hless := removeLocked_tail_length htail
    simp only [admitLoop, hfull, htail, hgo]
    exact ih (by omega)

/-- Loop rule: whatever evicting the tail of a full shard keeps, the whole loop keeps; it is left
with room, or with a tail that may not go. -/
theorem Evicts.rule (h : Evicts full mayGo sh out) (P : Shard → Prop)
    (hstep : ∀ s vk, P s → full s = true → s.tailKeyLocked = some vk → mayGo vk = true →
      P (s.removeLocked vk)) (hstart : P sh) :
    P out.1 ∧ (out.2 = true → full out.1 = false) ∧
      (out.2 = false → ∀ vk ∈ out.1.tailKeyLocked, mayGo vk = false) := by
  induction h with
  | room hroom => exact ⟨hstart, fun _ => hroom, by simp⟩
  | stuck hfull hstuck => exact ⟨hstart, by simp, fun _ => hstuck⟩
  | evict hfull htail hgo _ ih => exact ih (hstep _ _ hstart hfull htail hgo)

end Loops

theorem trimLoop_terminates (fuel : Nat) (sh : Shard) (hfuel : sh.lru.keys.length < fuel) :
    (trimLoop fuel sh).isSome := by
  obtain ⟨out, h⟩ := exists_evicts isFull (fun _ => true) sh
  rw [trimLoop_of_evicts h hfuel]
  rfl

theorem admitLoop_terminates (newCost fuel : Nat) (sh : Shard) (hfuel : sh.lru.keys.length < fuel) :
    (admitLoop shouldAdmit newCost fuel sh).isSome := by
  obtain ⟨out, h⟩ := exists_evicts (isFullAfter · newCost) shouldAdmit sh
  rw [admitLoop_of_evicts h hfuel]
  rfl

def trim (sh : Shard) : Shard :=
  (trimLoop (sh.lru.keys.length + 1) sh).get
    (trimLoop_terminates _ sh (Nat.lt_succ_self _))

def makeRoom (sh : Shard) (shouldAdmit : String → Bool) (newCost : Nat) : Shard × Bool :=
  (admitLoop shouldAdmit newCost (sh.lru.keys.length + 1) sh).get
    (admitLoop_terminates shouldAdmit newCost _ sh (Nat.lt_succ_self _))

theorem trim_evicts : ∃ roomy, Evicts isFull (fun _ => true) sh (sh.trim, roomy) := by
  obtain ⟨⟨out, roomy⟩, h⟩ := exists_evicts isFull (fun _ => true) sh
  have htrim : sh.trim = out := by
    rw [trim, Option.get_of_eq_some _ (trimLoop_of_evicts h (Nat.lt_succ_self _))]
  exact ⟨roomy, htrim ▸ h⟩

theorem makeRoom_evicts (newCost : Nat) :
    Evicts (isFullAfter · newCost) shouldAdmit sh (sh.makeRoom shouldAdmit newCost) := by
  obtain ⟨out, h⟩ := exists_evicts (isFullAfter · newCost) shouldAdmit sh
  have hroom : sh.makeRoom shouldAdmit newCost = out := by
    rw [makeRoom, Option.get_of_eq_some _ (admitLoop_of_evicts h (Nat.lt_succ_self _))]
  exact hroom ▸ h

/-- More fuel does not change where the trim loop is left. -/
theorem trimLoop_eq_trim {fuel : Nat} (hfuel : sh.lru.keys.length < fuel) :
    trimLoop fuel sh = some sh.trim := by
  obtain ⟨roomy, h⟩ := sh.trim_evicts
  exact trimLoop_of_evicts h hfuel

theorem admitLoop_eq_makeRoom (shouldAdmit : String → Bool) (newCost : Nat) {fuel : Nat}
    (hfuel : sh.lru.keys.length < fuel) :
    admitLoop shouldAdmit newCost fuel sh = some (sh.makeRoom shouldAdmit newCost) :=
  admitLoop_of_evicts (makeRoom_evicts shouldAdmit sh newCost) hfuel

theorem trim_rule (P : Shard → Prop)
    (hstep : ∀ s vk, P s → s.isFull = true → s.tailKeyLocked = some vk → P (s.removeLocked vk))
    (sh : Shard) (hstart : P sh) :
    P sh.trim ∧ (sh.trim.isFull = false ∨ sh.trim.tailKeyLocked = none) := by
  obtain ⟨roomy, h⟩ := sh.trim_evicts
  obtain ⟨hP, hroom, hstuck⟩ := h.rule P (fun s vk hs hfull htail _ => hstep s vk hs hfull htail)
    hstart
  refine ⟨hP, ?_⟩
  cases roomy with
  | true => exact .inl (hroom rfl)
  | false =>
    exact .inr (Option.eq_none_iff_forall_not_mem.mpr fun vk hvk =>
      Bool.noConfusion (hstuck rfl vk hvk))

theorem makeRoom_rule (newCost : Nat) (P : Shard → Prop)
    (hstep : ∀ s vk, P s → s.isFullAfter newCost = true → s.tailKeyLocked = some vk →
      shouldAdmit vk = true → P (s.removeLocked vk))
    (sh : Shard) (hstart : P sh) :
    P (sh.makeRoom shouldAdmit newCost).1 ∧
      ((sh.makeRoom shouldAdmit newCost).2 = true →
        (sh.makeRoom shouldAdmit newCost).1.isFullAfter newCost = false) := by
  obtain ⟨hP, hroom, -⟩ := (makeRoom_evicts shouldAdmit sh newCost).rule P hstep hstart
  exact ⟨hP, hroom⟩

end Shard

end Photon.FlashDb
