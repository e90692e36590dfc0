import Mathlib
import Photon.Lib.Delimited
import Photon.Lock.Transition

/-!
Mutual exclusion and fencing over every interleaving. The server keeps three
facts about a lock key: its counter bounds the tokens granted so far, the tokens
were granted in increasing order, and a stored value is the one of the latest
grant. They survive every script and every passing of time, because a counter
never expires and no lock key is a counter.
-/

namespace Photon.Lock

open Photon.Lib Photon.Redis

abbrev Event := Action × Answer

def LockKey (key : String) : Prop := ∀ other, key ≠ fencingCounterKey other

theorem fencingCounterKey_inj {key other : String}
    (h : fencingCounterKey key = fencingCounterKey other) :
    key = other :=
  (String.append_left_inj _).mp h

theorem colon_not_mem_repr (n : Nat) : ':' ∉ (toString n).toList := by
  intro hmem
  rw [Nat.toString_eq_repr, Nat.toList_repr] at hmem
  have hdigit := Nat.isDigit_of_mem_toDigits (by norm_num) (by norm_num) hmem
  exact absurd hdigit (by decide)

/-- A stored value names its token and its owner. -/
theorem lockValue_inj {token other : Nat} {owner rival : String}
    (h : lockValue token owner = lockValue other rival) :
    token = other ∧ owner = rival := by
  have hlists : (toString token).toList ++ ':' :: owner.toList =
      (toString other).toList ++ ':' :: rival.toList := by
    simpa [lockValue] using congrArg String.toList h
  obtain ⟨htoken, howner⟩ :=
    append_cons_inj (colon_not_mem_repr token) (colon_not_mem_repr other) hlists
  exact ⟨Nat.repr_inj.mp (String.toList_inj.mp htoken), String.toList_inj.mp howner⟩

def tokensGranted (key : String) (past : List Event) : List Int :=
  past.filterMap fun event =>
    match event.2 with
    | .granted name _ token => if name = key then some token else none
    | _ => none

def Granted (past : List Event) (key owner : String) (token : Int) : Prop :=
  ∃ action, (action, Answer.granted key owner token) ∈ past

variable {past : List Event} {token : Int}

theorem Granted.append {key owner : String} (h : Granted past key owner token) (event : Event) :
    Granted (past ++ [event]) key owner token := by
  obtain ⟨action, hmem⟩ := h
  exact ⟨action, List.mem_append_left _ hmem⟩

theorem Granted.mem_tokens {key owner : String} (h : Granted past key owner token) :
    token ∈ tokensGranted key past := by
  obtain ⟨action, hmem⟩ := h
  exact List.mem_filterMap.mpr ⟨_, hmem, by simp⟩

theorem tokensGranted_snoc (key : String) (past : List Event) (action : Action) (answer : Answer) :
    tokensGranted key (past ++ [(action, answer)]) = tokensGranted key past ++
      match answer with
      | .granted name _ token => if name = key then [token] else []
      | _ => [] := by
  simp only [tokensGranted, List.filterMap_append, List.filterMap_cons, List.filterMap_nil]
  congr 1
  cases answer <;> try rfl
  next name owner token =>
    by_cases hname : name = key <;> simp [hname]

def counterOf (ks : Keyspace) (key : String) : Nat :=
  match ks (fencingCounterKey key) with
  | some ⟨.number n, _⟩ => n.toNat
  | _ => 0

structure ServerInv (past : List Event) (ks : Keyspace) (now : Nat) : Prop where
  counters : ∀ key, ks (fencingCounterKey key) = none ∨
    ∃ n : Nat, ks (fencingCounterKey key) = some ⟨.number n, none⟩
  bounded : ∀ key, ∀ token ∈ tokensGranted key past, token ≤ counterOf ks key
  increasing : ∀ key, (tokensGranted key past).Pairwise (· < ·)
  latest : ∀ key, LockKey key → ∀ e, ks.read now key = some e →
    ∃ owner, e.data = .text (lockValue (counterOf ks key) owner) ∧
      Granted past key owner (counterOf ks key)

theorem LockKey.ne_counter {key : String} (hkey : LockKey key) (other : String) :
    fencingCounterKey other ≠ key := Ne.symm (hkey other)

theorem counterOf_put_lock {ks : Keyspace} {key : String} (hkey : LockKey key) (e : Option Entry)
    (other : String) :
    counterOf (ks.put key e) other = counterOf ks other := by
  unfold counterOf
  rw [Keyspace.put_ne (hkey.ne_counter other)]

/-- The counter of one key after an increment of another's or its own. -/
theorem counterOf_put_counter (ks : Keyspace) (key other : String) (n : Nat) :
    counterOf (ks.put (fencingCounterKey key) (some ⟨.number n, none⟩)) other =
      if other = key then n else counterOf ks other := by
  rcases eq_or_ne other key with rfl | hne
  · simp [counterOf]
  · rw [if_neg hne, counterOf, Keyspace.put_ne (fun heq => hne (fencingCounterKey_inj heq))]
    rfl

variable {answer : Answer}

theorem tokensGranted_quiet {action : Action}
    (hquiet : ∀ key owner token, answer ≠ .granted key owner token) (key : String) :
    tokensGranted key (past ++ [(action, answer)]) = tokensGranted key past := by
  rw [tokensGranted_snoc]
  cases answer with
  | granted name owner token => exact absurd rfl (hquiet name owner token)
  | _ => simp

namespace ServerInv

variable {past : List Event} {ks : Keyspace} {now : Nat}

/-- Nothing but a grant adds to the history, and time only takes keys away. -/
theorem quiet (h : ServerInv past ks now) {later : Nat} (hle : now ≤ later) (action : Action)
    (hquiet : ∀ key owner token, answer ≠ .granted key owner token) :
    ServerInv (past ++ [(action, answer)]) ks later := by
  refine ⟨h.counters, ?_, ?_, ?_⟩
  · intro key token htoken
    rw [tokensGranted_quiet hquiet] at htoken
    exact h.bounded key token htoken
  · intro key
    rw [tokensGranted_quiet hquiet]
    exact h.increasing key
  · intro key hkey e hread
    obtain ⟨owner, hdata, hgranted⟩ := h.latest key hkey e (Keyspace.read_mono hle hread)
    exact ⟨owner, hdata, hgranted.append _⟩

variable {key : String}

section

variable (h : ServerInv past ks now)
include h

/-- A guarded script drops a lock key or gives it a new deadline. -/
theorem guarded (hkey : LockKey key) {value : String} {next : Keyspace} {dropped : Prop}
    (hnext : Guarded ks now key value next dropped) : ServerInv past next now := by
  have hcounter (other : String) : next (fencingCounterKey other) = ks (fencingCounterKey other) :=
    hnext.others _ (hkey.ne_counter other)
  have hsame (other : String) : counterOf next other = counterOf ks other := by
    rw [counterOf, hcounter]
    rfl
  refine ⟨?_, ?_, h.increasing, ?_⟩
  · intro other
    rw [hcounter]
    exact h.counters other
  · intro other token htoken
    rw [hsame]
    exact h.bounded other token htoken
  · intro other hother e hread
    rw [hsame]
    rcases eq_or_ne other key with rfl | hne
    · obtain ⟨old, hold, hdata⟩ := hnext.kept e hread
      rw [← hdata]
      exact h.latest other hother old hold
    · rw [Keyspace.read_congr (hnext.others other hne)] at hread
      exact h.latest other hother e hread

theorem incr_eq (hbound : counterOf ks key + 1 < 10 ^ 14) :
    ks.incr now (fencingCounterKey key) =
      .ok (ks.put (fencingCounterKey key) (some ⟨.number (counterOf ks key + 1 : Nat), none⟩),
        (counterOf ks key + 1 : Nat)) := by
  rcases h.counters key with hnone | ⟨n, hn⟩
  · have hzero : counterOf ks key = 0 := by simp [counterOf, hnone]
    simp [Keyspace.incr, Keyspace.incrBy, Keyspace.read_eq_none_of_absent hnone, hzero]
  · have hvalue : counterOf ks key = n := by simp [counterOf, hn]
    rw [hvalue] at hbound ⊢
    have hfits : -2 ^ 63 ≤ (n : Int) + 1 ∧ (n : Int) + 1 < 2 ^ 63 := by omega
    simp only [Keyspace.incr, Keyspace.incrBy, Keyspace.read_eq_some.mpr ⟨hn, rfl⟩, if_pos hfits]
    rfl

/-- What the script of `tryAcquire` does: it finds the key taken, fails after
the increment, or stores the value of a fresh token. -/
theorem tryAcquireScript_cases (lua : LuaNumbers) (hbound : counterOf ks key + 1 < 10 ^ 14)
    (millis : Int) (owner : String) :
    tryAcquireScript lua ks now key (fencingCounterKey key) millis owner =
        (ks, .ok (.int 0)) ∨
    (ks.read now key = none ∧
      ((∃ e, tryAcquireScript lua ks now key (fencingCounterKey key) millis owner =
        (ks.put (fencingCounterKey key) (some ⟨.number (counterOf ks key + 1 : Nat), none⟩),
          .error e)) ∨
      tryAcquireScript lua ks now key (fencingCounterKey key) millis owner =
        ((ks.put (fencingCounterKey key)
            (some ⟨.number (counterOf ks key + 1 : Nat), none⟩)).put key
          (some ⟨.text (lockValue (counterOf ks key + 1) owner), some (now + millis.toNat)⟩),
        .ok (.int (counterOf ks key + 1 : Nat))))) := by
  unfold tryAcquireScript
  by_cases htaken : ks.existsKey now key = true
  · left
    rw [if_pos htaken]
  · right
    have hfree : ks.read now key = none := by
      simpa [Keyspace.existsKey] using htaken
    refine ⟨hfree, ?_⟩
    rw [if_neg htaken, h.incr_eq hbound]
    dsimp only
    rw [lua.exact _ hbound]
    rcases le_or_gt millis 0 with hpast | hahead
    · left
      simp [Keyspace.psetex, hpast]
    · right
      simp [Keyspace.psetex, not_le.mpr hahead, lockValue]

/-- Counting up is harmless while the key itself is free. -/
theorem counted (hfree : ks.read now key = none) :
    ServerInv past (ks.put (fencingCounterKey key)
      (some ⟨.number (counterOf ks key + 1 : Nat), none⟩)) now := by
  refine ⟨?_, ?_, h.increasing, ?_⟩
  · intro other
    rcases eq_or_ne other key with rfl | hne
    · exact Or.inr ⟨_, Keyspace.put_self _⟩
    · rw [Keyspace.put_ne (fun heq => hne (fencingCounterKey_inj heq))]
      exact h.counters other
  · intro other token htoken
    have hold := h.bounded other token htoken
    rw [counterOf_put_counter]
    split
    · next heq =>
        subst heq
        omega
    · exact hold
  · intro other hother e hread
    rw [Keyspace.read_put_ne (hother key)] at hread
    have hne : other ≠ key := by
      rintro rfl
      rw [hfree] at hread
      cases hread
    rw [counterOf_put_counter, if_neg hne]
    exact h.latest other hother e hread

/-- Storing the value of a token above all earlier ones grants the lock. -/
theorem grant (hkey : LockKey key) (owner : String) (deadline : Option Nat) (action : Action)
    (hfresh : ∀ token ∈ tokensGranted key past, token < counterOf ks key) :
    ServerInv (past ++ [(action, .granted key owner (counterOf ks key))])
      (ks.put key (some ⟨.text (lockValue (counterOf ks key) owner), deadline⟩)) now := by
  refine ⟨?_, ?_, ?_, ?_⟩
  · intro other
    rw [Keyspace.put_ne (hkey.ne_counter other)]
    exact h.counters other
  · intro other token htoken
    rw [counterOf_put_lock hkey]
    rw [tokensGranted_snoc, List.mem_append] at htoken
    rcases htoken with hold | hnew
    · exact h.bounded other token hold
    · rcases eq_or_ne key other with rfl | hne
      · simp only [if_true, List.mem_singleton] at hnew
        exact hnew.le
      · simp [hne] at hnew
  · intro other
    rw [tokensGranted_snoc]
    rcases eq_or_ne key other with rfl | hne
    · simp only [if_true]
      refine List.pairwise_append.mpr ⟨h.increasing key, List.pairwise_singleton _ _, ?_⟩
      intro token htoken last hlast
      rw [List.mem_singleton.mp hlast]
      exact hfresh token htoken
    · simpa [hne] using h.increasing other
  · intro other hother e hread
    rw [counterOf_put_lock hkey]
    rcases eq_or_ne other key with rfl | hne
    · rw [Keyspace.read_put_self] at hread
      cases hread.1
      exact ⟨owner, rfl, action, by simp⟩
    · rw [Keyspace.read_put_ne hne] at hread
      obtain ⟨rival, hdata, hgranted⟩ := h.latest other hother e hread
      exact ⟨rival, hdata, hgranted.append _⟩

end

theorem acquireAnswer_quiet {key owner : String} {reply : Except String Reply}
    (hreply : ∀ n, reply = .ok (.int n) → n ≤ 0) (name rival : String) (token : Int) :
    acquireAnswer key owner reply ≠ .granted name rival token := by
  unfold acquireAnswer
  split
  · next n =>
      rw [if_neg (not_lt.mpr (hreply n rfl))]
      exact fun heq => by cases heq
  · exact fun heq => by cases heq

/-- The script of `tryAcquire` keeps the server's facts. -/
theorem acquire (h : ServerInv past ks now) (lua : LuaNumbers) (hkey : LockKey key)
    (hbound : counterOf ks key + 1 < 10 ^ 14) (millis : Int) (owner : String) (action : Action) :
    ServerInv
      (past ++ [(action, acquireAnswer key owner
        (tryAcquireScript lua ks now key (fencingCounterKey key) millis owner).2)])
      (tryAcquireScript lua ks now key (fencingCounterKey key) millis owner).1 now := by
  rcases h.tryAcquireScript_cases lua hbound millis owner with
    htaken | ⟨hfree, ⟨e, hfailed⟩ | hgranted⟩
  · rw [htaken]
    apply h.quiet le_rfl
    apply acquireAnswer_quiet
    intro n hn
    cases hn
    exact le_rfl
  · rw [hfailed]
    apply (h.counted hfree).quiet le_rfl
    apply acquireAnswer_quiet
    intro n hn
    cases hn
  · have hcounter : counterOf (ks.put (fencingCounterKey key)
        (some ⟨.number (counterOf ks key + 1 : Nat), none⟩)) key = counterOf ks key + 1 := by
      rw [counterOf_put_counter, if_pos rfl]
    have hgrant := (h.counted hfree).grant hkey owner (some (now + millis.toNat)) action (by
      intro token htoken
      have hold := h.bounded key token htoken
      rw [hcounter]
      omega)
    rw [hcounter] at hgrant
    have hpositive : (0 : Int) < (counterOf ks key + 1 : Nat) := by
      omega
    rw [hgranted, acquireAnswer, if_pos hpositive]
    exact hgrant

end ServerInv

/-- A call works on a lock key, and a token it has been sent was granted. -/
structure CallOk (past : List Event) (c : Call) : Prop where
  key : ∀ key, c.key = some key → LockKey key
  reply : ∀ locker key owner millis n, c = .acquired locker key owner millis (.ok (.int n)) →
    0 < n → Granted past key owner n

theorem CallOk.append {c : Call} (h : CallOk past c) (event : Event) : CallOk (past ++ [event]) c :=
  ⟨h.key, fun locker key owner millis n hc hn =>
    (h.reply locker key owner millis n hc hn).append event⟩

theorem callOk_idle (past : List Event) : CallOk past .idle :=
  ⟨fun _ h => (by cases h), fun _ _ _ _ _ h => (by cases h)⟩

theorem callOk_acquiring {key : String} (hkey : LockKey key) (locker : Nat) (owner : String)
    (millis : Int) : CallOk past (.acquiring locker key owner millis) :=
  ⟨fun _ hname => Option.some.inj hname ▸ hkey, nofun⟩

theorem Call.key_of_held {c : Call} {key : String} {held : RedisLockState}
    (h : c.held = some (key, held)) : c.key = some key := by
  cases c <;> cases h <;> rfl

theorem callOk_held {c : Call} {key : String} {held : RedisLockState} (hkey : LockKey key)
    (hheld : c.held = some (key, held)) : CallOk past c := by
  refine ⟨fun other hother => ?_, fun locker name owner millis n h => ?_⟩
  · exact Option.some.inj ((Call.key_of_held hheld).symm.trans hother) ▸ hkey
  · rw [h] at hheld
    cases hheld

structure SystemInv (past : List Event) (s : System) : Prop where
  server : ServerInv past s.redis s.clock
  calls : ∀ call, CallOk past (s.calls call)
  returned : ∀ action locker key owner token,
    (action, Answer.locked locker key owner token) ∈ past → Granted past key owner token

/-- Which actions a run may take: lock keys are not counters, and no counter has
reached fourteen digits. -/
def Permitted (s : System) : Action → Prop
  | .beginLock _ _ key _ _ | .beginUnlock _ _ key | .beginExtend _ _ key _ => LockKey key
  | .acquire call => ∀ key, (s.calls call).key = some key → counterOf s.redis key + 1 < 10 ^ 14
  | _ => True

theorem Answer.Plain.not_granted (h : answer.Plain) (key owner : String) (token : Int) :
    answer ≠ .granted key owner token := by
  rintro rfl
  exact h

theorem Answer.Plain.not_locked (h : answer.Plain) (locker : Nat) (key owner : String)
    (token : Nat) : answer ≠ .locked locker key owner token := by
  rintro rfl
  exact h

theorem systemInv_initial : SystemInv [] System.initial := by
  refine ⟨⟨fun _ => Or.inl rfl, ?_, ?_, ?_⟩, fun _ => callOk_idle [], ?_⟩
  · intro key token htoken
    cases htoken
  · exact fun _ => List.Pairwise.nil
  · intro key _ e hread
    cases hread
  · intro _ _ _ _ _ hmem
    cases hmem

theorem acquireAnswer_ne_locked (key owner : String) (reply : Except String Reply) (locker : Nat)
    (name rival : String) (token : Nat) :
    acquireAnswer key owner reply ≠ .locked locker name rival token := by
  unfold acquireAnswer
  split
  · split <;> exact fun heq => by cases heq
  · exact fun heq => by cases heq

theorem acquireAnswer_eq_granted {key owner name rival : String} {reply : Except String Reply}
    (h : acquireAnswer key owner reply = .granted name rival token) : name = key := by
  unfold acquireAnswer at h
  split at h
  · split at h
    · exact (Answer.granted.inj h).1.symm
    · cases h
  · cases h

namespace SystemInv

variable {past : List Event} {s : System}

/-- The common part of all steps: the server's facts are given, one call moves,
and a lock that is returned was granted. -/
theorem of_parts (h : SystemInv past s) {t : System} {event : Event}
    (hserver : ServerInv (past ++ [event]) t.redis t.clock)
    (hcalls : ∀ call, t.calls call = s.calls call ∨ CallOk (past ++ [event]) (t.calls call))
    (hlocked : ∀ locker key owner token, event.2 = .locked locker key owner token →
      Granted past key owner token) : SystemInv (past ++ [event]) t := by
  refine ⟨hserver, ?_, ?_⟩
  · intro call
    rcases hcalls call with hsame | hok
    · rw [hsame]
      exact (h.calls call).append event
    · exact hok
  · intro action locker key owner token hmem
    rcases List.mem_append.mp hmem with hold | hnew
    · exact (h.returned action locker key owner token hold).append event
    · have heq := List.mem_singleton.mp hnew
      exact (hlocked locker key owner token (heq ▸ rfl)).append event

/-- A step whose answer neither grants nor returns a lock. -/
theorem of_plain (h : SystemInv past s) {t : System} {a : Action} (hplain : answer.Plain)
    (hserver : ServerInv past t.redis s.clock) (hclock : s.clock ≤ t.clock)
    (hcalls : ∀ call, t.calls call = s.calls call ∨ CallOk (past ++ [(a, answer)]) (t.calls call)) :
    SystemInv (past ++ [(a, answer)]) t :=
  h.of_parts (hserver.quiet hclock a hplain.not_granted) hcalls
    fun locker key owner token hanswer => absurd hanswer (hplain.not_locked locker key owner token)

/-- A call that moves, and what its new state satisfies. -/
theorem setCall_cases {P : Call → Prop} (s : System) (call : Nat) {state : Call} (hstate : P state)
    (other : Nat) : (s.setCall call state).calls other = s.calls other ∨
      P ((s.setCall call state).calls other) := by
  rcases eq_or_ne other call with rfl | hne
  · have hself : (s.setCall other state).calls other = state := Function.update_self ..
    rw [hself]
    exact Or.inr hstate
  · exact Or.inl (Function.update_of_ne hne ..)

/-- A permitted transition keeps the invariant. -/
theorem transition (h : SystemInv past s) {lua : LuaNumbers} {a : Action} {t : System}
    (htransition : Transition lua s a t answer) (hok : Permitted s a) :
    SystemInv (past ++ [(a, answer)]) t := by
  cases htransition with
  | stay plain => exact h.of_plain plain h.server le_rfl fun _ => Or.inl rfl
  | finish call plain =>
    exact h.of_plain plain h.server le_rfl (setCall_cases s call (callOk_idle _))
  | beginLock =>
    exact h.of_plain trivial h.server le_rfl (setCall_cases s _ (callOk_acquiring hok _ _ _))
  | @acquire call locker key owner millis at_ =>
    have hcall := h.calls call
    rw [at_] at hcall
    have hkey := hcall.key key rfl
    have hbound := hok key (by rw [at_]; rfl)
    apply h.of_parts (h.server.acquire lua hkey hbound millis owner _)
    · refine setCall_cases _ call ⟨fun other hother => Option.some.inj hother ▸ hkey, ?_⟩
      intro _ _ _ _ n hreply hn
      obtain ⟨rfl, rfl, rfl, rfl, hsent⟩ := Call.acquired.inj hreply
      refine ⟨.acquire call, List.mem_append_right _ (List.mem_singleton.mpr ?_)⟩
      rw [hsent, acquireAnswer, if_pos hn]
    · intro _ _ _ _ hanswer
      exact absurd hanswer (acquireAnswer_ne_locked key owner _ _ _ _ _)
  | @retry call locker key owner millis giveUp reply at_ =>
    have hkey := (h.calls call).key key (by rw [at_]; rfl)
    exact h.of_plain trivial h.server le_rfl (setCall_cases s call (callOk_acquiring hkey _ _ _))
  | @locked call locker key owner millis giveUp token at_ positive =>
    refine h.of_parts (h.server.quiet le_rfl _ (by simp)) (setCall_cases _ call (callOk_idle _)) ?_
    intro _ _ _ _ hanswer
    obtain ⟨_, rfl, rfl, rfl⟩ := Answer.locked.inj hanswer
    exact (h.calls call).reply locker key owner millis token at_ (by omega)
  | beginUnlock | beginExtend =>
    exact h.of_plain trivial h.server le_rfl (setCall_cases s _ (callOk_held hok rfl))
  | @run _ call key held state redis reply at_ after guarded =>
    have hkey := (h.calls call).key key (Call.key_of_held at_)
    exact h.of_plain trivial (h.server.guarded hkey guarded) le_rfl
      (setCall_cases _ call (callOk_held hkey after))
  | dropUnlocked _ plain | dropExtended _ plain =>
    exact h.of_plain plain h.server le_rfl (setCall_cases _ _ (callOk_idle _))
  | tick millis =>
    exact h.of_plain trivial h.server (Nat.le_add_right _ _) fun _ => Or.inl rfl

/-- Every permitted run keeps the invariant. -/
theorem run (lua : LuaNumbers) (actions : List Action)
    (hsteps : (lockMachine lua).AllSteps Permitted System.initial actions) :
    SystemInv (events lua actions) (reached lua actions) := by
  have hrun := (lockMachine lua).trace_invariant SystemInv Permitted
    (fun past s a h hok => h.transition (step_transition lua s a) hok) [] System.initial
    actions systemInv_initial hsteps
  simpa using hrun

/-- A token is granted only by the script of a call that found no live value, and the value it
stores then has the expiry of the call. -/
theorem granted (h : SystemInv past s) {lua : LuaNumbers} {a : Action} {t : System}
    (htransition : Transition lua s a t answer) (hok : Permitted s a) {key owner : String}
    (hanswer : answer = .granted key owner token) :
    s.stored key = none ∧ ∃ call locker millis, a = .acquire call ∧
      s.calls call = .acquiring locker key owner millis ∧
      t.stored key = some ⟨.text (lockValue token.toNat owner), some (s.clock + millis.toNat)⟩ := by
  cases htransition with
  | @acquire call locker name rival millis at_ =>
    have hbound := hok name (by rw [at_]; rfl)
    rcases h.server.tryAcquireScript_cases lua hbound millis rival with
      htaken | ⟨hfree, ⟨e, hfailed⟩ | hgranted⟩
    · rw [htaken] at hanswer
      cases hanswer
    · rw [hfailed] at hanswer
      cases hanswer
    · have hpositive : (0 : Int) < (counterOf s.redis name + 1 : Nat) := by omega
      rw [hgranted, acquireAnswer, if_pos hpositive] at hanswer
      cases hanswer
      refine ⟨hfree, call, locker, millis, rfl, at_, ?_⟩
      rw [hgranted, System.stored]
      refine Keyspace.read_put_self.mpr ⟨by rw [Int.toNat_natCast], ?_⟩
      simp [Entry.gone, System.setCall]
  | stay plain | finish _ plain | dropUnlocked _ plain | dropExtended _ plain =>
    exact absurd hanswer (plain.not_granted key owner token)
  | beginLock | retry | locked | beginUnlock | run | beginExtend | tick => cases hanswer

end SystemInv

/-- A guarded script whose value is not the stored one leaves the keyspace alone. -/
theorem guardedScript_stale {s : System} (h : SystemInv past s) {key value : String}
    (hkey : LockKey key) (hstale : ∀ e, s.stored key = some e → e.data ≠ .text value)
    (command : Keyspace × Int) :
    (guardedScript s.redis s.clock key value command).1 = s.redis := by
  rcases guardedScript_cases s.redis s.clock key value command with ⟨hget, _⟩ | ⟨_, hsame⟩
  · obtain ⟨⟨data, deadline⟩, hread⟩ := read_of_get hget
    obtain ⟨owner, hdata, _⟩ := h.server.latest key hkey _ hread
    obtain rfl : data = .text _ := hdata
    simp only [Keyspace.get, hread] at hget
    have hvalue := Option.some.inj (Except.ok.inj hget)
    exact absurd (congrArg Data.text hvalue) (hstale _ hread)
  · exact hsame

/-- In every interleaving, a stored value belongs to exactly one owner and
token; the tokens granted on one key increase from grant to grant, and every
token a `Lock` returns is one of them; an `Unlock` or `Extend` whose value is
no longer the stored one changes nothing on the server; and a token is granted only
while no live value is stored, by a script that stores its value with the expiry. -/
theorem locks_exclude_and_fence (lua : LuaNumbers) (actions : List Action)
    (hsteps : (lockMachine lua).AllSteps Permitted System.initial actions) :
    (∀ key, LockKey key → ∀ e, (reached lua actions).stored key = some e →
      ∃ owner, ∃ token : Nat, Granted (events lua actions) key owner token ∧
        e.data = .text (lockValue token owner) ∧
        ∀ rival other, e.data = .text (lockValue other rival) → rival = owner ∧ other = token) ∧
    (∀ key, (tokensGranted key (events lua actions)).Pairwise (· < ·)) ∧
    (∀ action locker key owner token,
      (action, Answer.locked locker key owner token) ∈ events lua actions →
      Granted (events lua actions) key owner token) ∧
    (∀ call locker key held,
      (∀ e, (reached lua actions).stored key = some e → e.data ≠ .text held.value) →
      ((reached lua actions).calls call = .unlocking locker key held →
        (step lua (reached lua actions) (.runUnlock call)).1.redis = (reached lua actions).redis) ∧
      (∀ millis, (reached lua actions).calls call = .extending locker key held millis →
        (step lua (reached lua actions) (.runExtend call)).1.redis =
          (reached lua actions).redis)) ∧
    (∀ action, Permitted (reached lua actions) action → ∀ key owner token,
      (step lua (reached lua actions) action).2 = .granted key owner token →
      (reached lua actions).stored key = none ∧
      ∃ call locker millis, action = .acquire call ∧
        (reached lua actions).calls call = .acquiring locker key owner millis ∧
        (step lua (reached lua actions) action).1.stored key =
          some ⟨.text (lockValue token.toNat owner),
            some ((reached lua actions).clock + millis.toNat)⟩) := by
  have h := SystemInv.run lua actions hsteps
  generalize reached lua actions = s at h ⊢
  generalize events lua actions = past at h ⊢
  refine ⟨?_, h.server.increasing, h.returned, ?_, fun action hok key owner token hanswer =>
    h.granted (step_transition lua s action) hok hanswer⟩
  · intro key hkey e hstored
    obtain ⟨owner, hdata, hgranted⟩ := h.server.latest key hkey e hstored
    refine ⟨owner, _, hgranted, hdata, ?_⟩
    intro rival other hother
    obtain ⟨htoken, howner⟩ := lockValue_inj (Data.text.inj (hother.symm.trans hdata))
    exact ⟨howner, htoken⟩
  · intro call locker key held hstale
    have hkeyed {c : Call} (hc : s.calls call = c) (hname : c.key = some key) : LockKey key := by
      have hcall := h.calls call
      rw [hc] at hcall
      exact hcall.key key hname
    refine ⟨?_, ?_⟩
    · intro hcall
      simp only [step, hcall]
      exact guardedScript_stale h (hkeyed hcall rfl) hstale _
    · intro millis hcall
      simp only [step, hcall]
      exact guardedScript_stale h (hkeyed hcall rfl) hstale _

def decimalNumbers : LuaNumbers := ⟨fun n => toString n, fun _ _ => rfl⟩

theorem lockKey_k : LockKey "k" := by
  intro other heq
  have hlength := congrArg String.length heq
  rw [fencingCounterKey, String.length_append] at hlength
  have hone : "k".length = 1 := by decide
  have hsix : ":fence".length = 6 := by decide
  omega

/-- Two lockers take the same lock one after the other, the first one's value
having expired. -/
def expiredTakeover : List Action :=
  [.beginLock 0 0 "k" "u" 1000000, .acquire 0, .lockReturn 0 false, .tick 2,
    .beginLock 1 1 "k" "w" 1000000, .acquire 1, .lockReturn 1 false]

theorem expiredTakeover_tokens_increase :
    tokensGranted "k" (events decimalNumbers expiredTakeover) = [1, 2] ∧
      (tokensGranted "k" (events decimalNumbers expiredTakeover)).Pairwise (· < ·) := by
  refine ⟨by decide, ?_⟩
  refine (locks_exclude_and_fence decimalNumbers expiredTakeover ?_).2.1 "k"
  refine ⟨lockKey_k, ?_, trivial, trivial, lockKey_k, ?_, trivial, trivial⟩
  all_goals
    intro key hkey
    obtain rfl : "k" = key := Option.some.inj hkey
    decide

end Photon.Lock
