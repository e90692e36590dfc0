import Photon.Oidc.Client

/-!
Single use of the state and its binding to the latest login. Both hold as long as no login comes
between the steps of a callback or of another login, no two callbacks pass the state check beside
each other, and one of the three entries is really removed at the end. Between the logins the
entries that the session still has are then those of the latest login, and a session from which a
callback has succeeded lacks one of them.
-/

namespace Photon.Oidc

open Photon.Lib

def Generated.exchange (values : Generated) (n : ℕ) : Exchange :=
  ⟨values.value n .state, values.value n .verifier, values.value n .nonce⟩

/-- A state succeeds once, with the values of the login that is the latest then. -/
structure Secure (values : Generated) (s : System) : Prop where
  once : ∀ i j e e' l l', s.callbacks i = .succeeded e l → s.callbacks j = .succeeded e' l' →
    e.state = e'.state → i = j
  bound : ∀ i e l, s.callbacks i = .succeeded e l → ∃ n, l = some n ∧ e = values.exchange n

def Login.Midway : Login → Prop
  | statePut => True
  | noncePut => True
  | _ => False

def Callback.InFlight : Callback → Prop
  | stateChecked _ => True
  | verifierRead _ _ => True
  | exchanged _ _ => True
  | nonceChecked _ => True
  | stateRemoved _ => True
  | nonceRemoved _ => True
  | _ => False

/--
No step comes between others that it can harm: a `Put` finds no callback in flight and no other
login midway, and succeeds if its own login is midway; a state that is read and found finds no
other callback in flight and no login midway; and the last `Remove` succeeds if those before it
have failed.
-/
def Undisturbed (s : System) : Action → Prop
  | .put n ok =>
    (∀ i, ¬ (s.callbacks i).InFlight) ∧ (∀ m, m ≠ n → ¬ (s.logins m).Midway) ∧
      ((s.logins n).Midway → ok = true)
  | .get i _ =>
    s.session .state ≠ "" → s.callbacks i = .received (s.session .state) →
      (∀ j, j ≠ i → ¬ (s.callbacks j).InFlight) ∧ ∀ m, ¬ (s.logins m).Midway
  | .remove i ok =>
    ∀ e, s.callbacks i = .nonceRemoved e →
      s.session .state ≠ "" → s.session .nonce ≠ "" → ok = true
  | _ => True

/-! ### What holds in every state -/

def Callback.holds : Callback → Option String
  | nonceChecked e => some e.state
  | stateRemoved e => some e.state
  | nonceRemoved e => some e.state
  | succeeded e _ => some e.state
  | _ => none

/-- The entries that are left in the session are those of the login, the latest one. -/
structure LeftBy (values : Generated) (session : Session) (latest : Option ℕ) (n : ℕ) : Prop where
  latest : latest = some n
  entries : ∀ key, session key ≠ "" → session key = values.value n key

def Agrees (values : Generated) (s : System) : Callback → Prop
  | .stateChecked state =>
    ∃ n, LeftBy values s.session s.latest n ∧ state = values.value n .state ∧
      s.session .state ≠ ""
  | .verifierRead state verifier =>
    ∃ n, LeftBy values s.session s.latest n ∧ state = values.value n .state ∧
      verifier = values.value n .verifier ∧ s.session .state ≠ "" ∧ s.session .verifier ≠ ""
  | .exchanged e _ =>
    ∃ n, LeftBy values s.session s.latest n ∧ e.state = values.value n .state ∧
      e.verifier = values.value n .verifier ∧ s.session .state ≠ "" ∧ s.session .verifier ≠ ""
  | .nonceChecked e => ∃ n, LeftBy values s.session s.latest n ∧ e = values.exchange n
  | .stateRemoved e => ∃ n, LeftBy values s.session s.latest n ∧ e = values.exchange n
  | .nonceRemoved e => ∃ n, LeftBy values s.session s.latest n ∧ e = values.exchange n
  | .succeeded e l =>
    (∃ n, l = some n ∧ e = values.exchange n ∧ (s.logins n).next = none) ∧
      (s.session .state = e.state → ∃ key, s.session key = "")
  | _ => True

structure Inv (values : Generated) (s : System) : Prop where
  agrees : ∀ i, Agrees values s (s.callbacks i)
  unique : ∀ i j state, (s.callbacks i).holds = some state → (s.callbacks j).holds = some state →
    i = j
  alone : ∀ i j, (s.callbacks i).InFlight → (s.callbacks j).InFlight → i = j
  /-- No login is midway beside a callback in flight. -/
  settled : ∀ i, (s.callbacks i).InFlight → ∀ m, ¬ (s.logins m).Midway
  leftBy : (∀ m, ¬ (s.logins m).Midway) → s.session .state ≠ "" →
    ∃ n, LeftBy values s.session s.latest n
  midway : ∀ n, (s.logins n).Midway → s.latest = some n ∧
    s.session .state = values.value n .state ∧
      (s.logins n = .noncePut → s.session .nonce = values.value n .nonce)
  started : ∀ n, s.latest = some n → s.logins n ≠ .fresh

theorem Inv.secure {values : Generated} {s : System} (h : Inv values s) :
    Secure values s where
  once i j e e' l l' hi hj hstate := by
    apply h.unique i j e.state
    · rw [hi]
      rfl
    · rw [hj, hstate]
      rfl
  bound i e l hi := by
    have hagrees := h.agrees i
    rw [hi] at hagrees
    obtain ⟨⟨n, hlatest, hexchange, -⟩, -⟩ := hagrees
    exact ⟨n, hlatest, hexchange⟩

theorem inv_start (values : Generated) :
    Inv values .start where
  agrees _ := trivial
  unique i j state hi _ := by cases hi
  alone i j hi _ := hi.elim
  settled i hi := hi.elim
  leftBy _ hne := absurd rfl hne
  midway n hn := hn.elim
  started n hn := by cases hn

variable {values : Generated} {s : System}

theorem agrees_setCallback (i : ℕ) (c other : Callback) :
    Agrees values (s.setCallback i c) other ↔ Agrees values s other := by
  cases other <;> exact Iff.rfl

variable {i : ℕ} {c : Callback}

/-- For callbacks that are not in flight, only a use of the state matters. -/
theorem Agrees.of_not_inFlight {s' : System} (h : Agrees values s c) (hc : ¬ c.InFlight)
    (hlogins : ∀ n, (s.logins n).next = none → (s'.logins n).next = none)
    (hused : ∀ e l, c = .succeeded e l → s'.session .state = e.state → ∃ key, s'.session key = "") :
    Agrees values s' c := by
  cases c with
  | succeeded e l =>
    obtain ⟨⟨n, hlatest, hexchange, hended⟩, -⟩ := h
    exact ⟨⟨n, hlatest, hexchange, hlogins n hended⟩, hused e l rfl⟩
  | idle => trivial
  | received state => trivial
  | failed e => trivial
  | _ => exact absurd trivial hc

theorem Inv.used (h : Inv values s) {e : Exchange} {l : Option ℕ}
    (hi : s.callbacks i = .succeeded e l) (hstate : s.session .state = e.state) :
    ∃ key, s.session key = "" := by
  have hagrees := h.agrees i
  rw [hi] at hagrees
  exact hagrees.2 hstate

/-! ### Callbacks -/

theorem callbacks_setCallback_of_ne (s : System) {i j : ℕ} (hji : j ≠ i) (c : Callback) :
    (s.setCallback i c).callbacks j = s.callbacks j := Function.update_of_ne hji ..

/-- What holds of a callback that is replaced and of all others holds of all. -/
theorem forall_setCallback {P : ℕ → Callback → Prop} (hself : P i c)
    (hothers : ∀ j, j ≠ i → P j (s.callbacks j)) (j : ℕ) :
    P j ((s.setCallback i c).callbacks j) := by
  by_cases hji : j = i
  · subst hji
    simpa [System.setCallback] using hself
  · rw [callbacks_setCallback_of_ne s hji]
    exact hothers j hji

section

variable (h : Inv values s)
include h

/-- A callback is replaced; it may be in flight or hold a state if no other one is or does. -/
theorem Inv.setCallback (i : ℕ) (hagrees : Agrees values s c)
    (hholds : ∀ j, j ≠ i → ∀ state, c.holds = some state → (s.callbacks j).holds ≠ some state)
    (hflight : c.InFlight →
      (∀ j, j ≠ i → ¬ (s.callbacks j).InFlight) ∧ ∀ m, ¬ (s.logins m).Midway) :
    Inv values (s.setCallback i c) := by
  refine ⟨fun j => ?_, fun j k state => ?_, fun j k => ?_, ?_, h.leftBy, h.midway, h.started⟩
  · rw [agrees_setCallback]
    exact forall_setCallback (P := fun _ c => Agrees values s c) hagrees (fun j _ => h.agrees j) j
  · refine forall_setCallback (P := fun j c => c.holds = some state →
      ((s.setCallback i _).callbacks k).holds = some state → j = k) ?_ ?_ j
    · refine forall_setCallback (P := fun k other => c.holds = some state →
        other.holds = some state → i = k) (fun _ _ => rfl) (fun k hki hc hk => ?_) k
      exact absurd hk (hholds k hki state hc)
    · intro j hji
      refine forall_setCallback (P := fun k other => (s.callbacks j).holds = some state →
        other.holds = some state → j = k) (fun hj hc => ?_) (fun k _ => h.unique j k state) k
      exact absurd hj (hholds j hji state hc)
  · refine forall_setCallback (P := fun j c => c.InFlight →
      ((s.setCallback i _).callbacks k).InFlight → j = k) ?_ ?_ j
    · refine forall_setCallback (P := fun k other => c.InFlight → other.InFlight → i = k)
        (fun _ _ => rfl) (fun k hki hc hk => ?_) k
      exact absurd hk ((hflight hc).1 k hki)
    · intro j hji
      refine forall_setCallback (P := fun k other => (s.callbacks j).InFlight →
        other.InFlight → j = k) (fun hj hc => ?_) (fun k _ => h.alone j k) k
      exact absurd hj ((hflight hc).1 j hji)
  · exact forall_setCallback (P := fun _ c => c.InFlight → ∀ m, ¬ (s.logins m).Midway)
      (fun hc => (hflight hc).2) fun j _ => h.settled j

theorem Inv.fail (i : ℕ) (e : CallbackError) : Inv values (s.setCallback i (.failed e)) :=
  h.setCallback i trivial (fun _ _ _ => nofun) fun hflight => hflight.elim

/-- Nothing else is under way beside a callback in flight. -/
theorem Inv.undisturbed (hi : (s.callbacks i).InFlight) :
    (∀ j, j ≠ i → ¬ (s.callbacks j).InFlight) ∧ ∀ m, ¬ (s.logins m).Midway :=
  ⟨fun j hji hj => hji (h.alone j i hj hi), h.settled i hi⟩

/-- While all entries are there, their state has not been used. -/
theorem Inv.unused (hi : (s.callbacks i).InFlight) (hcomplete : ∀ key, s.session key ≠ "") {j : ℕ}
    (hji : j ≠ i) : (s.callbacks j).holds ≠ some (s.session .state) := by
  have hother := (h.undisturbed hi).1 j hji
  intro hholds
  cases hc : s.callbacks j with
  | succeeded e l =>
    rw [hc] at hholds
    obtain ⟨key, hkey⟩ := h.used hc (Option.some.inj hholds).symm
    exact hcomplete key hkey
  | nonceChecked | stateRemoved | nonceRemoved => exact hother (by rw [hc]; trivial)
  | _ =>
    rw [hc] at hholds
    cases hholds

theorem Inv.get_received {err : Option String} {state : String}
    (hc : s.callbacks i = .received state) (hok : Undisturbed s (.get i err)) :
    Inv values (s.setCallback i (checkState state (s.getString .state err))) := by
  cases err with
  | some e => exact h.fail i (.other e)
  | none =>
    simp only [System.getString, checkState]
    split_ifs with hmissing hother
    · exact h.fail i .missingState
    · exact h.fail i .invalidState
    · obtain rfl := not_not.mp hother
      obtain ⟨hidle, hsettled⟩ := hok hmissing hc
      obtain ⟨n, hleft⟩ := h.leftBy hsettled hmissing
      exact h.setCallback i ⟨n, hleft, hleft.entries .state hmissing, hmissing⟩
        (fun _ _ _ => nofun) fun _ => ⟨hidle, hsettled⟩

theorem Inv.get_stateChecked {state : String} (hc : s.callbacks i = .stateChecked state)
    (err : Option String) :
    Inv values (s.setCallback i (readVerifier state (s.getString .verifier err))) := by
  have hagrees := h.agrees i
  rw [hc] at hagrees
  obtain ⟨n, hleft, hstate, hpresent⟩ := hagrees
  cases err with
  | some e => exact h.fail i (.other e)
  | none =>
    simp only [System.getString, readVerifier]
    split_ifs with hmissing
    · exact h.fail i .missingVerifier
    · exact h.setCallback i
        ⟨n, hleft, hstate, hleft.entries .verifier hmissing, hpresent, hmissing⟩
        (fun _ _ _ => nofun) fun _ => h.undisturbed (by rw [hc]; trivial)

theorem Inv.exchange {state verifier : String}
    (hc : s.callbacks i = .verifierRead state verifier) (answer : ProviderAnswer) :
    Inv values (s.setCallback i (exchange state verifier answer)) := by
  have hagrees := h.agrees i
  rw [hc] at hagrees
  cases answer with
  | refused e | unverified e => exact h.fail i (.other e)
  | noIDToken => exact h.fail i .missingIDToken
  | token nonce claims =>
    exact h.setCallback i hagrees (fun _ _ _ => nofun) fun _ =>
      h.undisturbed (by rw [hc]; trivial)

/-- A callback that passes its last check has found all entries of the latest login. -/
theorem Inv.get_exchanged {e : Exchange} {claims : Option String}
    (hc : s.callbacks i = .exchanged e claims) (err : Option String) :
    Inv values (s.setCallback i (checkNonce e claims (s.getString .nonce err))) := by
  have hagrees := h.agrees i
  rw [hc] at hagrees
  obtain ⟨n, hleft, hstate, hverifier, hpresent, hpresent'⟩ := hagrees
  have hflight : (s.callbacks i).InFlight := by
    rw [hc]
    trivial
  cases err with
  | some e => exact h.fail i (.other e)
  | none =>
    simp only [System.getString, checkNonce]
    split_ifs with hmissing hother
    · exact h.fail i .missingNonce
    · exact h.fail i .invalidState
    · cases claims with
      | some err => exact h.fail i (.other err)
      | none =>
        have hcomplete : ∀ key, s.session key ≠ "" := fun key => by
          cases key <;> assumption
        have hnonce : e.nonce = values.value n .nonce :=
          (not_not.mp hother).trans (hleft.entries .nonce hmissing)
        have hexchange : e = values.exchange n := by
          rw [Generated.exchange, ← hstate, ← hverifier, ← hnonce]
        refine h.setCallback i ⟨n, hleft, hexchange⟩ (fun j hji state hholds => ?_)
          fun _ => h.undisturbed hflight
        obtain rfl : s.session .state = state := by
          rw [hleft.entries .state hpresent, ← hstate]
          exact Option.some.inj hholds
        exact h.unused hflight hcomplete hji

theorem Inv.get {err : Option String} (hok : Undisturbed s (.get i err)) :
    Inv values (s.get i err) := by
  rw [System.get]
  split
  · next state hc => exact h.get_received hc hok
  · next state hc => exact h.get_stateChecked hc err
  · next e claims hc => exact h.get_exchanged hc err
  · exact h

/-! ### Removals -/

def Shrinks (session after : Session) : Prop := ∀ key, after key = session key ∨ after key = ""

omit h in
theorem shrinks_removed (s : System) (key : SessionKey) (ok : Bool) :
    Shrinks s.session (s.removed key ok) := by
  intro other
  rw [System.removed]
  split_ifs
  · by_cases hkey : other = key
    · exact .inr (by rw [hkey, Function.update_self])
    · exact .inl (Function.update_of_ne hkey ..)
  · exact .inl rfl

omit h in
theorem LeftBy.shrink {session after : Session} {latest : Option ℕ} {n : ℕ}
    (h : LeftBy values session latest n) (hshrinks : Shrinks session after) :
    LeftBy values after latest n := by
  refine ⟨h.latest, fun key hkey => ?_⟩
  have hsame := (hshrinks key).resolve_right hkey
  rw [hsame] at hkey ⊢
  exact h.entries key hkey

variable {session : Session}

/-- Entries go while no call is under way. -/
theorem Inv.shrink (hidle : ∀ i, ¬ (s.callbacks i).InFlight)
    (hsettled : ∀ m, ¬ (s.logins m).Midway) (hshrinks : Shrinks s.session session) :
    Inv values { s with session := session } := by
  refine ⟨fun i => ?_, h.unique, h.alone, h.settled, fun _ hne => ?_,
    fun m hm => absurd hm (hsettled m), h.started⟩
  · refine (h.agrees i).of_not_inFlight (hidle i) (fun _ => id) fun e l hc hstate => ?_
    rcases hshrinks .state with hsame | hgone
    · obtain ⟨key, hkey⟩ := h.used hc (hsame.symm.trans hstate)
      exact ⟨key, (hshrinks key).elim (·.trans hkey) id⟩
    · exact ⟨.state, hgone⟩
  · have hsame := (hshrinks .state).resolve_right hne
    obtain ⟨n, hleft⟩ := h.leftBy hsettled (hsame ▸ hne)
    exact ⟨n, hleft.shrink hshrinks⟩

/-- The callback in flight removes an entry, and nothing else is under way. -/
theorem Inv.remove_entry (hflight : (s.callbacks i).InFlight)
    (hshrinks : Shrinks s.session session) (hholds : c.holds = (s.callbacks i).holds)
    (hagrees : Agrees values { s with session := session } c) :
    Inv values ({ s with session := session }.setCallback i c) := by
  obtain ⟨hidle, hsettled⟩ := h.undisturbed hflight
  -- Without the callback no call is under way; it is put back behind the removal.
  have hothers : ∀ j, ¬ ((s.setCallback i .idle).callbacks j).InFlight :=
    forall_setCallback (P := fun _ c => ¬ c.InFlight) id hidle
  have hidle' : Inv values (s.setCallback i .idle) :=
    h.setCallback i trivial (fun _ _ _ => nofun) False.elim
  have hwithout := hidle'.shrink hothers hsettled hshrinks
  have hback := hwithout.setCallback i (c := c) ((agrees_setCallback i .idle c).mpr hagrees)
    (fun j hji state hc hj => ?_) fun _ => ⟨fun j _ => hothers j, hsettled⟩
  · have hsystem : System.setCallback { s.setCallback i .idle with session := session } i c =
        System.setCallback { s with session := session } i c := by
      simp [System.setCallback]
    rwa [hsystem] at hback
  · refine hji (h.unique j i state ?_ (hholds ▸ hc))
    exact callbacks_setCallback_of_ne s hji .idle ▸ hj

theorem Inv.remove {ok : Bool} (hok : Undisturbed s (.remove i ok)) :
    Inv values (s.remove i ok) := by
  have hagrees := h.agrees i
  rw [System.remove]
  split
  · next e hc =>
      rw [hc] at hagrees
      obtain ⟨n, hleft, hexchange⟩ := hagrees
      have hshrinks := shrinks_removed s .state ok
      exact h.remove_entry (by rw [hc]; trivial) hshrinks (by rw [hc]; rfl)
        ⟨n, hleft.shrink hshrinks, hexchange⟩
  · next e hc =>
      rw [hc] at hagrees
      obtain ⟨n, hleft, hexchange⟩ := hagrees
      have hshrinks := shrinks_removed s .nonce ok
      exact h.remove_entry (by rw [hc]; trivial) hshrinks (by rw [hc]; rfl)
        ⟨n, hleft.shrink hshrinks, hexchange⟩
  · next e hc =>
      rw [hc] at hagrees
      obtain ⟨n, hleft, hexchange⟩ := hagrees
      have hshrinks := shrinks_removed s .verifier ok
      refine h.remove_entry (by rw [hc]; trivial) hshrinks (by rw [hc]; rfl)
        ⟨⟨n, hleft.latest, hexchange, ?_⟩, fun _ => ?_⟩
      · have hsettled := h.settled i (by rw [hc]; trivial) n
        have hstarted := h.started n hleft.latest
        cases hlogin : s.logins n with
        | fresh => exact absurd hlogin hstarted
        | complete => rfl
        | failed => rfl
        | _ => exact absurd (by rw [hlogin]; trivial) hsettled
      -- One of the three removals has taken its entry.
      by_cases hstate : s.session .state = ""
      · exact ⟨.state, (hshrinks .state).elim (·.trans hstate) id⟩
      by_cases hnonce : s.session .nonce = ""
      · exact ⟨.nonce, (hshrinks .nonce).elim (·.trans hnonce) id⟩
      · refine ⟨.verifier, ?_⟩
        rw [hok e hc hstate hnonce]
        exact Function.update_self .verifier "" s.session
  · exact h

/-! ### Logins -/

/-- A login moves on while no callback is in flight and no other login is midway. -/
theorem Inv.move_login {n : ℕ} (hidle : ∀ i, ¬ (s.callbacks i).InFlight)
    (hothers : ∀ m, m ≠ n → ¬ (s.logins m).Midway) (hmoves : (s.logins n).next ≠ none)
    {latest : Option ℕ} {login : Login} (hlogin : login ≠ .fresh)
    (hused : ∀ i e l, s.callbacks i = .succeeded e l → session .state = e.state →
      ∃ key, session key = "") (hmidway : login.Midway →
      latest = some n ∧ session .state = values.value n .state ∧
        (login = .noncePut → session .nonce = values.value n .nonce))
    (hleft : ¬ login.Midway → session .state ≠ "" → ∃ m, LeftBy values session latest m)
    (hlatest : ∀ m, latest = some m → m = n ∨ s.latest = some m) :
    Inv values ⟨session, Function.update s.logins n login, s.callbacks, latest⟩ := by
  have hstarted : ∀ m, m = n ∨ s.logins m ≠ .fresh →
      Function.update s.logins n login m ≠ .fresh := by
    intro m hm
    by_cases hmn : m = n
    · rwa [hmn, Function.update_self]
    · rw [Function.update_of_ne hmn]
      exact hm.resolve_left hmn
  refine ⟨fun i => ?_, h.unique, h.alone, fun i hi => absurd hi (hidle i), fun hsettled hne => ?_,
    fun m hm => ?_, fun m hm => hstarted m ((hlatest m hm).imp_right (h.started m))⟩
  · refine (h.agrees i).of_not_inFlight (hidle i) (fun m hm => ?_) (hused i)
    have hmn : m ≠ n := fun hmn => hmoves (hmn ▸ hm)
    dsimp only
    rwa [Function.update_of_ne hmn]
  · have hdone : ¬ (Function.update s.logins n login n).Midway := hsettled n
    rw [Function.update_self] at hdone
    exact hleft hdone hne
  · dsimp only at hm ⊢
    by_cases hmn : m = n
    · subst hmn
      rw [Function.update_self] at hm ⊢
      exact hmidway hm
    · rw [Function.update_of_ne hmn] at hm
      exact absurd hm (hothers m hmn)

/-- The state of a login that is not done has not been used. -/
theorem Inv.unused_state {n i : ℕ} {e : Exchange} {l : Option ℕ}
    (hmoves : (s.logins n).next ≠ none) (hi : s.callbacks i = .succeeded e l) :
    values.value n .state ≠ e.state := by
  have hagrees := h.agrees i
  rw [hi] at hagrees
  obtain ⟨⟨m, -, rfl, hended⟩, -⟩ := hagrees
  intro hsame
  obtain ⟨rfl, -⟩ := values.unique n m .state .state hsame
  exact hmoves hended

theorem Inv.put {n : ℕ} {ok : Bool} (hok : Undisturbed s (.put n ok)) :
    Inv values (s.put values n ok) := by
  obtain ⟨hidle, hothers, hmid⟩ := hok
  cases ok with
  | false =>
    have hnot : ¬ (s.logins n).Midway := fun hm => Bool.false_ne_true (hmid hm)
    have hsettled : ∀ m, ¬ (s.logins m).Midway := fun m => by
      by_cases hmn : m = n
      · rwa [hmn]
      · exact hothers m hmn
    rw [System.put]
    split
    · exact h
    · next hnext =>
        exact h.move_login hidle hothers (by simp [hnext]) nofun (fun i e l hi => h.used hi)
          (fun hm => hm.elim) (fun _ => h.leftBy hsettled) fun m hm => .inr hm
  | true =>
    rw [System.put]
    cases hlogin : s.logins n with
    | fresh =>
      have hmoves : (s.logins n).next ≠ none := by simp [hlogin, Login.next]
      refine h.move_login hidle hothers hmoves nofun (fun i e l hi hstate => ?_)
        (fun _ => ⟨rfl, ?_, nofun⟩) (fun hnot => absurd trivial hnot)
        (fun m hm => .inl (Option.some.inj hm).symm)
      · rw [Function.update_self] at hstate
        exact absurd hstate (h.unused_state hmoves hi)
      · rw [Function.update_self]
    | statePut =>
      have hmoves : (s.logins n).next ≠ none := by simp [hlogin, Login.next]
      obtain ⟨hlatest, hstate, -⟩ := h.midway n (by rw [hlogin]; trivial)
      refine h.move_login hidle hothers hmoves nofun (fun i e l hi hused => ?_)
        (fun _ => ⟨hlatest, ?_, fun _ => Function.update_self ..⟩)
        (fun hnot => absurd trivial hnot) (fun m hm => .inr hm)
      · rw [Function.update_of_ne (by decide), hstate] at hused
        exact absurd hused (h.unused_state hmoves hi)
      · rw [Function.update_of_ne (by decide), hstate]
    | noncePut =>
      have hmoves : (s.logins n).next ≠ none := by simp [hlogin, Login.next]
      obtain ⟨hlatest, hstate, hnonce⟩ := h.midway n (by rw [hlogin]; trivial)
      refine h.move_login hidle hothers hmoves nofun (fun i e l hi hused => ?_)
        (fun hm => hm.elim) (fun _ _ => ⟨n, hlatest, fun key _ => ?_⟩) (fun m hm => .inr hm)
      · rw [Function.update_of_ne (by decide), hstate] at hused
        exact absurd hused (h.unused_state hmoves hi)
      · cases key with
        | state => rw [Function.update_of_ne (by decide), hstate]
        | nonce => rw [Function.update_of_ne (by decide), hnonce hlogin]
        | verifier => rw [Function.update_self]
    | complete => exact h
    | failed => exact h

theorem Inv.step (a : Action) (hok : Undisturbed s a) :
    Inv values ((machine values).step s a).1 := by
  cases a with
  | put n ok => exact h.put hok
  | receive i code state =>
    simp only [machine]
    split
    · rw [receive]
      split_ifs
      · exact h.fail i .missingCode
      · exact h.setCallback i trivial (fun _ _ _ => nofun) fun hflight => hflight.elim
    · exact h
  | get i err => exact h.get hok
  | exchange i answer =>
    simp only [machine]
    split
    · next state verifier hc => exact h.exchange hc answer
    · exact h
  | remove i ok => exact h.remove hok

end

/--
In every run whose steps are undisturbed, every state succeeds at most once and every success is
that of the latest login, in each state that is reached.
-/
theorem callbacks_secure_when_undisturbed (values : Generated) (actions : List Action)
    (hsteps : (machine values).AllSteps Undisturbed .start actions) :
    ∀ before, before <+: actions → Secure values ((machine values).run .start before) := by
  rintro before ⟨after, rfl⟩
  exact ((machine values).run_invariant (Inv values) Undisturbed (fun _ a hs hok => hs.step a hok)
    .start before (inv_start values) hsteps.of_append.1).secure

/-! ### Runs -/

def SessionKey.index : SessionKey → ℕ
  | state => 0
  | nonce => 1
  | verifier => 2

theorem SessionKey.index_lt (key : SessionKey) : key.index < 3 := by
  cases key <;> decide

def counted : Generated where
  value n key := String.ofList (List.replicate (3 * n + key.index + 1) 'a')
  nonempty n key h := by
    have hlength := congrArg String.length h
    simp at hlength
  unique n m key key' h := by
    have hlength := congrArg String.length h
    have hkey := key.index_lt
    have hkey' := key'.index_lt
    simp only [String.length_ofList, List.length_replicate] at hlength
    refine ⟨by omega, ?_⟩
    have hindex : key.index = key'.index := by omega
    revert hindex
    cases key <;> cases key' <;> decide

def loginSteps (n : ℕ) : List Action := [.put n true, .put n true, .put n true]

def callbackSteps (i : ℕ) (e : Exchange) : List Action :=
  [.receive i "code" e.state, .get i none, .get i none, .exchange i (.token e.nonce none),
    .get i none]

def removalSteps (i : ℕ) (ok : Bool) : List Action := [.remove i ok, .remove i ok, .remove i ok]

def oneLogin : List Action :=
  loginSteps 0 ++ callbackSteps 0 (counted.exchange 0) ++
    [.remove 0 false, .remove 0 false, .remove 0 true]

theorem undisturbed_oneLogin : (machine counted).AllSteps Undisturbed .start oneLogin := by
  refine ⟨⟨fun _ => id, fun _ _ => id, fun _ => rfl⟩,
    ⟨fun _ => id, fun m hm => ?_, fun _ => rfl⟩, ⟨fun _ => id, fun m hm => ?_, fun _ => rfl⟩,
    trivial, fun _ _ => ⟨fun j hj => ?_, fun m => ?_⟩, fun _ => nofun, trivial, fun _ => nofun,
    nofun, nofun, fun _ _ _ _ => rfl, trivial⟩
  · cases m with
    | zero => exact absurd rfl hm
    | succ m => exact id
  · cases m with
    | zero => exact absurd rfl hm
    | succ m => exact id
  · cases j with
    | zero => exact absurd rfl hj
    | succ j => exact id
  · cases m with
    | zero => exact id
    | succ m => exact id

theorem one_login_secure :
    Secure counted ((machine counted).run .start oneLogin) ∧
      ((machine counted).run .start oneLogin).callbacks 0 =
        .succeeded (counted.exchange 0) (some 0) :=
  ⟨callbacks_secure_when_undisturbed counted oneLogin undisturbed_oneLogin oneLogin
    List.prefix_rfl, by decide⟩

/--
A state succeeds twice if its entries could not be removed, and also if two callbacks read them
before one of them removes them.
-/
theorem state_succeeds_twice :
    (∀ i < 2, ((machine counted).run .start (loginSteps 0 ++
        callbackSteps 0 (counted.exchange 0) ++ removalSteps 0 false ++
        callbackSteps 1 (counted.exchange 0) ++ removalSteps 1 true)).callbacks i =
      .succeeded (counted.exchange 0) (some 0)) ∧
    (∀ i < 2, ((machine counted).run .start (loginSteps 0 ++
        callbackSteps 0 (counted.exchange 0) ++ callbackSteps 1 (counted.exchange 0) ++
        removalSteps 0 true ++ removalSteps 1 true)).callbacks i =
      .succeeded (counted.exchange 0) (some 0)) := by
  decide

end Photon.Oidc
