import Photon.Lib.Machine

/-!
`AuthCodeURL` and `HandleCallback` of `core/auth/oidc/client.go` on one session. A login puts its
state, nonce and verifier into the session, a callback reads them at different points and removes
them at the end. Calls run beside each other; an operation of the session and the exchange with the
provider are one step each, and each of them can fail.
-/

namespace Photon.Oidc

open Photon.Lib

inductive SessionKey where
  | state
  | nonce
  | verifier
deriving DecidableEq

/-- An entry that is missing reads as the empty string. -/
abbrev Session := SessionKey → String

/-- What `generateVerifier` returns to the logins: texts of 32 random bytes, none of them twice. -/
structure Generated where
  value : ℕ → SessionKey → String
  nonempty : ∀ n key, value n key ≠ ""
  unique : ∀ n m key key', value n key = value m key' → n = m ∧ key = key'

/-! ### Logins -/

/-- How far a call of `AuthCodeURL` has come. -/
inductive Login where
  | fresh
  | statePut
  | noncePut
  | complete
  | failed
deriving DecidableEq

/-- The entry of the next `Put`, and where the call is behind it. -/
def Login.next : Login → Option (SessionKey × Login)
  | fresh => some (.state, statePut)
  | statePut => some (.nonce, noncePut)
  | noncePut => some (.verifier, complete)
  | _ => none

/-! ### Callbacks -/

inductive CallbackError where
  | missingCode
  | missingState
  | invalidState
  | missingVerifier
  | missingIDToken
  | missingNonce
  /-- An error of the session or of the provider. -/
  | other (text : String)
deriving DecidableEq

/-- The state of the request, the verifier of the exchange and the nonce of the ID token. -/
structure Exchange where
  state : String
  verifier : String
  nonce : String
deriving DecidableEq

/-- What the provider makes of a code. Any code can be accepted. -/
inductive ProviderAnswer where
  | refused (e : String)
  | noIDToken
  | unverified (e : String)
  /-- A verified ID token, with the error of reading its claims if there is one. -/
  | token (nonce : String) (claims : Option String)

/-- How far a call of `HandleCallback` has come. A success keeps the login that was the latest. -/
inductive Callback where
  | idle
  | received (state : String)
  | stateChecked (state : String)
  | verifierRead (state verifier : String)
  | exchanged (e : Exchange) (claims : Option String)
  | nonceChecked (e : Exchange)
  | stateRemoved (e : Exchange)
  | nonceRemoved (e : Exchange)
  | succeeded (e : Exchange) (latest : Option ℕ)
  | failed (e : CallbackError)
deriving DecidableEq

def receive (code state : String) : Callback :=
  if code = "" then .failed .missingCode else .received state

/-- What follows a `GetString`, by the error or the value that it returns. -/
def checkState (state : String) : Except String String → Callback
  | .error e => .failed (.other e)
  | .ok expectedState =>
    if expectedState = "" then .failed .missingState
    else if state ≠ expectedState then .failed .invalidState
    else .stateChecked state

def readVerifier (state : String) : Except String String → Callback
  | .error e => .failed (.other e)
  | .ok verifier => if verifier = "" then .failed .missingVerifier else .verifierRead state verifier

def exchange (state verifier : String) : ProviderAnswer → Callback
  | .refused e => .failed (.other e)
  | .noIDToken => .failed .missingIDToken
  | .unverified e => .failed (.other e)
  | .token nonce claims => .exchanged ⟨state, verifier, nonce⟩ claims

def checkNonce (e : Exchange) (claims : Option String) : Except String String → Callback
  | .error err => .failed (.other err)
  | .ok nonce =>
    if nonce = "" then .failed .missingNonce
    else if e.nonce ≠ nonce then .failed .invalidState
    else
      match claims with
      | some err => .failed (.other err)
      | none => .nonceChecked e

/-! ### The session with its calls -/

/-- `latest` is the login that was the last to put its state. -/
structure System where
  session : Session
  logins : ℕ → Login
  callbacks : ℕ → Callback
  latest : Option ℕ

inductive Action where
  | put (login : ℕ) (ok : Bool)
  | receive (callback : ℕ) (code state : String)
  | get (callback : ℕ) (err : Option String)
  | exchange (callback : ℕ) (answer : ProviderAnswer)
  | remove (callback : ℕ) (ok : Bool)

namespace System

def start : System := ⟨fun _ => "", fun _ => .fresh, fun _ => .idle, none⟩

def setCallback (s : System) (i : ℕ) (c : Callback) : System :=
  { s with callbacks := Function.update s.callbacks i c }

/-- A `Put` that fails ends the call. -/
def put (values : Generated) (s : System) (n : ℕ) (ok : Bool) : System :=
  match (s.logins n).next with
  | none => s
  | some (key, login) =>
    if ok then
      { s with
        session := Function.update s.session key (values.value n key)
        logins := Function.update s.logins n login
        latest := if key = .state then some n else s.latest }
    else { s with logins := Function.update s.logins n .failed }

def getString (s : System) (key : SessionKey) (err : Option String) : Except String String :=
  match err with
  | some e => .error e
  | none => .ok (s.session key)

def get (s : System) (i : ℕ) (err : Option String) : System :=
  match s.callbacks i with
  | .received state => s.setCallback i (checkState state (s.getString .state err))
  | .stateChecked state => s.setCallback i (readVerifier state (s.getString .verifier err))
  | .exchanged e claims => s.setCallback i (checkNonce e claims (s.getString .nonce err))
  | _ => s

/-- `Remove`, which leaves the entry if it fails; the callback goes on. -/
def removed (s : System) (key : SessionKey) (ok : Bool) : Session :=
  if ok then Function.update s.session key "" else s.session

def remove (s : System) (i : ℕ) (ok : Bool) : System :=
  match s.callbacks i with
  | .nonceChecked e => { s with session := s.removed .state ok }.setCallback i (.stateRemoved e)
  | .stateRemoved e => { s with session := s.removed .nonce ok }.setCallback i (.nonceRemoved e)
  | .nonceRemoved e =>
    { s with session := s.removed .verifier ok }.setCallback i (.succeeded e s.latest)
  | _ => s

end System

def machine (values : Generated) : Machine System Action Unit where
  step s
    | .put n ok => (s.put values n ok, ())
    | .receive i code state =>
      match s.callbacks i with
      | .idle => (s.setCallback i (receive code state), ())
      | _ => (s, ())
    | .get i err => (s.get i err, ())
    | .exchange i answer =>
      match s.callbacks i with
      | .verifierRead state verifier => (s.setCallback i (exchange state verifier answer), ())
      | _ => (s, ())
    | .remove i ok => (s.remove i ok, ())

end Photon.Oidc
