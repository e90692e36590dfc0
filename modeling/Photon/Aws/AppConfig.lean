import Photon.Lib.Contexts
import Photon.Lib.Machine

/-!
The watchers of AppConfig. `WatchConfig` registers a cancel function under the ID of the
configuration and starts a loop of its own; the loop polls, and restarts after an error or a panic
of the callback. The calls and the sections under the lock are the steps, and so are the turns of
the loops between their waits.

The answers of the service are given with the steps. The hooks of the tests are left out, and with
them the recovery around the whole loop; so are the log lines.
-/

namespace Photon.Aws

open Photon.Lib

structure WatchConfigInput where
  uniqueConfigID : String
  configProfile : String
  pollInterval : Int

structure FetchConfigResult where
  configProfile : String
  configID : String
  content : List UInt8
  contentType : String

inductive Stage where
  /-- Before the check of the context. -/
  | starting
  /-- In `watchConfigOnce`, before the next tick. -/
  | polling
  /-- In the callback. -/
  | calling
  /-- In the delay before a restart. -/
  | waiting
  | ended
deriving DecidableEq

/-- A loop with the error of its context, which ends with the context `parent` at the latest.
`token` is the next token to poll with. -/
structure WatchLoop where
  input : WatchConfigInput
  hasCallback : Bool
  parent : ℕ
  err : Option ContextErr
  token : Option String
  stage : Stage

/-- A cancel function is known by the position of its loop. -/
structure AppConfig where
  watchers : List (String × ℕ)
  watchedConfigs : String → Option FetchConfigResult
  lastHashes : String → Option String

/-- The service with the loops it has started, in their order, and the contexts of its callers. -/
structure System where
  app : AppConfig
  parents : ℕ → Option ContextErr
  loops : List WatchLoop

def System.start : System := ⟨⟨[], fun _ => none, fun _ => none⟩, fun _ => none, []⟩

def WatchLoop.cancel (e : ContextErr) (loop : WatchLoop) : WatchLoop :=
  { loop with err := loop.err.or (some e) }

/-! ### The calls -/

def alreadyExists (input : WatchConfigInput) : String :=
  "watcher for config " ++ input.configProfile ++ "[" ++ input.uniqueConfigID ++ "] already exists"

variable (s : System)

/-- The session is the answer of `StartConfigurationSession`: an error, or a token, which may be
missing. A failed call takes its entry back before it unlocks. -/
def System.watchConfig (parent : ℕ) (input : WatchConfigInput) (hasCallback : Bool)
    (session : Except String (Option String)) : System × Except String Unit :=
  if (s.app.watchers.lookup input.uniqueConfigID).isSome then (s, .error (alreadyExists input))
  else
    match session with
    | .error e => (s, .error
        ("failed to start configuration session for " ++ input.uniqueConfigID ++ ": " ++ e))
    | .ok none => (s, .error
        ("received nil InitialConfigurationToken for " ++ input.uniqueConfigID))
    | .ok (some token) =>
      ({ s with
          app := { s.app with
            watchers := (input.uniqueConfigID, s.loops.length) :: s.app.watchers }
          loops := s.loops ++
            [⟨input, hasCallback, parent, s.parents parent, some token, .starting⟩] },
        .ok ())

def System.stopWatching (configID : String) : System × Except String Unit :=
  match s.app.watchers.lookup configID with
  | some i =>
    ({ s with
        app := { s.app with watchers := s.app.watchers.filter (·.1 ≠ configID) }
        loops := s.loops.modify i (WatchLoop.cancel .canceled) }, .ok ())
  | none => (s, .error ("no watcher found for config " ++ configID))

def cancelAll (entries : List (String × ℕ)) (loops : List WatchLoop) : List WatchLoop :=
  entries.foldl (fun loops entry => loops.modify entry.2 (WatchLoop.cancel .canceled)) loops

def System.stopAllWatching : System :=
  { s with
    app := { s.app with watchers := [], watchedConfigs := fun _ => none }
    loops := cancelAll s.app.watchers s.loops }

def AppConfig.getCurrentConfiguration (app : AppConfig) (uniqueConfigId : String) :
    Except String FetchConfigResult :=
  match app.watchedConfigs uniqueConfigId with
  | none => .error ("no configuration found for " ++ uniqueConfigId)
  | some configResult => .ok configResult

def System.endParent (parent : ℕ) (e : ContextErr) : System :=
  { s with
    parents := Function.update s.parents parent ((s.parents parent).or (some e))
    loops := s.loops.map fun loop => if loop.parent = parent then loop.cancel e else loop }

/-! ### The loops -/

/-- The answer of `GetLatestConfiguration`: an error, which may be a cancellation, or the
configuration with its type and the next token. -/
inductive Latest where
  | failed (canceled : Bool)
  | response (configuration : List UInt8) (contentType : Option String) (next : Option String)

inductive Turn where
  | enter
  | tick (latest : Latest)
  | callback (panics : Bool)
  | done
  | elapsed

inductive Answer where
  | call (answer : Except String Unit)
  | polled (id : String) (content : List UInt8)
  | nothing

variable (digest : List UInt8 → String)

/-- The section of a poll under the lock, and whether the callback is due. `digest` is the
hexadecimal text of the SHA-256 sum. -/
def AppConfig.update (app : AppConfig) (input : WatchConfigInput) (configuration : List UInt8)
    (contentType : Option String) : AppConfig × Bool :=
  if app.lastHashes input.uniqueConfigID = some (digest configuration) then (app, false)
  else
    ({ app with
        lastHashes :=
          Function.update app.lastHashes input.uniqueConfigID (some (digest configuration))
        watchedConfigs := Function.update app.watchedConfigs input.uniqueConfigID
          (some ⟨input.configProfile, input.uniqueConfigID, configuration,
            contentType.getD ""⟩) }, true)

def WatchLoop.poll (app : AppConfig) (loop : WatchLoop) :
    Latest → AppConfig × WatchLoop × Answer
  | .failed canceled =>
    (app, { loop with stage := if canceled then .ended else .waiting }, .nothing)
  | .response configuration contentType next =>
    if configuration = [] then (app, { loop with token := next }, .nothing)
    else
      let (app, due) := app.update digest loop.input configuration contentType
      (app,
        { loop with
          token := next
          stage := if due && loop.hasCallback then .calling else .polling },
        .polled loop.input.uniqueConfigID configuration)

/-- A turn happens only in its place. An interval that is not positive makes the ticker panic
before the token is kept. That the context is `done` is noticed by the waits only. -/
def WatchLoop.turn (app : AppConfig) (loop : WatchLoop) :
    Turn → AppConfig × WatchLoop × Answer
  | .enter =>
    match loop.stage with
    | .starting =>
      if loop.err.isSome then (app, { loop with stage := .ended }, .nothing)
      else if loop.input.pollInterval ≤ 0 then
        (app, { loop with stage := .waiting, token := none }, .nothing)
      else (app, { loop with stage := .polling }, .nothing)
    | _ => (app, loop, .nothing)
  | .tick latest =>
    match loop.stage with
    | .polling => loop.poll digest app latest
    | _ => (app, loop, .nothing)
  | .callback panics =>
    match loop.stage with
    | .calling => (app, { loop with stage := if panics then .waiting else .polling }, .nothing)
    | _ => (app, loop, .nothing)
  | .done =>
    match loop.err with
    | none => (app, loop, .nothing)
    | some e =>
      match loop.stage with
      | .polling =>
        (app, { loop with stage := if e = .canceled then .ended else .waiting }, .nothing)
      | .waiting => (app, { loop with stage := .ended }, .nothing)
      | _ => (app, loop, .nothing)
  | .elapsed =>
    match loop.stage with
    | .waiting => (app, { loop with stage := .starting }, .nothing)
    | _ => (app, loop, .nothing)

def WatchLoop.GivesUp (loop : WatchLoop) : Turn → Prop
  | .tick (.failed true) => loop.stage = .polling
  | _ => False

/-- A turn that is no poll of a configuration. Under a context that has not ended, a loop ends
only if it gives up. -/
def WatchLoop.Moves (app : AppConfig) (loop : WatchLoop) (t : Turn)
    (result : AppConfig × WatchLoop × Answer) : Prop :=
  ∃ stage token, result = (app, { loop with stage := stage, token := token }, .nothing) ∧
    (loop.err = none → (stage = .ended ↔ loop.stage = .ended ∨ loop.GivesUp t))

section Turns

variable (digest : List UInt8 → String) (app : AppConfig) (loop : WatchLoop)

variable {loop} in
theorem WatchLoop.GivesUp.stage_eq {t : Turn} (h : loop.GivesUp t) : loop.stage = .polling := by
  rw [GivesUp.eq_def] at h
  split at h
  · exact h
  · exact h.elim

theorem WatchLoop.moves_of_eq {t : Turn} (h : ¬loop.GivesUp t) :
    loop.Moves app t (app, loop, .nothing) :=
  ⟨loop.stage, loop.token, rfl, fun _ => by simp [h]⟩

/-- What a turn can do. -/
theorem WatchLoop.turn_cases (t : Turn) :
    loop.Moves app t (loop.turn digest app t) ∨
      ∃ configuration contentType next, loop.stage = .polling ∧ configuration ≠ [] ∧
        t = .tick (.response configuration contentType next) ∧
        loop.turn digest app t =
          ((app.update digest loop.input configuration contentType).1,
            { loop with
              token := next
              stage := if (app.update digest loop.input configuration contentType).2 &&
                loop.hasCallback then .calling else .polling },
            .polled loop.input.uniqueConfigID configuration) := by
  cases t with
  | enter =>
    refine Or.inl ?_
    rw [turn]
    cases hstage : loop.stage with
    | starting =>
      split_ifs with herr hinterval
      · exact ⟨.ended, loop.token, rfl, fun hnone => by simp [hnone] at herr⟩
      · exact ⟨.waiting, none, rfl, fun _ => by simp [hstage, GivesUp]⟩
      · exact ⟨.polling, loop.token, rfl, fun _ => by simp [hstage, GivesUp]⟩
    | _ => exact loop.moves_of_eq app nofun
  | tick latest =>
    rw [turn]
    cases hstage : loop.stage with
    | polling =>
      cases latest with
      | failed canceled =>
        refine Or.inl ⟨_, loop.token, rfl, fun _ => ?_⟩
        cases canceled <;> simp [hstage, GivesUp]
      | response configuration contentType next =>
        rw [poll]
        split_ifs with hempty
        · exact Or.inl ⟨loop.stage, next, rfl, fun _ => by simp [hstage, GivesUp]⟩
        · exact Or.inr ⟨configuration, contentType, next, rfl, hempty, rfl, rfl⟩
    | _ =>
      refine Or.inl (loop.moves_of_eq app fun hgives => ?_)
      exact absurd (hstage.symm.trans hgives.stage_eq) nofun
  | callback panics =>
    refine Or.inl ?_
    rw [turn]
    cases hstage : loop.stage with
    | calling =>
      refine ⟨_, loop.token, rfl, fun _ => ?_⟩
      cases panics <;> simp [hstage, GivesUp]
    | _ => exact loop.moves_of_eq app nofun
  | done =>
    refine Or.inl ?_
    rw [turn]
    cases herr : loop.err with
    | none => exact loop.moves_of_eq app nofun
    | some e =>
      cases hstage : loop.stage with
      | polling =>
        exact ⟨if e = .canceled then .ended else .waiting, loop.token, by rw [herr],
          fun hnone => by simp [herr] at hnone⟩
      | waiting =>
        exact ⟨.ended, loop.token, by rw [herr], fun hnone => by simp [herr] at hnone⟩
      | _ => exact loop.moves_of_eq app nofun
  | elapsed =>
    refine Or.inl ?_
    rw [turn]
    cases hstage : loop.stage with
    | waiting => exact ⟨.starting, loop.token, rfl, fun _ => by simp [hstage, GivesUp]⟩
    | _ => exact loop.moves_of_eq app nofun

end Turns

/-! ### The machine -/

inductive Action where
  | watchConfig (parent : ℕ) (input : WatchConfigInput) (hasCallback : Bool)
      (session : Except String (Option String))
  | stopWatching (configID : String)
  | stopAllWatching
  | endParent (parent : ℕ) (e : ContextErr)
  | turn (i : ℕ) (turn : Turn)

def System.step (digest : List UInt8 → String) (s : System) : Action → System × Answer
  | .watchConfig parent input hasCallback session =>
    let (s, answer) := s.watchConfig parent input hasCallback session
    (s, .call answer)
  | .stopWatching configID =>
    let (s, answer) := s.stopWatching configID
    (s, .call answer)
  | .stopAllWatching => (s.stopAllWatching, .nothing)
  | .endParent parent e => (s.endParent parent e, .nothing)
  | .turn i turn =>
    match s.loops[i]? with
    | none => (s, .nothing)
    | some loop =>
      let (app, loop, answer) := loop.turn digest s.app turn
      ({ s with app := app, loops := s.loops.set i loop }, answer)

def watching (digest : List UInt8 → String) : Machine System Action Answer := ⟨System.step digest⟩

def polledInput : WatchConfigInput := ⟨"main", "profile", 1⟩

end Photon.Aws
