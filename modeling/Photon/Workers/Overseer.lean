import Mathlib.Data.List.AList
import Photon.Lib.Machine

/-!
The worker overseer of `workers/`: the overseer goroutine with its launch loop,
monitor and recovery, the goroutines that wait for a restart delay, and the
worker goroutines. A goroutine is the list of what it still has to do, cut where
another goroutine can step in or where user code runs, so a panic of a hook
leaves exactly the rest of that list undone. A panic outside the overseer
goroutine ends the process, so no run goes on after one.
-/

namespace Photon.Workers

open Photon.Lib

abbrev Time := Nat

/-- `hasFactory` says that the field `New` is set. -/
structure WorkerConfig where
  name : String
  hasFactory : Bool
  maxCount : Int
  isEnabled : Bool

def WorkerConfig.validate (cfg : WorkerConfig) : Except String Unit :=
  if cfg.name = "" then .error "worker name is required"
  else if cfg.maxCount ≤ 0 then
    .error ("worker " ++ cfg.name ++ " has invalid MaxCount=" ++ toString cfg.maxCount)
  else if !cfg.hasFactory then .error ("worker " ++ cfg.name ++ " has no New factory")
  else .ok ()

/-- The package variables that the options set, durations in nanoseconds. An option
is taken only when it is positive. -/
structure Settings where
  workerRestartLimit : Nat
  workerRestartWindow : Nat
  workerRestartBackoff : Nat
  workerRestartBackoffM : Nat
  workerHeartbeatLimit : Nat
  overseerSleepTimeout : Nat

def defaultSettings : Settings where
  workerRestartLimit := 10
  workerRestartWindow := 60000000000
  workerRestartBackoff := 500000000
  workerRestartBackoffM := 30000000000
  workerHeartbeatLimit := 30000000000
  overseerSleepTimeout := 1000000000

def restartLimit : Nat := 5
def restartWindow : Nat := 60000000000
def workerFailureSignalTTL : Nat := 120000000000

inductive Hook where
  | onStart
  | onStop
  | onError
  | onRestart
deriving DecidableEq

/-- A piece of a goroutine's work. Configs are given by their place in
`workerList`, and workers by their id. -/
inductive Task where
  | start (config : Nat)
  | launch (config : Nat)
  | spawn (id : Nat)
  | stop (id : Nat)
  | hook (which : Hook) (id : Option Nat)
  | restart (config : Nat) (cause : Option Nat)
  | arm (config : Nat) (delay : Nat)
  | sleep (due : Time)
deriving DecidableEq

/-- The overseer goroutine. With nothing left to do it waits in the monitor's
`select`. -/
inductive Overseer where
  | running (agenda : List Task)
  | recovering (due : Time)
  | stopped
deriving DecidableEq

structure RunningWorker where
  config : Nat
  lastHeartbeat : Time
deriving DecidableEq

/-- A worker goroutine. A failing one has left `Run` with its runtime alive and is
about to signal. -/
inductive WorkerRun where
  | running
  | failing
deriving DecidableEq

inductive Exit where
  | panic
  | error
  | silent
deriving DecidableEq

/-- `restarts` are the goroutines that wait for a restart delay and launch. -/
structure System where
  clock : Time
  cancelled : Bool
  overseer : Overseer
  restarts : List (List Task)
  workers : Nat → Option WorkerRun
  runtimeCancelled : Nat → Bool
  nextId : Nat
  workerByID : AList (fun _ : Nat => RunningWorker)
  workerConfigByID : AList (fun _ : Nat => Nat)
  workerChan : List Nat
  workerFailureSignalSeen : Nat → Option Time
  workerRestartHistory : String → List Time
  restartTimestamps : List Time

/-- What user code does in a step: whether a hook or a factory panics, whether the
factory returns an error, and the name a worker reports. -/
structure Oracle where
  panics : Bool
  factoryFails : Bool
  workerName : String
deriving DecidableEq

/-- A step of one goroutine. `watchdog` comes with the order in which the map is
ranged over, `resignal` is one more failure signal for a worker. -/
inductive Action where
  | oversee (oracle : Oracle)
  | background (i : Nat) (oracle : Oracle)
  | abandon (i : Nat)
  | receive
  | watchdog (order : List Nat)
  | resume
  | contextDone
  | workerExits (id : Nat) (how : Exit)
  | workerSignals (id : Nat)
  | resignal (id : Nat)
  | beat (id : Nat)
  | tick (nanos : Nat)
  | cancel
deriving DecidableEq

/-- A restart attempt answers with its config, the worker that caused it, the time
it was tracked at and whether it was allowed. -/
inductive Answer where
  | disabled
  | done
  | tracked (config : Nat) (cause : Option Nat) (time : Time) (allowed : Bool)
deriving DecidableEq

variable (settings : Settings) (workerList : List (Option WorkerConfig))

def runnable (config : Nat) : Option WorkerConfig :=
  match workerList[config]? with
  | some (some cfg) =>
    if cfg.isEnabled then
      match cfg.validate with
      | .ok () => some cfg
      | .error _ => none
    else none
  | _ => none

def desiredWorkers (config : Nat) : Nat :=
  match runnable workerList config with
  | some cfg => cfg.maxCount.toNat
  | none => 0

def totalWorkerCount : Nat :=
  max 1 (((List.range workerList.length).map (desiredWorkers workerList)).sum)

def startAllWorkers : List Task :=
  (List.range workerList.length).flatMap fun config =>
    List.replicate (desiredWorkers workerList config) (.start config)

/-- `StartOverseerWithContext` has just started the overseer goroutine. -/
def System.initial : System where
  clock := 0
  cancelled := false
  overseer := .running (startAllWorkers workerList)
  restarts := []
  workers := fun _ => none
  runtimeCancelled := fun _ => false
  nextId := 0
  workerByID := ∅
  workerConfigByID := ∅
  workerChan := []
  workerFailureSignalSeen := fun _ => none
  workerRestartHistory := fun _ => []
  restartTimestamps := []

def computeWorkerRestartBackoff (restartCount : Nat) : Nat :=
  if restartCount ≤ 1 then settings.workerRestartBackoff
  else double (restartCount - 1) settings.workerRestartBackoff
where
  double : Nat → Nat → Nat
    | 0, backoff => backoff
    | rounds + 1, backoff =>
      if settings.workerRestartBackoffM / 2 ≤ backoff then settings.workerRestartBackoffM
      else double rounds (backoff * 2)

def pruneTimestamps (window : Nat) (now : Time) (history : List Time) : List Time :=
  history.filter fun ts => decide (now - ts ≤ window)

/-- The history with one more attempt, its delay, and whether it is allowed. -/
def trackWorkerRestart (now : Time) (history : List Time) : List Time × Nat × Bool :=
  let pruned := pruneTimestamps settings.workerRestartWindow now history ++ [now]
  if settings.workerRestartLimit < pruned.length then (pruned, 0, false)
  else (pruned, computeWorkerRestartBackoff settings pruned.length, true)

/-- The key of the restart history. A factory error has no worker to ask. -/
def restartName (config : Nat) (cause : Option Nat) (reported : String) : String :=
  let name := match workerList[config]? with
    | some (some cfg) => cfg.name
    | _ => ""
  if cause.isSome ∧ reported ≠ "" then reported else name

def registerRunningWorkerState (config : Nat) (st : System) : System :=
  { st with
    nextId := st.nextId + 1
    workerConfigByID := st.workerConfigByID.insert st.nextId config
    workerByID := st.workerByID.insert st.nextId ⟨config, st.clock⟩ }

variable (st : System)

/-- The config that the removed worker ran, from the second map when the first has
no entry. -/
def unregisteredConfig (id : Nat) : Option Nat :=
  match st.workerByID.lookup id with
  | some worker => some worker.config
  | none => st.workerConfigByID.lookup id

def unregisterRunningWorkerState (id : Nat) (st : System) : System :=
  { st with
    workerConfigByID := st.workerConfigByID.erase id
    workerByID := st.workerByID.erase id }

def staleRunningWorkers (timeout : Nat) (st : System) : List Nat :=
  (st.workerByID.entries.filter fun e => decide (timeout < st.clock - e.2.lastHeartbeat)).map
    Sigma.fst

def shouldEmitWorkerFailureSignal (id : Nat) (st : System) : Bool × System :=
  let seen := fun other =>
    (st.workerFailureSignalSeen other).filter fun ts =>
      decide (st.clock - ts ≤ workerFailureSignalTTL)
  if (seen id).isSome then (false, { st with workerFailureSignalSeen := seen })
  else (true, { st with workerFailureSignalSeen := Function.update seen id (some st.clock) })

def signalWorkerFailure (chanSize : Nat) (id : Nat) (st : System) : System :=
  match shouldEmitWorkerFailureSignal id st with
  | (false, st) => st
  | (true, st) =>
    if st.workerChan.length < chanSize then { st with workerChan := st.workerChan ++ [id] }
    else st

/-- A worker whose runtime is done leaves without a signal, whichever way it
leaves. -/
def runWorkerSafely (runtimeErr : Bool) : Exit → Option WorkerRun
  | .panic => if runtimeErr then none else some .failing
  | .error => if runtimeErr then none else some .failing
  | .silent => if runtimeErr then none else some .failing

/-- How a piece of work ends: with more work to do first, with the return of the
whole goroutine body, or with a panic. -/
inductive Outcome where
  | next (st : System) (tasks : List Task) (answer : Answer)
  | returns
  | blocked
  | panics

def Task.callsUser : Task → Bool
  | .launch _ => true
  | .hook _ _ => true
  | _ => false

/-- The first half of `scheduleWorkerRestart`, up to the `OnRestart` hook. -/
def scheduleWorkerRestart (reported : String) (config : Nat) (cause : Option Nat) (st : System) :
    Outcome :=
  let name := restartName workerList config cause reported
  if st.cancelled then .next st [] .done
  else
    match trackWorkerRestart settings st.clock (st.workerRestartHistory name) with
    | (history, delay, allowed) =>
      let st' := { st with
        workerRestartHistory := Function.update st.workerRestartHistory name history }
      .next st' (if allowed then [.hook .onRestart cause, .arm config delay] else [])
        (.tracked config cause st.clock allowed)

/-- Run one piece of work. The worker goroutine starts after the `OnStart` hook, and
the goroutine of a restart only after the `OnRestart` hook. -/
def execute (oracle : Oracle) (st : System) (task : Task) : Outcome :=
  if oracle.panics && task.callsUser then .panics
  else
    match task with
    | .start config => if st.cancelled then .returns else .next st [.launch config] .done
    | .launch config =>
      if oracle.factoryFails then .next st [.restart config none] .done
      else
        .next (registerRunningWorkerState config st)
          [.hook .onStart (some st.nextId), .spawn st.nextId] .done
    | .spawn id =>
      .next { st with workers := Function.update st.workers id (some .running) } [] .done
    | .stop id =>
      .next { st with runtimeCancelled := Function.update st.runtimeCancelled id true } [] .done
    | .hook _ _ => .next st [] .done
    | .restart config cause =>
      scheduleWorkerRestart settings workerList oracle.workerName config cause st
    | .arm config delay =>
      .next { st with restarts := st.restarts ++ [[.sleep (st.clock + delay), .launch config]] }
        [] .done
    | .sleep due => if due ≤ st.clock then .next st [] .done else .blocked

/-- The deferred function of `executeOverseerWithContext`. -/
def recoverOverseer : System :=
  let stamps := pruneTimestamps restartWindow st.clock st.restartTimestamps ++ [st.clock]
  { st with
    restartTimestamps := stamps
    overseer :=
      if restartLimit < stamps.length then .stopped
      else .recovering (st.clock + settings.overseerSleepTimeout) }

def oversee (oracle : Oracle) (st : System) : System × Answer :=
  match st.overseer with
  | .running (task :: rest) =>
    match execute settings workerList oracle st task with
    | .next st' tasks answer => ({ st' with overseer := .running (tasks ++ rest) }, answer)
    | .returns => ({ st with overseer := .running [] }, .done)
    | .blocked => (st, .disabled)
    | .panics => (recoverOverseer settings st, .done)
  | _ => (st, .disabled)

def background (i : Nat) (oracle : Oracle) (st : System) : System × Answer :=
  match st.restarts[i]? with
  | some (task :: rest) =>
    match execute settings workerList oracle st task with
    | .next st' tasks answer =>
      ({ st' with restarts := st'.restarts.set i (tasks ++ rest) }, answer)
    | .returns => ({ st with restarts := st.restarts.set i [] }, .done)
    | .blocked => (st, .disabled)
    | .panics => (st, .disabled)
  | _ => (st, .disabled)

/-- The case of `monitorWorkersWithContext` that reads a failure signal. -/
def receive : System × Answer :=
  match st.overseer, st.workerChan with
  | .running [], id :: rest =>
    let stop := match st.workerByID.lookup id with
      | some _ => [Task.stop id]
      | none => []
    let restart := match unregisteredConfig st id with
      | some config => [Task.restart config (some id)]
      | none => []
    ({ unregisterRunningWorkerState id st with
        workerChan := rest
        overseer := .running (stop ++ .hook .onStop (some id) :: restart) }, .done)
  | _, _ => (st, .disabled)

def heartbeatTasks (id : Nat) : List Task :=
  match st.workerByID.lookup id with
  | some worker =>
    [.stop id, .hook .onError (some id), .hook .onStop (some id),
      .restart worker.config (some id)]
  | none => []

def checkWorkerHeartbeats (order : List Nat) (st : System) : System × Answer :=
  match st.overseer with
  | .running [] =>
    if settings.workerHeartbeatLimit = 0 then (st, .done)
    else if order.isPerm (staleRunningWorkers settings.workerHeartbeatLimit st) then
      ({ order.foldl (fun st id => unregisterRunningWorkerState id st) st with
          overseer := .running (order.flatMap (heartbeatTasks st)) }, .done)
    else (st, .disabled)
  | _ => (st, .disabled)

/-- The overseer starts again after its pause, with a new channel and without the
launch loop. -/
def resume : System × Answer :=
  match st.overseer with
  | .recovering due =>
    if due ≤ st.clock then ({ st with workerChan := [], overseer := .running [] }, .done)
    else (st, .disabled)
  | _ => (st, .disabled)

def contextDone : System × Answer :=
  match st.cancelled, st.overseer with
  | true, .running [] => ({ st with overseer := .stopped }, .done)
  | true, .recovering _ => ({ st with overseer := .stopped }, .done)
  | _, _ => (st, .disabled)

def abandon (i : Nat) (st : System) : System × Answer :=
  match st.cancelled, st.restarts[i]? with
  | true, some (.sleep _ :: _) => ({ st with restarts := st.restarts.set i [] }, .done)
  | _, _ => (st, .disabled)

def workerExits (id : Nat) (how : Exit) (st : System) : System × Answer :=
  match st.workers id with
  | some .running =>
    let run := runWorkerSafely (st.cancelled || st.runtimeCancelled id) how
    ({ st with workers := Function.update st.workers id run }, .done)
  | _ => (st, .disabled)

def workerSignals (chanSize : Nat) (id : Nat) (st : System) : System × Answer :=
  match st.workers id with
  | some .failing =>
    (signalWorkerFailure chanSize id { st with workers := Function.update st.workers id none },
      .done)
  | _ => (st, .disabled)

def beat (id : Nat) (st : System) : System × Answer :=
  match st.workerByID.lookup id with
  | some worker =>
    ({ st with workerByID := st.workerByID.insert id { worker with lastHeartbeat := st.clock } },
      .done)
  | none => (st, .done)

def overseerStep :
    Action → System × Answer
  | .oversee oracle => oversee settings workerList oracle st
  | .background i oracle => background settings workerList i oracle st
  | .abandon i => abandon i st
  | .receive => receive st
  | .watchdog order => checkWorkerHeartbeats settings order st
  | .resume => resume st
  | .contextDone => contextDone st
  | .workerExits id how => workerExits id how st
  | .workerSignals id => workerSignals (totalWorkerCount workerList) id st
  | .resignal id => (signalWorkerFailure (totalWorkerCount workerList) id st, .done)
  | .beat id => beat id st
  | .tick nanos => ({ st with clock := st.clock + nanos }, .done)
  | .cancel => ({ st with cancelled := true }, .done)

/-- The whole package at work, as the interleaving of its goroutines. -/
def overseerMachine : Machine System Action Answer :=
  ⟨overseerStep settings workerList⟩

/-- The system after the actions. -/
abbrev reached (actions : List Action) : System :=
  (overseerMachine settings workerList).run (System.initial workerList) actions

abbrev events (actions : List Action) : List (Action × Answer) :=
  (overseerMachine settings workerList).trace (System.initial workerList) actions

end Photon.Workers
