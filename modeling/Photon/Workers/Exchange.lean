import Mathlib.Data.Multiset.Filter
import Mathlib.Data.Multiset.MapFold
import Photon.Lib.AssocTotal
import Photon.Workers.Overseer

/-!
Every worker that a config asks for is at any time in one of three forms: a
registered worker, a failure whose restart is being decided, or a launch that is
still to come. The system holds a multiset of such slots, and a step exchanges a
few of them. All results about whole runs are read off the exchanges.
-/

namespace Photon.Workers

open Photon.Lib

inductive Slot where
  | worker (id : Nat) (config : Nat)
  | restart (config : Nat) (cause : Option Nat)
  | pending (config : Nat)
deriving DecidableEq

def Slot.config : Slot → Nat
  | .worker _ config => config
  | .restart config _ => config
  | .pending config => config

def Slot.owner : Slot → Option Nat
  | .worker id _ => some id
  | .restart _ cause => cause
  | .pending _ => none

def Task.slot : Task → Option Slot
  | .start config => some (.pending config)
  | .launch config => some (.pending config)
  | .arm config _ => some (.pending config)
  | .restart config cause => some (.restart config cause)
  | _ => none

def heldBy (tasks : List Task) : Multiset Slot := (tasks.filterMap Task.slot : List Slot)

def Overseer.agenda : Overseer → List Task
  | .running agenda => agenda
  | _ => []

def registeredSlots (m : AList (fun _ : Nat => RunningWorker)) : Multiset Slot :=
  (m.entries.map fun e => Slot.worker e.1 e.2.config : List Slot)

def System.outside (st : System) : Multiset Slot :=
  registeredSlots st.workerByID + (st.restarts.map heldBy).sum

def System.slots (st : System) : Multiset Slot := st.outside + heldBy st.overseer.agenda

@[simp]
theorem heldBy_nil : heldBy [] = 0 := rfl

theorem heldBy_cons (task : Task) (rest : List Task) :
    heldBy (task :: rest) = heldBy [task] + heldBy rest := by
  cases h : task.slot <;> simp [heldBy, h]

theorem heldBy_append (first second : List Task) :
    heldBy (first ++ second) = heldBy first + heldBy second := by
  simp [heldBy]

@[simp]
theorem agenda_running (tasks : List Task) : (Overseer.running tasks).agenda = tasks := rfl

variable {tasks : List Task}

/-- A goroutine at work gives up what it held for what it holds next. -/
theorem sum_heldBy_set {restarts : List (List Task)} {i : Nat} (h : restarts[i]? = some tasks)
    (next : List Task) :
    ((restarts.set i next).map heldBy).sum + heldBy tasks =
      (restarts.map heldBy).sum + heldBy next := by
  induction restarts generalizing i with
  | nil => simp at h
  | cons first others ih =>
    cases i with
    | zero =>
      obtain rfl : first = tasks := by simpa using h
      simp only [List.set_cons_zero, List.map_cons, List.sum_cons]
      abel
    | succ i =>
      have hrest := ih (by simpa using h)
      simp only [List.set_cons_succ, List.map_cons, List.sum_cons]
      rw [add_assoc, hrest, add_assoc]

theorem registeredSlots_erase {m : AList (fun _ : Nat => RunningWorker)} {id : Nat}
    {worker : RunningWorker} (h : m.lookup id = some worker) :
    registeredSlots m = .worker id worker.config ::ₘ registeredSlots (m.erase id) := by
  have hkey : id ∈ m.entries.keys := AList.lookup_isSome.mp (by rw [h]; rfl)
  obtain ⟨found, before, after, hbefore, hentries, herase⟩ := List.exists_of_kerase hkey
  have hfound : found = worker := by
    have hlookup : m.lookup id = some found := by
      rw [AList.lookup, hentries, List.dlookup_append, List.dlookup_eq_none.mpr hbefore]
      simp
    exact Option.some.inj (hlookup.symm.trans h)
  have hentries' : (m.erase id).entries = before ++ after := herase
  rw [registeredSlots, registeredSlots, hentries, hentries', ← hfound, Multiset.cons_coe,
    List.map_append, List.map_append, List.map_cons]
  exact Multiset.coe_eq_coe.mpr List.perm_middle

theorem registeredSlots_insert (m : AList (fun _ : Nat => RunningWorker)) (id : Nat)
    (worker : RunningWorker) :
    registeredSlots (m.insert id worker) =
      .worker id worker.config ::ₘ registeredSlots (m.erase id) := by
  rw [registeredSlots, AList.entries_insert]
  rfl

structure Indexed (st : System) : Prop where
  fresh : ∀ id, (st.workerByID.lookup id).isSome → id < st.nextId
  same : ∀ id, st.workerConfigByID.lookup id = (st.workerByID.lookup id).map RunningWorker.config

variable {next : System}

namespace Indexed

variable {st : System}

theorem initial (workerList : List (Option WorkerConfig)) :
    Indexed (System.initial workerList) :=
  ⟨fun _ h => (by cases h), fun _ => rfl⟩

section

variable (h : Indexed st)
include h

theorem next_free : st.workerByID.lookup st.nextId = none := by
  by_contra hsome
  exact absurd (h.fresh st.nextId (Option.isSome_iff_ne_none.mpr hsome)) (lt_irrefl _)

/-- Only the two maps and the counter matter. -/
theorem of_eq (hid : next.nextId = st.nextId) (hworkers : next.workerByID = st.workerByID)
    (hconfigs : next.workerConfigByID = st.workerConfigByID) : Indexed next :=
  ⟨by rw [hid, hworkers]; exact h.fresh, by rw [hworkers, hconfigs]; exact h.same⟩

theorem register (config : Nat) : Indexed (registerRunningWorkerState config st) := by
  refine ⟨fun id hid => ?_, fun id => ?_⟩
  all_goals by_cases heq : id = st.nextId
  · exact heq ▸ Nat.lt_succ_self _
  · have hold : (st.workerByID.lookup id).isSome := by
      simpa [registerRunningWorkerState, AList.lookup_insert_ne heq] using hid
    exact Nat.lt_succ_of_lt (h.fresh id hold)
  · subst heq
    simp [registerRunningWorkerState]
  · simpa [registerRunningWorkerState, AList.lookup_insert_ne heq] using h.same id

theorem unregister (id : Nat) : Indexed (unregisterRunningWorkerState id st) := by
  refine ⟨fun other hother => ?_, fun other => ?_⟩
  all_goals by_cases heq : other = id
  · subst heq
    simp [unregisterRunningWorkerState] at hother
  · exact h.fresh other
      (by simpa [unregisterRunningWorkerState, AList.lookup_erase_ne heq] using hother)
  · subst heq
    simp [unregisterRunningWorkerState]
  · simpa [unregisterRunningWorkerState, AList.lookup_erase_ne heq] using h.same other

theorem unregister_all (ids : List Nat) :
    Indexed (ids.foldl (fun st id => unregisterRunningWorkerState id st) st) := by
  induction ids generalizing st with
  | nil => exact h
  | cons id rest ih => exact ih (h.unregister id)

theorem beat {id : Nat} {worker : RunningWorker} (hlookup : st.workerByID.lookup id = some worker)
    (time : Time) :
    Indexed { st with
      workerByID := st.workerByID.insert id { worker with lastHeartbeat := time } } := by
  refine ⟨fun other hother => ?_, fun other => ?_⟩
  all_goals by_cases heq : other = id
  · subst heq
    exact h.fresh other (by rw [hlookup]; rfl)
  · exact h.fresh other (by simpa [AList.lookup_insert_ne heq] using hother)
  · subst heq
    simpa [hlookup] using h.same other
  · simpa [AList.lookup_insert_ne heq] using h.same other

/-- The fallback to the second map never finds more than the first. -/
theorem unregisteredConfig_eq (id : Nat) :
    unregisteredConfig st id = (st.workerByID.lookup id).map RunningWorker.config := by
  unfold unregisteredConfig
  cases hlookup : st.workerByID.lookup id with
  | none => simpa [hlookup] using h.same id
  | some worker => rfl

end

end Indexed

/-- The piece of work that an action runs, and what user code does in it. -/
def Action.current (st : System) : Action → Option (Oracle × Task)
  | .oversee oracle =>
    match st.overseer with
    | .running (task :: _) => some (oracle, task)
    | _ => none
  | .background i oracle =>
    match st.restarts[i]? with
    | some (task :: _) => some (oracle, task)
    | _ => none
  | _ => none

/-- User code panics in the overseer goroutine while it has a slot in hand. -/
def panicsHolding (st : System) (a : Action) : Bool :=
  match a, st.overseer with
  | .oversee oracle, .running (task :: rest) =>
    oracle.panics && task.callsUser && !((task :: rest).filterMap Task.slot).isEmpty
  | _, _ => false

section Exchanged

variable (settings : Settings) (workerList : List (Option WorkerConfig)) (st : System) (a : Action)

section

variable (nextId : Nat) (restarted : String → List Time)

inductive Exchange : Answer → Multiset Slot → Multiset Slot → Prop
  | keep {answer : Answer} (slots : Multiset Slot)
      (hanswer : ∀ config cause time allowed, answer ≠ .tracked config cause time allowed)
      (hid : nextId = st.nextId) (hhistory : restarted = st.workerRestartHistory) :
      Exchange answer slots slots
  | launch (config : Nat) (hid : nextId = st.nextId + 1)
      (hhistory : restarted = st.workerRestartHistory) :
      Exchange .done {.pending config} {.worker st.nextId config}
  | factoryError (config : Nat) (hid : nextId = st.nextId)
      (hhistory : restarted = st.workerRestartHistory) :
      Exchange .done {.pending config} {.restart config none}
  | failure (failed : List (Nat × Nat)) (hid : nextId = st.nextId)
      (hhistory : restarted = st.workerRestartHistory) :
      Exchange .done (failed.map fun f => Slot.worker f.1 f.2 : List Slot)
        (failed.map fun f => Slot.restart f.2 (some f.1) : List Slot)
  | tracked (oracle : Oracle) (config : Nat) (cause : Option Nat) (history : List Time)
      (delay : Nat) (allowed : Bool)
      (hcurrent : a.current st = some (oracle, .restart config cause))
      (hlive : st.cancelled = false)
      (htrack : trackWorkerRestart settings st.clock
        (st.workerRestartHistory (restartName workerList config cause oracle.workerName)) =
          (history, delay, allowed))
      (hid : nextId = st.nextId)
      (hhistory : restarted = Function.update st.workerRestartHistory
        (restartName workerList config cause oracle.workerName) history) :
      Exchange (.tracked config cause st.clock allowed)
        {.restart config cause} (if allowed then {.pending config} else 0)
  | lost (slots : Multiset Slot) (hlost : st.cancelled = true ∨ panicsHolding st a = true)
      (hid : nextId = st.nextId) (hhistory : restarted = st.workerRestartHistory) :
      Exchange .done slots 0

end

/-- A piece of work exchanges the slot it holds, where what it leaves to do first counts
as produced. It starts goroutines and keeps the rest of the state in order. -/
structure Executed (task : Task) (next : System) (tasks : List Task) (answer : Answer) :
    Prop where
  exchange : ∃ produced, Exchange settings workerList st a next.nextId next.workerRestartHistory
    answer (heldBy [task]) produced ∧ next.outside + heldBy tasks = st.outside + produced
  restarts : ∃ more, next.restarts = st.restarts ++ more
  indexed : Indexed next
  overseer : next.overseer = st.overseer
  clock : next.clock = st.clock
  cancelled : next.cancelled = st.cancelled
  chan : next.workerChan = st.workerChan

def Outcome.Expected (oracle : Oracle) (task : Task) : Outcome → Prop
  | .next st' tasks answer => Executed settings workerList st a task st' tasks answer
  | .returns => st.cancelled = true
  | .blocked => True
  | .panics => oracle.panics = true ∧ task.callsUser = true

/-- The slots of a state, split at what a step takes, and the slots of the next state
with what it puts there. -/
def Exchanges (result : System × Answer) : Prop :=
  ∃ base consumed produced, st.slots = base + consumed ∧ result.1.slots = base + produced ∧
    Exchange settings workerList st a result.1.nextId result.1.workerRestartHistory result.2
      consumed produced

/-- Steps keep the registry consistent and the clock going. The context is cancelled
only by `cancel`, and the channel loses what was in it only to the reader or when it
is replaced. -/
structure Carries (next : System) : Prop where
  indexed : Indexed next
  clock : st.clock ≤ next.clock
  cancelled : a ≠ .cancel → next.cancelled = st.cancelled
  chan : a ≠ .receive → a ≠ .resume → st.workerChan <+: next.workerChan

def Moves (result : System × Answer) : Prop :=
  Exchanges settings workerList st a result ∧ Carries st a result.1

end Exchanged

section Steps

variable {settings : Settings} {workerList : List (Option WorkerConfig)} {st : System}

theorem outside_register (hst : Indexed st) (config : Nat) :
    (registerRunningWorkerState config st).outside =
      st.outside + {Slot.worker st.nextId config} := by
  unfold System.outside registerRunningWorkerState
  rw [registeredSlots_insert, erase_of_lookup_none _ hst.next_free, ← Multiset.singleton_add]
  abel

variable {a : Action}

/-- Work that hands on the slot it holds, or holds none. -/
theorem Executed.keeps {task : Task} (hheld : heldBy tasks = heldBy [task])
    (hworkers : next.workerByID = st.workerByID) (hrestarts : next.restarts = st.restarts)
    (hid : next.nextId = st.nextId)
    (hhistory : next.workerRestartHistory = st.workerRestartHistory) (hindexed : Indexed next)
    (hoverseer : next.overseer = st.overseer) (hclock : next.clock = st.clock)
    (hcancelled : next.cancelled = st.cancelled) (hchan : next.workerChan = st.workerChan) :
    Executed settings workerList st a task next tasks .done := by
  refine ⟨⟨heldBy [task], .keep _ (by simp) hid hhistory, ?_⟩, ⟨[], by simp [hrestarts]⟩, hindexed,
    hoverseer, hclock, hcancelled, hchan⟩
  rw [System.outside, System.outside, hworkers, hrestarts, hheld]

theorem execute_expected (hst : Indexed st) {oracle : Oracle} {task : Task}
    (hcurrent : a.current st = some (oracle, task)) :
    (execute settings workerList oracle st task).Expected settings workerList st a oracle task := by
  unfold execute
  split
  case isTrue hpanics => exact Bool.and_eq_true_iff.mp hpanics
  cases task with
  | start config =>
    dsimp only
    split
    case isTrue hcancelled => exact hcancelled
    case isFalse => exact Executed.keeps rfl rfl rfl rfl rfl hst rfl rfl rfl rfl
  | launch config =>
    dsimp only
    split
    · exact ⟨⟨{.restart config none}, .factoryError config rfl rfl, rfl⟩, ⟨[], by simp⟩, hst, rfl,
        rfl, rfl, rfl⟩
    · refine ⟨⟨{.worker st.nextId config}, by exact .launch config rfl rfl, ?_⟩, ⟨[], ?_⟩,
        hst.register config, rfl, rfl, rfl, rfl⟩
      · rw [outside_register hst config]
        simp [heldBy, Task.slot]
      · simp [registerRunningWorkerState]
  | spawn | stop => exact Executed.keeps rfl rfl rfl rfl rfl (hst.of_eq rfl rfl rfl) rfl rfl rfl rfl
  | hook which id => exact Executed.keeps rfl rfl rfl rfl rfl hst rfl rfl rfl rfl
  | restart config cause =>
    dsimp [scheduleWorkerRestart]
    split
    case isTrue hcancelled =>
      exact ⟨⟨0, .lost _ (.inl hcancelled) rfl rfl, rfl⟩, ⟨[], by simp⟩, hst, rfl, rfl, rfl, rfl⟩
    case isFalse hlive =>
      rcases htrack : trackWorkerRestart settings st.clock
        (st.workerRestartHistory (restartName workerList config cause oracle.workerName))
        with ⟨history, delay, allowed⟩
      refine ⟨⟨_, .tracked oracle config cause history delay allowed hcurrent (by simpa using hlive)
        htrack rfl rfl, ?_⟩, ⟨[], by simp⟩, hst.of_eq rfl rfl rfl, rfl, rfl, rfl, rfl⟩
      cases allowed <;> rfl
  | arm config delay =>
    refine ⟨⟨{.pending config}, by exact .keep _ (by simp) rfl rfl, ?_⟩, ⟨_, rfl⟩,
      hst.of_eq rfl rfl rfl, rfl, rfl, rfl, rfl⟩
    simp [System.outside, heldBy, Task.slot, add_assoc]
    rfl
  | sleep due =>
    dsimp only
    split
    · exact Executed.keeps rfl rfl rfl rfl rfl hst rfl rfl rfl rfl
    · trivial

theorem Carries.of_indexed (hnext : Indexed next) (hclock : next.clock = st.clock)
    (hcancelled : next.cancelled = st.cancelled) (hchan : next.workerChan = st.workerChan) :
    Carries st a next :=
  ⟨hnext, hclock.ge, fun _ => hcancelled, fun _ _ => hchan ▸ List.prefix_rfl⟩

/-- A step that leaves the slots, the counter and the restart history alone. -/
theorem Carries.moves (hcarries : Carries st a next) (hslots : next.slots = st.slots)
    (hid : next.nextId = st.nextId)
    (hhistory : next.workerRestartHistory = st.workerRestartHistory) :
    Moves settings workerList st a (next, .done) :=
  ⟨⟨st.slots, 0, 0, by simp, by simpa using hslots, .keep 0 (by simp) hid hhistory⟩, hcarries⟩

theorem Indexed.disabled (hst : Indexed st) (a : Action) :
    Moves settings workerList st a (st, .disabled) :=
  ⟨⟨st.slots, 0, 0, by simp, by simp, .keep 0 (by simp) rfl rfl⟩, .of_indexed hst rfl rfl rfl⟩

theorem Executed.carries {task : Task} {next after : System} {answer : Answer}
    (h : Executed settings workerList st a task next tasks answer)
    (hid : after.nextId = next.nextId) (hworkers : after.workerByID = next.workerByID)
    (hconfigs : after.workerConfigByID = next.workerConfigByID)
    (hclock : after.clock = next.clock) (hcancelled : after.cancelled = next.cancelled)
    (hchan : after.workerChan = next.workerChan) : Carries st a after :=
  .of_indexed (h.indexed.of_eq hid hworkers hconfigs) (hclock.trans h.clock)
    (hcancelled.trans h.cancelled) (hchan.trans h.chan)

theorem recoverOverseer_agenda (settings : Settings) (st : System) :
    (recoverOverseer settings st).overseer.agenda = [] := by
  unfold recoverOverseer
  dsimp only
  split <;> rfl

theorem oversee_moves (hst : Indexed st) (oracle : Oracle) :
    Moves settings workerList st (.oversee oracle) (oversee settings workerList oracle st) := by
  unfold oversee
  split
  case h_2 => exact hst.disabled _
  case h_1 task rest hoverseer =>
    have hexpected : Outcome.Expected settings workerList st (.oversee oracle) oracle task
        (execute settings workerList oracle st task) :=
      execute_expected hst (by simp [Action.current, hoverseer])
    have hslots : st.slots = st.outside + heldBy rest + heldBy [task] := by
      rw [System.slots, hoverseer, agenda_running, heldBy_cons]
      abel
    have hlost : ∀ next : System, st.cancelled = true ∨ panicsHolding st (.oversee oracle) = true →
        next.outside = st.outside → next.overseer.agenda = [] → next.nextId = st.nextId →
        next.workerRestartHistory = st.workerRestartHistory → Carries st (.oversee oracle) next →
        Moves settings workerList st (.oversee oracle) (next, .done) := by
      intro next hlost houtside hagenda hid hhistory hcarries
      refine ⟨⟨st.outside, heldBy (task :: rest), 0, ?_, ?_, .lost _ hlost hid hhistory⟩, hcarries⟩
      · rw [hslots, heldBy_cons task rest]
        abel
      · rw [System.slots, houtside, hagenda, heldBy_nil]
    cases hexecute : execute settings workerList oracle st task with
    | next next tasks answer =>
      rw [hexecute] at hexpected
      obtain ⟨produced, hexchange, houtside⟩ := hexpected.exchange
      refine ⟨⟨st.outside + heldBy rest, heldBy [task], produced, hslots, ?_, hexchange⟩,
        hexpected.carries rfl rfl rfl rfl rfl rfl⟩
      calc next.outside + heldBy (tasks ++ rest)
          = (next.outside + heldBy tasks) + heldBy rest := by rw [heldBy_append]; abel
        _ = st.outside + heldBy rest + produced := by rw [houtside]; abel
    | returns =>
      rw [hexecute] at hexpected
      exact hlost _ (.inl hexpected) rfl rfl rfl rfl
        (.of_indexed (hst.of_eq rfl rfl rfl) rfl rfl rfl)
    | blocked => exact hst.disabled _
    | panics =>
      -- without a slot in hand the panic costs nothing
      by_cases hheld : (task :: rest).filterMap Task.slot = []
      · refine Carries.moves (.of_indexed (hst.of_eq rfl rfl rfl) rfl rfl rfl) ?_ rfl rfl
        have hempty : heldBy (task :: rest) = 0 := by rw [heldBy, hheld]; rfl
        rw [System.slots, System.slots, recoverOverseer_agenda, hoverseer, agenda_running, hempty]
        rfl
      · rw [hexecute] at hexpected
        obtain ⟨hpanics, hcalls⟩ := hexpected
        refine hlost _ (.inr ?_) rfl (recoverOverseer_agenda settings st) rfl rfl
          (.of_indexed (hst.of_eq rfl rfl rfl) rfl rfl rfl)
        simpa [panicsHolding, hoverseer, hpanics, hcalls] using hheld

theorem outside_set {i : Nat} (h : st.restarts[i]? = some tasks) (next : List Task) :
    System.outside { st with restarts := st.restarts.set i next } + heldBy tasks =
      st.outside + heldBy next := by
  unfold System.outside
  rw [add_assoc, add_assoc, sum_heldBy_set h next]

/-- What a background goroutine holds is part of the slots outside the overseer. -/
theorem slots_set {i : Nat} (h : st.restarts[i]? = some tasks) (next : List Task) :
    System.slots { st with restarts := st.restarts.set i next } + heldBy tasks =
      st.slots + heldBy next := by
  unfold System.slots
  rw [add_right_comm, outside_set h next, add_right_comm]

/-- A goroutine that ends with the context drops what it holds. -/
theorem Indexed.gives_up (hst : Indexed st) {i : Nat} (hthread : st.restarts[i]? = some tasks)
    (hcancelled : st.cancelled = true) :
    Moves settings workerList st a ({ st with restarts := st.restarts.set i [] }, .done) := by
  refine ⟨⟨System.slots { st with restarts := st.restarts.set i [] }, heldBy tasks, 0, ?_,
    (add_zero _).symm, .lost _ (.inl hcancelled) rfl rfl⟩,
    .of_indexed (hst.of_eq rfl rfl rfl) rfl rfl rfl⟩
  rw [slots_set hthread [], heldBy_nil, add_zero]

theorem background_moves (hst : Indexed st) (i : Nat) (oracle : Oracle) :
    Moves settings workerList st (.background i oracle)
      (background settings workerList i oracle st) := by
  unfold background
  split
  case h_2 => exact hst.disabled _
  case h_1 task rest hthread =>
    have hexpected : Outcome.Expected settings workerList st (.background i oracle) oracle task
        (execute settings workerList oracle st task) :=
      execute_expected hst (by simp [Action.current, hthread])
    cases hexecute : execute settings workerList oracle st task with
    | next next tasks answer =>
      rw [hexecute] at hexpected
      have hcarries : Carries st (.background i oracle)
          { next with restarts := next.restarts.set i (tasks ++ rest) } :=
        hexpected.carries rfl rfl rfl rfl rfl rfl
      obtain ⟨⟨produced, hexchange, houtside⟩, ⟨more, hmore⟩, -, hoverseer, -, -, -⟩ := hexpected
      have hthread' : next.restarts[i]? = some (task :: rest) := by
        rw [hmore]
        exact List.getElem?_append_left (List.getElem?_eq_some_iff.mp hthread).1 |>.trans hthread
      have hbase := slots_set hthread rest
      have hslots : st.slots =
          System.slots { st with restarts := st.restarts.set i rest } + heldBy [task] := by
        apply add_right_cancel (b := heldBy rest)
        rw [← hbase, heldBy_cons task rest]
        abel
      refine ⟨⟨_, heldBy [task], produced, hslots, ?_, hexchange⟩, hcarries⟩
      apply add_right_cancel (b := heldBy (task :: rest))
      rw [slots_set hthread' (tasks ++ rest), add_right_comm, hbase, System.slots, System.slots,
        hoverseer, heldBy_append]
      calc next.outside + heldBy st.overseer.agenda + (heldBy tasks + heldBy rest)
          = (next.outside + heldBy tasks) + heldBy st.overseer.agenda + heldBy rest := by abel
        _ = st.outside + heldBy st.overseer.agenda + heldBy rest + produced := by
            rw [houtside]
            abel
    | returns =>
      rw [hexecute] at hexpected
      exact hst.gives_up hthread hexpected
    | blocked | panics => exact hst.disabled _

theorem receive_moves (hst : Indexed st) :
    Moves settings workerList st .receive (receive st) := by
  unfold receive
  split
  case h_2 => exact hst.disabled _
  case h_1 id rest hoverseer hchan =>
    refine ⟨?_, (hst.unregister id).of_eq rfl rfl rfl, le_rfl, fun _ => rfl,
      fun hreceive => absurd rfl hreceive⟩
    rw [hst.unregisteredConfig_eq id]
    cases hlookup : st.workerByID.lookup id with
    | none =>
      refine ⟨st.slots, 0, 0, by simp, ?_, .keep 0 (by simp) rfl rfl⟩
      simp [System.slots, System.outside, unregisterRunningWorkerState, hoverseer,
        erase_of_lookup_none _ hlookup, heldBy, Task.slot]
    | some worker =>
      refine ⟨registeredSlots (st.workerByID.erase id) + (st.restarts.map heldBy).sum, _, _, ?_, ?_,
        .failure [(id, worker.config)] rfl rfl⟩
      · rw [System.slots, System.outside, hoverseer, registeredSlots_erase hlookup,
          ← Multiset.singleton_add]
        simp [add_comm, add_left_comm]
      · rfl

theorem unregister_all_eq (ids : List Nat) (st : System) :
    ids.foldl (fun st id => unregisterRunningWorkerState id st) st =
      { st with
        workerConfigByID := ids.foldl (fun m id => m.erase id) st.workerConfigByID
        workerByID := ids.foldl (fun m id => m.erase id) st.workerByID } := by
  induction ids generalizing st with
  | nil => rfl
  | cons id rest ih =>
    rw [List.foldl_cons, ih]
    rfl

/-- Removing a batch of registered workers turns each of them into a restart. -/
theorem heartbeat_slots (st : System) {order : List Nat} (hnodup : order.Nodup)
    (hregistered : ∀ id ∈ order, (st.workerByID.lookup id).isSome) :
    ∃ failed : List (Nat × Nat),
      registeredSlots st.workerByID =
        registeredSlots (order.foldl (fun m id => m.erase id) st.workerByID) +
          (failed.map fun f => Slot.worker f.1 f.2 : List Slot) ∧
      heldBy (order.flatMap (heartbeatTasks st)) =
        (failed.map fun f => Slot.restart f.2 (some f.1) : List Slot) := by
  induction order generalizing st with
  | nil => exact ⟨[], by simp, rfl⟩
  | cons id rest ih =>
    obtain ⟨hfresh, hrest⟩ := List.nodup_cons.mp hnodup
    obtain ⟨worker, hworker⟩ := Option.isSome_iff_exists.mp (hregistered id List.mem_cons_self)
    -- the other workers of the batch are looked up before any is removed
    have hother : ∀ other ∈ rest, (unregisterRunningWorkerState id st).workerByID.lookup other =
        st.workerByID.lookup other := fun other hmem =>
      AList.lookup_erase_ne (fun heq => hfresh (heq ▸ hmem))
    have hsame : rest.flatMap (heartbeatTasks (unregisterRunningWorkerState id st)) =
        rest.flatMap (heartbeatTasks st) :=
      List.flatMap_congr fun other hmem => by rw [heartbeatTasks, heartbeatTasks, hother other hmem]
    obtain ⟨failed, hregistry, htasks⟩ := ih (unregisterRunningWorkerState id st) hrest
      (fun other hmem => hother other hmem ▸ hregistered other (List.mem_cons_of_mem id hmem))
    have herased : (unregisterRunningWorkerState id st).workerByID = st.workerByID.erase id := rfl
    rw [herased] at hregistry
    refine ⟨(id, worker.config) :: failed, ?_, ?_⟩
    · rw [registeredSlots_erase hworker, hregistry, List.foldl_cons, List.map_cons,
        ← Multiset.cons_coe, Multiset.add_cons]
    · have hfirst : heldBy (heartbeatTasks st id) = {Slot.restart worker.config (some id)} := by
        rw [heartbeatTasks, hworker]
        rfl
      rw [List.flatMap_cons, heldBy_append, ← hsame, htasks, hfirst, List.map_cons,
        ← Multiset.cons_coe, Multiset.singleton_add]

theorem staleRunningWorkers_registered {timeout id : Nat}
    (h : id ∈ staleRunningWorkers timeout st) : (st.workerByID.lookup id).isSome := by
  obtain ⟨entry, hentry, rfl⟩ := List.mem_map.mp h
  rw [AList.mem_lookup_iff.mpr (List.mem_filter.mp hentry).1]
  rfl

theorem heartbeats_moves (hst : Indexed st) (order : List Nat) :
    Moves settings workerList st (.watchdog order) (checkWorkerHeartbeats settings order st) := by
  unfold checkWorkerHeartbeats
  split
  case h_2 => exact hst.disabled _
  case h_1 hoverseer =>
    split
    · exact Carries.moves (.of_indexed hst rfl rfl rfl) rfl rfl rfl
    split
    case isFalse => exact hst.disabled _
    case isTrue hperm =>
      have hperm := List.isPerm_iff.mp hperm
      obtain ⟨failed, hregistry, htasks⟩ := heartbeat_slots st
        (hperm.nodup_iff.mpr (st.workerByID.nodupKeys.sublist List.filter_sublist))
        (fun id hid => staleRunningWorkers_registered (hperm.mem_iff.mp hid))
      have hindexed := hst.unregister_all order
      rw [unregister_all_eq] at hindexed ⊢
      refine ⟨⟨registeredSlots (order.foldl (fun m id => m.erase id) st.workerByID) +
        (st.restarts.map heldBy).sum, _, _, ?_, ?_, .failure failed rfl rfl⟩,
        .of_indexed (hindexed.of_eq rfl rfl rfl) rfl rfl rfl⟩
      · rw [System.slots, System.outside, hoverseer, hregistry, agenda_running, heldBy_nil]
        abel
      · rw [System.slots, System.outside, agenda_running, htasks]

theorem signalWorkerFailure_eq (chanSize id : Nat) (st : System) :
    ∃ seen chan, signalWorkerFailure chanSize id st =
      { st with workerFailureSignalSeen := seen, workerChan := chan } ∧ st.workerChan <+: chan := by
  unfold signalWorkerFailure shouldEmitWorkerFailureSignal
  dsimp only
  split
  · rename_i heq
    split at heq <;> cases heq
    exact ⟨_, st.workerChan, rfl, List.prefix_rfl⟩
  · rename_i heq
    split at heq <;> cases heq
    split
    · exact ⟨_, _, rfl, List.prefix_append _ _⟩
    · exact ⟨_, st.workerChan, rfl, List.prefix_rfl⟩

/-- A signal is put behind those that wait. -/
theorem signal_moves (hst : Indexed st) (a : Action) (chanSize id : Nat)
    (run : Nat → Option WorkerRun) :
    Moves settings workerList st a
      (signalWorkerFailure chanSize id { st with workers := run }, .done) := by
  obtain ⟨seen, chan, heq, hbehind⟩ := signalWorkerFailure_eq chanSize id { st with workers := run }
  rw [heq]
  have hcarries : Carries st a
      { st with workers := run, workerFailureSignalSeen := seen, workerChan := chan } :=
    ⟨hst.of_eq rfl rfl rfl, le_rfl, fun _ => rfl, fun _ _ => hbehind⟩
  exact hcarries.moves rfl rfl rfl

theorem beat_moves (hst : Indexed st) (id : Nat) :
    Moves settings workerList st (.beat id) (beat id st) := by
  unfold beat
  split
  case h_2 => exact Carries.moves (.of_indexed hst rfl rfl rfl) rfl rfl rfl
  case h_1 worker hlookup =>
    refine Carries.moves (.of_indexed (hst.beat hlookup _) rfl rfl rfl) ?_ rfl rfl
    rw [System.slots, System.slots, System.outside, System.outside, registeredSlots_insert,
      registeredSlots_erase hlookup]

/-- One step of the system is one exchange of slots. -/
theorem step_moves (settings : Settings) (workerList : List (Option WorkerConfig))
    (hst : Indexed st) (a : Action) :
    Moves settings workerList st a (overseerStep settings workerList st a) := by
  cases a with
  | oversee oracle => exact oversee_moves hst oracle
  | background i oracle => exact background_moves hst i oracle
  | abandon i =>
    simp only [overseerStep, abandon]
    split
    case h_2 => exact hst.disabled _
    case h_1 due rest hcancelled hthread => exact hst.gives_up hthread hcancelled
  | receive => exact receive_moves hst
  | watchdog order => exact heartbeats_moves hst order
  | resume =>
    simp only [overseerStep, resume]
    split
    case h_2 => exact hst.disabled _
    case h_1 due hoverseer =>
      split
      · have hcarries : Carries st .resume { st with workerChan := [], overseer := .running [] } :=
          ⟨hst.of_eq rfl rfl rfl, le_rfl, fun _ => rfl, fun _ hresume => absurd rfl hresume⟩
        refine hcarries.moves ?_ rfl rfl
        rw [System.slots, System.slots, hoverseer]
        rfl
      · exact hst.disabled _
  | contextDone =>
    simp only [overseerStep, contextDone]
    split
    case h_3 => exact hst.disabled _
    all_goals
      rename_i hoverseer
      refine Carries.moves (.of_indexed (hst.of_eq rfl rfl rfl) rfl rfl rfl) ?_ rfl rfl
      rw [System.slots, System.slots, hoverseer]
      rfl
  | workerExits id how =>
    simp only [overseerStep, workerExits]
    split
    · exact Carries.moves (.of_indexed (hst.of_eq rfl rfl rfl) rfl rfl rfl) rfl rfl rfl
    · exact hst.disabled _
  | workerSignals id =>
    simp only [overseerStep, workerSignals]
    split
    · exact signal_moves hst _ _ id _
    · exact hst.disabled _
  | resignal id => exact signal_moves hst _ _ id st.workers
  | beat id => exact beat_moves hst id
  | tick nanos =>
    have hcarries : Carries st (.tick nanos) { st with clock := st.clock + nanos } :=
      ⟨hst.of_eq rfl rfl rfl, Nat.le_add_right _ _, fun _ => rfl, fun _ _ => List.prefix_rfl⟩
    exact hcarries.moves rfl rfl rfl
  | cancel =>
    have hcarries : Carries st .cancel { st with cancelled := true } :=
      ⟨hst.of_eq rfl rfl rfl, le_rfl, fun hcancel => absurd rfl hcancel, fun _ _ => List.prefix_rfl⟩
    exact hcarries.moves rfl rfl rfl

end Steps

end Photon.Workers
