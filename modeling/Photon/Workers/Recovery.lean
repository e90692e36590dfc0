import Photon.Workers.Slots

/-!
The overseer's recovery from its own panics. The deferred function starts the
overseer again with a new channel and without the launch loop, so what the overseer
had in hand when user code panicked is gone, and so are the failure signals that it
had not read. Slots and signals survive the panics that strike with empty hands and
are followed by a restart with an empty channel.
-/

namespace Photon.Workers

open Photon.Lib

/-- A panic strikes only while the overseer has no slot in hand, and the overseer
starts again only with an empty channel. -/
def Recoverable (settings : Settings) (workerList : List (Option WorkerConfig)) (st : System)
    (a : Action) : Prop :=
  a ≠ .cancel ∧ panicsHolding st a = false ∧ withinBudget settings workerList st a = true ∧
    (a = .resume → st.workerChan = [])

instance (settings : Settings) (workerList : List (Option WorkerConfig)) (st : System)
    (a : Action) : Decidable (Recoverable settings workerList st a) :=
  inferInstanceAs (Decidable (_ ∧ _ ∧ _ ∧ _))

variable {settings : Settings} {workerList : List (Option WorkerConfig)}

/-- Every state of a run has a consistent registry. -/
theorem run_indexed (actions : List Action) : Indexed (reached settings workerList actions) :=
  (overseerMachine settings workerList).run_invariant_of_step Indexed
    (fun _ a hst => (step_moves settings workerList hst a).2.indexed) _ actions
    (Indexed.initial workerList)

/-- Signals leave the channel only through the reader. -/
theorem run_chan {st : System} {actions : List Action} (hst : Indexed st)
    (hsteps : (overseerMachine settings workerList).AllSteps (Recoverable settings workerList)
      st actions) (hreceive : Action.receive ∉ actions) :
    st.workerChan <+: ((overseerMachine settings workerList).run st actions).workerChan := by
  induction actions generalizing st with
  | nil => exact List.prefix_rfl
  | cons a rest ih =>
    obtain ⟨hne, hrest⟩ := not_or.mp (mt List.mem_cons.mpr hreceive)
    have hcarries := (step_moves settings workerList hst a).2
    refine List.IsPrefix.trans ?_ (ih hcarries.indexed hsteps.2 hrest)
    by_cases hresume : a = .resume
    · rw [hsteps.1.2.2.2 hresume]
      exact List.nil_prefix
    · exact hcarries.chan (Ne.symm hne) hresume

/-- When every panic strikes with empty hands and every restart of the overseer finds
the channel empty, the recovery keeps every worker slot and every signal. -/
theorem recovery_keeps_slots (settings : Settings) (workerList : List (Option WorkerConfig))
    (actions : List Action)
    (hsteps : (overseerMachine settings workerList).AllSteps (Recoverable settings workerList)
      (System.initial workerList) actions) :
    (∀ config cfg, runnable workerList config = some cfg →
      (reached settings workerList actions).overseer = .running [] →
      ((registeredFor (reached settings workerList actions) config +
        scheduledFor (reached settings workerList actions) config : Nat) : Int) = cfg.maxCount) ∧
    ∀ before during after, actions = before ++ during ++ after → Action.receive ∉ during →
      (reached settings workerList before).workerChan <+:
        (reached settings workerList (before ++ during)).workerChan := by
  refine ⟨fun config cfg hconfig hmonitor => ?_, fun before during after hsplit hreceive => ?_⟩
  · exact slots_of_configs (hsteps.imp fun _ _ h => ⟨h.1, h.2.1, h.2.2.1⟩) hconfig hmonitor
  · subst hsplit
    rw [reached, reached, Machine.run_append]
    exact run_chan (run_indexed before) hsteps.of_append.1.of_append.2 hreceive

def panicking : Oracle := ⟨true, false, ""⟩

def lastStartPanics : List Action :=
  List.replicate 6 (.oversee calm) ++ [.oversee panicking, .tick 1000000000, .resume]

theorem last_start_panic_keeps_slots :
    ((registeredFor (reached defaultSettings crawlers lastStartPanics) 0 +
      scheduledFor (reached defaultSettings crawlers lastStartPanics) 0 : Nat) : Int) = 2 :=
  (recovery_keeps_slots defaultSettings crawlers lastStartPanics (by decide +kernel)).1 0
    ⟨"crawler", true, 2, true⟩ rfl (by decide)

/-- Both workers fail and signal, and the `OnStop` hook for the first of them panics. -/
def beforeStopPanic : List Action :=
  launchBoth ++ [.workerExits 0 .error, .workerSignals 0, .workerExits 1 .panic, .workerSignals 1,
    .receive, .oversee calm]

def stopPanics : List Action :=
  beforeStopPanic ++ [.oversee panicking, .tick 1000000000, .resume]

/-- The slot of the first worker is lost between its removal and its restart, and the
signal of the second one with the old channel. -/
theorem stop_panic_loses_slot :
    (overseerMachine defaultSettings crawlers).AllSteps
      (fun st a => a ≠ .cancel ∧ withinBudget defaultSettings crawlers st a = true)
      (System.initial crawlers) stopPanics ∧
    (stopPanics.filter Action.panics).length ≤ restartLimit ∧
    (reached defaultSettings crawlers stopPanics).overseer = .running [] ∧
    registeredFor (reached defaultSettings crawlers stopPanics) 0 = 1 ∧
    scheduledFor (reached defaultSettings crawlers stopPanics) 0 = 0 ∧
    (reached defaultSettings crawlers beforeStopPanic).workerChan = [1] ∧
    (reached defaultSettings crawlers stopPanics).workerChan = [] := by
  decide

end Photon.Workers
