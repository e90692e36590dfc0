import Photon.Lib.SlidingWindow
import Photon.Workers.Slots

/-!
The restart budget of a config. `trackWorkerRestart` is a sliding-window counter for
each name, and the name comes from the failed worker when it reports one and from
the config otherwise. So the budget belongs to the config only while all its
attempts are recorded under one name that no other config uses.
-/

namespace Photon.Workers

open Photon.Lib Photon.Lib.SlidingWindow

/-- The restart attempts of a config, with their times and whether the restart was
scheduled. -/
def restartsOf (config : Nat) (past : List (Action × Answer)) : List (Time × Bool) :=
  past.filterMap fun event =>
    match event.2 with
    | .tracked other _ time allowed => if other = config then some (time, allowed) else none
    | _ => none

/-- An attempt to restart a worker of a config is recorded under the config's key. -/
def keyedBy (key : Nat → String) (workerList : List (Option WorkerConfig)) (st : System)
    (a : Action) : Bool :=
  match a.current st with
  | some (oracle, .restart config cause) =>
    st.cancelled || decide (restartName workerList config cause oracle.workerName = key config)
  | _ => true

variable {settings : Settings} {workerList : List (Option WorkerConfig)} {key : Nat → String}

theorem restartsOf_tracked (config : Nat) (past : List (Action × Answer)) (a : Action)
    (cause : Option Nat) (time : Time) (allowed : Bool) :
    restartsOf config (past ++ [(a, .tracked config cause time allowed)]) =
      restartsOf config past ++ [(time, allowed)] := by
  simp [restartsOf]

theorem restartsOf_other {config : Nat} {answer : Answer}
    (h : ∀ cause time allowed, answer ≠ .tracked config cause time allowed)
    (past : List (Action × Answer)) (a : Action) :
    restartsOf config (past ++ [(a, answer)]) = restartsOf config past := by
  rw [restartsOf, List.filterMap_append]
  cases answer with
  | disabled | done => simp [restartsOf]
  | tracked other cause time allowed =>
    have hne : other ≠ config := fun heq => h cause time allowed (heq ▸ rfl)
    simp [restartsOf, hne]

/-- An attempt is allowed while there is room beside the recent ones. -/
theorem trackWorkerRestart_allowed (settings : Settings) (now : Time) (kept : List Time) :
    (trackWorkerRestart settings now kept).1 =
        recent settings.workerRestartWindow now kept ++ [now] ∧
      ((trackWorkerRestart settings now kept).2.2 = true ↔
        (recent settings.workerRestartWindow now kept).length + 1 ≤
          settings.workerRestartLimit) := by
  have hlength : (pruneTimestamps settings.workerRestartWindow now kept ++ [now]).length =
      (recent settings.workerRestartWindow now kept).length + 1 := by
    simp [pruneTimestamps, recent]
  simp only [trackWorkerRestart, hlength]
  split
  · next hfull => exact ⟨rfl, by simpa using hfull⟩
  · next hroom => exact ⟨rfl, by simpa using hroom⟩

/-- The history under a config's key is the record of its attempts, and its attempts
were decided by that record. -/
structure BudgetInv (settings : Settings) (workerList : List (Option WorkerConfig))
    (key : Nat → String) (past : List (Action × Answer)) (st : System) : Prop where
  indexed : Indexed st
  known : ∀ slot ∈ st.slots, slot.config < workerList.length
  keeps : ∀ config < workerList.length, Keeps settings.workerRestartWindow
    (st.workerRestartHistory (key config)) ((restartsOf config past).map Prod.fst) st.clock
  metered : ∀ config < workerList.length,
    Metered settings.workerRestartWindow settings.workerRestartLimit (restartsOf config past)

namespace BudgetInv

theorem initial (settings : Settings) (workerList : List (Option WorkerConfig))
    (key : Nat → String) :
    BudgetInv settings workerList key [] (System.initial workerList) := by
  refine ⟨Indexed.initial workerList, fun slot hslot => ?_, fun _ _ => Keeps.nil, ?_⟩
  · obtain ⟨config, hconfig, rfl⟩ := initial_slots_pending hslot
    exact hconfig
  · intro config _ before time allowed after hsplit
    cases before <;> cases hsplit

variable {past : List (Action × Answer)} {st : System}

section

variable (h : BudgetInv settings workerList key past st)
include h

/-- Slots of configs outside the list never come up. -/
theorem known_step (a : Action) :
    ∀ slot ∈ (overseerStep settings workerList st a).1.slots,
      slot.config < workerList.length := by
  obtain ⟨base, consumed, produced, hslots, hnext, hexchange⟩ :=
    (step_moves settings workerList h.indexed a).1
  intro slot hslot
  rw [hnext] at hslot
  have hmem : slot.config ∈ (base + consumed).map Slot.config := by
    rw [Multiset.map_add]
    rcases Multiset.mem_add.mp hslot with hbase | hproduced
    · exact Multiset.mem_add.mpr (.inl (Multiset.mem_map_of_mem _ hbase))
    · exact Multiset.mem_add.mpr (.inr (Multiset.mem_of_le hexchange.configs_le
        (Multiset.mem_map_of_mem _ hproduced)))
  obtain ⟨old, hold, hconfig⟩ := Multiset.mem_map.mp hmem
  rw [← hconfig]
  exact h.known old (hslots ▸ hold)

/-- A step that is no attempt of a config leaves its budget alone. -/
theorem of_other {a : Action} {next : System} {answer : Answer} (hclock : st.clock ≤ next.clock)
    {config : Nat} (hconfig : config < workerList.length)
    (hanswer : ∀ cause time allowed, answer ≠ .tracked config cause time allowed)
    (hhistory : next.workerRestartHistory (key config) = st.workerRestartHistory (key config)) :
    Keeps settings.workerRestartWindow (next.workerRestartHistory (key config))
      ((restartsOf config (past ++ [(a, answer)])).map Prod.fst) next.clock ∧
    Metered settings.workerRestartWindow settings.workerRestartLimit
      (restartsOf config (past ++ [(a, answer)])) := by
  rw [restartsOf_other hanswer, hhistory]
  exact ⟨(h.keeps config hconfig).later hclock, h.metered config hconfig⟩

theorem step (hkey : ∀ c d, c < workerList.length → d < workerList.length → key c = key d → c = d)
    {a : Action} (hkeyed : keyedBy key workerList st a = true) :
    BudgetInv settings workerList key (past ++ [(a, (overseerStep settings workerList st a).2)])
      (overseerStep settings workerList st a).1 := by
  have hcarries := (step_moves settings workerList h.indexed a).2
  suffices hbudget : ∀ config < workerList.length,
      Keeps settings.workerRestartWindow
        ((overseerStep settings workerList st a).1.workerRestartHistory (key config))
        ((restartsOf config
          (past ++ [(a, (overseerStep settings workerList st a).2)])).map Prod.fst)
        (overseerStep settings workerList st a).1.clock ∧
      Metered settings.workerRestartWindow settings.workerRestartLimit
        (restartsOf config (past ++ [(a, (overseerStep settings workerList st a).2)])) from
    ⟨hcarries.indexed, h.known_step a, fun config hconfig => (hbudget config hconfig).1,
      fun config hconfig => (hbudget config hconfig).2⟩
  intro config hconfig
  obtain ⟨base, consumed, produced, hslots, -, hexchange⟩ :=
    (step_moves settings workerList h.indexed a).1
  revert hexchange hcarries
  generalize (overseerStep settings workerList st a).1 = next
  generalize (overseerStep settings workerList st a).2 = answer
  intro hcarries hexchange
  cases hexchange with
  | keep slots hanswer _ hhistory =>
    exact h.of_other hcarries.clock hconfig (hanswer config) (by rw [hhistory])
  | launch _ _ hhistory | factoryError _ _ hhistory | failure _ _ hhistory
  | lost _ _ _ hhistory =>
    exact h.of_other hcarries.clock hconfig (by simp) (by rw [hhistory])
  | tracked oracle attempted cause history delay allowed hcurrent hlive htrack _ hhistory =>
    have hname : restartName workerList attempted cause oracle.workerName = key attempted := by
      simpa [keyedBy, hcurrent, hlive] using hkeyed
    have hattempted : attempted < workerList.length :=
      h.known (.restart attempted cause) (by rw [hslots]; simp)
    rw [hname] at htrack hhistory
    by_cases hsame : attempted = config
    · subst hsame
      obtain ⟨hkept, hdecided⟩ := trackWorkerRestart_allowed settings st.clock
        (st.workerRestartHistory (key attempted))
      simp only [htrack] at hkept hdecided
      have hrecord := h.keeps attempted hattempted
      rw [restartsOf_tracked, hhistory, Function.update_self, hkept, List.map_append]
      refine ⟨(hrecord.attempt le_rfl).later hcarries.clock,
        (h.metered attempted hattempted).snoc ?_⟩
      rw [hdecided, hrecord st.clock le_rfl]
    · have hother : key config ≠ key attempted := fun heq =>
        hsame (hkey config attempted hconfig hattempted heq).symm
      refine h.of_other hcarries.clock hconfig ?_ ?_
      · intro cause' time' allowed' heq
        cases heq
        exact hsame rfl
      · rw [hhistory, Function.update_of_ne hother]

end

end BudgetInv

/-- When every config's attempts are recorded under a key of its own, no window of
time holds more restarts of a config than the limit, and each attempt is decided by
the config's own earlier attempts alone. -/
theorem restart_budget_per_config (settings : Settings) (workerList : List (Option WorkerConfig))
    (key : Nat → String)
    (hkey : ∀ c d, c < workerList.length → d < workerList.length → key c = key d → c = d)
    (actions : List Action)
    (hsteps : (overseerMachine settings workerList).AllSteps
      (fun st a => keyedBy key workerList st a = true) (System.initial workerList) actions)
    (config : Nat) (hconfig : config < workerList.length) :
    (∀ start, allowedWithin settings.workerRestartWindow start
      (restartsOf config (events settings workerList actions)) ≤ settings.workerRestartLimit) ∧
    Metered settings.workerRestartWindow settings.workerRestartLimit
      (restartsOf config (events settings workerList actions)) := by
  have hinv := (overseerMachine settings workerList).trace_invariant
    (BudgetInv settings workerList key) _ (fun past st a h hkeyed => h.step hkey hkeyed) []
    (System.initial workerList) actions (BudgetInv.initial settings workerList key) hsteps
  have hmetered := hinv.metered config hconfig
  exact ⟨fun start => hmetered.allowedWithin_le start, hmetered⟩

def onePerMinute : Settings := { defaultSettings with workerRestartLimit := 1 }

def bothFail (first second : String) : List Action :=
  launchBoth ++ [.workerExits 0 .error, .workerSignals 0, .workerExits 1 .error,
    .workerSignals 1] ++ .receive :: List.replicate 5 (.oversee ⟨false, false, first⟩) ++
    .receive :: List.replicate 3 (.oversee ⟨false, false, second⟩)

theorem same_name_second_restart_refused :
    restartsOf 0 (events onePerMinute crawlers (bothFail "crawler" "")) = [(0, true), (0, false)] ∧
    allowedWithin 60000000000 0
      (restartsOf 0 (events onePerMinute crawlers (bothFail "crawler" ""))) ≤ 1 := by
  have hkey : ∀ c d, c < crawlers.length → d < crawlers.length →
      (fun _ : Nat => "crawler") c = (fun _ : Nat => "crawler") d → c = d := by
    intro c d hc hd _
    have hone : crawlers.length = 1 := rfl
    omega
  exact ⟨by decide +kernel, (restart_budget_per_config onePerMinute crawlers
    (fun _ => "crawler") hkey (bothFail "crawler" "") (by decide +kernel) 0 (by decide)).1 0⟩

def crawlerAndMailer : List (Option WorkerConfig) :=
  [some ⟨"crawler", true, 1, true⟩, some ⟨"mailer", true, 1, true⟩]

/-- Workers that report different names get a budget each, and a name that two
configs share costs the second one its restart. -/
theorem reported_names_change_budget :
    restartsOf 0 (events onePerMinute crawlers (bothFail "crawler-a" "crawler-b")) =
      [(0, true), (0, true)] ∧
    restartsOf 1 (events onePerMinute crawlerAndMailer (bothFail "job" "job")) = [(0, false)] := by
  decide

end Photon.Workers
