import Photon.Workers.Exchange

/-!
Worker slots over whole runs. A step that neither panics with a slot in hand nor
runs into a cancelled context or an exhausted budget keeps the number of slots of
every config, whatever the goroutines do in between, and an id is the cause of at
most one restart in every run.
-/

namespace Photon.Workers

open Photon.Lib

def registeredFor (st : System) (config : Nat) : Nat :=
  st.workerByID.entries.countP fun e => e.2.config == config

def scheduledFor (st : System) (config : Nat) : Nat :=
  st.restarts.flatten.countP fun task => task.slot.map Slot.config == some config

def withinBudget (settings : Settings) (workerList : List (Option WorkerConfig)) (st : System)
    (a : Action) : Bool :=
  match a.current st with
  | some (oracle, .restart config cause) =>
    (trackWorkerRestart settings st.clock
      (st.workerRestartHistory (restartName workerList config cause oracle.workerName))).2.2
  | _ => true

def Action.panics : Action → Bool
  | .oversee oracle => oracle.panics
  | .background _ oracle => oracle.panics
  | _ => false

/-- Nothing panics, the context stays alive and no budget is exhausted. -/
def Undisturbed (settings : Settings) (workerList : List (Option WorkerConfig)) (st : System)
    (a : Action) : Prop :=
  a ≠ .cancel ∧ a.panics = false ∧ withinBudget settings workerList st a = true

instance (settings : Settings) (workerList : List (Option WorkerConfig)) (st : System)
    (a : Action) : Decidable (Undisturbed settings workerList st a) :=
  inferInstanceAs (Decidable (_ ∧ _ ∧ _))

def Answer.cause : Answer → Option Nat
  | .tracked _ cause _ _ => cause
  | _ => none

def causes (past : List (Action × Answer)) : List Nat :=
  past.filterMap fun event => event.2.cause

def System.configs (st : System) : Multiset Nat := st.slots.map Slot.config

def System.owners (st : System) : Multiset Nat := st.slots.filterMap Slot.owner

variable {settings : Settings} {workerList : List (Option WorkerConfig)}

namespace Exchange

variable {st : System} {a : Action} {nextId : Nat} {restarted : String → List Time}
  {answer : Answer} {consumed produced : Multiset Slot}

section

variable (h : Exchange settings workerList st a nextId restarted answer consumed produced)
include h

/-- An exchange never makes a slot for another config. -/
theorem configs_le : produced.map Slot.config ≤ consumed.map Slot.config := by
  cases h with
  | keep | launch | factoryError => exact le_rfl
  | failure failed =>
    apply le_of_eq
    simp only [Multiset.map_coe, List.map_map]
    rfl
  | tracked oracle config cause history delay allowed =>
    cases allowed with
    | true => exact le_rfl
    | false => exact Multiset.zero_le _
  | lost slots => exact Multiset.zero_le _

theorem configs_eq (hlive : st.cancelled = false) (hholding : panicsHolding st a = false)
    (hbudget : withinBudget settings workerList st a = true) :
    produced.map Slot.config = consumed.map Slot.config := by
  cases h with
  | keep slots => rfl
  | launch config => rfl
  | factoryError config => rfl
  | failure failed =>
    simp only [Multiset.map_coe, List.map_map]
    rfl
  | tracked oracle config cause history delay allowed hcurrent _ htrack =>
    unfold withinBudget at hbudget
    rw [hcurrent] at hbudget
    simp only [htrack] at hbudget
    subst hbudget
    rfl
  | lost slots hlost =>
    rcases hlost with hcancelled | hpanics
    · rw [hlive] at hcancelled
      cases hcancelled
    · rw [hholding] at hpanics
      cases hpanics

/-- An exchange hands each id on at most once, or brings in the next free one. -/
theorem owners_le :
    (nextId = st.nextId ∧
      produced.filterMap Slot.owner + answer.cause.toList ≤ consumed.filterMap Slot.owner) ∨
    (nextId = st.nextId + 1 ∧ answer.cause = none ∧
      produced.filterMap Slot.owner = {st.nextId}) := by
  cases h with
  | keep slots hanswer hid =>
    have hcause : answer.cause = none := by
      cases answer with
      | tracked config cause time allowed => exact absurd rfl (hanswer config cause time allowed)
      | disabled | done => rfl
    exact .inl ⟨hid, by simp [hcause]⟩
  | launch config hid => exact .inr ⟨hid, rfl, rfl⟩
  | factoryError config hid => exact .inl ⟨hid, le_rfl⟩
  | failure failed hid =>
    refine .inl ⟨hid, le_of_eq ?_⟩
    simp only [Multiset.filterMap_coe, List.filterMap_map]
    exact add_zero _
  | tracked oracle config cause history delay allowed _ _ _ hid =>
    refine .inl ⟨hid, ?_⟩
    cases cause <;> cases allowed <;> exact le_rfl
  | lost slots _ hid => exact .inl ⟨hid, Multiset.zero_le _⟩

end

end Exchange

def Lossless (settings : Settings) (workerList : List (Option WorkerConfig)) (st : System)
    (a : Action) : Prop :=
  a ≠ .cancel ∧ panicsHolding st a = false ∧ withinBudget settings workerList st a = true

/-- A step that loses nothing keeps the configs of the slots. -/
theorem step_configs {st : System} {a : Action} (hst : Indexed st) (hlive : st.cancelled = false)
    (hlossless : Lossless settings workerList st a) :
    (overseerStep settings workerList st a).1.configs = st.configs := by
  obtain ⟨base, consumed, produced, hslots, hnext, hexchange⟩ :=
    (step_moves settings workerList hst a).1
  rw [System.configs, System.configs, hslots, hnext, Multiset.map_add, Multiset.map_add,
    hexchange.configs_eq hlive hlossless.2.1 hlossless.2.2]

/-- So does a whole run of such steps. -/
theorem run_configs (actions : List Action)
    (hsteps : (overseerMachine settings workerList).AllSteps (Lossless settings workerList)
      (System.initial workerList) actions) :
    (reached settings workerList actions).configs = (System.initial workerList).configs := by
  have hinv := (overseerMachine settings workerList).run_invariant
    (fun st => Indexed st ∧ st.cancelled = false ∧
      st.configs = (System.initial workerList).configs) _ ?_ (System.initial workerList) actions
    ⟨Indexed.initial workerList, rfl, rfl⟩ hsteps
  · exact hinv.2.2
  · rintro st a ⟨hst, hlive, hconfigs⟩ hlossless
    have hcarries := (step_moves settings workerList hst a).2
    exact ⟨hcarries.indexed, (hcarries.cancelled hlossless.1).trans hlive,
      (step_configs hst hlive hlossless).trans hconfigs⟩

theorem sum_heldBy (restarts : List (List Task)) :
    (restarts.map heldBy).sum = heldBy restarts.flatten := by
  induction restarts with
  | nil => rfl
  | cons first others ih => rw [List.map_cons, List.sum_cons, ih, List.flatten_cons, heldBy_append]

theorem count_heldBy (tasks : List Task) (config : Nat) :
    ((heldBy tasks).map Slot.config).count config =
      tasks.countP fun task => task.slot.map Slot.config == some config := by
  rw [heldBy, Multiset.map_coe, Multiset.coe_count, List.map_filterMap, List.count_filterMap]

/-- While the monitor waits, a slot is a registered worker or a scheduled restart. -/
theorem count_configs {st : System} (hmonitor : st.overseer = .running []) (config : Nat) :
    st.configs.count config = registeredFor st config + scheduledFor st config := by
  rw [System.configs, System.slots, hmonitor, agenda_running, heldBy_nil, add_zero, System.outside,
    Multiset.map_add, Multiset.count_add, sum_heldBy, count_heldBy, registeredSlots,
    Multiset.map_coe, Multiset.coe_count, List.map_map, List.count_eq_countP, List.countP_map]
  rfl

theorem initial_slots (workerList : List (Option WorkerConfig)) :
    (System.initial workerList).slots = heldBy (startAllWorkers workerList) := by
  simp [System.slots, System.outside, System.initial, registeredSlots]

/-- At the start every slot is a launch to come. -/
theorem initial_slots_pending {slot : Slot} (h : slot ∈ (System.initial workerList).slots) :
    ∃ config < workerList.length, slot = .pending config := by
  rw [initial_slots, heldBy, Multiset.mem_coe, List.mem_filterMap] at h
  obtain ⟨task, htask, hslot⟩ := h
  obtain ⟨config, hconfig, htask⟩ := List.mem_flatMap.mp htask
  obtain rfl := (List.mem_replicate.mp htask).2
  exact ⟨config, List.mem_range.mp hconfig, (Option.some.inj hslot).symm⟩

theorem count_initial_configs (workerList : List (Option WorkerConfig)) (config : Nat) :
    (System.initial workerList).configs.count config = desiredWorkers workerList config := by
  have hothers : ∀ other, other ≠ config → other ∈ List.range workerList.length →
      (List.replicate (desiredWorkers workerList other) (Task.start other)).countP
        (fun task => task.slot.map Slot.config == some config) = 0 := by
    intro other hne _
    rw [List.countP_replicate, if_neg]
    simpa [Task.slot, Slot.config] using hne
  rw [System.configs, initial_slots, count_heldBy, startAllWorkers, List.countP_flatMap]
  refine (List.sum_map_eq_nsmul_single config _ hothers).trans ?_
  have hown : (List.replicate (desiredWorkers workerList config) (Task.start config)).countP
      (fun task => task.slot.map Slot.config == some config) =
        desiredWorkers workerList config := by
    rw [List.countP_replicate, if_pos (by simp [Task.slot, Slot.config])]
  rw [hown, List.nodup_range.count, smul_eq_mul]
  split
  · rw [one_mul]
  · rename_i hout
    have hnone : workerList[config]? = none :=
      List.getElem?_eq_none (by simpa using hout)
    simp [desiredWorkers, runnable, hnone]

theorem runnable_maxCount {config : Nat} {cfg : WorkerConfig}
    (h : runnable workerList config = some cfg) : 0 < cfg.maxCount := by
  unfold runnable at h
  split at h
  case h_2 => cases h
  case h_1 found hfound =>
    split at h
    case isFalse => cases h
    case isTrue henabled =>
      cases hvalid : found.validate with
      | error message =>
        rw [hvalid] at h
        cases h
      | ok _ =>
        rw [hvalid] at h
        cases h
        by_contra hcount
        unfold WorkerConfig.validate at hvalid
        split at hvalid
        · cases hvalid
        · rw [if_pos (by omega)] at hvalid
          cases hvalid

/-- In a run that loses nothing, every config has its workers whenever the monitor
waits. -/
theorem slots_of_configs {actions : List Action} {config : Nat} {cfg : WorkerConfig}
    (hsteps : (overseerMachine settings workerList).AllSteps (Lossless settings workerList)
      (System.initial workerList) actions)
    (hconfig : runnable workerList config = some cfg)
    (hmonitor : (reached settings workerList actions).overseer = .running []) :
    ((registeredFor (reached settings workerList actions) config +
      scheduledFor (reached settings workerList actions) config : Nat) : Int) = cfg.maxCount := by
  rw [← count_configs hmonitor, run_configs actions hsteps, count_initial_configs]
  simp only [desiredWorkers, hconfig]
  exact Int.toNat_of_nonneg (runnable_maxCount hconfig).le

/-- No id is both behind a restart attempt and still around, or around twice. -/
structure OwnersInv (past : List (Action × Answer)) (st : System) : Prop where
  indexed : Indexed st
  nodup : ((causes past : Multiset Nat) + st.owners).Nodup
  issued : ∀ id ∈ (causes past : Multiset Nat) + st.owners, id < st.nextId

theorem causes_snoc (past : List (Action × Answer)) (a : Action) (answer : Answer) :
    causes (past ++ [(a, answer)]) = causes past ++ answer.cause.toList := by
  cases h : answer.cause <;> simp [causes, h]

theorem OwnersInv.initial (workerList : List (Option WorkerConfig)) :
    OwnersInv [] (System.initial workerList) := by
  have howners : (System.initial workerList).owners = 0 := by
    refine Multiset.eq_zero_of_forall_notMem fun id hid => ?_
    obtain ⟨slot, hslot, howner⟩ := (Multiset.mem_filterMap _ _).mp hid
    obtain ⟨config, -, rfl⟩ := initial_slots_pending hslot
    cases howner
  refine ⟨Indexed.initial workerList, ?_, ?_⟩
  all_goals simp [causes, howners]

theorem OwnersInv.step {past : List (Action × Answer)} {st : System} (h : OwnersInv past st)
    (a : Action) :
    OwnersInv (past ++ [(a, (overseerStep settings workerList st a).2)])
      (overseerStep settings workerList st a).1 := by
  obtain ⟨base, consumed, produced, hslots, hnext, hexchange⟩ :=
    (step_moves settings workerList h.indexed a).1
  have hindexed := (step_moves settings workerList h.indexed a).2.indexed
  have howners : st.owners = base.filterMap Slot.owner + consumed.filterMap Slot.owner := by
    rw [System.owners, hslots, Multiset.filterMap_add]
  have hnextOwners : (overseerStep settings workerList st a).1.owners =
      base.filterMap Slot.owner + produced.filterMap Slot.owner := by
    rw [System.owners, hnext, Multiset.filterMap_add]
  have hcauses := congrArg (fun l : List Nat => (l : Multiset Nat))
    (causes_snoc past a (overseerStep settings workerList st a).2)
  simp only [← Multiset.coe_add] at hcauses
  rcases hexchange.owners_le with ⟨hid, hle⟩ | ⟨hid, hcause, hproduced⟩
  · have hsub : (causes (past ++ [(a, (overseerStep settings workerList st a).2)]) : Multiset Nat) +
        (overseerStep settings workerList st a).1.owners ≤
          (causes past : Multiset Nat) + st.owners := by
      rw [hcauses, hnextOwners, howners]
      calc _ = (causes past : Multiset Nat) + base.filterMap Slot.owner +
            (produced.filterMap Slot.owner +
              ((overseerStep settings workerList st a).2.cause.toList : Multiset Nat)) := by abel
        _ ≤ (causes past : Multiset Nat) + base.filterMap Slot.owner +
            consumed.filterMap Slot.owner := by gcongr
        _ = _ := by abel
    refine ⟨hindexed, Multiset.nodup_of_le hsub h.nodup, fun id hmem => ?_⟩
    rw [hid]
    exact h.issued id (Multiset.mem_of_le hsub hmem)
  · have hsub : (causes (past ++ [(a, (overseerStep settings workerList st a).2)]) : Multiset Nat) +
        (overseerStep settings workerList st a).1.owners ≤
          st.nextId ::ₘ ((causes past : Multiset Nat) + st.owners) := by
      rw [hcauses, hnextOwners, howners, hcause, hproduced, ← Multiset.singleton_add]
      calc _ = (causes past : Multiset Nat) + base.filterMap Slot.owner + {st.nextId} := by
            simp [add_assoc]
        _ ≤ (causes past : Multiset Nat) + base.filterMap Slot.owner + {st.nextId} +
            consumed.filterMap Slot.owner := Multiset.le_add_right _ _
        _ = _ := by abel
    have hfresh : st.nextId ∉ (causes past : Multiset Nat) + st.owners := fun hmem =>
      lt_irrefl _ (h.issued st.nextId hmem)
    refine ⟨hindexed, Multiset.nodup_of_le hsub (Multiset.nodup_cons.mpr ⟨hfresh, h.nodup⟩),
      fun id hmem => ?_⟩
    rw [hid]
    rcases Multiset.mem_cons.mp (Multiset.mem_of_le hsub hmem) with rfl | hold
    · exact Nat.lt_succ_self _
    · exact Nat.lt_succ_of_lt (h.issued id hold)

/-- An id is the cause of at most one restart attempt, in every run. -/
theorem causes_nodup (actions : List Action) :
    (causes (events settings workerList actions)).Nodup := by
  have hinv := (overseerMachine settings workerList).trace_invariant OwnersInv (fun _ _ => True)
    (fun past st a h _ => h.step a) [] (System.initial workerList) actions
    (OwnersInv.initial workerList) (Machine.allSteps_of_forall_mem _ _ fun _ _ => trivial)
  exact Multiset.coe_nodup.mp (Multiset.nodup_of_le (Multiset.le_add_right _ _) hinv.nodup)

theorem Undisturbed.lossless {st : System} {a : Action}
    (h : Undisturbed settings workerList st a) : Lossless settings workerList st a := by
  obtain ⟨hcancel, hpanics, hbudget⟩ := h
  refine ⟨hcancel, ?_, hbudget⟩
  unfold panicsHolding
  split
  · rw [Action.panics] at hpanics
    rw [hpanics]
    rfl
  · rfl

/-- As long as nothing panics, the context is alive and no budget runs out, every
config has its `MaxCount` of workers registered or on their way whenever the monitor
waits, and no worker is restarted twice. -/
theorem worker_slots_conserved (settings : Settings) (workerList : List (Option WorkerConfig))
    (actions : List Action)
    (hsteps : (overseerMachine settings workerList).AllSteps (Undisturbed settings workerList)
      (System.initial workerList) actions) :
    (∀ config cfg, runnable workerList config = some cfg →
      (reached settings workerList actions).overseer = .running [] →
      ((registeredFor (reached settings workerList actions) config +
        scheduledFor (reached settings workerList actions) config : Nat) : Int) = cfg.maxCount) ∧
    ∀ id, (causes (events settings workerList actions)).count id ≤ 1 := by
  refine ⟨fun config cfg hconfig hmonitor => ?_, fun id => ?_⟩
  · exact slots_of_configs (hsteps.imp fun _ _ => Undisturbed.lossless) hconfig hmonitor
  · exact List.nodup_iff_count_le_one.mp (causes_nodup actions) id

def crawlers : List (Option WorkerConfig) := [some ⟨"crawler", true, 2, true⟩]

def calm : Oracle := ⟨false, false, ""⟩

def launchBoth : List Action := List.replicate 8 (.oversee calm)

/-- The first worker fails and signals twice, the second misses its heartbeat. -/
def oneFailsOneStalls : List Action :=
  launchBoth ++ [.workerExits 0 .error, .workerSignals 0, .resignal 0, .receive] ++
    List.replicate 5 (.oversee calm) ++ [.tick 40000000000, .watchdog [1]] ++
    List.replicate 6 (.oversee calm)

theorem one_fails_one_stalls_slots :
    ((registeredFor (reached defaultSettings crawlers oneFailsOneStalls) 0 +
      scheduledFor (reached defaultSettings crawlers oneFailsOneStalls) 0 : Nat) : Int) = 2 :=
  (worker_slots_conserved defaultSettings crawlers oneFailsOneStalls (by decide +kernel)).1 0
    ⟨"crawler", true, 2, true⟩ rfl (by decide)

end Photon.Workers
