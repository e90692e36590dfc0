import Photon.Features.Updates
import Photon.Lib.Machine

/-!
`Init`, `Close` and `GetFeatureConfigStore` beside the update loops of the managers. A step is a
section under a mutex or a single read of a manager's configuration. A loop that has taken an
update goes on after its manager was closed, and its last step marks the store as initialized.
Only the configurations themselves are left open. Calls in one piece are runs of these sections,
and come to the store that `init`, `close` and `receive` come to.
-/

namespace Photon.Features.Lifecycle

open Photon.Lib

variable {C : Type}

/-- Where the update loop of a manager stands: at the select, with a loaded update before the
section that stores it, before the read of the configuration, and before the section that
publishes what was read. -/
inductive Stage (C : Type) where
  | idle
  | loaded (config : C)
  | stored
  | holding (config : Option C)
  | stopped

structure Manager (C : Type) where
  config : Option C
  cancelled : Bool
  stage : Stage C

inductive Holder where
  | nobody
  | init (manager : ℕ)
  | close
deriving DecidableEq

structure State (C : Type) where
  featureManager : Option ℕ
  configCache : Option C
  areFeaturesInitialized : Bool
  holder : Holder
  managers : List (Manager C)

def start : State C := ⟨none, none, false, .nobody, []⟩

/-- The result of loading is part of the action: `none` where it fails. -/
inductive Action (C : Type) where
  | initBegin (loaded : Option C) (watched : Bool)
  | initEnd
  | closeBegin
  | closeEnd
  | get
  | take (i : ℕ) (loaded : Option C)
  | store (i : ℕ)
  | readConfig (i : ℕ)
  | publish (i : ℕ)
  | stop (i : ℕ)

inductive Answer (C : Type) where
  | blocked
  | running
  | failed
  | done
  | config (config : Option C)
  | notInitialized

def Manager.close (m : Manager C) : Manager C := { m with config := none, cancelled := true }

def State.closeInstalled (s : State C) : State C :=
  match s.featureManager with
  | none => s
  | some i => { s with managers := s.managers.modify i Manager.close }

def State.setManager (s : State C) (i : ℕ) (m : Manager C) : State C :=
  { s with managers := s.managers.set i m }

/-- An action that cannot be taken is blocked and changes nothing. The select may take an update
although its context is cancelled. -/
def step (s : State C) : Action C → State C × Answer C
  | .initBegin loaded watched =>
    match s.holder with
    | .nobody =>
      if s.areFeaturesInitialized then (s, .done)
      else
        match loaded with
        | none => (s, .failed)
        | some config =>
          ({ s with
            holder := .init s.managers.length
            managers :=
              s.managers ++ [⟨some config, false, if watched then .idle else .stopped⟩] },
            .running)
    | _ => (s, .blocked)
  | .initEnd =>
    match s.holder with
    | .init i =>
      let closed := s.closeInstalled
      ({ closed with
        featureManager := some i
        configCache := closed.managers[i]?.bind Manager.config
        areFeaturesInitialized := true
        holder := .nobody }, .done)
    | _ => (s, .blocked)
  | .closeBegin =>
    match s.holder with
    | .nobody => ({ s.closeInstalled with holder := .close }, .running)
    | _ => (s, .blocked)
  | .closeEnd =>
    match s.holder with
    | .close =>
      ({ s with
        featureManager := none
        configCache := none
        areFeaturesInitialized := false
        holder := .nobody }, .done)
    | _ => (s, .blocked)
  | .get =>
    match s.holder with
    | .nobody =>
      (s, if s.areFeaturesInitialized then .config s.configCache else .notInitialized)
    | _ => (s, .blocked)
  | .take i loaded =>
    match s.managers[i]? with
    | some ⟨config, cancelled, .idle⟩ =>
      match loaded with
      | none => (s, .failed)
      | some update => (s.setManager i ⟨config, cancelled, .loaded update⟩, .done)
    | _ => (s, .blocked)
  | .store i =>
    match s.managers[i]? with
    | some ⟨_, cancelled, .loaded update⟩ =>
      (s.setManager i ⟨some update, cancelled, .stored⟩, .done)
    | _ => (s, .blocked)
  | .readConfig i =>
    match s.managers[i]? with
    | some ⟨config, cancelled, .stored⟩ =>
      (s.setManager i ⟨config, cancelled, .holding config⟩, .done)
    | _ => (s, .blocked)
  | .publish i =>
    match s.holder, s.managers[i]? with
    | .nobody, some ⟨config, cancelled, .holding read⟩ =>
      ({ s.setManager i ⟨config, cancelled, .idle⟩ with
        configCache := read
        areFeaturesInitialized := true }, .done)
    | _, _ => (s, .blocked)
  | .stop i =>
    match s.managers[i]? with
    | some ⟨config, true, .idle⟩ => (s.setManager i ⟨config, true, .stopped⟩, .done)
    | _ => (s, .blocked)

def machine : Machine (State C) (Action C) (Answer C) := ⟨step⟩

abbrev Event (C : Type) := Action C × Answer C

abbrev History (C : Type) := List (Event C)

/-- Whether an event changes that the last `Init` that returned without an error came after the
last `Close` that returned. -/
def opens (before : Bool) : Event C → Bool
  | (.initBegin _ _, .done) => true
  | (.initEnd, .done) => true
  | (.closeEnd, .done) => false
  | _ => before

def isOpen (past : History C) : Bool := past.foldl opens false

/-- What a read of the store answers at this point: not initialized while the store is closed,
and never nil without an error. A read that waits for the mutex has no answer yet. -/
def Kept (past : History C) (s : State C) : Prop :=
  (isOpen past = false → (step s .get).2 = .notInitialized ∨ (step s .get).2 = .blocked) ∧
    (step s .get).2 ≠ .config none

/-- If the loop of the manager at position `i` can publish, then the store is open and what the
loop has read is not nil. -/
def InOrder (past : History C) (s : State C) (i : ℕ) : Prop :=
  ∀ config cancelled read, s.holder = .nobody →
    s.managers[i]? = some ⟨config, cancelled, .holding read⟩ →
    isOpen past = true ∧ read ≠ none

def InTime (s : State C) : Action C → Prop
  | .publish i => ∀ m, s.managers[i]? = some m → m.cancelled = false
  | _ => True

structure Manager.Sound (m : Manager C) : Prop where
  config : m.config ≠ none
  holding : ∀ read, m.stage = .holding read → read ≠ none

/-- What holds while loops publish in order. A manager that was not closed is the installed
one or the one that `Init` is about to install, and what its loop holds is a configuration. -/
structure Inv (past : History C) (s : State C) : Prop where
  closed : isOpen past = false → s.areFeaturesInitialized = false
  cached : s.areFeaturesInitialized = true → s.configCache ≠ none
  installed : ∀ i, s.featureManager = some i → i < s.managers.length
  live : ∀ i m, s.managers[i]? = some m → m.cancelled = false →
    m.Sound ∧ s.holder ≠ .close ∧
      (s.holder = .init i ∨ s.featureManager = some i ∧ isOpen past = true)
  initializing : ∀ i, s.holder = .init i → s.featureManager ≠ some i ∧
    ∃ m, s.managers[i]? = some m ∧ m.cancelled = false

theorem isOpen_append (past : History C) (event : Event C) :
    isOpen (past ++ [event]) = opens (isOpen past) event := by
  rw [isOpen, List.foldl_append]
  rfl

variable {past : History C} {s : State C} {event : Event C} {i : ℕ}

/-- An event that neither opens nor closes leaves the invariant of an unchanged state. -/
theorem Inv.stutter (h : Inv past s) (hopen : opens (isOpen past) event = isOpen past) :
    Inv (past ++ [event]) s := by
  have hsame : isOpen (past ++ [event]) = isOpen past := by rw [isOpen_append, hopen]
  exact ⟨by rw [hsame]; exact h.closed, h.cached, h.installed, by rw [hsame]; exact h.live,
    h.initializing⟩

/-- A step of a loop keeps the invariant if the loop still holds a configuration. -/
theorem Inv.setManager (h : Inv past s) {m m' : Manager C} (hm : s.managers[i]? = some m)
    (hcancelled : m'.cancelled = m.cancelled) (hsound : m.Sound → m'.Sound) :
    Inv past (s.setManager i m') := by
  obtain ⟨hi, -⟩ := List.getElem?_eq_some_iff.mp hm
  have hself : (s.setManager i m').managers[i]? = some m' := List.getElem?_set_self hi
  have hother : ∀ j, j ≠ i → (s.setManager i m').managers[j]? = s.managers[j]? :=
    fun j hj => List.getElem?_set_ne hj.symm
  refine ⟨h.closed, h.cached, ?_, ?_, ?_⟩
  · intro j hj
    rw [State.setManager, List.length_set]
    exact h.installed j hj
  · intro j m₁ hget hlive
    rcases eq_or_ne j i with rfl | hj
    · obtain rfl : m' = m₁ := Option.some.inj (hself.symm.trans hget)
      obtain ⟨hold, hrest⟩ := h.live j m hm (hcancelled.symm.trans hlive)
      exact ⟨hsound hold, hrest⟩
    · exact h.live j m₁ ((hother j hj).symm.trans hget) hlive
  · intro j hj
    obtain ⟨hne, m₁, hget, hlive⟩ := h.initializing j hj
    refine ⟨hne, ?_⟩
    rcases eq_or_ne j i with rfl | hji
    · obtain rfl : m = m₁ := Option.some.inj (hm.symm.trans hget)
      exact ⟨m', hself, hcancelled.trans hlive⟩
    · exact ⟨m₁, (hother j hji).trans hget, hlive⟩

/-- Closing the installed manager leaves the others alone. -/
theorem closeInstalled_get_of_ne (s : State C) (h : s.featureManager ≠ some i) :
    s.closeInstalled.managers[i]? = s.managers[i]? := by
  rw [State.closeInstalled]
  cases hinstalled : s.featureManager with
  | none => rfl
  | some j =>
    have hji : j ≠ i := by
      rintro rfl
      exact h hinstalled
    simp [hji]

/-- After closing the installed manager, one that was not closed is another. -/
theorem closeInstalled_live {m : Manager C} (hm : s.closeInstalled.managers[i]? = some m)
    (hlive : m.cancelled = false) :
    s.featureManager ≠ some i ∧ s.managers[i]? = some m := by
  have hne : s.featureManager ≠ some i := by
    intro hinstalled
    rw [State.closeInstalled, hinstalled] at hm
    simp only [List.getElem?_modify, if_true, Option.map_eq_map, Option.map_eq_some_iff] at hm
    obtain ⟨m₀, -, rfl⟩ := hm
    cases hlive
  exact ⟨hne, (closeInstalled_get_of_ne s hne).symm.trans hm⟩

section

variable (h : Inv past s)
include h

/-- An `Init` that finds the store initialized opens it as far as its caller can tell. -/
theorem Inv.reopen (hopen : opens (isOpen past) event = true) : Inv (past ++ [event]) s := by
  have htrue : isOpen (past ++ [event]) = true := by rw [isOpen_append, hopen]
  refine ⟨fun hclosed => ?_, h.cached, h.installed, ?_, h.initializing⟩
  · rw [htrue] at hclosed
    cases hclosed
  · intro i m hm hlive
    obtain ⟨hsound, hholder, hwhere⟩ := h.live i m hm hlive
    exact ⟨hsound, hholder, hwhere.imp_right fun hinstalled => ⟨hinstalled.1, htrue⟩⟩

/-- A new manager that `Init` will install. -/
theorem Inv.pushManager (hholder : s.holder = .nobody) {m : Manager C} (hsound : m.Sound)
    (hlive : m.cancelled = false) :
    Inv past { s with holder := .init s.managers.length, managers := s.managers ++ [m] } := by
  refine ⟨h.closed, h.cached, ?_, ?_, ?_⟩
  · intro i hi
    have := h.installed i hi
    simp only [List.length_append, List.length_singleton]
    omega
  · intro i m₁ hget hlive₁
    rcases lt_or_ge i s.managers.length with hi | hi
    · have hold : s.managers[i]? = some m₁ := (List.getElem?_append_left hi).symm.trans hget
      obtain ⟨hsound₁, -, hwhere⟩ := h.live i m₁ hold hlive₁
      rw [hholder] at hwhere
      exact ⟨hsound₁, nofun, Or.inr (hwhere.resolve_left nofun)⟩
    · rw [List.getElem?_append_right hi, List.getElem?_singleton] at hget
      split_ifs at hget with hlast
      cases hget
      obtain rfl : i = s.managers.length := by omega
      exact ⟨hsound, nofun, Or.inl rfl⟩
  · rintro i ⟨⟩
    refine ⟨?_, m, by simp, hlive⟩
    intro hinstalled
    exact absurd (h.installed _ hinstalled) (lt_irrefl _)

/-- The package's state after `Init` has read the configuration of its manager. -/
theorem Inv.installManager (hholder : s.holder = .init i)
    (hopen : opens (isOpen past) event = true) :
    Inv (past ++ [event])
      { s.closeInstalled with
        featureManager := some i
        configCache := s.closeInstalled.managers[i]?.bind Manager.config
        areFeaturesInitialized := true
        holder := .nobody } := by
  have htrue : isOpen (past ++ [event]) = true := by rw [isOpen_append, hopen]
  obtain ⟨hne, m, hm, hlive⟩ := h.initializing i hholder
  have hget : s.closeInstalled.managers[i]? = some m :=
    (closeInstalled_get_of_ne s hne).trans hm
  obtain ⟨hsound, -⟩ := h.live i m hm hlive
  refine ⟨fun hclosed => ?_, fun _ => ?_, ?_, ?_, ?_⟩
  · rw [htrue] at hclosed
    cases hclosed
  · rw [hget]
    exact hsound.config
  · rintro j ⟨⟩
    exact (List.getElem?_eq_some_iff.mp hget).1
  · intro j m₁ hget₁ hlive₁
    obtain ⟨hnot, hold⟩ := closeInstalled_live hget₁ hlive₁
    obtain ⟨hsound₁, -, hwhere⟩ := h.live j m₁ hold hlive₁
    rcases hwhere with hinit | ⟨hinstalled, -⟩
    · obtain rfl : i = j := Holder.init.inj (hholder.symm.trans hinit)
      exact ⟨hsound₁, nofun, Or.inr ⟨rfl, htrue⟩⟩
    · exact absurd hinstalled hnot
  · rintro j ⟨⟩

/-- `Close` closes the only manager that was not closed. -/
theorem Inv.beginClose (hholder : s.holder = .nobody) :
    Inv past { s.closeInstalled with holder := .close } := by
  have hpackage : s.closeInstalled.areFeaturesInitialized = s.areFeaturesInitialized ∧
      s.closeInstalled.configCache = s.configCache ∧
      s.closeInstalled.featureManager = s.featureManager := by
    unfold State.closeInstalled
    split <;> exact ⟨rfl, rfl, rfl⟩
  obtain ⟨hinitialized, hcache, hinstalled⟩ := hpackage
  refine ⟨?_, ?_, ?_, ?_, ?_⟩
  · rw [hinitialized]
    exact h.closed
  · rw [hinitialized, hcache]
    exact h.cached
  · rw [hinstalled, State.closeInstalled]
    split <;> simpa using h.installed
  · intro i m hget hlive
    obtain ⟨hne, hm⟩ := closeInstalled_live hget hlive
    obtain ⟨-, -, hwhere⟩ := h.live i m hm hlive
    rcases hwhere with hinit | ⟨hi, -⟩
    · rw [hholder] at hinit
      cases hinit
    · exact absurd hi hne
  · rintro i ⟨⟩

theorem Inv.endClose (hholder : s.holder = .close) (event : Event C) :
    Inv (past ++ [event])
      { s with
        featureManager := none
        configCache := none
        areFeaturesInitialized := false
        holder := .nobody } := by
  refine ⟨fun _ => rfl, nofun, nofun, ?_, nofun⟩
  intro i m hm hlive
  exact absurd hholder (h.live i m hm hlive).2.1

/-- A loop whose manager was not closed publishes a configuration, and the store is open. -/
theorem Inv.inOrder (hlive : InTime s (.publish i)) : InOrder past s i := by
  intro config cancelled read hholder hm
  obtain ⟨hsound, -, hwhere⟩ := h.live i _ hm (hlive _ hm)
  refine ⟨?_, hsound.holding read rfl⟩
  rcases hwhere with hinit | ⟨-, hopen⟩
  · rw [hholder] at hinit
    cases hinit
  · exact hopen

theorem Inv.publish {config read : Option C} {cancelled : Bool}
    (hm : s.managers[i]? = some ⟨config, cancelled, .holding read⟩) (hopen : isOpen past = true)
    (hread : read ≠ none) :
    Inv past { s.setManager i ⟨config, cancelled, .idle⟩ with
      configCache := read, areFeaturesInitialized := true } := by
  have hset : Inv past (s.setManager i ⟨config, cancelled, .idle⟩) :=
    h.setManager hm rfl fun hsound => ⟨hsound.config, nofun⟩
  obtain ⟨-, -, hinstalled, hlives, hinitializing⟩ := hset
  refine ⟨fun hclosed => ?_, fun _ => hread, hinstalled, hlives, hinitializing⟩
  rw [hopen] at hclosed
  cases hclosed

end

/-- One step keeps the invariant if it does not publish out of order. -/
theorem Inv.step (h : Inv past s) (a : Action C) (hok : ∀ i, a = .publish i → InOrder past s i) :
    Inv (past ++ [(a, (step s a).2)]) (step s a).1 := by
  cases a with
  | initBegin loaded watched =>
    simp only [Lifecycle.step]
    cases hholder : s.holder with
    | nobody =>
      by_cases hinitialized : s.areFeaturesInitialized = true
      · rw [if_pos hinitialized]
        exact h.reopen rfl
      · rw [if_neg hinitialized]
        cases loaded with
        | none => exact h.stutter rfl
        | some config =>
          refine Inv.stutter ?_ rfl
          refine h.pushManager hholder ⟨Option.some_ne_none config, ?_⟩ rfl
          cases watched <;> exact nofun
    | init | close => exact h.stutter rfl
  | initEnd =>
    simp only [Lifecycle.step]
    cases hholder : s.holder with
    | nobody | close => exact h.stutter rfl
    | init i => exact h.installManager hholder rfl
  | closeBegin =>
    simp only [Lifecycle.step]
    cases hholder : s.holder with
    | nobody => exact (h.beginClose hholder).stutter rfl
    | init | close => exact h.stutter rfl
  | closeEnd =>
    simp only [Lifecycle.step]
    cases hholder : s.holder with
    | nobody | init => exact h.stutter rfl
    | close => exact h.endClose hholder _
  | get =>
    simp only [Lifecycle.step]
    cases hholder : s.holder <;> exact h.stutter rfl
  | take i loaded =>
    simp only [Lifecycle.step]
    split
    · rename_i hm
      cases loaded with
      | none => exact h.stutter rfl
      | some update =>
        refine Inv.stutter ?_ rfl
        exact h.setManager hm rfl fun hsound => ⟨hsound.config, nofun⟩
    · exact h.stutter rfl
  | store i =>
    simp only [Lifecycle.step]
    split
    · rename_i hm
      refine Inv.stutter ?_ rfl
      exact h.setManager hm rfl fun _ => ⟨Option.some_ne_none _, nofun⟩
    · exact h.stutter rfl
  | readConfig i =>
    simp only [Lifecycle.step]
    split
    · rename_i hm
      refine Inv.stutter ?_ rfl
      refine h.setManager hm rfl fun hsound => ⟨hsound.config, ?_⟩
      rintro read ⟨⟩
      exact hsound.config
    · exact h.stutter rfl
  | publish i =>
    simp only [Lifecycle.step]
    split
    · rename_i hholder hm
      refine Inv.stutter ?_ rfl
      obtain ⟨hopen, hread⟩ := hok i rfl _ _ _ hholder hm
      exact h.publish hm hopen hread
    · exact h.stutter rfl
  | stop i =>
    simp only [Lifecycle.step]
    split
    · rename_i hm
      refine Inv.stutter ?_ rfl
      exact h.setManager hm rfl fun hsound => ⟨hsound.config, nofun⟩
    · exact h.stutter rfl

theorem inv_start : Inv [] (start : State C) := by
  refine ⟨fun _ => rfl, nofun, nofun, ?_, nofun⟩
  intro i m hm
  simp [start] at hm

theorem Inv.kept (h : Inv past s) : Kept past s := by
  unfold Kept
  simp only [Lifecycle.step]
  split
  · split_ifs with hinitialized
    · refine ⟨fun hclosed => ?_, fun heq => ?_⟩
      · rw [h.closed hclosed] at hinitialized
        cases hinitialized
      · exact h.cached hinitialized (Answer.config.inj heq)
    · exact ⟨fun _ => Or.inl rfl, nofun⟩
  · exact ⟨fun _ => Or.inr rfl, nofun⟩

/-- A run that publishes in order keeps the invariant. -/
theorem inv_run (actions : List (Action C))
    (hok : ∀ before i after, actions = before ++ .publish i :: after →
      InOrder (machine.trace start before) (machine.run start before) i) :
    Inv (machine.trace start actions) (machine.run start actions) := by
  induction actions using List.reverseRecOn with
  | nil => exact inv_start
  | append_singleton actions a ih =>
    have hbefore := ih fun before i after hsplit =>
      hok before i (after ++ [a]) (by rw [hsplit, List.append_assoc, List.cons_append])
    rw [Machine.trace_append, Machine.run_append]
    refine hbefore.step a ?_
    rintro i rfl
    exact hok actions i [] rfl

/-- A loop that publishes out of order breaks the life cycle at once. -/
theorem not_kept_of_not_inOrder (h : ¬ InOrder past s i) :
    ¬ Kept (past ++ [(.publish i, (step s (.publish i)).2)]) (step s (.publish i)).1 := by
  unfold InOrder at h
  push Not at h
  obtain ⟨config, cancelled, read, hholder, hm, hbad⟩ := h
  have hstep : step s (.publish i) =
      ({ s.setManager i ⟨config, cancelled, .idle⟩ with
        configCache := read, areFeaturesInitialized := true }, .done) := by
    simp [step, hholder, hm]
  have hanswer : (step (step s (.publish i)).1 .get).2 = .config read := by
    rw [hstep]
    simp [step, State.setManager, hholder]
  rintro ⟨hclosed, hnil⟩
  rw [hanswer] at hclosed hnil
  cases hopen : isOpen past with
  | false =>
    have hstill : isOpen (past ++ [(.publish i, (step s (.publish i)).2)]) = false := by
      rw [isOpen_append, hopen, hstep]
      rfl
    rcases hclosed hstill with heq | heq <;> cases heq
  | true => exact hnil (congrArg Answer.config (hbad hopen))

/-- The life cycle is kept along a run just if every loop publishes while the store is open, and
not nil. It is so if no loop publishes after its manager was closed. -/
theorem life_cycle_iff (actions : List (Action C)) :
    ((∀ before, before <+: actions →
        Kept (machine.trace start before) (machine.run start before)) ↔
      ∀ before i after, actions = before ++ .publish i :: after →
        InOrder (machine.trace start before) (machine.run start before) i) ∧
    (machine.AllSteps InTime start actions →
      ∀ before, before <+: actions →
        Kept (machine.trace start before) (machine.run start before)) := by
  refine ⟨⟨?_, ?_⟩, ?_⟩
  · intro hkept before i after hsplit
    by_contra hbad
    have hprefix : before ++ [.publish i] <+: actions :=
      ⟨after, by rw [hsplit, List.append_assoc, List.singleton_append]⟩
    have hafter := hkept _ hprefix
    rw [Machine.trace_append, Machine.run_append] at hafter
    exact not_kept_of_not_inOrder hbad hafter
  · rintro hok before ⟨rest, rfl⟩
    refine (inv_run before fun first i after hsplit => ?_).kept
    exact hok first i (after ++ rest) (by rw [hsplit, List.append_assoc, List.cons_append])
  · rintro hintime before ⟨rest, rfl⟩
    have hinv := machine.trace_invariant Inv InTime
      (fun past s a h hok => h.step a (by rintro i rfl; exact h.inOrder hok))
      [] start before inv_start hintime.of_append.1
    exact hinv.kept

/-- `Init`, an update that is stored, and then the steps given. -/
def updateThen (rest : List (Action ℕ)) : List (Action ℕ) :=
  [.initBegin (some 1) true, .initEnd, .take 0 (some 2), .store 0] ++ rest

def publishedInTime : List (Action ℕ) :=
  updateThen [.readConfig 0, .publish 0, .closeBegin, .closeEnd]

def publishedLate : List (Action ℕ) :=
  updateThen [.closeBegin, .closeEnd, .readConfig 0, .publish 0]

/-- An update that is published before `Close` begins. -/
theorem published_before_close :
    Kept (machine.trace start publishedInTime) (machine.run start publishedInTime) := by
  refine (life_cycle_iff publishedInTime).2 ?_ _ List.prefix_rfl
  refine ⟨trivial, trivial, trivial, trivial, trivial, ?_, trivial, trivial, trivial⟩
  rintro m ⟨⟩
  rfl

/-- `Close` between the section that stores an update and the read of the configuration: the
store then reports no error and gives nil, although nothing was initialized since. -/
theorem late_publish_gives_nil :
    isOpen (machine.trace start publishedLate) = false ∧
    (machine.step (machine.run start publishedLate) .get).2 = .config none := by
  exact ⟨rfl, rfl⟩

/-! ### Calls in one piece -/

section Whole

variable {F : Type} {os : Os F} {decoder : Decoder} {w : World F} {s : State FeatureConfig}

/-- The state that whole calls come to: every loop is at its select. -/
structure Shows (w : World F) (s : State FeatureConfig) : Prop where
  package : w.package = ⟨s.featureManager, s.configCache, s.areFeaturesInitialized⟩
  holder : s.holder = .nobody
  installed : s.areFeaturesInitialized = false → s.featureManager = none
  stages : s.managers.map Manager.stage =
    (w.managers.map Manager.watched).map fun watched => if watched then .idle else .stopped

theorem Shows.update (h : Shows w s) (i : ℕ) (entry : Option UpdaterSchema) :
    ∃ actions, Shows (receive os decoder w i entry) (machine.run s actions) := by
  have hpackage := package_receive os decoder w i entry
  have hstages := h.stages
  rw [h.package] at hpackage
  rw [← watched_receive os decoder w i entry] at hstages
  cases haccepted : accepted os decoder w i entry with
  | none =>
    rw [haccepted] at hpackage
    exact ⟨[], hpackage, h.holder, h.installed, hstages⟩
  | some config =>
    rw [haccepted] at hpackage
    obtain ⟨m, hm, hwatch⟩ : ∃ m, w.managers[i]? = some m ∧ m.watched = true := by
      grind [accepted, Manager.watched]
    have hidle : (s.managers.map Manager.stage)[i]? = some .idle := by
      simp [h.stages, hm, hwatch]
    obtain ⟨⟨old, cancelled, _⟩, hget, rfl⟩ :=
      Option.map_eq_some_iff.mp (List.getElem?_map.symm.trans hidle)
    have hself (m) : (s.managers.set i m)[i]? = some m :=
      List.getElem?_set_self (List.getElem?_eq_some_iff.mp hget).1
    -- the loop takes the update, and its other sections follow at once
    refine ⟨[.take i (some config), .store i, .readConfig i, .publish i], ?_⟩
    simp only [machine, Machine.run, step, hget, State.setManager, h.holder, hself, List.set_set]
    refine ⟨hpackage, rfl, Bool.noConfusion, ?_⟩
    rw [← hstages, List.map_set]
    exact (set_eq_self_iff hidle).mpr rfl

theorem Shows.init (h : Shows w s) (opts : Option InitOptions) :
    ∃ actions, Shows (init os decoder w opts) (machine.run s actions) := by
  rw [Features.init]
  split_ifs with hopen
  · exact ⟨[], h⟩
  · cases hnew : newManager os decoder w.fs opts with
    | error => exact ⟨[], h⟩
    | ok m =>
      obtain ⟨hpackage, hholder, hinstalled, hstages⟩ := h
      have hclosed : s.areFeaturesInitialized = false := by simpa [hpackage] using hopen
      have hlength : s.managers.length = w.managers.length := by
        simpa using congrArg List.length hstages
      obtain ⟨config, hconfig⟩ : ∃ config, m.config = some config := by
        unfold newManager at hnew
        split at hnew <;> cases hnew
        exact ⟨_, rfl⟩
      refine ⟨[.initBegin m.config m.watched, .initEnd], ?_⟩
      simp only [machine, Machine.run, step, hholder, hclosed, hconfig, State.closeInstalled,
        hinstalled hclosed, Bool.false_eq_true, if_false]
      refine ⟨?_, rfl, nofun, ?_⟩ <;>
        simp [World.closeManager, hpackage, hinstalled hclosed, hlength, hstages]

theorem Shows.close (h : Shows w s) : ∃ actions, Shows (close w) (machine.run s actions) := by
  refine ⟨[.closeBegin, .closeEnd], ?_⟩
  simp only [machine, Machine.run, step, h.holder]
  refine ⟨rfl, rfl, fun _ => rfl, List.ext_getElem? fun j => ?_⟩
  have hat := congrArg (·[j]?) h.stages
  simp only [List.getElem?_map] at hat ⊢
  rw [Features.close, h.package, State.closeInstalled]
  cases s.featureManager with
  | none => exact hat
  | some i =>
    simp only [World.closeManager, List.getElem?_modify]
    cases hs : s.managers[j]? <;> cases hw : w.managers[j]? <;>
      grind [Manager.close, Features.Manager.close, Manager.watched]

/-- Whatever calls of the package and updates of its managers follow each other, their sections,
one call after the other, come to the same store. -/
theorem calls_shown (fs : F) (calls : List Call) (hcalls : ∀ opts, .newManager opts ∉ calls) :
    ∃ actions, Shows (run os decoder fs calls) (machine.run start actions) := by
  induction calls using List.reverseRecOn with
  | nil => exact ⟨[], rfl, rfl, fun _ => rfl, rfl⟩
  | append_singleton calls call ih =>
    obtain ⟨actions, hshown⟩ := ih fun opts hmem => hcalls opts (List.mem_append_left _ hmem)
    obtain ⟨more, hmore⟩ : ∃ more, Shows ((run os decoder fs calls).apply os decoder call)
        (machine.run (machine.run start actions) more) := by
      cases call with
      | newManager opts => exact absurd (by simp) (hcalls opts)
      | init opts => exact hshown.init opts
      | close => exact hshown.close
      | update i entry => exact hshown.update i entry
    refine ⟨actions ++ more, ?_⟩
    rwa [Machine.run_append, run, List.foldl_append]

end Whole

end Photon.Features.Lifecycle
