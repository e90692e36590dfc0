import Photon.Config.Updates

/-!
The package under concurrent calls. The sections under the locks are the steps; between the
sections of one `LoadE` others may run. Loads that overlap give different instances and leave a
watcher behind that nobody closes. As long as a load starts its watcher only while its manager is
the installed one, and publishes only where no instance is, one instance is returned and one
watcher runs.
-/

namespace Photon.Config

open Photon.Features Photon.Lib

variable {F V : Type}

inductive Phase (V : Type) where
  | idle
  /-- `Init` has made its manager. -/
  | prepared (provider : String) (manager : Manager V)
  /-- `LoadE` has installed the manager at this position. -/
  | loading (manager : ℕ)
  /-- `LoadE` has loaded its manager. -/
  | loaded (cfg : Cfg V)

structure Shared (F V : Type) where
  world : World F V
  goroutines : ℕ → Phase V

/-- The sections, each with its goroutine, and changes of the files by others. -/
inductive Section (F : Type) where
  | initCheck (g : ℕ) (provider : String) (options : Option Options)
  | initInstall (g : ℕ)
  | begin (g : ℕ)
  | load (g : ℕ)
  | publish (g : ℕ)
  | close
  | files (fs : F)

inductive Completed (V : Type) where
  | init (answer : Except String Unit)
  | loadE (answer : Except String (Cfg V))
  | close

def Shared.move (s : Shared F V) (world : World F V) (g : ℕ) (phase : Phase V) : Shared F V :=
  ⟨world, Function.update s.goroutines g phase⟩

/-- A section runs only in its place; otherwise nothing happens. -/
def Shared.step (os : Os F) (parse : Parser V) (s : Shared F V) :
    Section F → Shared F V × Option (Completed V)
  | .initCheck g provider options =>
    match s.goroutines g with
    | .idle =>
      match newManager os s.world.fs (providerOr provider) options with
      | .error e => (s, some (.init (.error e)))
      | .ok manager => (s.move s.world g (.prepared (providerOr provider) manager), none)
    | _ => (s, none)
  | .initInstall g =>
    match s.goroutines g with
    | .prepared provider manager =>
      (s.move (installManager s.world provider manager) g .idle, some (.init (.ok ())))
    | _ => (s, none)
  | .begin g =>
    match s.goroutines g with
    | .idle =>
      match loadBegin os s.world with
      | (w, .returned answer) => (s.move w g .idle, some (.loadE answer))
      | (w, .loading i) => (s.move w g (.loading i), none)
    | _ => (s, none)
  | .load g =>
    match s.goroutines g with
    | .loading i =>
      match loadManager os parse s.world i with
      | (w, .error e) => (s.move w g .idle, some (.loadE (.error e)))
      | (w, .ok cfg) => (s.move w g (.loaded cfg), none)
    | _ => (s, none)
  | .publish g =>
    match s.goroutines g with
    | .loaded cfg => (s.move (publish s.world cfg) g .idle, some (.loadE (.ok cfg)))
    | _ => (s, none)
  | .close => ({ s with world := close s.world }, some .close)
  | .files fs => ({ s with world := { s.world with fs := fs } }, none)

def concurrent (os : Os F) (parse : Parser V) :
    Machine (Shared F V) (Section F) (Option (Completed V)) := ⟨Shared.step os parse⟩

def Shared.start (fs : F) : Shared F V := ⟨World.start fs, fun _ => .idle⟩

/-! ### What is promised -/

abbrev History (F V : Type) := List (Section F × Option (Completed V))

/-- The configurations that `LoadE` has returned since the last `Init` or `Close`. -/
def returned (past : History F V) : List (Cfg V) :=
  past.foldl (fun cfgs event =>
    match event.2 with
    | some (.loadE (.ok cfg)) => cfgs ++ [cfg]
    | some (.init (.ok ())) => []
    | some .close => []
    | _ => cfgs) []

def lastCompleted (past : History F V) : Option (Completed V) :=
  past.foldl (fun last event => event.2.or last) none

def World.Watching (w : World F V) : Prop :=
  ∀ i m, w.managers[i]? = some m → m.cancel = true → w.cManager = some i

/-- A load that starts a watcher runs only while its manager is the installed one, and a
configuration is published only where there is no instance. -/
def Undisturbed (s : Shared F V) : Section F → Prop
  | .load g => ∀ i m, s.goroutines g = .loading i → s.world.managers[i]? = some m →
      m.options.enableWatch = true → s.world.cManager = some i
  | .publish g => ∀ cfg, s.goroutines g = .loaded cfg → s.world.cInstance = none
  | _ => True

/-- No manager that a goroutine has prepared watches yet. -/
def Shared.Fresh (s : Shared F V) : Prop :=
  ∀ g provider manager, s.goroutines g = .prepared provider manager → manager.cancel = false

structure Kept (past : History F V) (s : Shared F V) : Prop where
  returned : ∀ cfg ∈ returned past, s.world.cInstance = some cfg
  watching : s.world.Watching
  closed : lastCompleted past = some .close → s.world.cInstance = none
  prepared : s.Fresh

/-! ### Watchers -/

variable {w : World F V}

theorem World.watching_of_forall (h : ∀ m ∈ w.managers, m.cancel = false) : w.Watching := by
  intro i m hm hcancel
  exact absurd hcancel (Bool.eq_false_iff.mp (h m (List.mem_of_getElem? hm)))

/-- Closing the installed manager stops every watcher. -/
theorem World.Watching.closeManager (h : w.Watching) :
    ∀ m ∈ w.closeManager.managers, m.cancel = false := by
  intro m hm
  obtain ⟨i, hi⟩ := List.getElem?_of_mem hm
  by_contra hcancel
  have htrue := Bool.eq_true_of_not_eq_false hcancel
  rcases Option.eq_none_or_eq_some w.cManager with hnone | ⟨j, hj⟩
  · simp only [World.closeManager, hnone] at hi
    exact absurd (hnone.symm.trans (h i m hi htrue)) (by simp)
  · rw [closeManager_of_some hj] at hi
    by_cases hji : j = i
    · subst hji
      rw [List.getElem?_modify_eq] at hi
      obtain ⟨old, -, rfl⟩ := Option.map_eq_some_iff.mp hi
      exact hcancel rfl
    · rw [List.getElem?_modify_ne _ _ hji] at hi
      exact hji (Option.some.inj (hj.symm.trans (h i m hi htrue)))

/-- Installing a manager without a watcher leaves no watcher. -/
theorem World.watching_of_append {w next : World F V} (h : w.Watching) {m : Manager V}
    (hm : m.cancel = false) (hnext : next.managers = w.closeManager.managers ++ [m]) :
    next.Watching := by
  refine watching_of_forall fun other hother => ?_
  rw [hnext] at hother
  rcases List.mem_append.mp hother with hold | hnew
  · exact h.closeManager other hold
  · rw [List.mem_singleton.mp hnew]
    exact hm

variable {os : Os F} {parse : Parser V}

/-- The first section of `LoadE` leaves the instance, and returns no other one. -/
theorem loadBegin_spec (os : Os F) (h : w.Watching) :
    (loadBegin os w).1.Watching ∧ (loadBegin os w).1.cInstance = w.cInstance ∧
      ∀ cfg, (loadBegin os w).2 = .returned (.ok cfg) → w.cInstance = some cfg := by
  rw [loadBegin]
  cases hinstance : w.cInstance with
  | some cfg =>
    refine ⟨h, hinstance, fun other hother => ?_⟩
    cases hother
    rfl
  | none =>
    cases hoptions : w.cOptions with
    | none => exact ⟨h, hinstance, fun cfg hcfg => by cases hcfg⟩
    | some options =>
      dsimp only
      cases hnew : newManager os w.fs w.cProvider (some options) with
      | error e =>
        exact ⟨World.watching_of_forall h.closeManager,
          w.cInstance_closeManager.trans hinstance, fun cfg hcfg => by cases hcfg⟩
      | ok m =>
        exact ⟨World.watching_of_append h (newManager_fresh hnew).1 rfl,
          w.cInstance_closeManager.trans hinstance, fun cfg hcfg => by cases hcfg⟩

theorem Manager.load_cancel {fs : F} {id : ℕ} {m next : Manager V} {cfg : Cfg V}
    (h : m.load os parse fs id = .ok (cfg, next)) (hcancel : next.cancel = true) :
    m.cancel = true ∨ m.options.enableWatch = true := by
  rw [load] at h
  cases hconfig : m.config with
  | some config =>
    rw [hconfig] at h
    cases h
    exact Or.inl hcancel
  | none =>
    rw [hconfig] at h
    obtain ⟨values, _, hnext⟩ := bind_eq_ok_iff.mp h
    cases hnext
    rw [startWatcherLocked] at hcancel
    split_ifs at hcancel with hquiet
    · exact Or.inl hcancel
    · simp only [Bool.or_eq_true, Bool.not_eq_true', not_or] at hquiet
      exact Or.inr (Bool.eq_true_of_not_eq_false hquiet.1.2)

/-- A load starts a watcher only behind its own manager. -/
theorem loadManager_spec (os : Os F) (parse : Parser V) (h : w.Watching) {i : ℕ}
    (hi : ∀ m, w.managers[i]? = some m → m.options.enableWatch = true → w.cManager = some i) :
    (loadManager os parse w i).1.Watching ∧
      (loadManager os parse w i).1.cInstance = w.cInstance := by
  rw [loadManager]
  cases hm : w.managers[i]? with
  | none => exact ⟨h, rfl⟩
  | some m =>
    dsimp only
    cases hload : m.load os parse w.fs w.allocated with
    | error e => exact ⟨h, rfl⟩
    | ok loaded =>
      obtain ⟨cfg, next⟩ := loaded
      refine ⟨fun j other hother hcancel => ?_, rfl⟩
      by_cases hij : i = j
      · subst hij
        obtain ⟨hlt, -⟩ := List.getElem?_eq_some_iff.mp hm
        rw [List.getElem?_set_self hlt] at hother
        cases hother
        rcases Manager.load_cancel hload hcancel with hold | hwatch
        · exact h i m hm hold
        · exact hi m hm hwatch
      · rw [List.getElem?_set_ne hij] at hother
        exact h j other hother hcancel

/-! ### One section -/

theorem returned_concat (past : History F V) (event : Section F × Option (Completed V)) :
    returned (past ++ [event]) =
      match event.2 with
      | some (.loadE (.ok cfg)) => returned past ++ [cfg]
      | some (.init (.ok ())) => []
      | some .close => []
      | _ => returned past := by
  rw [returned, List.foldl_concat]
  rfl

theorem lastCompleted_concat (past : History F V) (event : Section F × Option (Completed V)) :
    lastCompleted (past ++ [event]) = event.2.or (lastCompleted past) := by
  rw [lastCompleted, List.foldl_concat]
  rfl

namespace Kept

variable {past : History F V} {s : Shared F V}

/-- A goroutine that moves to another phase, with a fresh manager if it has prepared one. -/
theorem prepared_move (h : Kept past s) {g : ℕ} {phase : Phase V} (world : World F V)
    (hphase : ∀ provider manager, phase = .prepared provider manager → manager.cancel = false) :
    (s.move world g phase).Fresh := by
  intro other provider manager hother
  by_cases hg : other = g
  · subst hg
    simp only [Shared.move, Function.update_self] at hother
    exact hphase provider manager hother
  · simp only [Shared.move, Function.update_of_ne hg] at hother
    exact h.prepared other provider manager hother

variable {action : Section F} {next : Shared F V}

/-- A section that returns nothing, or an error. -/
theorem pass (h : Kept past s) {answer : Option (Completed V)}
    (hanswer : answer = none ∨ (∃ e, answer = some (.init (.error e))) ∨ ∃ e, answer =
      some (.loadE (.error e))) (hinstance : next.world.cInstance = s.world.cInstance)
    (hwatching : next.world.Watching)
    (hprepared : next.Fresh) : Kept (past ++ [(action, answer)]) next := by
  have hreturned : Config.returned (past ++ [(action, answer)]) = Config.returned past := by
    rw [returned_concat]
    obtain rfl | ⟨e, rfl⟩ | ⟨e, rfl⟩ := hanswer <;> rfl
  have hlast : lastCompleted (past ++ [(action, answer)]) = some .close →
      lastCompleted past = some .close := by
    rw [lastCompleted_concat]
    obtain rfl | ⟨e, rfl⟩ | ⟨e, rfl⟩ := hanswer
    · exact id
    · intro hclose
      cases hclose
    · intro hclose
      cases hclose
  refine ⟨?_, hwatching, fun hclose => ?_, hprepared⟩
  · rw [hreturned, hinstance]
    exact h.returned
  · rw [hinstance]
    exact h.closed (hlast hclose)

/-- A `LoadE` that returns the instance. -/
theorem load (h : Kept past s) {cfg : Cfg V} (hcfg : next.world.cInstance = some cfg)
    (hinstance : ∀ old, s.world.cInstance = some old → old = cfg)
    (hwatching : next.world.Watching)
    (hprepared : next.Fresh) : Kept (past ++ [(action, some (.loadE (.ok cfg)))]) next := by
  refine ⟨fun other hother => ?_, hwatching, fun hclose => ?_, hprepared⟩
  · rw [returned_concat] at hother
    rcases List.mem_append.mp hother with hold | hnew
    · rw [hinstance other (h.returned other hold)]
      exact hcfg
    · rw [List.mem_singleton.mp hnew]
      exact hcfg
  · rw [lastCompleted_concat] at hclose
    cases hclose

/-- `Init` and `Close` leave no instance. -/
theorem reset {completed : Completed V}
    (hcompleted : completed = .init (.ok ()) ∨ completed = .close)
    (hinstance : next.world.cInstance = none) (hwatching : next.world.Watching)
    (hprepared : next.Fresh) : Kept (past ++ [(action, some completed)]) next := by
  have hreturned : Config.returned (past ++ [(action, some completed)]) = [] := by
    rw [returned_concat]
    obtain rfl | rfl := hcompleted <;> rfl
  refine ⟨fun cfg hcfg => ?_, hwatching, fun _ => hinstance, hprepared⟩
  rw [hreturned] at hcfg
  cases hcfg

/-- A section in its place keeps what was promised. -/
theorem step (h : Kept past s) (hok : Undisturbed s action) :
    Kept (past ++ [(action, (s.step os parse action).2)]) (s.step os parse action).1 := by
  have hskip : Kept (past ++ [(action, none)]) s :=
    h.pass (Or.inl rfl) rfl h.watching h.prepared
  cases action with
  | initCheck g provider options =>
    rw [Shared.step]
    cases hphase : s.goroutines g with
    | idle =>
      cases hnew : newManager os s.world.fs (providerOr provider) options with
      | error e => exact h.pass (Or.inr (Or.inl ⟨e, rfl⟩)) rfl h.watching h.prepared
      | ok m =>
        refine h.pass (Or.inl rfl) rfl h.watching (h.prepared_move _ ?_)
        intro other manager hother
        cases hother
        exact (newManager_fresh hnew).1
    | prepared provider manager => exact hskip
    | loading i => exact hskip
    | loaded cfg => exact hskip
  | initInstall g =>
    rw [Shared.step]
    cases hphase : s.goroutines g with
    | prepared provider manager =>
      have hfresh := h.prepared g provider manager hphase
      refine reset (Or.inl rfl) rfl (World.watching_of_append h.watching hfresh rfl)
        (h.prepared_move _ ?_)
      intro other manager hother
      cases hother
    | idle => exact hskip
    | loading i => exact hskip
    | loaded cfg => exact hskip
  | begin g =>
    rw [Shared.step]
    cases hphase : s.goroutines g with
    | idle =>
      obtain ⟨hwatching, hinstance, hreturns⟩ := loadBegin_spec os h.watching
      rcases hbegin : loadBegin os s.world with ⟨w, answer | i⟩
      · rw [hbegin] at hwatching hinstance hreturns
        have hprepared : (s.move w g .idle).Fresh := h.prepared_move w nofun
        cases answer with
        | error e => exact h.pass (Or.inr (Or.inr ⟨e, rfl⟩)) hinstance hwatching hprepared
        | ok cfg =>
          have hcfg := hreturns cfg rfl
          refine h.load (hinstance.trans hcfg) (fun old hold => ?_) hwatching hprepared
          exact Option.some.inj (hold.symm.trans hcfg)
      · rw [hbegin] at hwatching hinstance
        exact h.pass (Or.inl rfl) hinstance hwatching (h.prepared_move w nofun)
    | prepared provider manager => exact hskip
    | loading i => exact hskip
    | loaded cfg => exact hskip
  | load g =>
    rw [Shared.step]
    cases hphase : s.goroutines g with
    | loading i =>
      dsimp only
      obtain ⟨hwatching, hinstance⟩ :=
        loadManager_spec os parse h.watching (fun m => hok i m hphase)
      rcases hload : loadManager os parse s.world i with ⟨w, e | cfg⟩
      · rw [hload] at hwatching hinstance
        exact h.pass (Or.inr (Or.inr ⟨e, rfl⟩)) hinstance hwatching (h.prepared_move w nofun)
      · rw [hload] at hwatching hinstance
        exact h.pass (Or.inl rfl) hinstance hwatching (h.prepared_move w nofun)
    | idle => exact hskip
    | prepared provider manager => exact hskip
    | loaded cfg => exact hskip
  | publish g =>
    rw [Shared.step]
    cases hphase : s.goroutines g with
    | loaded cfg =>
      have hnone := hok cfg hphase
      refine h.load rfl (fun old hold => ?_) h.watching (h.prepared_move _ nofun)
      exact absurd (hnone.symm.trans hold) (by simp)
    | idle => exact hskip
    | prepared provider manager => exact hskip
    | loading i => exact hskip
  | close =>
    refine reset (Or.inr rfl) rfl ?_ h.prepared
    exact World.watching_of_forall h.watching.closeManager
  | files fs => exact h.pass (Or.inl rfl) rfl h.watching h.prepared

end Kept

/-- In every undisturbed run all calls of `LoadE` since the last `Init` or `Close` have returned
one instance, watchers run only behind the installed manager, and there is no instance after
`Close`. -/
theorem config_singleton (os : Os F) (parse : Parser V) (fs : F) (actions : List (Section F))
    (hsteps : (concurrent os parse).AllSteps Undisturbed (Shared.start fs) actions) :
    (∀ cfg ∈ returned ((concurrent os parse).trace (Shared.start fs) actions),
      ∀ other ∈ returned ((concurrent os parse).trace (Shared.start fs) actions), cfg = other) ∧
    ((concurrent os parse).run (Shared.start fs) actions).world.Watching ∧
    (lastCompleted ((concurrent os parse).trace (Shared.start fs) actions) = some .close →
      ((concurrent os parse).run (Shared.start fs) actions).world.cInstance = none) := by
  have hstart : Kept [] (Shared.start fs : Shared F V) := by
    refine ⟨fun cfg hcfg => ?_, fun i m hm => ?_, fun _ => rfl, fun g provider manager h => ?_⟩
    · cases hcfg
    · cases hm
    · cases h
  have hkept := (concurrent os parse).trace_invariant Kept Undisturbed
    (fun past s action h hok => h.step hok) [] (Shared.start fs) actions hstart hsteps
  rw [List.nil_append] at hkept
  refine ⟨fun cfg hcfg other hother => ?_, hkept.watching, hkept.closed⟩
  exact Option.some.inj ((hkept.returned cfg hcfg).symm.trans (hkept.returned other hother))

def oneLoader : List (Section (String → String)) :=
  [.initCheck 0 "" (some fromFile), .initInstall 0, .begin 1, .load 1, .publish 1]

theorem oneLoader_singleton :
    ((concurrent plainOs twoVersions).run (Shared.start fun _ => "v1")
      oneLoader).world.Watching := by
  refine (config_singleton plainOs twoVersions (fun _ => "v1") oneLoader
    ⟨trivial, trivial, trivial, fun i m hphase _ _ => ?_, fun cfg _ => rfl, trivial⟩).2.1
  cases hphase
  rfl

/-- Two calls of `LoadE` that both find no instance. -/
def twoLoaders : List (Section (String → String)) :=
  [.initCheck 0 "" (some fromFile), .initInstall 0, .begin 1, .begin 2, .load 1, .publish 1,
    .load 2, .publish 2]

/-- They return different instances, and the watcher of the first one runs on. -/
theorem twoLoaders_differ :
    returned ((concurrent plainOs twoVersions).trace (Shared.start fun _ => "v1") twoLoaders) =
        [⟨0, "v1"⟩, ⟨1, "v1"⟩] ∧
      ((concurrent plainOs twoVersions).run (Shared.start fun _ => "v1")
        twoLoaders).world.cManager = some 2 ∧
      ((concurrent plainOs twoVersions).run (Shared.start fun _ => "v1")
        twoLoaders).world.managers.map (·.cancel) = [false, true, true] :=
  ⟨rfl, rfl, rfl⟩

end Photon.Config
