import Photon.Config.Loader
import Photon.Lib.Machine

/-!
Updates of a configuration. A rejected update has already been written to the file or to the
options. An accepted one reaches the configuration of its manager, but `LoadE` answers with the
package's own instance, which no update of a manager changes.
-/

namespace Photon.Config

open Photon.Features Photon.Lib

variable {F V C : Type}

/-! ### Rejected updates -/

variable (os : Os F)

def placedIn (fs : F) (opts : Options) (entry : Option UpdaterSchema) : F × Options :=
  let (fs, content) := placed os sourceFile sourceRawBytes fs opts.filePath opts.content entry
  (fs, { opts with content := content })

theorem reload_state (parse : Parser V) (fs : F) (opts : Options) :
    (reload os parse fs opts).1 = fs ∧ (reload os parse fs opts).2.1 = opts := by
  rw [reload]
  cases newKoanf os parse fs opts <;> exact ⟨rfl, rfl⟩

/-- However the loading ends, the entry stays where it was put. -/
theorem loadEntry_state (parse : Parser V) (fs : F) (opts : Options)
    (entry : Option UpdaterSchema) :
    (loadEntry os parse fs opts entry).1 = (placedIn os fs opts entry).1 ∧
      (loadEntry os parse fs opts entry).2.1 = (placedIn os fs opts entry).2 := by
  cases entry with
  | none => exact ⟨rfl, rfl⟩
  | some entry =>
    rw [loadEntry, placedIn, placed]
    split_ifs
    · cases hwrite : writeFile os fs opts.filePath entry.content with
      | mk fs failed =>
        cases failed with
        | some e => exact ⟨rfl, rfl⟩
        | none => exact reload_state os parse fs opts
    · exact reload_state os parse fs _
    · exact reload_state os parse fs opts

theorem Koanf.applyUpdate_failed {os : Os F} {parse : Parser V} {publish : V → C} {fs : F}
    {k : Koanf C} {entry : Option UpdaterSchema} {logged : String}
    (h : (k.applyUpdate os parse publish fs entry).2.2 = .failed logged) :
    (k.applyUpdate os parse publish fs entry).1 = (placedIn os fs k.opts entry).1 ∧
      (k.applyUpdate os parse publish fs entry).2.1 =
        ⟨(placedIn os fs k.opts entry).2, k.active⟩ := by
  obtain ⟨hfs, hopts⟩ := loadEntry_state os parse fs k.opts entry
  rw [applyUpdate] at h ⊢
  rw [← hfs, ← hopts]
  cases hentry : loadEntry os parse fs k.opts entry with
  | mk fs rest =>
    obtain ⟨opts, result⟩ := rest
    rw [hentry] at h
    cases result with
    | ignored | failed => exact ⟨rfl, rfl⟩
    | loaded values => cases h

/-- The file, the content of the options and the active configuration are as before. -/
def Unchanged (fs fs' : F) (k k' : Koanf C) : Prop :=
  SameFile os fs fs' k.opts.filePath ∧ k'.opts.content = k.opts.content ∧ k'.active = k.active

def Harmless (fs : F) (opts : Options) : Option UpdaterSchema → Prop :=
  HarmlessEntry os sourceFile sourceRawBytes (SameFile os fs · opts.filePath) fs opts.filePath
    opts.content

/-- An instance is loaded alike from a file that looks the same. -/
theorem newKoanf_congr {os : Os F} {fs fs' : F} {opts : Options}
    (h : SameFile os fs fs' opts.filePath) (parse : Parser V) :
    newKoanf os parse fs' opts = newKoanf os parse fs opts := by
  have hvalid : opts.validate os fs' = opts.validate os fs := by
    simp [Options.validate, h.isReadableFile_eq]
  have hdata : configData os fs' opts = configData os fs opts := by
    rw [configData, configData, h.2]
  rw [newKoanf, newKoanf, hvalid, hdata]

/-- A rejected update changes nothing just if it was harmless, and then a restart from the same
options loads what it would have loaded before. -/
theorem rejected_config_update_unchanged_iff (os : Os F) (parse : Parser V) (publish : V → C)
    (fs : F) (k : Koanf C) (entry : Option UpdaterSchema) (logged : String)
    (hfailed : (k.applyUpdate os parse publish fs entry).2.2 = .failed logged) :
    (Unchanged os fs (k.applyUpdate os parse publish fs entry).1 k
        (k.applyUpdate os parse publish fs entry).2.1 ↔ Harmless os fs k.opts entry) ∧
      (Harmless os fs k.opts entry →
        newKoanf os parse (k.applyUpdate os parse publish fs entry).1 k.opts =
          newKoanf os parse fs k.opts) := by
  obtain ⟨hfs, hk⟩ := Koanf.applyUpdate_failed hfailed
  rw [hfs, hk, Harmless, ← placed_unchanged_iff os (by decide) ⟨rfl, rfl⟩]
  refine ⟨?_, fun hharmless => newKoanf_congr hharmless.1 parse⟩
  simp [Unchanged, placedIn]

def twoVersions : Parser String := fun _ content =>
  if content = "v1" ∨ content = "v2" then .ok content else .error "not a configuration"

def fromFile : Options :=
  ⟨sourceFile, formatJson, "config.json", "", ".", true, some ⟨some "ConfigWatcher"⟩⟩

/-- An update of a configuration that was loaded from its file, which holds `content` by now. -/
def updated (content : String) (entry : UpdaterSchema) :
    (String → String) × Koanf String × UpdateResult String :=
  Koanf.applyUpdate plainOs twoVersions id (fun _ => content) ⟨fromFile, some "v1"⟩ (some entry)

/-- An entry of an unknown source is rejected when the file was broken by others, and changes
nothing. -/
theorem unknown_source_unchanged :
    Unchanged plainOs (fun _ => "draft") (updated "draft" ⟨7, "v2"⟩).1 ⟨fromFile, some "v1"⟩
      (updated "draft" ⟨7, "v2"⟩).2.1 :=
  (rejected_config_update_unchanged_iff plainOs twoVersions id (fun _ => "draft")
    ⟨fromFile, some "v1"⟩ (some ⟨7, "v2"⟩)
    "[Config::Koanf] Error reloading config: error loading config: not a configuration" rfl).1.mpr
    ⟨fun h => absurd h (by decide), fun h => absurd h (by decide)⟩

/-- A rejected update stays in the file, and a restart fails. -/
theorem rejected_config_update_overwrites_file :
    (updated "v1" ⟨sourceFile, "draft"⟩).2.2 =
      .failed "[Config::Koanf] Error reloading config: error loading config: not a configuration" ∧
    (updated "v1" ⟨sourceFile, "draft"⟩).1 "config.json" = "draft" ∧
    newKoanf plainOs twoVersions (fun _ => "v1") fromFile = .ok "v1" ∧
    newKoanf plainOs twoVersions (updated "v1" ⟨sourceFile, "draft"⟩).1 fromFile =
      .error "error loading config: not a configuration" := by
  refine ⟨rfl, ?_, rfl, rfl⟩
  decide +kernel

/-! ### Accepted updates -/

section Visibility

variable (os : Os F) (parse : Parser V)

/-- What the program does with the package, the updates that update loops take, and changes of
the files by others. -/
inductive Call (F : Type) where
  | init (provider : String) (options : Option Options)
  | loadE
  | close
  | update (i : ℕ) (entry : Option UpdaterSchema)
  | files (fs : F)

def UpdateResult.values? : UpdateResult V → Option V
  | .loaded values => some values
  | _ => none

/-- The package with the values of the last update that its manager has accepted since `Init`. -/
structure Watched (F V : Type) where
  world : World F V
  latest : Option V

variable (s : Watched F V)

def Watched.call : Call F → Watched F V
  | .init provider options =>
    match init os s.world provider options with
    | (w, .ok ()) => ⟨w, none⟩
    | (w, .error _) => ⟨w, s.latest⟩
  | .loadE => ⟨(loadE os parse s.world).1, s.latest⟩
  | .close => ⟨close s.world, none⟩
  | .update i entry =>
    ⟨(receive os parse s.world i entry).1,
      if s.world.cManager = some i then
        (receive os parse s.world i entry).2.values?.or s.latest
      else s.latest⟩
  | .files fs => ⟨{ s.world with fs := fs }, s.latest⟩

def sequential : Machine (Watched F V) (Call F) Unit := ⟨fun s call => (s.call os parse call, ())⟩

/-- `LoadE` would answer with the values of the last accepted update. -/
def Watched.Visible : Prop :=
  ∀ values, s.latest = some values →
    ∃ cfg, (loadE os parse s.world).2 = .ok cfg ∧ cfg.values = values

/-- An update that the installed manager accepts brings the values that the instance has. -/
def BringsNothingNew : Call F → Prop
  | .update i entry => s.world.cManager = some i → ∀ values,
      (receive os parse s.world i entry).2.values? = some values →
      ∀ cfg, s.world.cInstance = some cfg → cfg.values = values
  | _ => True

def World.Idle (w : World F V) : Prop :=
  ∀ i m, w.cManager = some i → w.managers[i]? = some m → m.started = false

/-- Update loops run, and updates are accepted, only behind an instance. -/
def Watched.Loaded : Prop :=
  s.world.cInstance = none → s.world.Idle ∧ s.latest = none

variable {os parse} {w : World F V}

theorem World.Idle.closeManager (h : w.Idle) : w.closeManager.Idle := by
  intro i m hi hm
  rw [cManager_closeManager] at hi
  rw [closeManager_of_some hi, List.getElem?_modify_eq] at hm
  obtain ⟨old, hold, rfl⟩ := Option.map_eq_some_iff.mp hm
  exact h i old hi hold

/-- A manager that was just created has no update loop. -/
theorem World.idle_of_append {managers : List (Manager V)} {m : Manager V}
    (hmanagers : w.managers = managers ++ [m]) (hcurrent : w.cManager = some managers.length)
    (hm : m.started = false) : w.Idle := by
  intro i other hi hother
  obtain rfl : managers.length = i := Option.some.inj (hcurrent.symm.trans hi)
  rw [hmanagers, List.getElem?_concat_length] at hother
  exact Option.some.inj hother ▸ hm

/-- A manager that cannot be loaded is left as it was. -/
theorem loadManager_error {w next : World F V} {i : ℕ} {e : String}
    (h : loadManager os parse w i = (next, .error e)) : next = w := by
  rw [loadManager] at h
  cases hm : w.managers[i]? with
  | none =>
    rw [hm] at h
    exact (Prod.mk.inj h).1.symm
  | some m =>
    rw [hm] at h
    dsimp only at h
    cases hload : m.load os parse w.fs w.allocated with
    | error e =>
      rw [hload] at h
      exact (Prod.mk.inj h).1.symm
    | ok loaded =>
      rw [hload] at h
      exact absurd (Prod.mk.inj h).2 (by simp)

theorem loadE_of_instance {cfg : Cfg V} (h : w.cInstance = some cfg) :
    loadE os parse w = (w, .ok cfg) := by
  rw [loadE, loadBegin, h]

/-- A call of `LoadE` that finds no instance gives one, or leaves none and no update loop. -/
theorem loadE_spec (hidle : w.Idle) (h : w.cInstance = none) :
    (∃ cfg, (loadE os parse w).1.cInstance = some cfg) ∨
      (loadE os parse w).1.cInstance = none ∧ (loadE os parse w).1.Idle := by
  rw [loadE, loadBegin, h]
  cases hoptions : w.cOptions with
  | none => exact Or.inr ⟨h, hidle⟩
  | some options =>
    dsimp only
    cases hnew : newManager os w.fs w.cProvider (some options) with
    | error e => exact Or.inr ⟨w.cInstance_closeManager.trans h, hidle.closeManager⟩
    | ok m =>
      dsimp only
      cases hload : loadManager os parse
          { w.closeManager with
            cManager := some w.managers.length
            managers := w.closeManager.managers ++ [m] } w.managers.length with
      | mk next answer =>
        cases answer with
        | ok cfg => exact Or.inl ⟨cfg, rfl⟩
        | error e =>
          have hsame := loadManager_error hload
          rw [hsame]
          refine Or.inr ⟨w.cInstance_closeManager.trans h, ?_⟩
          exact World.idle_of_append rfl
            (congrArg some w.length_closeManager.symm) (newManager_fresh hnew).2

/-- An update leaves the instance alone; an idle package stays idle and accepts none. -/
theorem receive_spec (os : Os F) (parse : Parser V) (w : World F V) (i : ℕ)
    (entry : Option UpdaterSchema) :
    (receive os parse w i entry).1.cInstance = w.cInstance ∧
      (w.Idle → (receive os parse w i entry).1.Idle) ∧
      (w.Idle → w.cManager = some i → (receive os parse w i entry).2.values? = none) := by
  rw [receive]
  cases hm : w.managers[i]? with
  | none => exact ⟨rfl, id, fun _ _ => rfl⟩
  | some m =>
    dsimp only
    split_ifs with hstarted
    · refine ⟨rfl, fun hidle j other hj hother => ?_, fun hidle hi => ?_⟩
      · by_cases hji : i = j
        · subst hji
          exact absurd hstarted (Bool.eq_false_iff.mp (hidle i m hj hm))
        · rw [List.getElem?_set_ne hji] at hother
          exact hidle j other hj hother
      · exact absurd hstarted (Bool.eq_false_iff.mp (hidle i m hi hm))
    · exact ⟨rfl, id, fun _ _ => rfl⟩

/-- `Init` leaves an idle package without an instance, or everything as it was. -/
theorem Watched.call_init (os : Os F) (parse : Parser V) (s : Watched F V) (provider : String)
    (options : Option Options) :
    ((s.call os parse (.init provider options)).world.Idle ∧
        (s.call os parse (.init provider options)).latest = none) ∨
      s.call os parse (.init provider options) = s := by
  rw [Watched.call, init]
  cases hnew : newManager os s.world.fs (providerOr provider) options with
  | error e => exact Or.inr rfl
  | ok m =>
    refine Or.inl ⟨?_, rfl⟩
    exact World.idle_of_append rfl (congrArg some s.world.length_closeManager.symm)
      (newManager_fresh hnew).2

theorem Watched.Loaded.call {s : Watched F V} (h : s.Loaded) (call : Call F) :
    (s.call os parse call).Loaded := by
  intro hnone
  cases call with
  | init provider options =>
    obtain hidle | hsame := s.call_init os parse provider options
    · exact hidle
    · rw [hsame] at hnone ⊢
      exact h hnone
  | loadE =>
    cases hinstance : s.world.cInstance with
    | some cfg =>
      have hsame : (loadE os parse s.world).1 = s.world := by rw [loadE_of_instance hinstance]
      exact absurd ((congrArg World.cInstance hsame).symm.trans hnone) (by simp [hinstance])
    | none =>
      obtain ⟨hidle, hlatest⟩ := h hinstance
      obtain ⟨cfg, hcfg⟩ | ⟨-, hafter⟩ := loadE_spec hidle hinstance
      · exact absurd (hcfg.symm.trans hnone) (by simp)
      · exact ⟨hafter, hlatest⟩
  | close => exact ⟨fun i m hi => (by cases hi), rfl⟩
  | update i entry =>
    obtain ⟨hinstance, hkeeps, hrefuses⟩ := receive_spec os parse s.world i entry
    obtain ⟨hidle, hlatest⟩ := h (hinstance.symm.trans hnone)
    refine ⟨hkeeps hidle, ?_⟩
    simp only [Watched.call]
    split_ifs with hcurrent
    · rw [hrefuses hidle hcurrent, hlatest, Option.none_or]
    · exact hlatest
  | files fs => exact h hnone

theorem Watched.Loaded.visible_iff {s : Watched F V} (h : s.Loaded) :
    s.Visible os parse ↔ ∀ values, s.latest = some values →
      ∀ cfg, s.world.cInstance = some cfg → cfg.values = values := by
  refine forall₂_congr fun values hvalues => ?_
  cases hinstance : s.world.cInstance with
  | none => exact absurd ((h hinstance).2.symm.trans hvalues) (by simp)
  | some cfg => simp [loadE_of_instance hinstance]

/-- A call keeps the values visible just if it brings nothing new. -/
theorem Watched.Loaded.visible_call_iff {s : Watched F V} (h : s.Loaded)
    (hvisible : s.Visible os parse) (call : Call F) :
    (s.call os parse call).Visible os parse ↔ BringsNothingNew os parse s call := by
  rw [(h.call call).visible_iff]
  rw [h.visible_iff] at hvisible
  cases call with
  | init provider options =>
    refine iff_of_true ?_ trivial
    obtain ⟨-, hlatest⟩ | hsame := s.call_init os parse provider options
    · simp [hlatest]
    · rw [hsame]
      exact hvisible
  | loadE =>
    refine iff_of_true (fun values hvalues => ?_) trivial
    cases hinstance : s.world.cInstance with
    | none => exact absurd ((h hinstance).2.symm.trans hvalues) (by simp)
    | some cfg =>
      have hsame : (s.call os parse .loadE).world = s.world := by
        rw [Watched.call, loadE_of_instance hinstance]
      rw [hsame]
      exact hvisible values hvalues
  | close => exact iff_of_true (fun values hvalues => by cases hvalues) trivial
  | update i entry =>
    have hinstance : (s.call os parse (.update i entry)).world.cInstance = s.world.cInstance :=
      (receive_spec os parse s.world i entry).1
    rw [hinstance, BringsNothingNew]
    simp only [Watched.call]
    split_ifs with hcurrent
    · constructor
      · intro hafter _ values hvalues
        exact hafter values (by rw [hvalues, Option.some_or])
      · intro hnothing values hvalues
        cases hloaded : (receive os parse s.world i entry).2.values? with
        | none =>
          rw [hloaded, Option.none_or] at hvalues
          exact hvisible values hvalues
        | some loaded =>
          rw [hloaded, Option.some_or] at hvalues
          exact hnothing hcurrent values (hloaded.trans hvalues)
    · exact iff_of_true hvisible fun hi => absurd hi hcurrent
  | files fs => exact iff_of_true hvisible trivial

/-- `LoadE` would answer with the last accepted values all along a run just if every accepted
update brings the values that are there already. -/
theorem updates_visible_iff (os : Os F) (parse : Parser V) (fs : F) (calls : List (Call F)) :
    (∀ before, before <+: calls →
        ((sequential os parse).run ⟨World.start fs, none⟩ before).Visible os parse) ↔
      (sequential os parse).AllSteps (BringsNothingNew os parse) ⟨World.start fs, none⟩ calls := by
  refine (sequential os parse).forall_prefix_iff_allSteps Watched.Loaded
    (Watched.Visible os parse) (BringsNothingNew os parse) (fun s call h => h.call call)
    (fun s call h hvisible => h.visible_call_iff hvisible call) _ calls ?_ ?_
  · exact fun _ => ⟨fun i m hi => (by cases hi), rfl⟩
  · intro values hvalues
    cases hvalues

/-- `Init` and `LoadE` from a file that holds the text `v1`, then an update. -/
def loadThenUpdate (content : String) : List (Call (String → String)) :=
  [.init "" (some fromFile), .loadE, .update 1 (some ⟨sourceFile, content⟩)]

theorem same_values_visible :
    ((sequential plainOs twoVersions).run ⟨World.start fun _ => "v1", none⟩
      (loadThenUpdate "v1")).Visible plainOs twoVersions := by
  refine (updates_visible_iff plainOs twoVersions (fun _ => "v1") (loadThenUpdate "v1")).mpr
    ⟨trivial, trivial, fun _ values hvalues cfg hcfg => ?_, trivial⟩ _ List.prefix_rfl
  have hloaded : some "v1" = some values := hvalues
  have hinstance : some ⟨0, "v1"⟩ = some cfg := hcfg
  rw [← Option.some.inj hloaded, ← Option.some.inj hinstance]

/-- The manager has the new values, but `LoadE` answers with the old ones. -/
theorem new_values_invisible :
    ((sequential plainOs twoVersions).run ⟨World.start fun _ => "v1", none⟩
        (loadThenUpdate "v2")).latest = some "v2" ∧
      (loadE plainOs twoVersions ((sequential plainOs twoVersions).run
        ⟨World.start fun _ => "v1", none⟩ (loadThenUpdate "v2")).world).2 = .ok ⟨0, "v1"⟩ :=
  ⟨rfl, rfl⟩

end Visibility

end Photon.Config
