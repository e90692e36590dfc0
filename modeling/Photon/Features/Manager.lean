import Photon.Features.Config
import Photon.Features.Files
import Photon.Lib.Fallible

/-!
Feature managers and the package's own store. A manager loads its configuration from a file or
from a text in its options; an update is first written to that file or text and then loaded.
`Init` installs one manager behind the package's store, but the update loop of every manager
writes its new configuration to the store.
-/

namespace Photon.Features

open Photon.Lib

variable {F : Type}

/-! ### Loading -/

structure WatcherOptions where
  logger : Option String

structure InitOptions where
  sourceType : UInt8
  input : String
  enableWatch : Bool
  watcherOptions : Option WatcherOptions

def featureSourceFile : UInt8 := 15
def featureSourceRawBytes : UInt8 := 16

inductive Failure where
  | error (text : String)
  | panic (text : String)

def refuse {α : Type} (text : String) (result : Except String α) : Except Failure α :=
  result.mapError fun e => .error (text ++ e)

def InitOptions.Populated (options : InitOptions) : Prop :=
  options.enableWatch = true → ∃ watcher, options.watcherOptions = some watcher ∧
    watcher.logger.isSome = true

/-- Without watcher options the field access panics before they can be checked. -/
def populateRequiredOptionsProperties (options : InitOptions) : Except Failure InitOptions :=
  if options.enableWatch then
    match options.watcherOptions with
    | none => .error (.panic "runtime error: invalid memory address or nil pointer dereference")
    | some watcher =>
      .ok { options with
        watcherOptions :=
          some { watcher with logger := some (watcher.logger.getD "FeatureFlagWatcher") } }
  else .ok options

variable (os : Os F)

def InitOptions.isValid (fs : F) (options : InitOptions) : Except String Unit :=
  if options.sourceType ∉ [featureSourceFile, featureSourceRawBytes] then
    .error ("invalid config source " ++ toString options.sourceType.toNat ++ " provided")
  else if options.sourceType = featureSourceFile ∧ isReadableFile os fs options.input = false then
    .error "filePath must be a readable file when feature source is of type file"
  else if options.enableWatch = true ∧ options.watcherOptions.isNone = true then
    .error "watcher options must be set when EnableWatch is true"
  else .ok ()

def configData (fs : F) (options : InitOptions) : Except String String :=
  if options.sourceType = featureSourceFile then os.readFile fs options.input
  else .ok options.input

variable (decoder : Decoder)

def loadFeatureConfig (fs : F) (opts : Option InitOptions) :
    Except Failure (FeatureConfig × InitOptions) :=
  match opts with
  | none => .error (.error "invalid options provided: feature init options are required")
  | some opts => do
      let opts ← populateRequiredOptionsProperties opts
      refuse "invalid options provided: " (opts.isValid os fs)
      let data ← refuse "failed to read config file: " (configData os fs opts)
      refuse "invalid feature config: " (validateFeatureConfig decoder data)
      let config ← refuse "failed to unmarshal validated feature config: "
        (decoder.unmarshal data)
      .ok (config, opts)

/-- The populated options have a logger, and differ in nothing else. -/
theorem populate_spec {options populated : InitOptions}
    (h : populateRequiredOptionsProperties options = .ok populated) :
    populated.Populated ∧ populated.sourceType = options.sourceType ∧
      populated.input = options.input ∧ populated.enableWatch = options.enableWatch := by
  rw [populateRequiredOptionsProperties] at h
  split_ifs at h with hwatch
  · cases hwatcher : options.watcherOptions with
    | none => rw [hwatcher] at h; cases h
    | some watcher =>
      rw [hwatcher] at h
      cases h
      exact ⟨fun _ => ⟨_, rfl, rfl⟩, rfl, rfl, rfl⟩
  · cases h
    exact ⟨fun h => absurd h hwatch, rfl, rfl, rfl⟩

theorem loadFeatureConfig_populated {os : Os F} {decoder : Decoder} {fs : F}
    {opts : Option InitOptions} {config : FeatureConfig} {populated : InitOptions}
    (h : loadFeatureConfig os decoder fs opts = .ok (config, populated)) :
    populated.Populated ∧
      ∀ options, opts = some options → populated.enableWatch = options.enableWatch := by
  cases opts with
  | none => cases h
  | some opts =>
    obtain ⟨filled, hfilled, h⟩ := bind_eq_ok_iff.mp h
    obtain ⟨_, -, h⟩ := bind_eq_ok_iff.mp h
    obtain ⟨_, -, h⟩ := bind_eq_ok_iff.mp h
    obtain ⟨_, -, h⟩ := bind_eq_ok_iff.mp h
    obtain ⟨_, -, h⟩ := bind_eq_ok_iff.mp h
    cases h
    obtain ⟨hpopulated, -, -, hwatch⟩ := populate_spec hfilled
    exact ⟨hpopulated, by rintro options ⟨⟩; exact hwatch⟩

/-! ### Managers -/

/-- A manager always has options with a logger where it needs one. -/
@[ext] structure Manager where
  options : InitOptions
  config : Option FeatureConfig
  populated : options.Populated

/-- The clone of the options is the options themselves here, since values are not shared. -/
def newManager (fs : F) (opts : Option InitOptions) : Except Failure Manager :=
  match h : loadFeatureConfig os decoder fs opts with
  | .error failure => .error failure
  | .ok (config, options) => .ok ⟨options, some config, (loadFeatureConfig_populated h).1⟩

/-- The loop of a closed manager may still take updates, since a `select` does not prefer a
cancelled context; so the cancellation itself is no part of the state. -/
def Manager.close (m : Manager) : Manager := { m with config := none }

/-- A nil entry and an entry from another source change nothing. -/
def applyFeatureUpdateToOptions (fs : F) (options : InitOptions) :
    Option UpdaterSchema → F × InitOptions × Option String
  | none => (fs, options, none)
  | some entry =>
    if entry.contentSource = featureSourceFile then
      let (fs, failed) := writeFile os fs options.input entry.content
      (fs, options, failed)
    else if entry.contentSource = featureSourceRawBytes then
      (fs, { options with input := entry.content }, none)
    else (fs, options, none)

theorem applyFeatureUpdate_populated (fs : F) {options : InitOptions} (h : options.Populated)
    (entry : Option UpdaterSchema) :
    (applyFeatureUpdateToOptions os fs options entry).2.1.Populated := by
  cases entry with
  | none => exact h
  | some entry =>
    rw [applyFeatureUpdateToOptions]
    split_ifs <;> exact h

/-- The update stays in the options when it cannot be loaded; the populated options that
`loadFeatureConfig` works on are the manager's own. -/
def reload (fs : F) (m : Manager) (entry : Option UpdaterSchema) : F × Manager × Option Failure :=
  let applied := applyFeatureUpdateToOptions os fs m.options entry
  let updated : Manager :=
    { m with
      options := applied.2.1
      populated := applyFeatureUpdate_populated os fs m.populated entry }
  match applied.2.2 with
  | some text => (applied.1, updated, some (.error text))
  | none =>
    match h : loadFeatureConfig os decoder applied.1 (some applied.2.1) with
    | .error failure => (applied.1, updated, some failure)
    | .ok (config, options) =>
      (applied.1, { m with
        options := options
        config := some config
        populated := (loadFeatureConfig_populated h).1 }, none)

/-! ### The package -/

structure Package where
  featureManager : Option ℕ
  configCache : Option FeatureConfig
  areFeaturesInitialized : Bool

structure World (F : Type) where
  fs : F
  package : Package
  managers : List Manager

def World.start (fs : F) : World F := ⟨fs, ⟨none, none, false⟩, []⟩

def getFeatureConfigStore (package : Package) : Except String (Option FeatureConfig) :=
  if package.areFeaturesInitialized then .ok package.configCache
  else .error "feature config is not initialized"

def updateDefaultFeatureStore (config : Option FeatureConfig) (package : Package) : Package :=
  { package with configCache := config, areFeaturesInitialized := true }

def World.closeManager (w : World F) : Option ℕ → World F
  | none => w
  | some i => { w with managers := w.managers.modify i Manager.close }

def init (w : World F) (opts : Option InitOptions) : World F :=
  if w.package.areFeaturesInitialized then w
  else
    match newManager os decoder w.fs opts with
    | .error _ => w
    | .ok manager =>
      let closed := w.closeManager w.package.featureManager
      { closed with
        managers := closed.managers ++ [manager]
        package := ⟨some closed.managers.length, manager.config, true⟩ }

def close (w : World F) : World F :=
  { w.closeManager w.package.featureManager with package := ⟨none, none, false⟩ }

def reloadAt (w : World F) (i : ℕ) (entry : Option UpdaterSchema) : World F × Option Failure :=
  match w.managers[i]? with
  | none => (w, none)
  | some m =>
    let result := reload os decoder w.fs m entry
    ({ w with fs := result.1, managers := w.managers.set i result.2.1 }, result.2.2)

/-- One turn of the update loop of the manager at position `i`, in which it takes the entry. Only
a watched source has a loop. The log line at the end of the turn is left out; it reads the entry
and panics for a nil one, after the publication. -/
def receive (w : World F) (i : ℕ) (entry : Option UpdaterSchema) : World F :=
  match w.managers[i]? with
  | none => w
  | some m =>
    if m.options.enableWatch then
      match reloadAt os decoder w i entry with
      | (w, some _) => w
      | (w, none) =>
        { w with
          package := updateDefaultFeatureStore (w.managers[i]?.bind Manager.config) w.package }
    else w

end Photon.Features
