import Photon.Features.Files
import Photon.Lib.Fallible
import Photon.Lib.Text

/-!
The configuration package: options and their check, the koanf provider with its updates, managers
and the package's own instance. `LoadE` is three sections under locks: it installs a new manager,
loads it, and publishes the result; a sequential call runs them one after another.

A configuration is known by a number of its own and its values. `parse` stands for koanf's JSON
parser, which also gets the delimiter.
-/

namespace Photon.Config

open Photon.Features Photon.Lib

variable {F V : Type}

/-! ### Options -/

structure WatcherOptions where
  logger : Option String

structure Options where
  source : UInt8
  format : UInt8
  filePath : String
  content : String
  delimiter : String
  enableWatch : Bool
  watcherOptions : Option WatcherOptions

def sourceFile : UInt8 := 1

def sourceRawBytes : UInt8 := 2

def formatJson : UInt8 := 1

variable (os : Os F)

def Options.validate (fs : F) (o : Options) : Except String Unit :=
  if o.source ∉ [sourceFile, sourceRawBytes] then
    .error ("invalid config source " ++ toString o.source.toNat ++ " provided")
  else if o.format ∉ [formatJson] then
    .error ("invalid config format " ++ toString o.format.toNat ++ " provided")
  else if o.source = sourceFile ∧ isReadableFile os fs o.filePath = false then
    .error "filePath must be a readable file when Source is of type file"
  else if o.source = sourceRawBytes ∧ Runes.trimSpace o.content.toList = [] then
    .error "content must be set when Source is of type raw bytes"
  else if o.enableWatch = true ∧ o.watcherOptions.isNone = true then
    .error "watcher options must be set when EnableWatch is true"
  else .ok ()

def optionsRequired : String := "config options are required"

def defaultConfigPathDelimiter : String := "."

def populateRequiredOptionsProperties (o : Options) : Options :=
  { o with
    delimiter := if o.delimiter = "" then defaultConfigPathDelimiter else o.delimiter
    watcherOptions :=
      if o.enableWatch then
        o.watcherOptions.map fun watcher => { watcher with
          logger := some (watcher.logger.getD "ConfigWatcher") }
      else o.watcherOptions }

/-! ### The provider -/

abbrev Parser (V : Type) := String → String → Except String V

def configData (fs : F) (o : Options) : Except String String :=
  if o.source = sourceFile then os.readFile fs o.filePath else .ok o.content

variable (parse : Parser V)

def newKoanf (fs : F) (o : Options) : Except String V := do
  o.validate os fs
  ((configData os fs o).bind (parse o.delimiter)).mapError ("error loading config: " ++ ·)

/-- An instance that takes updates: its options and the configuration that a reload replaces,
which is that of a manager or that of the package. -/
structure Koanf (C : Type) where
  opts : Options
  active : Option C

inductive UpdateResult (V : Type) where
  | ignored
  | failed (logged : String)
  | loaded (values : V)

def reload (fs : F) (opts : Options) : F × Options × UpdateResult V :=
  match newKoanf os parse fs opts with
  | .error e => (fs, opts, .failed ("[Config::Koanf] Error reloading config: " ++ e))
  | .ok values => (fs, opts, .loaded values)

/-- The new content is put in its place before it is loaded. The callback, the log line of a
success and the sleep are left out. -/
def loadEntry (fs : F) (opts : Options) :
    Option UpdaterSchema → F × Options × UpdateResult V
  | none => (fs, opts, .ignored)
  | some entry =>
    if entry.contentSource = sourceFile then
      match writeFile os fs opts.filePath entry.content with
      | (fs, some e) => (fs, opts, .failed ("[Config::Koanf] Error writing config update: " ++ e))
      | (fs, none) => reload os parse fs opts
    else if entry.contentSource = sourceRawBytes then
      reload os parse fs { opts with content := entry.content }
    else reload os parse fs opts

/-- The configuration that the update leaves; `publish` makes the new one. -/
def Koanf.applyUpdate {C : Type} (publish : V → C) (fs : F) (k : Koanf C)
    (entry : Option UpdaterSchema) : F × Koanf C × UpdateResult V :=
  let (fs, opts, result) := loadEntry os parse fs k.opts entry
  match result with
  | .loaded values => (fs, ⟨opts, some (publish values)⟩, result)
  | _ => (fs, ⟨opts, k.active⟩, result)

/-! ### Managers -/

structure Cfg (V : Type) where
  id : ℕ
  values : V

/-- `cancel` says that a watcher runs. Its update loop, once `started`, may still take an update
after the cancellation, since a `select` does not prefer a cancelled context. -/
structure Manager (V : Type) where
  provider : String
  options : Options
  config : Option (Cfg V)
  cancel : Bool
  started : Bool

def configProviderKoanf : String := "koanf"

def allowedProviders : List String := [configProviderKoanf]

def invalidProvider (provider : String) : String :=
  "invalid config provider " ++ provider ++ " provided"

def providerOr (provider : String) : String :=
  if provider = "" then configProviderKoanf else provider

def newManager (fs : F) (provider : String) (options : Option Options) :
    Except String (Manager V) :=
  if providerOr provider ∉ allowedProviders then .error (invalidProvider (providerOr provider))
  else
    match options with
    | none => .error ("error in config options: " ++ optionsRequired)
    | some options => do
        (options.validate os fs).mapError ("error in config options: " ++ ·)
        .ok ⟨providerOr provider, populateRequiredOptionsProperties options, none, false, false⟩

def Manager.close (m : Manager V) : Manager V := { m with config := none, cancel := false }

def Manager.newConfigLocked (fs : F) (m : Manager V) : Except String V :=
  if m.provider = configProviderKoanf then newKoanf os parse fs m.options
  else .error (invalidProvider m.provider)

def Manager.startWatcherLocked (m : Manager V) : Manager V :=
  if m.cancel || !m.options.enableWatch || m.options.watcherOptions.isNone then m
  else { m with cancel := true, started := true }

/-- A new configuration gets the number `id`. -/
def Manager.load (fs : F) (id : ℕ) (m : Manager V) : Except String (Cfg V × Manager V) :=
  match m.config with
  | some config => .ok (config, m)
  | none => do
      let values ← m.newConfigLocked os parse fs
      .ok (⟨id, values⟩, Manager.startWatcherLocked { m with config := some ⟨id, values⟩ })

/-! ### The package -/

structure World (F V : Type) where
  fs : F
  cInstance : Option (Cfg V)
  cProvider : String
  cOptions : Option Options
  cManager : Option ℕ
  managers : List (Manager V)
  allocated : ℕ

def World.start (fs : F) : World F V := ⟨fs, none, configProviderKoanf, none, none, [], 0⟩

variable (w : World F V)

def World.closeManager : World F V :=
  match w.cManager with
  | none => w
  | some i => { w with managers := w.managers.modify i Manager.close }

def installManager (provider : String) (manager : Manager V) : World F V :=
  { w.closeManager with
    cProvider := provider
    cOptions := some manager.options
    cInstance := none
    cManager := some w.managers.length
    managers := w.closeManager.managers ++ [manager] }

def init (provider : String) (options : Option Options) : World F V × Except String Unit :=
  match newManager os w.fs (providerOr provider) options with
  | .error e => (w, .error e)
  | .ok manager => (installManager w (providerOr provider) manager, .ok ())

def close : World F V :=
  { w.closeManager with
    cInstance := none
    cProvider := configProviderKoanf
    cOptions := none
    cManager := none }

inductive Begun (V : Type) where
  | returned (answer : Except String (Cfg V))
  | loading (manager : ℕ)

def loadBegin : World F V × Begun V :=
  match w.cInstance with
  | some config => (w, .returned (.ok config))
  | none =>
    match w.cOptions with
    | none => (w, .returned (.error "config has not been initialized"))
    | some options =>
      match newManager os w.fs w.cProvider (some options) with
      | .error e => (w.closeManager, .returned (.error e))
      | .ok manager =>
        ({ w.closeManager with
            cManager := some w.managers.length
            managers := w.closeManager.managers ++ [manager] }, .loading w.managers.length)

def loadManager (w : World F V) (i : ℕ) : World F V × Except String (Cfg V) :=
  match w.managers[i]? with
  | none => (w, .error "config manager is nil")
  | some m =>
    match m.load os parse w.fs w.allocated with
    | .error e => (w, .error e)
    | .ok (config, m) =>
      ({ w with managers := w.managers.set i m, allocated := w.allocated + 1 }, .ok config)

def publish (config : Cfg V) : World F V := { w with cInstance := some config }

def loadE (w : World F V) : World F V × Except String (Cfg V) :=
  match loadBegin os w with
  | (w, .returned answer) => (w, answer)
  | (w, .loading i) =>
    match loadManager os parse w i with
    | (w, .error e) => (w, .error e)
    | (w, .ok config) => (publish w config, .ok config)

/-- One turn of the update loop of the manager at position `i`: what it changes, and the values
it loads. -/
def receive (w : World F V) (i : ℕ) (entry : Option UpdaterSchema) : World F V × UpdateResult V :=
  match w.managers[i]? with
  | none => (w, .ignored)
  | some m =>
    if m.started then
      let (fs, k, result) :=
        Koanf.applyUpdate os parse (Cfg.mk w.allocated) w.fs ⟨m.options, m.config⟩ entry
      ({ w with
          fs := fs
          managers := w.managers.set i { m with options := k.opts, config := k.active }
          allocated := w.allocated + 1 }, result)
    else (w, .ignored)

/-! ### New and closed managers -/

theorem newManager_fresh {os : Os F} {fs : F} {provider : String} {options : Option Options}
    {m : Manager V} (h : newManager os fs provider options = .ok m) :
    m.cancel = false ∧ m.started = false := by
  cases options with
  | none =>
    rw [newManager] at h
    split_ifs at h
  | some options =>
    rw [newManager] at h
    split_ifs at h
    obtain ⟨_, _, hm⟩ := bind_eq_ok_iff.mp h
    cases hm
    exact ⟨rfl, rfl⟩

theorem World.closeManager_of_some {w : World F V} {i : ℕ} (h : w.cManager = some i) :
    w.closeManager = { w with managers := w.managers.modify i Manager.close } := by
  rw [closeManager]
  simp [h]

theorem World.cInstance_closeManager : w.closeManager.cInstance = w.cInstance := by
  rw [closeManager]
  cases w.cManager <;> rfl

theorem World.cManager_closeManager : w.closeManager.cManager = w.cManager := by
  rcases Option.eq_none_or_eq_some w.cManager with h | ⟨i, h⟩
  · simp [closeManager, h]
  · rw [closeManager_of_some h]

theorem World.length_closeManager : w.closeManager.managers.length = w.managers.length := by
  rw [closeManager]
  cases w.cManager with
  | none => rfl
  | some i => exact List.length_modify ..

end Photon.Config
