import Photon.Features.Manager

/-!
What an update of a manager changes beyond its own configuration. A rejected update has already
been written to the options or to the file. An accepted one is published in the package's store
whether or not the manager is the installed one.
-/

namespace Photon.Features

open Photon.Lib

variable {F : Type}

/-! ### Rejected updates -/

variable (os : Os F)

/-- The managers, the store and the file that a manager reads are as before. -/
def Unchanged (w w' : World F) (m : Manager) : Prop :=
  w'.managers = w.managers ∧ w'.package = w.package ∧
    (m.options.sourceType = featureSourceFile → SameFile os w.fs w'.fs m.options.input)

def Harmless (fs : F) (m : Manager) : Option UpdaterSchema → Prop :=
  HarmlessEntry os featureSourceFile featureSourceRawBytes
    (fun fs' => m.options.sourceType = featureSourceFile → SameFile os fs fs' m.options.input)
    fs m.options.input m.options.input

variable (decoder : Decoder)

theorem reloadAt_eq {w : World F} {i : ℕ} {m : Manager} (hm : w.managers[i]? = some m)
    (entry : Option UpdaterSchema) :
    reloadAt os decoder w i entry =
      ({ w with
          fs := (reload os decoder w.fs m entry).1
          managers := w.managers.set i (reload os decoder w.fs m entry).2.1 },
        (reload os decoder w.fs m entry).2.2) := by
  rw [reloadAt, hm]

/-- A failed reload leaves what was applied before the loading. -/
theorem reload_failed {os : Os F} {decoder : Decoder} {fs : F} {m : Manager}
    {entry : Option UpdaterSchema} {failure : Failure}
    (h : (reload os decoder fs m entry).2.2 = some failure) :
    (reload os decoder fs m entry).1 = (applyFeatureUpdateToOptions os fs m.options entry).1 ∧
      (reload os decoder fs m entry).2.1 =
        { m with
          options := (applyFeatureUpdateToOptions os fs m.options entry).2.1
          populated := applyFeatureUpdate_populated os fs m.populated entry } := by
  unfold reload at h ⊢
  dsimp only at h ⊢
  split at h
  · exact ⟨rfl, rfl⟩
  · split at h
    · exact ⟨rfl, rfl⟩
    · cases h

/-- What is applied before the loading is nothing just for harmless updates. -/
theorem applied_unchanged_iff (fs : F) (m : Manager) (entry : Option UpdaterSchema) :
    (applyFeatureUpdateToOptions os fs m.options entry).2.1 = m.options ∧
      (m.options.sourceType = featureSourceFile →
        SameFile os fs (applyFeatureUpdateToOptions os fs m.options entry).1 m.options.input) ↔
      Harmless os fs m entry := by
  have happlied : applyFeatureUpdateToOptions os fs m.options entry =
      ((placed os featureSourceFile featureSourceRawBytes fs m.options.input m.options.input
          entry).1,
        { m.options with
          input := (placed os featureSourceFile featureSourceRawBytes fs m.options.input
            m.options.input entry).2 },
        (applyFeatureUpdateToOptions os fs m.options entry).2.2) := by
    cases entry with
    | none => rfl
    | some entry =>
      rw [applyFeatureUpdateToOptions, placed]
      split_ifs <;> rfl
  rw [happlied, Harmless, ← placed_unchanged_iff os (by decide) fun _ => ⟨rfl, rfl⟩, and_comm]
  refine and_congr_right fun _ => ⟨fun h => congrArg InitOptions.input h, fun h => ?_⟩
  dsimp only
  rw [h]

/-- A manager is loaded alike from a file that looks the same. -/
theorem newManager_congr {os : Os F} {decoder : Decoder} {fs fs' : F} {options : InitOptions}
    (h : options.sourceType = featureSourceFile → SameFile os fs fs' options.input) :
    newManager os decoder fs' (some options) = newManager os decoder fs (some options) := by
  have hload : loadFeatureConfig os decoder fs' (some options) =
      loadFeatureConfig os decoder fs (some options) := by
    simp only [loadFeatureConfig]
    cases hpopulate : populateRequiredOptionsProperties options with
    | error failure => rfl
    | ok populated =>
      obtain ⟨-, hsource, hinput, -⟩ := populate_spec hpopulate
      have hsame : populated.sourceType = featureSourceFile →
          SameFile os fs fs' populated.input := by
        rw [hsource, hinput]
        exact h
      have hvalid : populated.isValid os fs' = populated.isValid os fs := by
        by_cases hfile : populated.sourceType = featureSourceFile
        · simp [InitOptions.isValid, (hsame hfile).isReadableFile_eq]
        · simp [InitOptions.isValid, hfile]
      have hdata : configData os fs' populated = configData os fs populated := by
        by_cases hfile : populated.sourceType = featureSourceFile
        · simp [configData, (hsame hfile).2]
        · simp [configData, hfile]
      simp only [bind, Except.bind, hvalid, hdata]
  unfold newManager
  split <;> split <;> simp_all

theorem set_eq_self_iff {α : Type} {l : List α} {i : ℕ} {a b : α} (h : l[i]? = some a) :
    l.set i b = l ↔ b = a := by
  obtain ⟨hi, rfl⟩ := List.getElem?_eq_some_iff.mp h
  constructor
  · intro hset
    have hget := congrArg (·[i]?) hset
    simpa [hi] using hget
  · rintro rfl
    exact List.set_getElem_self hi

/-- A rejected update changes nothing just if it was harmless, and then a new manager is loaded
from the same options as before. -/
theorem rejected_update_unchanged_iff (os : Os F) (decoder : Decoder) (w : World F) (i : ℕ)
    (m : Manager) (hm : w.managers[i]? = some m) (entry : Option UpdaterSchema)
    (failure : Failure) (hfailed : (reloadAt os decoder w i entry).2 = some failure) :
    (Unchanged os w (reloadAt os decoder w i entry).1 m ↔ Harmless os w.fs m entry) ∧
      (Harmless os w.fs m entry →
        newManager os decoder (reloadAt os decoder w i entry).1.fs (some m.options) =
          newManager os decoder w.fs (some m.options)) := by
  rw [reloadAt_eq os decoder hm] at hfailed ⊢
  obtain ⟨hfs, hmanager⟩ := reload_failed hfailed
  have hset : w.managers.set i (reload os decoder w.fs m entry).2.1 = w.managers ↔
      (applyFeatureUpdateToOptions os w.fs m.options entry).2.1 = m.options := by
    rw [hmanager, set_eq_self_iff hm, Manager.ext_iff]
    simp
  have hiff := applied_unchanged_iff os w.fs m entry
  rw [← hset, ← hfs] at hiff
  refine ⟨?_, fun hharmless => newManager_congr (hiff.mpr hharmless).2⟩
  rw [← hiff, Unchanged]
  simp

/-- A decoder that accepts two texts; each stands for an empty configuration on a platform of
its name. -/
def plainDecoder : Decoder where
  upper := id
  validateSchema := fun json =>
    if json = "v1" ∨ json = "v2" then .ok () else .error "not a configuration"
  unmarshal := fun json => .ok ⟨⟨[json], [], []⟩, []⟩
  parseRFC3339 := fun _ => .error "not a time"

def fileManager (json : String) : Manager where
  options := ⟨featureSourceFile, "features.json", true, some ⟨some "FeatureFlagWatcher"⟩⟩
  config := some ⟨⟨[json], [], []⟩, []⟩
  populated := fun _ => ⟨_, rfl, rfl⟩

/-- A manager that has loaded its file, and what the file holds by now. -/
def watching (content : String) : World (String → String) :=
  ⟨fun _ => content, ⟨some 0, none, false⟩, [fileManager "v1"]⟩

def afterDraft (content : String) : World (String → String) × Option Failure :=
  reloadAt plainOs plainDecoder (watching content) 0 (some ⟨featureSourceFile, "draft"⟩)

def notAConfiguration : Failure :=
  .error "invalid feature config: schema validation error: not a configuration"

/-- An update that writes to the file what others have put there already is rejected, and changes
nothing. -/
theorem repeated_draft_unchanged :
    Unchanged plainOs (watching "draft") (afterDraft "draft").1 (fileManager "v1") := by
  refine (rejected_update_unchanged_iff plainOs plainDecoder (watching "draft") 0
    (fileManager "v1") rfl (some ⟨featureSourceFile, "draft"⟩) notAConfiguration rfl).1.mpr
    ⟨fun _ _ => ⟨rfl, ?_⟩, fun h => absurd h (by decide)⟩
  simp [plainOs, writeFile, watching]

/-- A rejected update stays in the file, and the manager can no longer be loaded from it. -/
theorem rejected_update_overwrites_file :
    (afterDraft "v1").2 = some notAConfiguration ∧
    (afterDraft "v1").1.fs "features.json" = "draft" ∧
    newManager plainOs plainDecoder (watching "v1").fs (some (fileManager "v1").options) =
      .ok (fileManager "v1") ∧
    newManager plainOs plainDecoder (afterDraft "v1").1.fs (some (fileManager "v1").options) =
      .error notAConfiguration := by
  refine ⟨rfl, ?_, rfl, rfl⟩
  decide +kernel

/-! ### Updates of other managers -/

/-- What the code that uses the package can do, and the updates that the managers take. -/
inductive Call where
  | newManager (opts : Option InitOptions)
  | init (opts : Option InitOptions)
  | close
  | update (i : ℕ) (entry : Option UpdaterSchema)

def World.apply (w : World F) : Call → World F
  | .newManager opts =>
    match newManager os decoder w.fs opts with
    | .error _ => w
    | .ok manager => { w with managers := w.managers ++ [manager] }
  | .init opts => init os decoder w opts
  | .close => close w
  | .update i entry => receive os decoder w i entry

def run (fs : F) (calls : List Call) : World F :=
  calls.foldl (World.apply os decoder) (World.start fs)

section Received

variable (w : World F) (i : ℕ) (entry : Option UpdaterSchema)

/-- The configuration that an update brings to the manager at position `i`, if it is taken and
accepted. -/
def accepted : Option FeatureConfig :=
  match w.managers[i]? with
  | none => none
  | some m =>
    if m.options.enableWatch then
      let result := reload os decoder w.fs m entry
      match result.2.2 with
      | some _ => none
      | none => result.2.1.config
    else none

/-- A reload without a failure loads a configuration. -/
theorem reload_succeeded {os : Os F} {decoder : Decoder} {fs : F} {m : Manager}
    {entry : Option UpdaterSchema} (h : (reload os decoder fs m entry).2.2 = none) :
    ∃ config, (reload os decoder fs m entry).2.1.config = some config := by
  unfold reload at h ⊢
  dsimp only at h ⊢
  split at h
  · cases h
  · split at h
    · cases h
    · exact ⟨_, rfl⟩

/-- An accepted update is published, whichever manager it reaches. -/
theorem package_receive :
    (receive os decoder w i entry).package =
      match accepted os decoder w i entry with
      | none => w.package
      | some config => updateDefaultFeatureStore (some config) w.package := by
  rw [receive, accepted]
  cases hm : w.managers[i]? with
  | none => rfl
  | some m =>
    obtain ⟨hi, -⟩ := List.getElem?_eq_some_iff.mp hm
    dsimp only
    split_ifs with hwatch
    · rw [reloadAt_eq os decoder hm]
      cases hfailed : (reload os decoder w.fs m entry).2.2 with
      | some failure => rfl
      | none =>
        obtain ⟨config, hconfig⟩ := reload_succeeded hfailed
        simp [hconfig, hi]
    · rfl

/-- Whether a manager has an update loop. -/
def Manager.watched (m : Manager) : Bool := m.options.enableWatch

theorem watched_reload (fs : F) (m : Manager) (entry : Option UpdaterSchema) :
    (reload os decoder fs m entry).2.1.watched = m.watched := by
  have happlied : (applyFeatureUpdateToOptions os fs m.options entry).2.1.enableWatch =
      m.watched := by
    cases entry with
    | none => rfl
    | some entry =>
      rw [applyFeatureUpdateToOptions]
      split_ifs <;> rfl
  unfold reload
  dsimp only
  split
  · exact happlied
  · split
    · exact happlied
    · next hload => exact ((loadFeatureConfig_populated hload).2 _ rfl).trans happlied

theorem watched_receive :
    (receive os decoder w i entry).managers.map Manager.watched =
      w.managers.map Manager.watched := by
  rw [receive]
  cases hm : w.managers[i]? with
  | none => rfl
  | some m =>
    have hset : (w.managers.set i (reload os decoder w.fs m entry).2.1).map Manager.watched =
        w.managers.map Manager.watched := by
      rw [List.map_set, watched_reload, set_eq_self_iff (a := m.watched)]
      simp [hm]
    dsimp only
    split_ifs
    · rw [reloadAt_eq os decoder hm]
      cases (reload os decoder w.fs m entry).2.2 <;> exact hset
    · rfl

/-- The store looks the same after an update just if the update is not accepted or brings the
configuration that is in the store. -/
theorem store_receive_iff :
    getFeatureConfigStore (receive os decoder w i entry).package =
        getFeatureConfigStore w.package ↔
      ∀ config ∈ accepted os decoder w i entry,
        getFeatureConfigStore w.package = .ok (some config) := by
  rw [package_receive]
  cases accepted os decoder w i entry with
  | none => simp
  | some config =>
    have hstore : getFeatureConfigStore (updateDefaultFeatureStore (some config) w.package) =
        .ok (some config) := rfl
    simp [hstore, eq_comm]

end Received

/-- Along a run, updates of managers that are not installed leave the store alone just if each
of them is not accepted or brings the configuration that is in the store. -/
theorem managers_independent_iff (os : Os F) (decoder : Decoder) (fs : F) (calls : List Call) :
    (∀ before i entry behind, calls = before ++ .update i entry :: behind →
      (run os decoder fs before).package.featureManager ≠ some i →
      getFeatureConfigStore (run os decoder fs (before ++ [.update i entry])).package =
        getFeatureConfigStore (run os decoder fs before).package) ↔
    ∀ before i entry behind, calls = before ++ .update i entry :: behind →
      (run os decoder fs before).package.featureManager ≠ some i →
      ∀ config ∈ accepted os decoder (run os decoder fs before) i entry,
        getFeatureConfigStore (run os decoder fs before).package = .ok (some config) := by
  have hlast : ∀ before i entry, run os decoder fs (before ++ [.update i entry]) =
      receive os decoder (run os decoder fs before) i entry := by
    intro before i entry
    rw [run, List.foldl_append]
    rfl
  simp [hlast, store_receive_iff]

def textOptions (text : String) : InitOptions :=
  ⟨featureSourceRawBytes, text, true, some ⟨none⟩⟩

def packageAfter (calls : List Call) : Package :=
  (run plainOs plainDecoder (fun _ => "") calls).package

def twoManagers : List Call := [.init (textOptions "v1"), .newManager (textOptions "v1")]

def updateText (i : ℕ) (text : String) : Call := .update i (some ⟨featureSourceRawBytes, text⟩)

/-- A rejected update of a second manager does not reach the store. -/
theorem rejected_update_of_other_invisible :
    getFeatureConfigStore (packageAfter (twoManagers ++ [updateText 1 "draft"])) =
      getFeatureConfigStore (packageAfter twoManagers) := by
  refine (managers_independent_iff plainOs plainDecoder (fun _ => "")
    (twoManagers ++ [updateText 1 "draft"])).mpr ?_ twoManagers 1 _ [] rfl (by decide)
  -- only the last call is an update
  intro before i entry behind hsplit hother config hconfig
  rcases before with _ | ⟨_, _ | ⟨_, _ | ⟨_, rest⟩⟩⟩
  · cases hsplit
  · cases hsplit
  · cases hsplit
    cases hconfig
  · simp [twoManagers] at hsplit

/-- The update of a second manager replaces the configuration of the store; without any `Init`
it makes the store report that it is initialized. -/
theorem update_of_other_published :
    (packageAfter twoManagers).featureManager = some 0 ∧
    getFeatureConfigStore (packageAfter twoManagers) = .ok (some ⟨⟨["v1"], [], []⟩, []⟩) ∧
    getFeatureConfigStore (packageAfter (twoManagers ++ [updateText 1 "v2"])) =
      .ok (some ⟨⟨["v2"], [], []⟩, []⟩) ∧
    getFeatureConfigStore (packageAfter [.newManager (textOptions "v1")]) =
      .error "feature config is not initialized" ∧
    getFeatureConfigStore (packageAfter [.newManager (textOptions "v1"), updateText 0 "v2"]) =
      .ok (some ⟨⟨["v2"], [], []⟩, []⟩) := by
  exact ⟨rfl, rfl, rfl, rfl, rfl⟩

end Photon.Features
