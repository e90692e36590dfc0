import Mathlib.Tactic

/-!
The file system as the packages use it, and the entries of the updater channel. The calls to the
operating system may fail in any way and may leave anything behind.
-/

namespace Photon.Features

structure FileMode where
  isDir : Bool
  isRegular : Bool
  perm : Nat

/-- What `os.Stat` can say of a path it does not give. -/
inductive StatError where
  | notExist
  | other

/-- The calls to the operating system, over any states of its file system. -/
structure Os (F : Type) where
  dir : String → String
  stat : F → String → Except StatError FileMode
  mkdirAll : F → String → F × Option String
  writeFile : F → String → String → F × Option String
  readFile : F → String → Except String String

variable {F : Type}

def writeFile (os : Os F) (fs : F) (path content : String) : F × Option String :=
  let made := match os.stat fs (os.dir path) with
    | .error .notExist => os.mkdirAll fs (os.dir path)
    | _ => (fs, none)
  match made with
  | (fs, some e) => (fs, some ("error making directory " ++ e))
  | (fs, none) =>
    match os.writeFile fs path content with
    | (fs, some e) => (fs, some ("error writing pdf: " ++ e))
    | (fs, none) => (fs, none)

/-- The mask is the decimal number 400, as in the source. -/
def isReadableFile (os : Os F) (fs : F) (path : String) : Bool :=
  match os.stat fs path with
  | .error _ => false
  | .ok mode => !mode.isDir && mode.isRegular && (mode.perm &&& 400) != 0

def SameFile (os : Os F) (fs fs' : F) (path : String) : Prop :=
  os.stat fs' path = os.stat fs path ∧ os.readFile fs' path = os.readFile fs path

theorem SameFile.isReadableFile_eq {os : Os F} {fs fs' : F} {path : String}
    (h : SameFile os fs fs' path) : isReadableFile os fs' path = isReadableFile os fs path := by
  rw [isReadableFile, isReadableFile, h.1]

/-- A file system in which every path is a readable file and every write succeeds. -/
def plainOs : Os (String → String) where
  dir := fun _ => "."
  stat := fun _ _ => .ok ⟨false, true, 420⟩
  mkdirAll := fun fs _ => (fs, none)
  writeFile := fun fs path content => (fun p => if p = path then content else fs p, none)
  readFile := fun fs path => .ok (fs path)

structure UpdaterSchema where
  contentSource : UInt8
  content : String

/-! ### Entries -/

/-- Where an entry goes before anything is loaded: to the file or to the text of the options, by
the numbers of these sources. -/
def placed (os : Os F) (file raw : UInt8) (fs : F) (path content : String) :
    Option UpdaterSchema → F × String
  | none => (fs, content)
  | some entry =>
    if entry.contentSource = file then ((writeFile os fs path entry.content).1, content)
    else if entry.contentSource = raw then (fs, entry.content)
    else (fs, content)

/-- The file then looks as `same` asks, and the text is as before. -/
def HarmlessEntry (os : Os F) (file raw : UInt8) (same : F → Prop) (fs : F)
    (path content : String) : Option UpdaterSchema → Prop
  | none => True
  | some entry =>
    (entry.contentSource = file → same (writeFile os fs path entry.content).1) ∧
    (entry.contentSource = raw → entry.content = content)

theorem placed_unchanged_iff (os : Os F) {file raw : UInt8} (hother : file ≠ raw)
    {same : F → Prop} {fs : F} (hsame : same fs) (path content : String)
    (entry : Option UpdaterSchema) :
    same (placed os file raw fs path content entry).1 ∧
        (placed os file raw fs path content entry).2 = content ↔
      HarmlessEntry os file raw same fs path content entry := by
  cases entry with
  | none => simp [placed, HarmlessEntry, hsame]
  | some entry =>
    rw [placed, HarmlessEntry]
    split_ifs with hfile hraw
    · simp [hfile, hother]
    · simp [hraw, hother.symm, hsame]
    · simp [hfile, hraw, hsame]

end Photon.Features
