import Photon.Lib.Paths

/-!
`UnzipFile` of `utils/filesys/filesystem.go` on a Unix system without symbolic links. The file
system is what is known of the paths; a call of the operating system can fail for reasons of its
own, told by `Failures` for the entry it is made for. The run records every path it makes or opens
for writing.
-/

namespace Photon.Filesys

open Photon.Lib CleanPath

/-- An entry of the archive: its name and the directory bit of its mode. -/
structure Entry where
  name : String
  modeDir : Bool

/-- `FileInfo().IsDir()`; a name that ends with a slash sets the bit. -/
def Entry.isDir (entry : Entry) : Bool :=
  entry.modeDir || decide (entry.name.toList.getLast? = some '/')

inductive Kind where
  | directory
  | file
deriving DecidableEq

abbrev FileSystem := CleanPath → Option Kind

structure Failures where
  getwd : Except String CleanPath
  mkdir : Nat → CleanPath → Option String
  openFile : Nat → CleanPath → Option String
  openEntry : Nat → Option String
  copy : Nat → Option String

inductive UnzipError where
  | openArchive (e : String)
  | resolveTarget (e : String)
  | resolveEntry (e : String)
  | illegal (path : CleanPath)
  | makeDirectory (e : String)
  | openForWriting (e : String)
  | openEntry (e : String)
  | copy (e : String)

def UnzipError.message : UnzipError → String
  | .openArchive e => "error opening zip file: " ++ e
  | .resolveTarget e => "error resolving target path: " ++ e
  | .resolveEntry e => "error resolving zip entry path: " ++ e
  | .illegal path => "illegal target path: " ++ String.ofList path.text
  | .makeDirectory e => "error making directory: " ++ e
  | .openForWriting e => "error opening file for writing: " ++ e
  | .openEntry e => "error opening file in zip: " ++ e
  | .copy e => "error copying file content: " ++ e

/-- The file system after a part of the run, the paths it made or opened, and its error. -/
structure Outcome (ε : Type) where
  fs : FileSystem
  touched : List CleanPath
  err : Option ε

def filepathAbs (getwd : Except String CleanPath) (path : List Char) : Except String CleanPath :=
  if path.head? = some '/' then .ok (ofText path)
  else getwd.map fun cwd => ofText (cwd.text ++ '/' :: path)

/-- `filepath.Join` of an absolute path and a name; empty elements are left out. -/
def filepathJoin (root : CleanPath) (name : List Char) : CleanPath :=
  if name = [] then ofText root.text else ofText (root.text ++ '/' :: name)

/-- `os.Mkdir` of a missing directory once those above it are there. -/
def mkdir (os : Failures) (i : Nat) (path : CleanPath) (above : Outcome String) : Outcome String :=
  match above.err, os.mkdir i path with
  | some e, _ => ⟨above.fs, above.touched, some e⟩
  | none, some e => ⟨above.fs, above.touched, some e⟩
  | none, none => ⟨Function.update above.fs path (some .directory), above.touched ++ [path], none⟩

def mkdirAll (os : Failures) (i : Nat) (fs : FileSystem) (path : CleanPath) : Outcome String :=
  match fs path with
  | some .directory => ⟨fs, [], none⟩
  | some .file => ⟨fs, [], some "not a directory"⟩
  | none =>
    if _h : path.names = [] then mkdir os i path ⟨fs, [], none⟩
    else mkdir os i path (mkdirAll os i fs path.parent)
termination_by path.names.length
decreasing_by
  rw [parent, List.length_dropLast]
  have := List.length_pos_iff.mpr _h
  omega

def openFile (os : Failures) (i : Nat) (fs : FileSystem) (path : CleanPath) :
    Except String FileSystem :=
  if fs path = some .directory then .error "is a directory"
  else
    match os.openFile i path with
    | some e => .error e
    | none => .ok (Function.update fs path (some .file))

/-- A file entry behind its directories: the file is opened, then the entry, then it is copied. -/
def writeFile (os : Failures) (i : Nat) (path : CleanPath) (above : Outcome String) :
    Outcome UnzipError :=
  match openFile os i above.fs path with
  | .error e => ⟨above.fs, above.touched ++ [path], some (.openForWriting e)⟩
  | .ok fs =>
    match os.openEntry i, os.copy i with
    | some e, _ => ⟨fs, above.touched ++ [path], some (.openEntry e)⟩
    | none, some e => ⟨fs, above.touched ++ [path], some (.copy e)⟩
    | none, none => ⟨fs, above.touched ++ [path], none⟩

def outside (root path : CleanPath) : Bool :=
  path.text != root.text && !(root.text ++ ['/']).isPrefixOf path.text

def unzipEntry (os : Failures) (root : CleanPath) (i : Nat) (fs : FileSystem) (entry : Entry) :
    Outcome UnzipError :=
  match filepathAbs os.getwd (filepathJoin root entry.name.toList).text with
  | .error e => ⟨fs, [], some (.resolveEntry e)⟩
  | .ok path =>
    if outside root path then ⟨fs, [], some (.illegal path)⟩
    else
      let made := mkdirAll os i fs (if entry.isDir then path else path.parent)
      match made.err with
      | some e => ⟨made.fs, made.touched, some (.makeDirectory e)⟩
      | none =>
        if entry.isDir then ⟨made.fs, made.touched, none⟩ else writeFile os i path made

def unzipLoop (os : Failures) (root : CleanPath) :
    Nat → FileSystem → List Entry → Outcome UnzipError
  | _, fs, [] => ⟨fs, [], none⟩
  | i, fs, entry :: rest =>
    let out := unzipEntry os root i fs entry
    match out.err with
    | some e => ⟨out.fs, out.touched, some e⟩
    | none =>
      let next := unzipLoop os root (i + 1) out.fs rest
      ⟨next.fs, out.touched ++ next.touched, next.err⟩

def unzipFile (os : Failures) (fs : FileSystem) (archive : Except String (List Entry))
    (target : String) : Outcome UnzipError :=
  match archive with
  | .error e => ⟨fs, [], some (.openArchive e)⟩
  | .ok entries =>
    match filepathAbs os.getwd target.toList with
    | .error e => ⟨fs, [], some (.resolveTarget e)⟩
    | .ok root => unzipLoop os root 0 fs entries

def Entry.path (entry : Entry) (root : CleanPath) : CleanPath :=
  filepathJoin root entry.name.toList

def IsDirectory (fs : FileSystem) (path : CleanPath) : Prop :=
  ∀ above : CleanPath, above.Within path → fs above = some .directory

theorem head?_text (path : CleanPath) : path.text.head? = some '/' := by
  rw [text]
  split
  · rfl
  · next hne =>
      obtain ⟨name, rest, hnames⟩ := List.exists_cons_of_ne_nil hne
      rw [hnames]
      rfl

/-- The text of a clean path is resolved to the path. -/
theorem filepathAbs_text (getwd : Except String CleanPath) (path : CleanPath) :
    filepathAbs getwd path.text = .ok path := by
  rw [filepathAbs, if_pos (head?_text path), ofText_text]

/-- The test of the source, by names. -/
theorem outside_eq_false_iff (root path : CleanPath) :
    outside root path = false ↔ path = root ∨ (root.names ≠ [] ∧ root.Within path) := by
  have htexts : outside root path = false ↔ path.text = root.text ∨
      root.text ++ ['/'] <+: path.text := by
    simp only [outside, Bool.and_eq_false_iff, bne_eq_false_iff_eq, Bool.not_eq_false_eq_eq_true,
      List.isPrefixOf_iff_prefix]
  rw [htexts, text_prefix_iff]
  constructor
  · rintro (hsame | ⟨hroot, name, rest, hnames⟩)
    · exact .inl (text_inj hsame)
    · exact .inr ⟨hroot, name :: rest, hnames.symm⟩
  · rintro (rfl | ⟨hroot, rest, hnames⟩)
    · exact .inl rfl
    · cases rest with
      | nil =>
        rw [List.append_nil] at hnames
        exact .inl (congrArg text (ext_names hnames.symm))
      | cons name rest => exact .inr ⟨hroot, name, rest, hnames.symm⟩

theorem within_refl (path : CleanPath) : path.Within path := List.prefix_refl _

theorem parent_within (path : CleanPath) : path.parent.Within path := List.dropLast_prefix _

/-- What lies below a directory and is not the directory has its parent there too. -/
theorem within_parent {root path : CleanPath} (h : root.Within path) (hne : path ≠ root) :
    root.Within path.parent := by
  obtain ⟨rest, hrest⟩ := h
  have hlast : rest ≠ [] := by
    rintro rfl
    rw [List.append_nil] at hrest
    exact hne (ext_names hrest.symm)
  show root.names <+: path.names.dropLast
  rw [← hrest, List.dropLast_append_of_ne_nil hlast]
  exact List.prefix_append _ _

/-- Directories stay directories, and only missing paths at or above `path` are made. -/
structure MadeUpTo (fs : FileSystem) (path : CleanPath) (out : Outcome String) : Prop where
  keeps : ∀ p, fs p = some .directory → out.fs p = some .directory
  missing : ∀ p ∈ out.touched, p.Within path ∧ fs p = none

theorem MadeUpTo.nothing (fs : FileSystem) (path : CleanPath) (err : Option String) :
    MadeUpTo fs path ⟨fs, [], err⟩ :=
  ⟨fun _ h => h, fun _ h => absurd h List.not_mem_nil⟩

variable (os : Failures) {fs : FileSystem} {root : CleanPath}

theorem MadeUpTo.mkdir {path : CleanPath} {above : Outcome String} (h : MadeUpTo fs path above)
    (hmissing : fs path = none) (os : Failures) (i : Nat) :
    MadeUpTo fs path (mkdir os i path above) := by
  rw [Filesys.mkdir]
  split
  · exact ⟨h.keeps, h.missing⟩
  · exact ⟨h.keeps, h.missing⟩
  · constructor
    · intro p hp
      have hne : p ≠ path := by
        rintro rfl
        rw [hmissing] at hp
        cases hp
      show Function.update above.fs path (some .directory) p = some .directory
      rw [Function.update_of_ne hne]
      exact h.keeps p hp
    · intro p hp
      rcases List.mem_append.mp hp with hold | hnew
      · exact h.missing p hold
      · obtain rfl := List.mem_singleton.mp hnew
        exact ⟨within_refl p, hmissing⟩

theorem mkdirAll_madeUpTo (i : Nat) (fs : FileSystem) (path : CleanPath) :
    MadeUpTo fs path (mkdirAll os i fs path) := by
  fun_induction mkdirAll os i fs path with
  | case1 path hdirectory => exact .nothing fs path none
  | case2 path hfile => exact .nothing fs path _
  | case3 path hmissing hroot => exact (MadeUpTo.nothing fs path none).mkdir hmissing os i
  | case4 path hmissing hroot ih =>
    have habove : MadeUpTo fs path (mkdirAll os i fs path.parent) := by
      refine ⟨ih.keeps, fun p hp => ?_⟩
      obtain ⟨hwithin, hnone⟩ := ih.missing p hp
      exact ⟨hwithin.trans (parent_within path), hnone⟩
    exact habove.mkdir hmissing os i

theorem mkdirAll_of_directory {os : Failures} {i : Nat} {path : CleanPath}
    (h : fs path = some .directory) :
    mkdirAll os i fs path = ⟨fs, [], none⟩ := by
  rw [mkdirAll, h]

/-- The root stays an existing directory, and what was touched lies at or below it. -/
structure Contained {ε : Type} (root : CleanPath) (out : Outcome ε) : Prop where
  isDirectory : IsDirectory out.fs root
  within : ∀ p ∈ out.touched, root.Within p

/-- Directories made for a path at or below the root, or above it, are at or below the root. -/
theorem MadeUpTo.contained {root path : CleanPath} {out : Outcome String}
    (h : MadeUpTo fs path out) (hroot : IsDirectory fs root)
    (hpath : root.Within path ∨ path.Within root) :
    Contained root out := by
  refine ⟨fun above habove => h.keeps above (hroot above habove), fun p hp => ?_⟩
  obtain ⟨hwithin, hnone⟩ := h.missing p hp
  -- A missing path is not at or above the root, which exists.
  have hnot : ¬ p.Within root := by
    intro habove
    rw [hroot p habove] at hnone
    cases hnone
  rcases hpath with hbelow | habove
  · exact (List.prefix_or_prefix_of_prefix hbelow hwithin).resolve_right hnot
  · exact absurd (hwithin.trans habove) hnot

theorem openFile_keeps {os : Failures} {i : Nat} {fs fs' : FileSystem} {path : CleanPath}
    (h : openFile os i fs path = .ok fs') {p : CleanPath} (hp : fs p = some .directory) :
    fs' p = some .directory := by
  rw [openFile] at h
  split_ifs at h with hdirectory
  split at h
  · cases h
  · cases h
    have hne : p ≠ path := by
      rintro rfl
      exact hdirectory hp
    rw [Function.update_of_ne hne, hp]

theorem writeFile_contained {root path : CleanPath} {made : Outcome String}
    (h : Contained root made) (hpath : root.Within path) (os : Failures) (i : Nat) :
    Contained root (writeFile os i path made) := by
  have htouched : ∀ p ∈ made.touched ++ [path], root.Within p := by
    intro p hp
    rcases List.mem_append.mp hp with hold | hnew
    · exact h.within p hold
    · rwa [List.mem_singleton.mp hnew]
  rw [writeFile]
  split
  · exact ⟨h.isDirectory, htouched⟩
  · next fs' hopen =>
      have hroot : IsDirectory fs' root := fun above habove =>
        openFile_keeps hopen (h.isDirectory above habove)
      split <;> exact ⟨hroot, htouched⟩

theorem unzipEntry_eq (root : CleanPath) (i : Nat) (fs : FileSystem) (entry : Entry) :
    unzipEntry os root i fs entry =
      if outside root (entry.path root) then ⟨fs, [], some (.illegal (entry.path root))⟩
      else
        let made := mkdirAll os i fs
          (if entry.isDir then entry.path root else (entry.path root).parent)
        match made.err with
        | some e => ⟨made.fs, made.touched, some (.makeDirectory e)⟩
        | none =>
          if entry.isDir then ⟨made.fs, made.touched, none⟩
          else writeFile os i (entry.path root) made := by
  rw [unzipEntry, filepathAbs_text]
  rfl

theorem within_of_not_outside {root path : CleanPath} (h : outside root path = false) :
    root.Within path := by
  rcases (outside_eq_false_iff root path).mp h with rfl | ⟨-, hwithin⟩
  · exact within_refl path
  · exact hwithin

theorem unzipEntry_contained (i : Nat) (hroot : IsDirectory fs root) (entry : Entry) :
    Contained root (unzipEntry os root i fs entry) := by
  rw [unzipEntry_eq]
  split_ifs with houtside hdir
  · exact ⟨hroot, fun _ hp => absurd hp List.not_mem_nil⟩
  · have hpath := within_of_not_outside (eq_false_of_ne_true houtside)
    have hmade := (mkdirAll_madeUpTo os i fs (entry.path root)).contained hroot (.inl hpath)
    dsimp only
    split <;> exact ⟨hmade.isDirectory, hmade.within⟩
  · have hpath := within_of_not_outside (eq_false_of_ne_true houtside)
    have hparent : root.Within (entry.path root).parent ∨ (entry.path root).parent.Within root := by
      by_cases hsame : entry.path root = root
      · rw [hsame]
        exact .inr (parent_within root)
      · exact .inl (within_parent hpath hsame)
    have hmade := (mkdirAll_madeUpTo os i fs (entry.path root).parent).contained hroot hparent
    dsimp only
    split
    · exact ⟨hmade.isDirectory, hmade.within⟩
    · exact writeFile_contained hmade hpath os i

theorem unzipLoop_contained (i : Nat) (hroot : IsDirectory fs root) (entries : List Entry) :
    Contained root (unzipLoop os root i fs entries) := by
  induction entries generalizing i fs with
  | nil => exact ⟨hroot, fun _ hp => absurd hp List.not_mem_nil⟩
  | cons entry rest ih =>
    have hentry := unzipEntry_contained os i hroot entry
    rw [unzipLoop]
    split
    · exact ⟨hentry.isDirectory, hentry.within⟩
    · have hrest := ih (i + 1) hentry.isDirectory
      refine ⟨hrest.isDirectory, fun p hp => ?_⟩
      rcases List.mem_append.mp hp with hfirst | hlater
      · exact hentry.within p hfirst
      · exact hrest.within p hlater

def UnzipError.isIllegal : UnzipError → Bool
  | .illegal _ => true
  | _ => false

def Outcome.rejected (out : Outcome UnzipError) : Bool := out.err.any UnzipError.isIllegal

theorem writeFile_not_rejected (i : Nat) (path : CleanPath) (made : Outcome String) :
    (writeFile os i path made).rejected = false := by
  rw [writeFile]
  split
  · rfl
  · split <;> rfl

theorem unzipEntry_rejected (root : CleanPath) (i : Nat) (fs : FileSystem) (entry : Entry) :
    (unzipEntry os root i fs entry).rejected = outside root (entry.path root) := by
  rw [unzipEntry_eq]
  cases houtside : outside root (entry.path root) with
  | true => rfl
  | false =>
    rw [if_neg Bool.false_ne_true]
    dsimp only
    split
    · rfl
    · split_ifs
      · rfl
      · exact writeFile_not_rejected os i _ _

theorem unzipLoop_cons_rejected (root : CleanPath) (i : Nat) (fs : FileSystem) (entry : Entry)
    (rest : List Entry) :
    (unzipLoop os root i fs (entry :: rest)).rejected =
      if (unzipEntry os root i fs entry).err = none then
        (unzipLoop os root (i + 1) (unzipEntry os root i fs entry).fs rest).rejected
      else outside root (entry.path root) := by
  rw [← unzipEntry_rejected os root i fs entry, unzipLoop]
  split
  · next e herr => rw [if_neg (by simp [herr]), Outcome.rejected, Outcome.rejected, herr]
  · next herr => rw [if_pos herr, Outcome.rejected, Outcome.rejected]

/-- A target with a name rejects only archives with an entry outside of it. -/
theorem unzipLoop_not_rejected (hname : root.names ≠ []) (i : Nat) (fs : FileSystem)
    {entries : List Entry} (h : ∀ entry ∈ entries, root.Within (entry.path root)) :
    (unzipLoop os root i fs entries).rejected = false := by
  induction entries generalizing i fs with
  | nil => rfl
  | cons entry rest ih =>
    obtain ⟨hentry, hrest⟩ := List.forall_mem_cons.mp h
    rw [unzipLoop_cons_rejected]
    split_ifs
    · exact ih (i + 1) _ hrest
    · exact (outside_eq_false_iff root _).mpr (.inr ⟨hname, hentry⟩)

/--
The entries that are read all name the root itself: directories, and behind them at most one that
is no directory, which cannot be opened.
-/
def OnlyRoot (root : CleanPath) : List Entry → Prop
  | [] => True
  | entry :: rest => entry.path root = root ∧ (entry.isDir = true → OnlyRoot root rest)

theorem unzipEntry_root (i : Nat) (hroot : IsDirectory fs root) {entry : Entry}
    (hpath : entry.path root = root) :
    (unzipEntry os root i fs entry).err = none ↔ entry.isDir = true := by
  have houtside : outside root root = false := (outside_eq_false_iff root root).mpr (.inl rfl)
  rw [unzipEntry_eq, hpath, houtside, if_neg Bool.false_ne_true]
  cases hdir : entry.isDir with
  | true =>
    rw [if_pos rfl, mkdirAll_of_directory (hroot root (within_refl root))]
    simp
  | false =>
    rw [if_neg Bool.false_ne_true,
      mkdirAll_of_directory (hroot root.parent (parent_within root))]
    simp [writeFile, openFile, hroot root (within_refl root)]

theorem unzipLoop_not_rejected_iff_onlyRoot (hname : root.names = []) (i : Nat)
    (hroot : IsDirectory fs root) (entries : List Entry) :
    (unzipLoop os root i fs entries).rejected = false ↔ OnlyRoot root entries := by
  induction entries generalizing i fs with
  | nil => simp [OnlyRoot, unzipLoop, Outcome.rejected]
  | cons entry rest ih =>
    have hinside : outside root (entry.path root) = false ↔ entry.path root = root := by
      simp [outside_eq_false_iff, hname]
    have hrest := ih (i + 1) (unzipEntry_contained os i hroot entry).isDirectory
    rw [unzipLoop_cons_rejected, OnlyRoot]
    by_cases hpath : entry.path root = root
    · have herr := unzipEntry_root os i hroot hpath
      cases hdir : entry.isDir with
      | true => simp [herr.mpr hdir, hrest, hpath]
      | false =>
        have hfailed : (unzipEntry os root i fs entry).err ≠ none := fun hnone =>
          absurd (herr.mp hnone) (hdir ▸ Bool.false_ne_true)
        rw [if_neg hfailed, hinside]
        exact ⟨fun hsame => ⟨hsame, nofun⟩, And.left⟩
    · have hrejected : (unzipEntry os root i fs entry).err ≠ none := by
        intro hnone
        have houtside := unzipEntry_rejected os root i fs entry
        rw [Outcome.rejected, hnone] at houtside
        exact hpath (hinside.mp houtside.symm)
      rw [if_neg hrejected, hinside]
      exact ⟨fun hsame => absurd hsame hpath, And.left⟩

/-- The target keeps its files inside, and takes every archive that stays inside. -/
def Confines (os : Failures) (fs : FileSystem) (root : CleanPath) (entries : List Entry) : Prop :=
  let out := unzipFile os fs (.ok entries) (String.ofList root.text)
  (∀ p ∈ out.touched, root.Within p) ∧
    ((∀ entry ∈ entries, root.Within (entry.path root)) → out.rejected = false)

theorem unzip_confines_iff (os : Failures) (fs : FileSystem) (root : CleanPath)
    (hroot : IsDirectory fs root) (entries : List Entry) :
    Confines os fs root entries ↔ root.names ≠ [] ∨ OnlyRoot root entries := by
  have hcontained := unzipLoop_contained os 0 hroot entries
  rw [Confines, unzipFile, String.toList_ofList, filepathAbs_text]
  constructor
  · rintro ⟨-, haccepted⟩
    by_cases hname : root.names = []
    · have hall : ∀ entry ∈ entries, root.Within (entry.path root) := fun entry _ => by
        rw [Within, hname]
        exact List.nil_prefix
      exact .inr ((unzipLoop_not_rejected_iff_onlyRoot os hname 0 hroot entries).mp
        (haccepted hall))
    · exact .inl hname
  · intro h
    refine ⟨hcontained.within, fun hall => ?_⟩
    by_cases hname : root.names = []
    · have honly : OnlyRoot root entries := h.resolve_left (not_not.mpr hname)
      exact (unzipLoop_not_rejected_iff_onlyRoot os hname 0 hroot entries).mpr honly
    · exact unzipLoop_not_rejected os hname 0 fs hall

def noFailures : Failures where
  getwd := .ok (ofText ['/'])
  mkdir _ _ := none
  openFile _ _ := none
  openEntry _ := none
  copy _ := none

def onlyDirectory (root path : CleanPath) : Option Kind :=
  if path.Within root then some .directory else none

theorem tmp_confines_up_and_down :
    Confines noFailures (onlyDirectory (ofText "/tmp".toList)) (ofText "/tmp".toList)
      [⟨"../tmp/a", false⟩] :=
  (unzip_confines_iff noFailures (onlyDirectory (ofText "/tmp".toList)) (ofText "/tmp".toList)
    (fun _ habove => if_pos habove) [⟨"../tmp/a", false⟩]).mpr (.inl (by decide))

/-- Into `/` the file `a` is not extracted: `/a` does not begin with two slashes. -/
theorem slash_rejects_a_file :
    (unzipFile noFailures (onlyDirectory (ofText ['/'])) (.ok [⟨"a", false⟩]) "/").err.map
        UnzipError.message = some "illegal target path: /a" ∧
      (ofText ['/']).Within (Entry.path ⟨"a", false⟩ (ofText ['/'])) := by
  decide

end Photon.Filesys
