import Mathlib.Data.List.Infix
import Mathlib.Tactic
import Photon.Lib.Delimited

/-!
Absolute Unix paths and their lexical cleaning. A clean path is the list of its names, none of
them empty, a dot or two dots; its text has a slash in front of each name, and one slash for the
root. That a text begins with the text of a directory and a slash says that the path lies below
the directory, unless the directory is the root.
-/

namespace Photon.Lib

def IsName (part : List Char) : Prop :=
  part ≠ [] ∧ '/' ∉ part ∧ part ≠ ['.'] ∧ part ≠ ['.', '.']

/-- One part of a text: nothing and a dot stay, two dots go up, a name goes down. -/
def cleanStep (names : List (List Char)) (part : List Char) : List (List Char) :=
  if part = [] ∨ part = ['.'] then names
  else if part = ['.', '.'] then names.dropLast
  else names ++ [part]

structure CleanPath where
  names : List (List Char)
  isName : ∀ name ∈ names, IsName name
deriving DecidableEq

theorem forall_isName_cleanStep {names : List (List Char)} (h : ∀ name ∈ names, IsName name)
    {part : List Char} (hpart : '/' ∉ part) : ∀ name ∈ cleanStep names part, IsName name := by
  rw [cleanStep]
  split_ifs with hstay hup
  · exact h
  · exact fun name hname => h name (List.mem_of_mem_dropLast hname)
  · intro name hname
    rcases List.mem_append.mp hname with hold | hnew
    · exact h name hold
    · obtain rfl := List.mem_singleton.mp hnew
      exact ⟨fun hnil => hstay (.inl hnil), hpart, fun hdot => hstay (.inr hdot), hup⟩

theorem forall_isName_foldl {parts names : List (List Char)} (h : ∀ name ∈ names, IsName name)
    (hparts : ∀ part ∈ parts, '/' ∉ part) : ∀ name ∈ parts.foldl cleanStep names, IsName name := by
  induction parts generalizing names with
  | nil => exact h
  | cons part rest ih =>
    obtain ⟨hpart, hrest⟩ := List.forall_mem_cons.mp hparts
    exact ih (forall_isName_cleanStep h hpart) hrest

namespace CleanPath

def ofText (text : List Char) : CleanPath where
  names := (text.splitOn '/').foldl cleanStep []
  isName := forall_isName_foldl (by simp) fun _ => notMem_of_mem_splitOn

def slashed (names : List (List Char)) : List Char := names.flatMap ('/' :: ·)

def text (p : CleanPath) : List Char := if p.names = [] then ['/'] else slashed p.names

def parent (p : CleanPath) : CleanPath where
  names := p.names.dropLast
  isName name hname := p.isName name (List.mem_of_mem_dropLast hname)

def Within (root p : CleanPath) : Prop := root.names <+: p.names

instance (root p : CleanPath) : Decidable (root.Within p) :=
  inferInstanceAs (Decidable (root.names <+: p.names))

theorem ext_names {p q : CleanPath} (h : p.names = q.names) : p = q := by
  cases p
  cases q
  cases h
  rfl

@[simp]
theorem slashed_nil : slashed [] = [] := rfl

@[simp]
theorem slashed_cons (name : List Char) (rest : List (List Char)) :
    slashed (name :: rest) = '/' :: (name ++ slashed rest) := rfl

@[simp]
theorem slashed_append (names rest : List (List Char)) :
    slashed (names ++ rest) = slashed names ++ slashed rest := List.flatMap_append

theorem intercalate_cons_eq (first : List Char) (names : List (List Char)) :
    ['/'].intercalate (first :: names) = first ++ slashed names := by
  induction names generalizing first with
  | nil => simp [List.intercalate_singleton]
  | cons name rest ih => rw [List.intercalate_cons_cons, ih, slashed_cons]; simp

/-- Names are entered one after the other. -/
theorem foldl_cleanStep_names {names start : List (List Char)}
    (h : ∀ name ∈ names, IsName name) : names.foldl cleanStep start = start ++ names := by
  induction names generalizing start with
  | nil => simp
  | cons name rest ih =>
    obtain ⟨⟨hne, -, hdot, hup⟩, hrest⟩ := List.forall_mem_cons.mp h
    rw [List.foldl_cons, ih hrest, cleanStep, if_neg (not_or.mpr ⟨hne, hdot⟩), if_neg hup,
      List.append_assoc]
    rfl

/-- The text of a clean path is read back. -/
theorem ofText_text (p : CleanPath) : ofText p.text = p := by
  apply ext_names
  by_cases hroot : p.names = []
  · rw [text, if_pos hroot, hroot]
    rfl
  · have hsplit : p.text.splitOn '/' = [] :: p.names := by
      have hparts : ∀ part ∈ ([] :: p.names : List (List Char)), '/' ∉ part := by
        intro part hpart
        rcases List.mem_cons.mp hpart with rfl | hname
        · exact List.not_mem_nil
        · exact (p.isName part hname).2.1
      rw [text, if_neg hroot, ← List.nil_append (slashed p.names), ← intercalate_cons_eq,
        List.splitOn_intercalate '/' hparts (List.cons_ne_nil _ _)]
    show (p.text.splitOn '/').foldl cleanStep [] = p.names
    rw [hsplit, List.foldl_cons, foldl_cleanStep_names p.isName]
    rfl

theorem text_inj {p q : CleanPath} (h : p.text = q.text) : p = q := by
  rw [← ofText_text p, h, ofText_text q]

/-- A directory's names and a slash in front of a path: at least one name follows. -/
theorem exists_of_slashed_prefix {root names : List (List Char)}
    (hroot : ∀ name ∈ root, '/' ∉ name) (hnames : ∀ name ∈ names, '/' ∉ name)
    (h : slashed root ++ ['/'] <+: slashed names) :
    ∃ name rest, names = root ++ name :: rest := by
  induction root generalizing names with
  | nil =>
    cases names with
    | nil => simp at h
    | cons name rest => exact ⟨name, rest, rfl⟩
  | cons dir root ih =>
    obtain ⟨hdir, hroot⟩ := List.forall_mem_cons.mp hroot
    cases names with
    | nil => simp at h
    | cons name rest =>
      obtain ⟨hname, hrest⟩ := List.forall_mem_cons.mp hnames
      obtain ⟨more, hmore⟩ := h
      obtain ⟨tail, htail⟩ : ∃ tail, slashed root ++ '/' :: more = '/' :: tail := by
        cases root with
        | nil => exact ⟨more, rfl⟩
        | cons _ _ => exact ⟨_, rfl⟩
      have hsame : dir ++ '/' :: tail = name ++ slashed rest := by
        have hcons : '/' :: (dir ++ (slashed root ++ '/' :: more)) =
            '/' :: (name ++ slashed rest) := by simpa using hmore
        rw [htail] at hcons
        exact (List.cons.inj hcons).2
      cases rest with
      | nil =>
        rw [slashed_nil, List.append_nil] at hsame
        exact absurd (hsame ▸ List.mem_append_right dir List.mem_cons_self) hname
      | cons next rest =>
        rw [slashed_cons] at hsame
        obtain ⟨rfl, hrest'⟩ := append_cons_inj hdir hname hsame
        have hbelow : slashed root ++ ['/'] <+: slashed (next :: rest) := by
          refine ⟨more, ?_⟩
          rw [List.append_assoc, slashed_cons, ← hrest', ← htail]
          rfl
        obtain ⟨found, behind, hfound⟩ := ih hroot hrest hbelow
        exact ⟨found, behind, by rw [hfound]; rfl⟩

/--
The test by texts: a path whose text begins with that of the directory and a slash lies below the
directory, and every path below does if the directory is not the root.
-/
theorem text_prefix_iff (root p : CleanPath) :
    root.text ++ ['/'] <+: p.text ↔
      root.names ≠ [] ∧ ∃ name rest, p.names = root.names ++ name :: rest := by
  have hnames (q : CleanPath) : ∀ name ∈ q.names, '/' ∉ name := fun name hname =>
    (q.isName name hname).2.1
  constructor
  · intro h
    by_cases hroot : root.names = []
    · -- Two slashes begin no text, as names are not empty.
      rw [text, if_pos hroot, text] at h
      cases hp : p.names with
      | nil => simp [hp] at h
      | cons name rest =>
        have hname := p.isName name (hp ▸ List.mem_cons_self)
        obtain ⟨c, name, rfl⟩ := List.exists_cons_of_ne_nil hname.1
        have hslash : c = '/' := by
          simp [hp] at h
          exact h.symm
        exact absurd (hslash ▸ List.mem_cons_self) hname.2.1
    · refine ⟨hroot, ?_⟩
      rw [text, if_neg hroot, text] at h
      split at h
      · obtain ⟨dir, dirs, hdirs⟩ := List.exists_cons_of_ne_nil hroot
        simp [hdirs] at h
      · exact exists_of_slashed_prefix (hnames root) (hnames p) h
  · rintro ⟨hroot, name, rest, hp⟩
    have hp' : p.names ≠ [] := by simp [hp]
    rw [text, if_neg hroot, text, if_neg hp', hp, slashed_append, slashed_cons]
    exact ⟨name ++ slashed rest, by simp⟩

end CleanPath

end Photon.Lib
