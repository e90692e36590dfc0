import Photon.Lib.Percent

/-!
The URLs of Go's package `net/url`, as bytes: `Parse`, `String` and `EscapedPath`. What stands for
a host is left to a parameter; all that is known of it is that a host which was read is read
again from the text it is printed as. A URL with a host and without credentials, raw path,
opaque part and fragment is read back from its own text.
-/

namespace Photon.Lib

def slash : UInt8 := 47
def questionMark : UInt8 := 63
def hashSign : UInt8 := 35
def colon : UInt8 := 58
def atSign : UInt8 := 64

def isLetter (b : UInt8) : Bool :=
  (97 ≤ b.toNat && b.toNat ≤ 122) || (65 ≤ b.toNat && b.toNat ≤ 90)

def isNumeral (b : UInt8) : Bool := 48 ≤ b.toNat && b.toNat ≤ 57

def isUnreserved (b : UInt8) : Bool :=
  isLetter b || isNumeral b || b ∈ ascii "-_.~"

def keepPathSegment (b : UInt8) : Bool := isUnreserved b || b ∈ ascii "$&+:=@"

def keepPath (b : UInt8) : Bool := isUnreserved b || b ∈ ascii "$&+,/:;=@"

def keepHost (b : UInt8) : Bool := isUnreserved b || b ∈ ascii "!$&'()*+,;=:[]<>\""

def keepFragment (b : UInt8) : Bool := isUnreserved b || b ∈ ascii "$&+,/:;=?@!()*"

def pathEscape (s : Bytes) : Bytes := escape keepPathSegment s

/-- The texts of hosts that `Parse` accepts, and the hosts they stand for. -/
structure HostReader where
  read : Bytes → Option Bytes
  read_escape : ∀ {text host : Bytes}, read text = some host →
    read (escape keepHost host) = some host

/-- `user` is the text of the credentials. -/
structure URL where
  scheme : Bytes
  opaquePart : Bytes
  user : Option Bytes
  host : Bytes
  path : Bytes
  rawPath : Bytes
  omitHost : Bool
  forceQuery : Bool
  rawQuery : Bytes
  fragment : Bytes
deriving DecidableEq

def URL.empty : URL := ⟨[], [], none, [], [], [], false, false, [], []⟩

/-- `strings.Cut` at a byte, without the answer whether it was found. -/
def cut (c : UInt8) (s : Bytes) : Bytes × Bytes :=
  (s.takeWhile (· != c), (s.dropWhile (· != c)).drop 1)

def isControl (b : UInt8) : Bool := b.toNat < 32 || b.toNat == 127

def isSchemeByte (b : UInt8) : Bool := isLetter b || isNumeral b || b ∈ ascii "+-."

/-- The scheme and the rest behind its colon. A text without a scheme is all rest. -/
def getScheme (rawURL : Bytes) : Option (Bytes × Bytes) :=
  let scheme := rawURL.takeWhile isSchemeByte
  match rawURL.dropWhile isSchemeByte with
  | [] => some ([], rawURL)
  | c :: rest =>
    if c ≠ colon then some ([], rawURL)
    else
      match scheme with
      | [] => none
      | first :: _ => if isLetter first then some (scheme, rest) else some ([], rawURL)

def lowerByte (b : UInt8) : UInt8 := if 65 ≤ b.toNat ∧ b.toNat ≤ 90 then b + 32 else b

/-- `validUserinfo`, and that its escapes can be read. -/
def validUserinfo (s : Bytes) : Bool :=
  s.all (fun b => isUnreserved b || b ∈ ascii ":!$&'()*+,;=%@") && (unescape s).isSome

variable (hosts : HostReader)

def parseAuthority (authority : Bytes) : Option (Option Bytes × Bytes) :=
  if atSign ∈ authority then
    let userinfo := (authority.reverse.dropWhile (· != atSign)).drop 1 |>.reverse
    match hosts.read (authority.reverse.takeWhile (· != atSign)).reverse with
    | none => none
    | some host => if validUserinfo userinfo then some (some userinfo, host) else none
  else (hosts.read authority).map fun host => (none, host)

variable (u : URL)

/-- The raw path is kept only if it is not the default encoding of the path. -/
def URL.setPath (p : Bytes) : Option URL :=
  (unescape p).map fun path =>
    { u with path := path, rawPath := if p = escape keepPath path then [] else p }

/-- What stands before the query, whether the text ends with its only question mark, and the
query. -/
def splitQuery (rest : Bytes) : Bytes × Bool × Bytes :=
  if rest.getLast? = some questionMark ∧ rest.count questionMark = 1 then
    (rest.dropLast, true, [])
  else ((cut questionMark rest).1, false, (cut questionMark rest).2)

/-- The part behind the scheme: an opaque part, or an authority and a path. -/
def URL.setRest (rest : Bytes) : Option URL :=
  if rest.head? ≠ some slash ∧ u.scheme ≠ [] then some { u with opaquePart := rest }
  else if rest.head? ≠ some slash ∧ colon ∈ (cut slash rest).1 then none
  else if (u.scheme ≠ [] ∨ ¬ascii "///" <+: rest) ∧ ascii "//" <+: rest then
    let authority := rest.drop 2
    match parseAuthority hosts (authority.takeWhile (· != slash)) with
    | none => none
    | some (user, host) =>
      { u with user := user, host := host }.setPath (authority.dropWhile (· != slash))
  else
    { u with omitHost := decide (u.scheme ≠ [] ∧ rest.head? = some slash) }.setPath rest

/-- `Parse` of a text without its fragment. -/
def parseURL (rawURL : Bytes) : Option URL :=
  if rawURL.any isControl then none
  else if rawURL = ascii "*" then some { URL.empty with path := ascii "*" }
  else
    match getScheme rawURL with
    | none => none
    | some (scheme, rest) =>
      let (rest, forceQuery, rawQuery) := splitQuery rest
      { URL.empty with
        scheme := scheme.map lowerByte
        forceQuery := forceQuery
        rawQuery := rawQuery }.setRest hosts rest

def URL.parse (rawURL : Bytes) : Option URL :=
  match parseURL hosts (cut hashSign rawURL).1 with
  | none => none
  | some u =>
    (unescape (cut hashSign rawURL).2).map fun fragment => { u with fragment := fragment }

def validEncodedPath (s : Bytes) : Bool :=
  s.all fun b => keepPath b || b ∈ ascii "!'()*[]%"

def URL.escapedPath : Bytes :=
  if u.rawPath ≠ [] ∧ validEncodedPath u.rawPath = true ∧ unescape u.rawPath = some u.path then
    u.rawPath
  else if u.path = ascii "*" then ascii "*"
  else escape keepPath u.path

def URL.authorityText : Bytes :=
  if u.scheme = [] ∧ u.host = [] ∧ u.user = none then []
  else if u.omitHost = true ∧ u.host = [] ∧ u.user = none then []
  else
    (if u.host ≠ [] ∨ u.path ≠ [] ∨ u.user ≠ none then ascii "//" else []) ++
      (match u.user with
        | some user => user ++ [atSign]
        | none => []) ++
      escape keepHost u.host

/-- `String`; the prefix of a relative path is added where nothing stands before it. -/
def URL.text : Bytes :=
  let scheme := if u.scheme = [] then [] else u.scheme ++ [colon]
  let hier :=
    if u.opaquePart ≠ [] then u.opaquePart
    else
      let before := u.authorityText
      let path := u.escapedPath
      let before :=
        if path ≠ [] ∧ path.head? ≠ some slash ∧ u.host ≠ [] then before ++ [slash] else before
      if scheme ++ before = [] ∧ colon ∈ (cut slash path).1 then ascii "./" ++ path
      else before ++ path
  scheme ++ hier ++
    (if u.forceQuery = true ∨ u.rawQuery ≠ [] then questionMark :: u.rawQuery else []) ++
    (if u.fragment ≠ [] then hashSign :: escape keepFragment u.fragment else [])

/-! ### Bytes -/

variable {b : UInt8}

section Bytes

def IsGraphic (b : UInt8) : Prop := 33 ≤ b.toNat ∧ b.toNat ≤ 126

theorem IsGraphic.not_control (h : IsGraphic b) : isControl b = false := by
  obtain ⟨hlow, hhigh⟩ := h
  simp [isControl]
  omega

theorem isGraphic_of_isUnreserved (h : isUnreserved b = true) : IsGraphic b := by
  have hmarks : ascii "-_.~" = [45, 95, 46, 126] := by decide
  simp only [isUnreserved, isLetter, isNumeral, hmarks, Bool.or_eq_true, Bool.and_eq_true,
    decide_eq_true_eq, List.mem_cons, List.not_mem_nil, or_false] at h
  rcases h with ((⟨_, _⟩ | ⟨_, _⟩) | ⟨_, _⟩) | rfl | rfl | rfl | rfl
  all_goals exact ⟨by first | omega | decide, by first | omega | decide⟩

/-- Marks that are kept besides the unreserved bytes. -/
theorem isGraphic_of_keep {marks : Bytes}
    (hmarks : marks.all (fun b => 33 ≤ b.toNat && b.toNat ≤ 126) = true)
    (h : (isUnreserved b || decide (b ∈ marks)) = true) : IsGraphic b := by
  rcases Bool.or_eq_true_iff.mp h with hplain | hmark
  · exact isGraphic_of_isUnreserved hplain
  · have hb := List.all_eq_true.mp hmarks b (of_decide_eq_true hmark)
    simpa [IsGraphic] using hb

theorem isGraphic_of_unhex (h : unhex b ≠ none) : IsGraphic b := by
  rw [unhex] at h
  split_ifs at h
  · exact ⟨by omega, by omega⟩
  · exact ⟨by omega, by omega⟩
  · exact ⟨by omega, by omega⟩
  · exact absurd rfl h

theorem isGraphic_of_mem_escape {keep : UInt8 → Bool} (hkeep : ∀ b, keep b = true → IsGraphic b)
    {s : Bytes} (h : b ∈ escape keep s) : IsGraphic b := by
  rcases of_mem_escape h with ⟨-, hkept⟩ | rfl | hhex
  · exact hkeep b hkept
  · exact ⟨by decide, by decide⟩
  · exact isGraphic_of_unhex hhex

theorem separates_slash : Separates slash := ⟨by decide, by decide⟩
theorem separates_questionMark : Separates questionMark := ⟨by decide, by decide⟩
theorem separates_hashSign : Separates hashSign := ⟨by decide, by decide⟩
theorem separates_atSign : Separates atSign := ⟨by decide, by decide⟩

end Bytes

/-! ### Cutting -/

section Cutting

variable {c : UInt8} {s : Bytes}

theorem forall_bne_of_notMem (h : c ∉ s) : ∀ b ∈ s, (b != c) = true := by
  intro b hb
  rw [bne_iff_ne]
  rintro rfl
  exact h hb

theorem takeWhile_bne_append (h : c ∉ s) {t : Bytes} (ht : t = [] ∨ t.head? = some c) :
    (s ++ t).takeWhile (· != c) = s := by
  rw [List.takeWhile_append_of_pos (forall_bne_of_notMem h)]
  cases t with
  | nil => simp
  | cons b t =>
    obtain rfl : b = c := by simpa using ht
    simp

theorem dropWhile_bne_append (h : c ∉ s) {t : Bytes} (ht : t = [] ∨ t.head? = some c) :
    (s ++ t).dropWhile (· != c) = t := by
  rw [List.dropWhile_append_of_pos (forall_bne_of_notMem h)]
  cases t with
  | nil => rfl
  | cons b t =>
    obtain rfl : b = c := by simpa using ht
    simp

theorem cut_append_cons (h : c ∉ s) (t : Bytes) : cut c (s ++ c :: t) = (s, t) := by
  rw [cut, takeWhile_bne_append h (Or.inr rfl), dropWhile_bne_append h (Or.inr rfl)]
  rfl

theorem cut_of_notMem (h : c ∉ s) : cut c s = (s, []) := by
  have htake := takeWhile_bne_append (t := []) h (Or.inl rfl)
  have hdrop := dropWhile_bne_append (t := []) h (Or.inl rfl)
  rw [List.append_nil] at htake hdrop
  rw [cut, htake, hdrop]
  rfl

end Cutting

/-! ### What was read -/

def URL.givenPath : Bytes :=
  if u.rawPath = [] then escape keepPath u.path else u.rawPath

theorem URL.givenPath_setPath {u v : URL} {p : Bytes} (h : u.setPath p = some v) :
    v.givenPath = p ∧ unescape p = some v.path ∧
      v = { u with path := v.path, rawPath := v.rawPath } := by
  obtain ⟨path, hpath, rfl⟩ := Option.map_eq_some_iff.mp h
  refine ⟨?_, hpath, rfl⟩
  rw [givenPath]
  by_cases hraw : p = escape keepPath path
  · rw [if_pos hraw, if_pos rfl]
    exact hraw.symm
  · rw [if_neg hraw, if_neg]
    rintro rfl
    rw [unescape] at hpath
    cases hpath
    exact hraw rfl

structure URL.HasHost (hosts : HostReader) (u : URL) : Prop where
  opaquePart : u.opaquePart = []
  omitHost : u.omitHost = false
  host : ∃ text, hosts.read text = some u.host
  path : unescape u.givenPath = some u.path
  slashed : u.givenPath = [] ∨ u.givenPath.head? = some slash

theorem parseAuthority_host {hosts : HostReader} {authority : Bytes} {user : Option Bytes}
    {host : Bytes} (h : parseAuthority hosts authority = some (user, host)) :
    ∃ text, hosts.read text = some host := by
  rw [parseAuthority] at h
  split_ifs at h
  · dsimp only at h
    split at h
    · cases h
    · rename_i other hread
      split_ifs at h
      cases h
      exact ⟨_, hread⟩
  · obtain ⟨other, hread, heq⟩ := Option.map_eq_some_iff.mp h
    cases heq
    exact ⟨_, hread⟩

theorem head?_dropWhile_bne (c : UInt8) (s : Bytes) :
    s.dropWhile (· != c) = [] ∨ (s.dropWhile (· != c)).head? = some c := by
  induction s with
  | nil => exact Or.inl rfl
  | cons b s ih =>
    by_cases hb : b = c
    · subst hb
      exact Or.inr (by simp)
    · rw [List.dropWhile_cons_of_pos (by simpa using hb)]
      exact ih

theorem URL.hasHost_of_parse {hosts : HostReader} {text : Bytes} {u : URL}
    (h : URL.parse hosts text = some u) (hhost : u.host ≠ []) : u.HasHost hosts := by
  rw [parse] at h
  split at h
  · cases h
  · rename_i before hbefore
    obtain ⟨fragment, -, rfl⟩ := Option.map_eq_some_iff.mp h
    rw [parseURL] at hbefore
    split_ifs at hbefore
    · cases hbefore
      exact absurd rfl hhost
    · split at hbefore
      · cases hbefore
      · rename_i scheme rest _
        dsimp only at hbefore
        rw [setRest] at hbefore
        split_ifs at hbefore
        · cases hbefore
          exact absurd rfl hhost
        · dsimp only at hbefore
          split at hbefore
          · cases hbefore
          · rename_i user host hauthority
            obtain ⟨hgiven, hpath, heq⟩ := givenPath_setPath hbefore
            have hslashed := head?_dropWhile_bne slash ((splitQuery rest).1.drop 2)
            rw [← hgiven] at hpath hslashed
            refine ⟨?_, ?_, ?_, hpath, hslashed⟩
            · rw [heq]
              rfl
            · rw [heq]
              rfl
            · rw [heq]
              exact parseAuthority_host hauthority
        · obtain ⟨-, -, heq⟩ := givenPath_setPath hbefore
          rw [heq] at hhost
          exact absurd rfl hhost

/-! ### Reading a URL back -/

structure URL.Plain (hosts : HostReader) (u : URL) : Prop where
  scheme_ne : u.scheme ≠ []
  lower : ∀ b ∈ u.scheme, 97 ≤ b.toNat ∧ b.toNat ≤ 122
  opaquePart : u.opaquePart = []
  user : u.user = none
  host_ne : u.host ≠ []
  host : ∃ text, hosts.read text = some u.host
  path : u.path = [] ∨ u.path.head? = some slash
  rawPath : u.rawPath = []
  omitHost : u.omitHost = false
  query : ∀ b ∈ u.rawQuery, b ≠ hashSign ∧ isControl b = false
  fragment : u.fragment = []

def URL.queryText : Bytes :=
  if u.forceQuery = true ∨ u.rawQuery ≠ [] then questionMark :: u.rawQuery else []

namespace URL.Plain

variable {hosts : HostReader} {u : URL}

theorem escapedPath (h : u.Plain hosts) : u.escapedPath = escape keepPath u.path := by
  have hstar : u.path ≠ ascii "*" := by
    intro heq
    rcases h.path with hnil | hhead
    · rw [heq] at hnil
      exact absurd hnil (by decide)
    · rw [heq] at hhead
      exact absurd hhead (by decide)
  rw [URL.escapedPath, if_neg (fun hraw => hraw.1 h.rawPath), if_neg hstar]

theorem escapedPath_head (h : u.Plain hosts) :
    escape keepPath u.path = [] ∨ (escape keepPath u.path).head? = some slash := by
  rcases h.path with hnil | hhead
  · exact Or.inl (by rw [hnil]; rfl)
  · obtain ⟨rest, hpath⟩ := List.head?_eq_some_iff.mp hhead
    refine Or.inr ?_
    rw [hpath, escape_cons, escapeByte_of_keep (by decide)]
    rfl

/-- The text of a plain URL. -/
theorem text_eq (h : u.Plain hosts) :
    u.text = u.scheme ++ colon :: slash :: slash ::
      (escape keepHost u.host ++ (escape keepPath u.path ++ u.queryText)) := by
  have hauthority : u.authorityText = slash :: slash :: escape keepHost u.host := by
    rw [authorityText, if_neg (fun hnone => h.scheme_ne hnone.1),
      if_neg (fun hnone => h.host_ne hnone.2.1), if_pos (Or.inl h.host_ne), h.user]
    rfl
  have hpath := h.escapedPath_head
  have hslash : ¬(escape keepPath u.path ≠ [] ∧
      (escape keepPath u.path).head? ≠ some slash ∧ u.host ≠ []) := by
    rintro ⟨hne, hhead, -⟩
    exact hpath.elim hne hhead
  rw [URL.text, h.escapedPath, hauthority, h.fragment, h.opaquePart]
  simp [h.scheme_ne, hslash, queryText]

theorem getScheme_append {scheme : Bytes} (hne : scheme ≠ [])
    (hlower : ∀ b ∈ scheme, 97 ≤ b.toNat ∧ b.toNat ≤ 122) (rest : Bytes) :
    getScheme (scheme ++ colon :: rest) = some (scheme, rest) := by
  have hletter : ∀ b ∈ scheme, isLetter b = true := by
    intro b hb
    simp [isLetter, hlower b hb]
  have hscheme : ∀ b ∈ scheme, isSchemeByte b = true := by
    intro b hb
    rw [isSchemeByte, hletter b hb]
    rfl
  have hcolon : isSchemeByte colon = false := by decide
  have htake : (scheme ++ colon :: rest).takeWhile isSchemeByte = scheme := by
    rw [List.takeWhile_append_of_pos hscheme, List.takeWhile_cons_of_neg (by simp [hcolon]),
      List.append_nil]
  have hdrop : (scheme ++ colon :: rest).dropWhile isSchemeByte = colon :: rest := by
    rw [List.dropWhile_append_of_pos hscheme, List.dropWhile_cons_of_neg (by simp [hcolon])]
  obtain ⟨first, letters, rfl⟩ := List.exists_cons_of_ne_nil hne
  rw [getScheme, htake, hdrop]
  simp [hletter first List.mem_cons_self]

theorem map_lowerByte {scheme : Bytes} (hlower : ∀ b ∈ scheme, 97 ≤ b.toNat ∧ b.toNat ≤ 122) :
    scheme.map lowerByte = scheme := by
  refine (List.map_congr_left fun b hb => ?_).trans (List.map_id _)
  have hb := hlower b hb
  exact if_neg (by omega)

/-- The query is cut off where it begins. -/
theorem splitQuery_append {before : Bytes} (hbefore : questionMark ∉ before) (u : URL) :
    splitQuery (before ++ u.queryText) =
      (before, u.forceQuery && u.rawQuery.isEmpty, u.rawQuery) := by
  have hcount : before.count questionMark = 0 := List.count_eq_zero.mpr hbefore
  cases hquery : u.rawQuery with
  | nil =>
    rw [queryText, hquery]
    cases hforce : u.forceQuery with
    | false =>
      have hplain : ¬((before ++ []).getLast? = some questionMark ∧
          (before ++ []).count questionMark = 1) := by
        rw [List.append_nil, hcount]
        exact fun hforced => absurd hforced.2 (by decide)
      rw [if_neg (by simp), splitQuery, if_neg hplain, List.append_nil, cut_of_notMem hbefore]
      rfl
    | true =>
      have hforced : (before ++ [questionMark]).getLast? = some questionMark ∧
          (before ++ [questionMark]).count questionMark = 1 := by
        rw [List.count_append, hcount]
        exact ⟨List.getLast?_concat, rfl⟩
      rw [if_pos (by simp), splitQuery, if_pos hforced, List.dropLast_concat]
      rfl
  | cons first query =>
    have hplain : ¬((before ++ questionMark :: first :: query).getLast? = some questionMark ∧
        (before ++ questionMark :: first :: query).count questionMark = 1) := by
      rintro ⟨hlast, hone⟩
      rw [List.getLast?_append_cons, List.getLast?_cons_cons] at hlast
      have hmem := List.mem_of_getLast? hlast
      have hpos : 0 < (first :: query).count questionMark := List.count_pos_iff.mpr hmem
      rw [List.count_append, hcount, List.count_cons_self] at hone
      omega
    rw [queryText, hquery, if_pos (Or.inr (List.cons_ne_nil first query)), splitQuery,
      if_neg hplain, cut_append_cons hbefore]
    simp

/-- Host and path are read back behind the scheme. -/
theorem setRest_eq (h : u.Plain hosts) {start : URL} (hscheme : start.scheme ≠ []) :
    start.setRest hosts (slash :: slash :: (escape keepHost u.host ++ escape keepPath u.path)) =
      some { start with user := none, host := u.host, path := u.path, rawPath := [] } := by
  obtain ⟨hostText, hhost⟩ := h.host
  have hslash : slash ∉ escape keepHost u.host :=
    separates_slash.notMem_escape_of_not_keep (by decide) _
  have hat : atSign ∉ escape keepHost u.host :=
    separates_atSign.notMem_escape_of_not_keep (by decide) _
  have hauthority : parseAuthority hosts (escape keepHost u.host) = some (none, u.host) := by
    rw [parseAuthority, if_neg hat, hosts.read_escape hhost]
    rfl
  have hpath : ∀ before : URL, before.setPath (escape keepPath u.path) =
      some { before with path := u.path, rawPath := [] } := by
    intro before
    rw [setPath, unescape_escape (by decide), Option.map_some, if_pos rfl]
  have hbegins : ascii "//" <+: slash :: slash ::
      (escape keepHost u.host ++ escape keepPath u.path) :=
    ⟨escape keepHost u.host ++ escape keepPath u.path, rfl⟩
  have hdrop : (slash :: slash :: (escape keepHost u.host ++ escape keepPath u.path)).drop 2 =
      escape keepHost u.host ++ escape keepPath u.path := rfl
  rw [setRest, if_neg (fun hhead => hhead.1 rfl), if_neg (fun hhead => hhead.1 rfl),
    if_pos ⟨Or.inl hscheme, hbegins⟩, hdrop]
  dsimp only
  rw [takeWhile_bne_append hslash h.escapedPath_head,
    dropWhile_bne_append hslash h.escapedPath_head, hauthority]
  exact hpath _

theorem of_mem_text (h : u.Plain hosts) (hb : b ∈ u.text) : b ≠ hashSign ∧ isControl b = false := by
  have hgraphic : ∀ {b : UInt8}, b ≠ hashSign → IsGraphic b → b ≠ hashSign ∧ isControl b = false :=
    fun hne hseen => ⟨hne, hseen.not_control⟩
  rw [h.text_eq] at hb
  simp only [List.mem_append, List.mem_cons] at hb
  rcases hb with hscheme | rfl | rfl | rfl | hhost | hpath | hquery
  · have hletter := h.lower b hscheme
    refine hgraphic ?_ ⟨by omega, by omega⟩
    rintro rfl
    exact absurd hletter.1 (by decide)
  · exact ⟨by decide, by decide⟩
  · exact ⟨by decide, by decide⟩
  · exact ⟨by decide, by decide⟩
  · refine hgraphic ?_ (isGraphic_of_mem_escape (fun _ => isGraphic_of_keep (by decide)) hhost)
    rintro rfl
    exact separates_hashSign.notMem_escape_of_not_keep (by decide) _ hhost
  · refine hgraphic ?_ (isGraphic_of_mem_escape (fun _ => isGraphic_of_keep (by decide)) hpath)
    rintro rfl
    exact separates_hashSign.notMem_escape_of_not_keep (by decide) _ hpath
  · rw [queryText] at hquery
    split_ifs at hquery
    · rcases List.mem_cons.mp hquery with rfl | hquery
      · exact ⟨by decide, by decide⟩
      · exact h.query b hquery
    · exact absurd hquery List.not_mem_nil

/-- A plain URL is read back from its text. A query that is there needs not be forced. -/
theorem parse_text (h : u.Plain hosts) :
    URL.parse hosts u.text =
      some { u with forceQuery := u.forceQuery && u.rawQuery.isEmpty } := by
  have hcut : cut hashSign u.text = (u.text, []) :=
    cut_of_notMem fun hmem => (h.of_mem_text hmem).1 rfl
  have hcontrol : u.text.any isControl = false := by
    rw [List.any_eq_false]
    intro b hb
    simp [(h.of_mem_text hb).2]
  have hstar : u.text ≠ ascii "*" := by
    intro heq
    have hcolon : colon ∈ ascii "*" := by
      rw [← heq, h.text_eq]
      simp
    exact absurd hcolon (by decide)
  have hmark : questionMark ∉ slash :: slash ::
      (escape keepHost u.host ++ escape keepPath u.path) := by
    have hhost : questionMark ∉ escape keepHost u.host :=
      separates_questionMark.notMem_escape_of_not_keep (by decide) _
    have hpath : questionMark ∉ escape keepPath u.path :=
      separates_questionMark.notMem_escape_of_not_keep (by decide) _
    simp only [List.mem_cons, List.mem_append, not_or]
    exact ⟨by decide, by decide, hhost, hpath⟩
  have hsplit := splitQuery_append hmark u
  rw [List.cons_append, List.cons_append, List.append_assoc] at hsplit
  rw [URL.parse, hcut, parseURL, if_neg (by simp [hcontrol]), if_neg hstar, h.text_eq,
    getScheme_append h.scheme_ne h.lower]
  dsimp only
  rw [hsplit]
  rw [h.setRest_eq (by simpa using h.scheme_ne), map_lowerByte h.lower]
  obtain ⟨scheme, opaquePart, user, host, path, rawPath, omitHost, forceQuery, rawQuery,
    fragment⟩ := u
  have hopaque := h.opaquePart
  have huser := h.user
  have hraw := h.rawPath
  have homit := h.omitHost
  have hfragment := h.fragment
  subst hopaque huser hraw homit hfragment
  rfl

end URL.Plain

end Photon.Lib
