import Photon.Sql.NamedParams

/-!
`ConvertQueryAndNamedParams` of `storage/mysql/helper.go`. The tokens are found once,
by a regular expression over the whole query, and then each of them is replaced at
its first occurrence in the query as it is by then.
-/

namespace Photon.Mysql

open Photon.Sql

variable {V : Type}

/-- The match of `:[a-zA-Z0-9_]+` at the beginning of a text. -/
def tokenAt : Text → Option Text
  | ':' :: rest =>
    let name := rest.takeWhile isNamedParamChar
    if name = [] then none else some (':' :: name)
  | _ => none

/-- `FindAllString`. The number counts the characters of the last match that are still
to be passed. -/
def findAllTokens : Nat → Text → List Text
  | _, [] => []
  | skip + 1, _ :: rest => findAllTokens skip rest
  | 0, c :: rest =>
    match tokenAt (c :: rest) with
    | some token => token :: findAllTokens (token.length - 1) rest
    | none => findAllTokens 0 rest

def replaceFirst (old new : Text) : Text → Text
  | [] => []
  | c :: rest =>
    if old.isPrefixOf (c :: rest) then new ++ (c :: rest).drop old.length
    else c :: replaceFirst old new rest

def replaceToken (value : Text → V) (state : Text × List V) (token : Text) : Text × List V :=
  (replaceFirst token ['?'] state.1, state.2 ++ [value token])

def convertQueryAndNamedParams [Inhabited V] (query : Text) (params : List (Params V)) :
    Text × List V :=
  let allParams := mergeNamedParams params
  (findAllTokens 0 query).foldl
    (replaceToken fun token => (allParams.lookup token).getD default) (query, [])

def getParameterizedInClause (columnName : Text) (columnValueArray : List V) : Text × Params V :=
  parameterizedInClause columnName columnValueArray

/-- Tokens are maximal, so a token's text is followed by no further character of a
name. -/
theorem tokenAt_eq_some {text token : Text} (h : tokenAt text = some token) :
    ∃ name rest, token = ':' :: name ∧ name ≠ [] ∧ (∀ c ∈ name, isNamedParamChar c = true) ∧
      (∀ next, rest.head? = some next → isNamedParamChar next = false) ∧ text = token ++ rest := by
  unfold tokenAt at h
  split at h
  case h_2 => cases h
  case h_1 rest =>
    dsimp only at h
    split at h
    · cases h
    · rename_i hname
      cases h
      refine ⟨_, rest.dropWhile isNamedParamChar, rfl, hname,
        fun c hc => List.all_eq_true.mp List.all_takeWhile c hc, fun _ => head_dropWhile, ?_⟩
      rw [List.cons_append, List.takeWhile_append_dropWhile]

theorem tokenAt_of_ne {c : Char} (h : c ≠ ':') (rest : Text) : tokenAt (c :: rest) = none := by
  unfold tokenAt
  split
  · rename_i heq
    cases heq
    exact absurd rfl h
  · rfl

theorem tokenAt_colon {name rest : Text} (hname : name ≠ [])
    (hchars : ∀ c ∈ name, isNamedParamChar c = true)
    (hend : ∀ next, rest.head? = some next → isNamedParamChar next = false) :
    tokenAt (':' :: name ++ rest) = some (':' :: name) := by
  have htake : (name ++ rest).takeWhile isNamedParamChar = name := by
    rw [List.takeWhile_append_of_pos hchars, takeWhile_of_head hend, List.append_nil]
  simp only [tokenAt, List.cons_append, htake, if_neg hname]

/-- A colon before a character of a name starts a token. -/
theorem not_name_of_tokenAt_none {c : Char} {rest : Text} (h : tokenAt (':' :: c :: rest) = none) :
    isNamedParamChar c = false := by
  by_contra hchar
  have hname : (c :: rest).takeWhile isNamedParamChar ≠ [] := by
    rw [List.takeWhile_cons, if_pos (by simpa using hchar)]
    simp
  simp only [tokenAt, if_neg hname] at h
  cases h

theorem findAllTokens_skip (skip : Nat) (text : Text) :
    findAllTokens skip text = findAllTokens 0 (text.drop skip) := by
  induction text generalizing skip with
  | nil => simp [findAllTokens]
  | cons c rest ih =>
    cases skip with
    | zero => rfl
    | succ skip => exact ih skip

theorem findAllTokens_token {text token : Text} (h : tokenAt text = some token) :
    findAllTokens 0 text = token :: findAllTokens 0 (text.drop token.length) := by
  obtain ⟨name, rest, rfl, -, -, -, rfl⟩ := tokenAt_eq_some h
  rw [List.cons_append] at h ⊢
  rw [findAllTokens, h]
  simp only
  rw [findAllTokens_skip]
  rfl

end Photon.Mysql
