import Photon.Sql.NamedParams

/-!
`ConvertQueryAndNamedParams` of `storage/postgres/pghelper.go`: a scanner with a mode
for single-quoted and one for dollar-quoted literals. The index into the query is
kept as the rest of the query; a handler that does not apply returns `none`. The
loop runs once for each byte at most.
-/

namespace Photon.Postgres

open Photon.Sql

variable {V : Type}

structure NamedParamConverter (V : Type) where
  rest : Text
  params : Params V
  out : Text
  ordered : List V
  seen : Text → Option Nat
  argPos : Nat
  inSingleQuote : Bool
  inDollarQuote : Bool
  dollarTag : Text

def newNamedParamConverter (query : Text) (params : Params V) : NamedParamConverter V where
  rest := query
  params := params
  out := []
  ordered := []
  seen := fun _ => none
  argPos := 1
  inSingleQuote := false
  inDollarQuote := false
  dollarTag := []

def parseDollarTag (s : Text) : Option Text :=
  match s with
  | '$' :: rest =>
    match rest.dropWhile isNamedParamChar with
    | '$' :: _ => some ('$' :: rest.takeWhile isNamedParamChar ++ ['$'])
    | _ => none
  | _ => none

variable (c : NamedParamConverter V)

def NamedParamConverter.copy (text : Text) : NamedParamConverter V :=
  { c with out := c.out ++ text, rest := c.rest.drop text.length }

def handleDollarQuote : Option (NamedParamConverter V) :=
  if c.inSingleQuote ∨ c.rest.head? ≠ some '$' then none
  else if c.inDollarQuote ∧ c.dollarTag ≠ [] ∧ c.dollarTag <+: c.rest then
    some { c.copy c.dollarTag with inDollarQuote := false, dollarTag := [] }
  else if c.inDollarQuote then none
  else
    match parseDollarTag c.rest with
    | none => none
    | some tag => some { c.copy tag with inDollarQuote := true, dollarTag := tag }

def handleSingleQuote : Option (NamedParamConverter V) :=
  if c.inDollarQuote ∨ c.rest.head? ≠ some '\'' then none
  else if c.inSingleQuote ∧ c.rest[1]? = some '\'' then some (c.copy ['\'', '\''])
  else some { c.copy ['\''] with inSingleQuote := !c.inSingleQuote }

def copyQuotedByte : Option (NamedParamConverter V) :=
  if c.inSingleQuote ∨ c.inDollarQuote then some (c.copy (c.rest.take 1)) else none

def copyPostgresCast : Option (NamedParamConverter V) :=
  if c.rest[1]? ≠ some ':' then none else some (c.copy [':', ':'])

def writeNamedParam [Inhabited V] (token : Text) : NamedParamConverter V :=
  match c.seen token with
  | some pos => { c with out := c.out ++ '$' :: decimal pos }
  | none =>
    { c with
      seen := Function.update c.seen token (some c.argPos)
      out := c.out ++ '$' :: decimal c.argPos
      ordered := c.ordered ++ [(c.params.lookup token).getD default]
      argPos := c.argPos + 1 }

def handleNamedParam [Inhabited V] : Option (NamedParamConverter V) :=
  if c.rest.head? ≠ some ':' then none
  else
    match copyPostgresCast c with
    | some next => some next
    | none =>
      let name := (c.rest.drop 1).takeWhile isNamedParamChar
      if name = [] then some (c.copy [':'])
      else some { writeNamedParam c (':' :: name) with rest := c.rest.drop (name.length + 1) }

def convertStep [Inhabited V] : NamedParamConverter V :=
  (((handleDollarQuote c).or (handleSingleQuote c)).or
    ((copyQuotedByte c).or (handleNamedParam c))).getD (c.copy (c.rest.take 1))

/-- The loop of `convert`, with a bound on its turns. -/
def convertLoop [Inhabited V] : Nat → NamedParamConverter V → NamedParamConverter V
  | 0, c => c
  | turns + 1, c => if c.rest = [] then c else convertLoop turns (convertStep c)

def convert [Inhabited V] : NamedParamConverter V :=
  convertLoop c.rest.length c

def convertQueryAndNamedParams [Inhabited V] (query : Text) (params : List (Params V)) :
    Text × List V :=
  let converter := convert (newNamedParamConverter query (mergeNamedParams params))
  (converter.out, converter.ordered)

def getParameterizedInClause (columnName : Text) (columnValueArray : List V) : Text × Params V :=
  parameterizedInClause columnName columnValueArray

end Photon.Postgres
