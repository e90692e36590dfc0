import Mathlib

/-!
What the Postgres and the MySQL helper share: named tokens, the merge of parameter
maps, and the generated IN clause. Values are of any type whose default stands for
Go's `nil`.
-/

namespace Photon.Sql

/-- A Go string, as the list of its bytes, each written as the character with that
number. -/
abbrev Text := List Char

abbrev Params (V : Type) := AList (fun _ : Text => V)

def inRange (low high ch : Char) : Bool := low.toNat ≤ ch.toNat && ch.toNat ≤ high.toNat

def isNamedParamChar (ch : Char) : Bool :=
  inRange 'a' 'z' ch || inRange 'A' 'Z' ch || inRange '0' '9' ch || ch == '_'

def decimal (n : Nat) : Text := Nat.toDigits 10 n

variable {V : Type}

def mergeNamedParams (params : List (Params V)) : Params V :=
  params.foldl (fun all mp => mp.entries.foldl (fun all e => all.insert e.1 e.2) all) ∅

def lastValue (params : List (Params V)) (token : Text) : Option V :=
  params.reverse.findSome? fun mp => mp.lookup token

def inClauseKey (columnName : Text) (i : Nat) : Text := ':' :: columnName ++ decimal (i + 1)

def trimSuffix (text suffix : Text) : Text :=
  if suffix.isSuffixOf text then text.take (text.length - suffix.length) else text

/-- `GetParameterizedInClause` of both helpers. -/
def parameterizedInClause (columnName : Text) (columnValueArray : List V) : Text × Params V :=
  let keyed := columnValueArray.zipIdx.map fun (value, i) => (inClauseKey columnName i, value)
  (trimSuffix (keyed.flatMap fun (key, _) => key ++ [',']) [','],
    keyed.foldl (fun all (key, value) => all.insert key value) ∅)

def textLe : Text → Text → Bool
  | [], _ => true
  | _ :: _, [] => false
  | a :: first, b :: second =>
    decide (a.toNat < b.toNat) || (decide (a.toNat = b.toNat) && textLe first second)

def sortStrings (keys : List Text) : List Text := keys.insertionSort fun a b => textLe a b = true

theorem textLe_total (a b : Text) : textLe a b = true ∨ textLe b a = true := by
  induction a generalizing b with
  | nil => exact Or.inl rfl
  | cons c first ih =>
    cases b with
    | nil => exact Or.inr rfl
    | cons d second =>
      have htail := ih second
      simp only [textLe, Bool.or_eq_true, Bool.and_eq_true, decide_eq_true_eq]
      rcases lt_trichotomy c.toNat d.toNat with h | h | h
      · exact Or.inl (Or.inl h)
      · exact htail.imp (fun hle => Or.inr ⟨h, hle⟩) fun hle => Or.inr ⟨h.symm, hle⟩
      · exact Or.inr (Or.inl h)

theorem textLe_trans {a b c : Text} (hab : textLe a b = true) (hbc : textLe b c = true) :
    textLe a c = true := by
  induction a generalizing b c with
  | nil => rfl
  | cons x first ih =>
    cases b with
    | nil => cases hab
    | cons y second =>
      cases c with
      | nil => cases hbc
      | cons z third =>
        simp only [textLe, Bool.or_eq_true, Bool.and_eq_true, decide_eq_true_eq] at hab hbc ⊢
        rcases hab with hlt | ⟨heq, hle⟩
        · rcases hbc with hlt' | ⟨heq', -⟩
          · exact Or.inl (hlt.trans hlt')
          · exact Or.inl (heq' ▸ hlt)
        · rcases hbc with hlt' | ⟨heq', hle'⟩
          · exact Or.inl (heq ▸ hlt')
          · exact Or.inr ⟨heq.trans heq', ih hle hle'⟩

theorem sortStrings_perm (keys : List Text) : (sortStrings keys).Perm keys :=
  List.perm_insertionSort _ keys

theorem sortStrings_sorted (keys : List Text) :
    (sortStrings keys).Pairwise fun a b => textLe a b = true := by
  have : Std.Total fun a b : Text => textLe a b = true := ⟨textLe_total⟩
  have : IsTrans Text fun a b => textLe a b = true := ⟨fun _ _ _ => textLe_trans⟩
  exact List.pairwise_insertionSort _ keys

theorem decimal_inj {n m : Nat} (h : decimal n = decimal m) : n = m := by
  rw [decimal, decimal, ← Nat.toList_repr, ← Nat.toList_repr, String.toList_inj] at h
  exact Nat.repr_inj.mp h

theorem lookup_insert_all (entries : List (Sigma fun _ : Text => V)) (all : Params V)
    (hkeys : entries.NodupKeys) (token : Text) :
    (entries.foldl (fun all e => all.insert e.1 e.2) all).lookup token =
      (entries.dlookup token).or (all.lookup token) := by
  induction entries generalizing all with
  | nil => simp
  | cons e rest ih =>
    obtain ⟨hfresh, hrest⟩ := List.nodupKeys_cons.mp hkeys
    rw [List.foldl_cons, ih (all.insert e.1 e.2) hrest]
    by_cases htoken : token = e.1
    · subst htoken
      rw [List.dlookup_eq_none.mpr hfresh, List.dlookup_cons_eq, AList.lookup_insert]
      rfl
    · rw [List.dlookup_cons_ne _ _ htoken, AList.lookup_insert_ne htoken]

theorem lookup_mergeNamedParams (params : List (Params V)) (token : Text) :
    (mergeNamedParams params).lookup token = lastValue params token := by
  have hfold : ∀ (params : List (Params V)) (all : Params V),
      (params.foldl (fun all mp => mp.entries.foldl (fun all e => all.insert e.1 e.2) all)
        all).lookup token = (lastValue params token).or (all.lookup token) := by
    intro params
    induction params with
    | nil => simp [lastValue]
    | cons mp rest ih =>
      intro all
      rw [List.foldl_cons, ih, lookup_insert_all mp.entries all mp.nodupKeys, lastValue, lastValue,
        List.reverse_cons, List.findSome?_append, List.findSome?_singleton, ← Option.or_assoc]
      rfl
  simpa [mergeNamedParams] using hfold params ∅

theorem takeWhile_of_head {text : Text}
    (h : ∀ next, text.head? = some next → isNamedParamChar next = false) :
    text.takeWhile isNamedParamChar = [] := by
  cases text with
  | nil => rfl
  | cons next more =>
    rw [List.takeWhile_cons, if_neg]
    simpa using h next rfl

/-- A name is followed by a character of no name. -/
theorem head_dropWhile {text : Text} {next : Char}
    (h : (text.dropWhile isNamedParamChar).head? = some next) : isNamedParamChar next = false := by
  have hhead := List.head?_dropWhile_not isNamedParamChar text
  rw [h] at hhead
  simpa using hhead

end Photon.Sql
