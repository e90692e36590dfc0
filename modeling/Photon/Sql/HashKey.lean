import Photon.Lib.Delimited
import Photon.Sql.NamedParams

/-!
`HashKey` of the Postgres and of the MySQL helper. Both hash the query followed by the
sorted arguments, each as `key:value|`. Nothing marks where the query ends, and keys and
values are not escaped, so arguments can be spelled out in the query or in each other, and two
inputs are told apart only under conditions on the characters in them.
-/

namespace Photon.Sql

open Photon.Lib

variable {V D : Type} (sum : Text → D) (print : V → Text)

/-- `%v` of `args[k]`. -/
def printedArg (args : Params V) (k : Text) : Text :=
  match args.lookup k with
  | some value => print value
  | none => "<nil>".toList

def postgresHashInput (query : Text) (args : Params V) : Text :=
  (sortStrings args.keys).foldl
    (fun b k => b ++ k ++ [':'] ++ printedArg print args k ++ ['|']) query

def mysqlHashInput (query : Text) (args : Params V) : Text :=
  let argStr := (sortStrings args.keys).foldl
    (fun argStr k => argStr ++ (k ++ [':'] ++ printedArg print args k ++ ['|'])) []
  query ++ argStr

/-- `HashKey` of the Postgres helper; `sum` stands for the digest and its encoding. -/
def postgresHashKey (query : Text) (args : Params V) : D :=
  sum (postgresHashInput print query args)

def mysqlHashKey (query : Text) (args : Params V) : D :=
  sum (mysqlHashInput print query args)

inductive Helper where
  | postgres
  | mysql

def Helper.hashKey : Helper → Text → Params Text → D
  | postgres => postgresHashKey sum id
  | mysql => mysqlHashKey sum id

def sortedArgs (args : Params V) : List (Text × Text) :=
  (sortStrings args.keys).map fun k => (k, printedArg print args k)

def argsText (args : Params V) : Text :=
  pairsText ':' '|' (sortedArgs print args)

private theorem foldl_pairs (args : Params V) (keys : List Text) (b : Text) :
    keys.foldl (fun b k => b ++ k ++ [':'] ++ printedArg print args k ++ ['|']) b =
      b ++ pairsText ':' '|' (keys.map fun k => (k, printedArg print args k)) := by
  induction keys generalizing b with
  | nil => simp [pairsText]
  | cons k keys ih =>
    rw [List.foldl_cons, ih, List.map_cons, pairsText_cons]
    simp

theorem postgresHashInput_eq (query : Text) (args : Params V) :
    postgresHashInput print query args = query ++ argsText print args :=
  foldl_pairs print args (sortStrings args.keys) query

theorem mysqlHashInput_eq (query : Text) (args : Params V) :
    mysqlHashInput print query args = query ++ argsText print args := by
  have hargs := foldl_pairs print args (sortStrings args.keys) []
  simp only [List.append_assoc, List.nil_append] at hargs
  simp only [mysqlHashInput, argsText, sortedArgs, List.append_assoc]
  rw [hargs]

theorem Helper.hashKey_eq (helper : Helper) (query : Text) (args : Params Text) :
    helper.hashKey sum query args = sum (query ++ argsText id args) := by
  cases helper with
  | postgres => exact congrArg sum (postgresHashInput_eq id query args)
  | mysql => exact congrArg sum (mysqlHashInput_eq id query args)

/-- The same key is given only to the same query with the same arguments. -/
def Separate (helper : Helper) (query other : Text) (args more : Params Text) : Prop :=
  helper.hashKey sum query args = helper.hashKey sum other more →
    query = other ∧ ∀ k, args.lookup k = more.lookup k

/-- The end of the query reads like an argument. -/
def EndsInPair (query : Text) : Prop := ∃ key value, query = pairText ':' '|' (key, value)

/-- Behind the lead no key holds the mark behind keys, and no value holds the mark behind
values. -/
def Marked (lead : Text) (args : Params Text) : Prop :=
  ∀ k value, args.lookup k = some value → MarkedPair ':' '|' lead (k, value)

/-- It is clear where the queries end: none goes on behind the other, or both have the same last
character, which does not occur in the arguments. -/
def QueriesEnd (query other : Text) (args more : Params Text) : Prop :=
  (¬ query <+: other ∧ ¬ other <+: query) ∨ query = other ∨
    ∃ last, query.getLast? = some last ∧ other.getLast? = some last ∧
      last ∉ argsText id args ∧ last ∉ argsText id more

theorem printedArg_of_lookup {args : Params Text} {k value : Text}
    (h : args.lookup k = some value) : printedArg id args k = value := by
  rw [printedArg, h]
  rfl

theorem mem_sortedArgs {args : Params Text} {k value : Text} :
    (k, value) ∈ sortedArgs id args ↔ args.lookup k = some value := by
  rw [sortedArgs, List.mem_map]
  constructor
  · rintro ⟨k', hk', heq⟩
    obtain ⟨rfl, rfl⟩ := Prod.mk.inj heq
    have hmem : k' ∈ args := (sortStrings_perm args.keys).mem_iff.mp hk'
    obtain ⟨value, hvalue⟩ := Option.isSome_iff_exists.mp (AList.lookup_isSome.mpr hmem)
    rw [printedArg_of_lookup hvalue, hvalue]
  · intro hvalue
    have hmem : k ∈ args := AList.lookup_isSome.mp (by rw [hvalue]; rfl)
    exact ⟨k, (sortStrings_perm args.keys).mem_iff.mpr hmem, by rw [printedArg_of_lookup hvalue]⟩

/-- Arguments with the same text are the same map. -/
theorem lookup_eq_of_argsText {lead : Text} {args more : Params Text} (hargs : Marked lead args)
    (hmore : Marked lead more) (h : argsText id args = argsText id more) (k : Text) :
    args.lookup k = more.lookup k := by
  have hentries := pairsText_inj
    (fun entry hentry => hargs entry.1 entry.2 (mem_sortedArgs.mp hentry))
    (fun entry hentry => hmore entry.1 entry.2 (mem_sortedArgs.mp hentry)) h
  refine Option.ext fun value => ?_
  rw [← mem_sortedArgs, ← mem_sortedArgs, hentries]

/-- No arguments, or a text that ends in an argument. -/
theorem argsText_cases (args : Params Text) :
    (args = ∅ ∧ argsText id args = []) ∨
      ∃ front entry, argsText id args = front ++ pairText ':' '|' entry := by
  rcases List.eq_nil_or_concat (sortedArgs id args) with hnil | ⟨front, entry, hlast⟩
  · refine .inl ⟨?_, by rw [argsText, hnil]; rfl⟩
    have hkeys : args.keys = [] :=
      (List.perm_nil.mp ((List.map_eq_nil_iff.mp hnil) ▸ sortStrings_perm args.keys).symm)
    exact AList.ext (List.map_eq_nil_iff.mp hkeys)
  · refine .inr ⟨pairsText ':' '|' front, entry, ?_⟩
    rw [argsText, hlast, List.concat_eq_append, pairsText, List.flatMap_append]
    simp [pairsText]

theorem argsText_singleton (k value : Text) :
    argsText id (AList.singleton k value) = pairText ':' '|' (k, value) := by
  have hvalue : printedArg id (AList.singleton k value) k = value := by
    apply printedArg_of_lookup
    exact List.dlookup_cons_eq ([] : List (Sigma fun _ : Text => Text)) k value
  simp [argsText, sortedArgs, sortStrings, hvalue, pairsText]

variable {sum : Text → D} {query other : Text} {args more : Params Text}

/-- A query without arguments that does not end like one is hashed as no other input is; arguments
can always be spelled out in the query. -/
theorem separate_from_all_iff (hsum : Function.Injective sum) (helper : Helper) :
    (∀ other more, Separate sum helper query other args more) ↔
      args = ∅ ∧ ¬ EndsInPair query := by
  simp only [Separate, Helper.hashKey_eq, hsum.eq_iff]
  constructor
  · intro h
    have hempty : args = ∅ := by
      rcases argsText_cases args with ⟨hempty, -⟩ | ⟨front, entry, htext⟩
      · exact hempty
      · have hquery := (h (query ++ argsText id args) ∅ (List.append_nil _).symm).1
        simp [htext, pairText] at hquery
    refine ⟨hempty, ?_⟩
    rintro ⟨key, value, rfl⟩
    have hspelled := (h [] (AList.singleton key value) (by
      rw [hempty, argsText_singleton]
      exact List.append_nil _)).1
    simp [pairText] at hspelled
  · rintro ⟨rfl, hends⟩ other more htext
    have hquery : query = other ++ argsText id more := (List.append_nil query).symm.trans htext
    rcases argsText_cases more with ⟨rfl, hnil⟩ | ⟨front, entry, hmore⟩
    · exact ⟨by rw [hquery, hnil, List.append_nil], fun _ => rfl⟩
    · refine absurd ⟨other ++ front ++ entry.1, entry.2, ?_⟩ hends
      rw [hquery, hmore]
      simp [pairText]

/-- Queries that differ can have the same key just if one of them goes on behind the other. -/
theorem queries_separate_iff (hsum : Function.Injective sum) (helper : Helper) :
    (∀ args more, helper.hashKey sum query args ≠ helper.hashKey sum other more) ↔
      ¬ query <+: other ∧ ¬ other <+: query := by
  have hlonger : ∀ query rest : Text, ∃ args more,
      query ++ argsText id args = query ++ rest ++ argsText id more := by
    intro query rest
    refine ⟨AList.singleton rest [], AList.singleton [] [], ?_⟩
    rw [argsText_singleton, argsText_singleton]
    simp [pairText]
  simp only [Helper.hashKey_eq, hsum.ne_iff]
  constructor
  · intro h
    constructor
    · rintro ⟨rest, rfl⟩
      obtain ⟨args, more, hsame⟩ := hlonger query rest
      exact h args more hsame
    · rintro ⟨rest, rfl⟩
      obtain ⟨args, more, hsame⟩ := hlonger other rest
      exact h more args hsame.symm
  · intro h args more hsame
    exact (List.prefix_or_prefix_of_prefix (List.prefix_append _ _)
      (hsame ▸ List.prefix_append other (argsText id more))).elim h.1 h.2

/-- A text that is cut in two the same way has the same pieces. -/
theorem query_eq_of_append (hend : QueriesEnd query other args more)
    (h : query ++ argsText id args = other ++ argsText id more) : query = other := by
  rcases hend with ⟨hother, hquery⟩ | heq | ⟨last, hlast, hlast', hargs, hmore⟩
  · exact ((List.prefix_or_prefix_of_prefix (List.prefix_append _ _)
      (h ▸ List.prefix_append other (argsText id more))).elim hother hquery).elim
  · exact heq
  · obtain ⟨body, rfl⟩ := List.getLast?_eq_some_iff.mp hlast
    obtain ⟨body', rfl⟩ := List.getLast?_eq_some_iff.mp hlast'
    rw [List.append_assoc, List.append_assoc, List.singleton_append, List.singleton_append] at h
    rw [(append_cons_inj_right hargs hmore h).1]

/--
For a digest without collisions. An input has its key for itself just if it has no arguments and
does not end like one, and two queries have no key in common just if none goes on behind the other.
Two inputs are told apart where it is clear where their queries, and their keys and values, end.
-/
theorem hash_inputs_separate (sum : Text → D) (hsum : Function.Injective sum) (helper : Helper)
    (query : Text) (args : Params Text) :
    ((∀ other more, Separate sum helper query other args more) ↔
      args = ∅ ∧ ¬ EndsInPair query) ∧
    (∀ other, (∀ args more, helper.hashKey sum query args ≠ helper.hashKey sum other more) ↔
      ¬ query <+: other ∧ ¬ other <+: query) ∧
    ∀ other more lead, Marked lead args → Marked lead more → QueriesEnd query other args more →
      Separate sum helper query other args more := by
  refine ⟨separate_from_all_iff hsum helper, fun other => queries_separate_iff hsum helper, ?_⟩
  intro other more lead hargs hmore hend hkey
  rw [Helper.hashKey_eq, Helper.hashKey_eq, hsum.eq_iff] at hkey
  obtain rfl := query_eq_of_append hend hkey
  exact ⟨rfl, lookup_eq_of_argsText hargs hmore (List.append_cancel_left hkey)⟩

def oneArg (k value : String) : Params Text := AList.singleton k.toList value.toList

theorem marked_oneArg {k value : String} (name : Text) (hk : k.toList = ':' :: name)
    (hname : ':' ∉ name) (hvalue : '|' ∉ value.toList) : Marked [':'] (oneArg k value) := by
  intro other text h
  have hmem := List.of_mem_dlookup h
  obtain ⟨rfl, htext⟩ := Sigma.mk.inj_iff.mp (List.mem_singleton.mp hmem)
  exact ⟨name, hk, hname, eq_of_heq htext ▸ hvalue⟩

/-- One query with two values for its argument. -/
theorem values_of_one_query_separate :
    Helper.postgres.hashKey id "SELECT :a".toList (oneArg ":a" "1") ≠
      Helper.postgres.hashKey id "SELECT :a".toList (oneArg ":a" "2") := by
  intro h
  have hseparate := (hash_inputs_separate id Function.injective_id .postgres "SELECT :a".toList
    (oneArg ":a" "1")).2.2 _ (oneArg ":a" "2") [':']
    (marked_oneArg ['a'] (by decide) (by decide) (by decide))
    (marked_oneArg ['a'] (by decide) (by decide) (by decide)) (.inr (.inl rfl)) h
  exact absurd (hseparate.2 ":a".toList) (by decide)

/-- Two arguments are hashed as one whose value holds the marks, and an argument as a part
of the query. -/
theorem arguments_hashed_alike :
    let both := (oneArg "a" "1").insert "b".toList "2".toList
    (∀ helper : Helper, helper.hashKey id "q".toList (oneArg "a" "1|b:2") =
        helper.hashKey id "q".toList both ∧
      helper.hashKey id "q".toList (oneArg "a" "1") = helper.hashKey id "qa:1|".toList ∅) ∧
    (oneArg "a" "1|b:2").lookup "b".toList ≠ both.lookup "b".toList ∧
    "q".toList ≠ "qa:1|".toList := by
  refine ⟨fun helper => ?_, by decide⟩
  cases helper <;> decide

end Photon.Sql
