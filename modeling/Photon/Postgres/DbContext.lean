import Photon.Lib.Contexts
import Photon.Lib.Fallible

/-!
Queries under the default timeout. `QueryContext` derives a context with the timeout and cancels
it when it returns; the rows that it returns are read after that. Rows of `database/sql` are
governed by the context of their query: once it has ended, they give no more rows and report why.

The functions of a transaction, of a connection and of an override are outside of the package.
An override either hands its context on to the rows or does not.
-/

namespace Photon.Postgres

open Photon.Lib

abbrev GoString := List UInt8

inductive PgValue (W : Type) where
  | null
  | bytes (b : List UInt8)
  | text (s : GoString)
  | other (w : W)
deriving DecidableEq

inductive QueryErr where
  | context (e : ContextErr)
  | message (text : String)
deriving DecidableEq

/-- The answer of the database, with an error that it may end in. -/
structure Answer (W : Type) where
  columns : List GoString
  rows : List (List (PgValue W))
  failure : Option QueryErr

/-- The `*sql.Rows`, with the context that governs them. -/
structure Rows (W : Type) where
  answer : Answer W
  governing : Option Context

variable {W : Type}

abbrev QueryFunc (W : Type) :=
  Context → GoString → List (PgValue W) → Except QueryErr (Answer W)

structure Tx (W : Type) where
  query : GoString → List (PgValue W) → Except QueryErr (Answer W)
  queryContext : Option (QueryFunc W)

structure Override (W : Type) where
  run : QueryFunc W
  governs : Bool

/-- The settings that queries read; a connection is known by its query function. -/
structure DBContext (W : Type) where
  tx : Option (Tx W)
  conn : Option (QueryFunc W)
  cluster : String
  defaultTimeout : Int
  queryFn : Option (Override W)

/-- The times of a query and of the reading of its rows: the first for the columns and one for
each `Next`. -/
structure Schedule where
  start : ℕ
  returned : ℕ
  read : ℕ → ℕ
  start_le : start ≤ returned
  returned_le : returned ≤ read 0
  ordered : Monotone read

namespace DBContext

/-- The context of a query and whether it has a cancel function of its own, whose number is
given. -/
def withDefaultTimeout (ctx : DBContext W) (c : Option Context) (id now : ℕ) : Context × Bool :=
  let c := c.getD .background
  if ctx.defaultTimeout ≤ 0 then (c, false)
  else if c.deadline.isSome then (c, false)
  else (.derived c id (some (now + ctx.defaultTimeout.toNat)), true)

def noResolution : QueryErr :=
  .message "postgres: DBContext has no Tx, no Conn, and empty Cluster"

def validateResolution (ctx : DBContext W) : Except QueryErr Unit :=
  if ctx.tx.isNone && ctx.conn.isNone && ctx.cluster == "" then .error noResolution else .ok ()

/-- `connect` gives the connection of a cluster. -/
def queryContext (connect : String → Except QueryErr (QueryFunc W)) (ctx : DBContext W)
    (c : Context) (query : GoString) (args : List (PgValue W)) : Except QueryErr (Rows W) := do
  ctx.validateResolution
  match ctx.tx with
  | some tx =>
    match tx.queryContext with
    | some queryContext => (queryContext c query args).map (Rows.mk · (some c))
    | none => (tx.query query args).map (Rows.mk · none)
  | none =>
    match ctx.conn with
    | some queryContext => (queryContext c query args).map (Rows.mk · (some c))
    | none => do
        let queryContext ← connect ctx.cluster
        (queryContext c query args).map (Rows.mk · (some c))

/-- The rows, and the cancellations with that of the deferred call. -/
def QueryContext (connect : String → Except QueryErr (QueryFunc W)) (ctx : DBContext W)
    (calls : Cancellations) (id : ℕ) (s : Schedule) (c : Option Context) (query : GoString)
    (args : List (PgValue W)) : Except QueryErr (Rows W) × Cancellations :=
  let (c, cancel) := ctx.withDefaultTimeout c id s.start
  let rows :=
    match ctx.queryFn with
    | some fn => (fn.run c query args).map (Rows.mk · (if fn.governs then some c else none))
    | none => ctx.queryContext connect c query args
  (rows, if cancel then Function.update calls id (some s.returned) else calls)

end DBContext

/-! ### Reading -/

def normalizePgValue : PgValue W → PgValue W
  | .bytes b => .text b
  | v => v

/-- Upper case of the first byte. A byte outside ASCII is replaced. -/
def ucFirst : GoString → GoString
  | [] => []
  | b :: rest =>
    (if b ≥ 128 then [0xEF, 0xBF, 0xBD] else if 97 ≤ b && b ≤ 122 then [b - 32] else [b]) ++ rest

/-- A row by column; the last of several columns of one name counts. -/
abbrev RowMap (W : Type) := GoString → Option (PgValue W)

def rowMap (capitaliseColumns : Bool) (columns : List GoString) (values : List (PgValue W)) :
    RowMap W :=
  (columns.zip values).foldl
    (fun row (column, value) => Function.update row
      (if capitaliseColumns then ucFirst column else column) (some (normalizePgValue value)))
    fun _ => none

def Rows.err (rows : Rows W) (calls : Cancellations) (now : ℕ) : Option QueryErr :=
  (rows.governing.bind fun c => c.err calls now).map .context

def readLoop (rows : Rows W) (calls : Cancellations) (read : ℕ → ℕ) (capitaliseColumns : Bool)
    (i : ℕ) : List (List (PgValue W)) → List (RowMap W) → Except QueryErr (List (RowMap W))
  | remaining, out =>
    match rows.err calls (read i) with
    | some e => .error e
    | none =>
      match remaining with
      | [] =>
        match rows.answer.failure with
        | some e => .error e
        | none => .ok out
      | values :: more =>
        readLoop rows calls read capitaliseColumns (i + 1) more
          (out ++ [rowMap capitaliseColumns rows.answer.columns values])

structure ReadQueryInput (W : Type) where
  query : GoString
  params : List (PgValue W)
  capitaliseColumns : Bool

def nilDBContext : QueryErr :=
  .message "nil DB context provided, cannot execute the query"

def executeReadQueryContext (connect : String → Except QueryErr (QueryFunc W))
    (calls : Cancellations) (id : ℕ) (s : Schedule) (c : Option Context)
    (dbctx : Option (DBContext W)) (input : ReadQueryInput W) :
    Except QueryErr (List (RowMap W)) :=
  match dbctx with
  | none => .error nilDBContext
  | some dbctx =>
    match dbctx.QueryContext connect calls id s c input.query input.params with
    | (.error e, _) => .error e
    | (.ok rows, calls) =>
      match rows.err calls (s.read 0) with
      | some e => .error e
      | none => readLoop rows calls s.read input.capitaliseColumns 1 rows.answer.rows []

variable {rows : Rows W}

/-- The loop gives all rows or an error. -/
theorem readLoop_cases (hfailure : rows.answer.failure = none) (calls : Cancellations)
    (read : ℕ → ℕ) (capitaliseColumns : Bool) (i : ℕ) (remaining : List (List (PgValue W)))
    (out : List (RowMap W)) :
    readLoop rows calls read capitaliseColumns i remaining out =
        .ok (out ++ remaining.map (rowMap capitaliseColumns rows.answer.columns)) ∨
      ∃ e, readLoop rows calls read capitaliseColumns i remaining out = .error e := by
  induction remaining generalizing i out with
  | nil =>
    rw [readLoop]
    cases rows.err calls (read i) with
    | some e => exact Or.inr ⟨e, rfl⟩
    | none => simp [hfailure]
  | cons values more ih =>
    rw [readLoop]
    cases rows.err calls (read i) with
    | some e => exact Or.inr ⟨e, rfl⟩
    | none =>
      have hrest := ih (i + 1) (out ++ [rowMap capitaliseColumns rows.answer.columns values])
      rwa [List.append_assoc, List.singleton_append] at hrest

/-- Rows that no context governs are read to their end. -/
theorem readLoop_of_not_governed (hfailure : rows.answer.failure = none)
    (hgoverning : rows.governing = none) (calls : Cancellations) (read : ℕ → ℕ)
    (capitaliseColumns : Bool) (i : ℕ) (remaining : List (List (PgValue W)))
    (out : List (RowMap W)) :
    readLoop rows calls read capitaliseColumns i remaining out =
      .ok (out ++ remaining.map (rowMap capitaliseColumns rows.answer.columns)) := by
  have herr : rows.err calls (read i) = none := by
    rw [Rows.err, hgoverning]
    rfl
  induction remaining generalizing i out with
  | nil => simp [readLoop, herr, hfailure]
  | cons values more ih =>
    have hnext : rows.err calls (read (i + 1)) = none := by
      rw [Rows.err, hgoverning]
      rfl
    rw [readLoop, herr]
    simp only [ih (i + 1) (out ++ [rowMap capitaliseColumns rows.answer.columns values]) hnext]
    simp

/-! ### The deferred cancel -/

section Survival

variable (connect : String → Except QueryErr (QueryFunc W)) (dbctx : DBContext W)
  (calls : Cancellations) (id : ℕ) (s : Schedule) (c : Option Context) (input : ReadQueryInput W)

/-- The rows come from a function that does not hand the context on to them. -/
def DBContext.Detached : Prop :=
  match dbctx.queryFn with
  | some fn => fn.governs = false
  | none => ∃ tx ∈ dbctx.tx, tx.queryContext = none

def Excused (t : ℕ) : Prop :=
  s.start + dbctx.defaultTimeout.toNat ≤ t ∨ (c.getD .background).Done calls t

/-- The context that governs the rows does not end while they are read, and all of them are
returned, unless the timeout elapses or the caller's context ends. -/
def ReadsSurvive : Prop :=
  ∀ rows cancellations,
    dbctx.QueryContext connect calls id s c input.query input.params = (.ok rows, cancellations) →
    (∀ i ≤ rows.answer.rows.length + 1, ∀ context ∈ rows.governing,
      context.Done cancellations (s.read i) → Excused dbctx calls s c (s.read i)) ∧
    (rows.answer.failure = none →
      executeReadQueryContext connect calls id s c (some dbctx) input =
          .ok (rows.answer.rows.map (rowMap input.capitaliseColumns rows.answer.columns)) ∨
        (∃ e, executeReadQueryContext connect calls id s c (some dbctx) input = .error e) ∧
          ∃ i ≤ rows.answer.rows.length + 1, Excused dbctx calls s c (s.read i))

def DBContext.timeoutContext : Context :=
  .derived (c.getD .background) id (some (s.start + dbctx.defaultTimeout.toNat))

variable {connect dbctx calls id s c input}

theorem Excused.mono {t u : ℕ} (h : Excused dbctx calls s c t) (htu : t ≤ u) :
    Excused dbctx calls s c u := by
  rcases h with helapsed | hdone
  · exact Or.inl (helapsed.trans htu)
  · exact Or.inr (hdone.mono htu)

theorem DBContext.withDefaultTimeout_eq (htimeout : 0 < dbctx.defaultTimeout)
    (hdeadline : (c.getD .background).deadline = none) :
    dbctx.withDefaultTimeout c id s.start = (dbctx.timeoutContext id s c, true) := by
  rw [withDefaultTimeout, if_neg htimeout.not_ge, hdeadline]
  rfl

/-- Rows of a query are governed by its context unless they are detached. -/
theorem DBContext.governing_of_queryContext {d : Context} {query : GoString}
    {args : List (PgValue W)} (hfn : dbctx.queryFn = none)
    (h : dbctx.queryContext connect d query args = .ok rows) :
    (dbctx.Detached ∧ rows.governing = none) ∨
      (¬ dbctx.Detached ∧ rows.governing = some d) := by
  obtain ⟨_, _, hrows⟩ := bind_eq_ok_iff.mp h
  rw [Detached, hfn]
  cases htx : dbctx.tx with
  | some tx =>
    simp only [htx] at hrows
    cases hcontext : tx.queryContext with
    | some f =>
      simp only [hcontext] at hrows
      obtain ⟨answer, _, rfl⟩ := map_eq_ok_iff.mp hrows
      exact Or.inr ⟨by simp [hcontext], rfl⟩
    | none =>
      simp only [hcontext] at hrows
      obtain ⟨answer, _, rfl⟩ := map_eq_ok_iff.mp hrows
      exact Or.inl ⟨⟨tx, rfl, hcontext⟩, rfl⟩
  | none =>
    simp only [htx] at hrows
    refine Or.inr ⟨by simp, ?_⟩
    cases hconn : dbctx.conn with
    | some f =>
      simp only [hconn] at hrows
      obtain ⟨answer, _, rfl⟩ := map_eq_ok_iff.mp hrows
      rfl
    | none =>
      simp only [hconn] at hrows
      obtain ⟨f, _, hanswer⟩ := bind_eq_ok_iff.mp hrows
      obtain ⟨answer, _, rfl⟩ := map_eq_ok_iff.mp hanswer
      rfl

variable {cancellations : Cancellations}

/-- What `QueryContext` hands out, and the cancellation that it leaves. -/
theorem DBContext.QueryContext_ok (htimeout : 0 < dbctx.defaultTimeout)
    (hdeadline : (c.getD .background).deadline = none) {query : GoString}
    {args : List (PgValue W)}
    (h : dbctx.QueryContext connect calls id s c query args = (.ok rows, cancellations)) :
    cancellations = Function.update calls id (some s.returned) ∧
      ((dbctx.Detached ∧ rows.governing = none) ∨
        (¬ dbctx.Detached ∧ rows.governing = some (dbctx.timeoutContext id s c))) := by
  rw [QueryContext, withDefaultTimeout_eq htimeout hdeadline] at h
  obtain ⟨hrows, hcalls⟩ := Prod.mk.inj h
  refine ⟨hcalls.symm, ?_⟩
  cases hfn : dbctx.queryFn with
  | none =>
    rw [hfn] at hrows
    exact governing_of_queryContext hfn hrows
  | some fn =>
    rw [hfn] at hrows
    obtain ⟨answer, _, rfl⟩ := map_eq_ok_iff.mp hrows
    simp only [Detached, hfn]
    cases hgoverns : fn.governs with
    | true => exact Or.inr ⟨Bool.noConfusion, rfl⟩
    | false => exact Or.inl ⟨rfl, rfl⟩

theorem executeReadQueryContext_eq
    (h : dbctx.QueryContext connect calls id s c input.query input.params =
      (.ok rows, cancellations)) :
    executeReadQueryContext connect calls id s c (some dbctx) input =
      match rows.err cancellations (s.read 0) with
      | some e => .error e
      | none =>
        readLoop rows cancellations s.read input.capitaliseColumns 1 rows.answer.rows [] := by
  rw [executeReadQueryContext]
  simp [h]

theorem executeReadQueryContext_cases
    (h : dbctx.QueryContext connect calls id s c input.query input.params =
      (.ok rows, cancellations)) (hfailure : rows.answer.failure = none) :
    executeReadQueryContext connect calls id s c (some dbctx) input =
        .ok (rows.answer.rows.map (rowMap input.capitaliseColumns rows.answer.columns)) ∨
      ∃ e, executeReadQueryContext connect calls id s c (some dbctx) input = .error e := by
  rw [executeReadQueryContext_eq h]
  cases rows.err cancellations (s.read 0) with
  | some e => exact Or.inr ⟨e, rfl⟩
  | none => exact readLoop_cases hfailure _ _ _ _ _ _

/-- Reads survive just if their rows are detached, or the timeout has elapsed or the caller's
context has ended before the reading begins. -/
theorem readsSurvive_iff (htimeout : 0 < dbctx.defaultTimeout)
    (hdeadline : (c.getD .background).deadline = none) :
    ReadsSurvive connect dbctx calls id s c input ↔
      ∀ rows cancellations, dbctx.QueryContext connect calls id s c input.query input.params =
          (.ok rows, cancellations) →
        dbctx.Detached ∨ Excused dbctx calls s c (s.read 0) := by
  constructor
  · intro h rows cancellations hquery
    obtain ⟨rfl, ⟨hdetached, -⟩ | ⟨-, hgoverning⟩⟩ :=
      DBContext.QueryContext_ok htimeout hdeadline hquery
    · exact Or.inl hdetached
    · refine Or.inr ((h rows _ hquery).1 0 (Nat.zero_le _) _ hgoverning ?_)
      rw [DBContext.timeoutContext, Context.done_derived_iff, Function.update_self]
      exact Or.inr (Or.inl ⟨s.returned, rfl, s.returned_le⟩)
  · intro h rows cancellations hquery
    obtain hdetached | hexcused := h rows cancellations hquery
    · obtain ⟨rfl, ⟨-, hgoverning⟩ | ⟨hnot, -⟩⟩ :=
        DBContext.QueryContext_ok htimeout hdeadline hquery
      · refine ⟨?_, fun hfailure => Or.inl ?_⟩
        · intro i _ context hcontext
          rw [hgoverning] at hcontext
          cases hcontext
        · have herr : rows.err (Function.update calls id (some s.returned)) (s.read 0) = none := by
            rw [Rows.err, hgoverning]
            rfl
          rw [executeReadQueryContext_eq hquery, herr]
          exact readLoop_of_not_governed hfailure hgoverning _ _ _ _ _ _
      · exact absurd hdetached hnot
    · refine ⟨fun i _ _ _ _ => hexcused.mono (s.ordered (Nat.zero_le i)), fun hfailure => ?_⟩
      obtain hok | herror := executeReadQueryContext_cases hquery hfailure
      · exact Or.inl hok
      · exact Or.inr ⟨herror, 0, Nat.zero_le _, hexcused⟩

end Survival

def oneRow : Answer Unit := ⟨[[105, 100]], [[.text [49]]], none⟩

def atOnce : Schedule where
  start := 0
  returned := 0
  read _ := 0
  start_le := le_rfl
  returned_le := le_rfl
  ordered := monotone_const

def plainTx : DBContext Unit := ⟨some ⟨fun _ _ => .ok oneRow, none⟩, none, "", 5, none⟩

def pooled : DBContext Unit := ⟨none, some fun _ _ _ => .ok oneRow, "", 5, none⟩

def selectId : ReadQueryInput Unit := ⟨[], [], false⟩

theorem plainTx_reads_survive :
    ReadsSurvive (fun _ => .error nilDBContext) plainTx (fun _ => none) 0 atOnce none selectId :=
  (readsSurvive_iff (by decide) rfl).mpr fun _ _ _ => Or.inl ⟨_, rfl, rfl⟩

/-- The rows of a connection are gone before the first of them is read. -/
theorem pooled_read_canceled :
    executeReadQueryContext (fun _ => .error nilDBContext) (fun _ => none) 0 atOnce none
        (some pooled) selectId = .error (.context .canceled) ∧
      ¬ ReadsSurvive (fun _ => .error nilDBContext) pooled (fun _ => none) 0 atOnce none
        selectId := by
  refine ⟨rfl, fun h => ?_⟩
  obtain hok | ⟨-, i, -, helapsed | hdone⟩ := (h _ _ rfl).2 rfl
  · cases hok
  · exact absurd (show 0 + 5 ≤ 0 from helapsed) (by decide)
  · cases hdone

end Photon.Postgres
