import Photon.Lib.Fallible
import Photon.Lib.MachineInt
import Photon.Lib.Window

/-!
Deep pagination of `storage/elasticsearch/helper.go`: `IncrementalSearch` with its
search-after path, which jumps over full pages and then collects, and its scroll
path. The query map is the caller's own, so every function returns it as it leaves it,
on every exit. On the search-after path Elasticsearch is a list of matching documents,
and a reply carries the hits of one page and the number of all matches; each request of
a scroll is answered by a page, by a transport error, by a body that does not decode or
by the status 400. The loops of the source that depend on replies run on fuel.
-/

namespace Photon.Elasticsearch

open Photon.Lib

def esMaxFetchSize : Nat := 10000

inductive Failure where
  | err (message : String)
  | panic
  | outOfFuel
deriving DecidableEq

/-- The dynamic value under `_source`. -/
inductive Source where
  | strings (fields : List String)
  | other
deriving DecidableEq

/-- The keys of the query map that the helper reads or writes. -/
structure Query (σ : Type) where
  size : Option Int
  fromDoc : Option Int
  sort : Option (List String)
  searchAfter : Option σ
  source : Option Source

/-- A document of a reply, with the `_source` it was asked for with. -/
structure Hit (δ : Type) where
  doc : δ
  source : Option Source
deriving DecidableEq

structure SearchResponse (δ : Type) where
  hits : List (Hit δ)
  total : Int
  scrollID : String
deriving DecidableEq

/-- The matching documents in the order of the query, with their sort tuples. A
scroll hands out an id with every chunk. -/
structure Index (δ σ : Type) where
  docs : List δ
  sortOf : δ → σ
  scrollID : Nat → String
  scrollID_ne : ∀ n, scrollID n ≠ ""

def Index.numbered (docs : List Nat) : Index Nat Nat where
  docs := docs
  sortOf := id
  scrollID := fun _ => "scroll"
  scrollID_ne := fun _ => by decide

structure SearchQuery (σ : Type) where
  query : Option (Query σ)
  sort : List String
  fromDoc : Int
  size : Int
  fetchAllDocs : Bool

variable {δ σ : Type}

def sliceFrom {α : Type} (l : List α) (low : Int) : Except Failure (List α) :=
  if 0 ≤ low ∧ low ≤ l.length then .ok (l.drop low.toNat) else .error .panic

theorem sliceFrom_ok {α : Type} {l : List α} {low : Nat} (h : low ≤ l.length) :
    sliceFrom l low = .ok (l.drop low) := by
  simp [sliceFrom, h]

def slice {α : Type} (l : List α) (low high : Int) : Except Failure (List α) :=
  if 0 ≤ low ∧ low ≤ high ∧ high ≤ l.length then
    .ok ((l.drop low.toNat).take (high - low).toNat)
  else .error .panic

def lastOf {α : Type} (l : List α) : Except Failure α :=
  match l.getLast? with
  | some last => .ok last
  | none => .error .panic

def wrapError {α : Type} (context : String) : Except Failure α → Except Failure α
  | .error (.err message) => .error (.err (context ++ message))
  | result => result

@[simp]
theorem wrapError_ok {α : Type} (context : String) (value : α) :
    wrapError context (.ok value) = .ok value := rfl

/-! ### Scroll -/

variable (index : Index δ σ)

/-- The chunk of a scroll that was opened with a query of a given size. -/
def scrollChunk (query : Query σ) (size : Int) (chunk : Nat) :
    SearchResponse δ where
  hits := ((index.docs.drop (chunk * size.toNat)).take size.toNat).map fun doc =>
    ⟨doc, query.source⟩
  total := index.docs.length
  scrollID := index.scrollID chunk

def totalDocsFound (resp : SearchResponse δ) (fetchSize : Int) : Int :=
  if (resp.hits.length : Int) < fetchSize then resp.hits.length else fetchSize

variable (searchQuery : SearchQuery σ)

def SearchQuery.given : SearchQuery σ :=
  if searchQuery.fetchAllDocs then { searchQuery with fromDoc := 0, size := 0 } else searchQuery

theorem given_of_all (hall : searchQuery.fetchAllDocs = true) :
    searchQuery.given = { searchQuery with fromDoc := 0, size := 0 } := if_pos hall

theorem given_of_bounded (hbounded : searchQuery.fetchAllDocs = false) :
    searchQuery.given = searchQuery :=
  if_neg (by simp [hbounded])

theorem given_sort : searchQuery.given.sort = searchQuery.sort := by
  unfold SearchQuery.given
  split <;> rfl

inductive Reply (δ : Type) where
  | page (resp : SearchResponse δ)
  | transportError (message : String)
  | undecodable (res message : String)
  | badRequest

def Reply.isPage : Reply δ → Bool
  | .page _ => true
  | _ => false

/-- What both functions of the scroll path make of an answer. Neither reads the body of
a bad request. -/
def Reply.read : Reply δ → Except Failure (Option (SearchResponse δ))
  | .page resp => .ok (some resp)
  | .transportError message => .error (.err ("error executing search: " ++ message))
  | .undecodable res message =>
    .error (.err ("error in casting esapi response: " ++ res ++
      ", to search response with error: " ++ message))
  | .badRequest => .ok none

/-- A cluster by its documents and by what goes wrong with the requests to it. The
answers are numbered in the order of the requests. -/
structure Cluster (δ σ : Type) where
  index : Index δ σ
  clientError : Option String
  reply : Nat → Reply δ
  clearError : String → Option String

inductive Turn (δ : Type) where
  | stop (result : Except Failure (List (Hit δ) × String))
  | next (scrollID : String) (fromDoc size : Int) (docs : List (Hit δ))

/-- The body of the loop of `getDocumentsWithScrollSession`, from a decoded page on. -/
def pageTurn (fetchAllDocs : Bool) (fetchSize : Int) (scrollID : String) (fromDoc size : Int)
    (docs : List (Hit δ)) (resp : SearchResponse δ) : Turn δ :=
  let found := totalDocsFound resp fetchSize
  if fetchAllDocs then
    if found < fetchSize then .stop (.ok (docs ++ resp.hits, resp.scrollID))
    else .next resp.scrollID fromDoc size (docs ++ resp.hits)
  else if fromDoc < found then
    if fromDoc + size ≤ found then
      .stop ((slice resp.hits fromDoc (fromDoc + size)).map fun part => (docs ++ part, scrollID))
    else
      match sliceFrom resp.hits fromDoc with
      | .error failure => .stop (.error failure)
      | .ok tail =>
        if found < fetchSize then .stop (.ok (docs ++ tail, scrollID))
        else .next resp.scrollID 0 (size - (fetchSize - fromDoc)) (docs ++ tail)
  else if found < fetchSize then .stop (.ok (docs, scrollID))
  else .next resp.scrollID (fromDoc - fetchSize) size docs

/-- The loop returns the number of requests that were sent up to its end as well. -/
def Cluster.getDocumentsWithScrollSession (cluster : Cluster δ σ) (fetchAllDocs : Bool)
    (fetchSize : Int) : Nat → Nat → String → Int → Int → List (Hit δ) →
      Nat × Except Failure (List (Hit δ) × String)
  | 0, sent, _, _, _, _ => (sent, .error .outOfFuel)
  | fuel + 1, sent, scrollID, fromDoc, size, docs =>
    if scrollID = "" then (sent, .ok (docs, scrollID))
    else
      match (cluster.reply sent).read with
      | .error failure => (sent + 1, .error failure)
      | .ok none => (sent + 1, .ok (docs, scrollID))
      | .ok (some resp) =>
        match pageTurn fetchAllDocs fetchSize scrollID fromDoc size docs resp with
        | .stop result => (sent + 1, result)
        | .next scrollID fromDoc size docs =>
          cluster.getDocumentsWithScrollSession fetchAllDocs fetchSize fuel (sent + 1)
            scrollID fromDoc size docs

/-- What a scroll did: the requests it sent for pages, the scroll it asked to clear, and
what it returned. -/
structure ScrollOutcome (δ : Type) where
  sent : Nat
  cleared : Option String
  result : Except Failure (List (Hit δ))

variable (cluster : Cluster δ σ)

/-- The end of `getDocumentsWithScrollApi`, from the answer of the session on. -/
def Cluster.clearScroll (docs : List (Hit δ)) :
    Nat × Except Failure (List (Hit δ) × String) → ScrollOutcome δ
  | (sent, .error failure) => ⟨sent, none, .error failure⟩
  | (sent, .ok (resp, scrollID)) =>
    match cluster.clearError scrollID with
    | some message =>
      ⟨sent, some scrollID, .error (.err ("error clearing scroll session: " ++ message))⟩
    | none => ⟨sent, some scrollID, .ok (docs ++ resp)⟩

/-- The second half of `getDocumentsWithScrollApi`: the remaining pages, if the first one
was full, and the request that clears the scroll. -/
def Cluster.scrollRest (fetchAllDocs : Bool) (fetchSize : Int) (fuel : Nat)
    (first : SearchResponse δ) (fromDoc size : Int) (docs : List (Hit δ)) : ScrollOutcome δ :=
  cluster.clearScroll docs
    (if totalDocsFound first fetchSize = fetchSize then
      cluster.getDocumentsWithScrollSession fetchAllDocs fetchSize fuel 1 first.scrollID fromDoc
        size []
     else (1, .ok ([], first.scrollID)))

variable (ceilQuotient : Int → Int → Int)

/-- The page size of a scroll. The quotients are `math.Ceil` of a `float64` division,
which is exact only for small operands. -/
def fetchSizeOf (searchQuery : SearchQuery σ) : Int :=
  let wanted := searchQuery.fromDoc + searchQuery.size
  let numberOfIterations := ceilQuotient wanted esMaxFetchSize
  if searchQuery.fetchAllDocs then esMaxFetchSize else ceilQuotient wanted numberOfIterations

def Cluster.getDocumentsWithScrollApi (fuel : Nat) (searchQuery : SearchQuery σ) :
    ScrollOutcome δ :=
  match cluster.clientError with
  | some message => ⟨0, none, .error (.err ("error in getting client: " ++ message))⟩
  | none =>
    let fetchSize := fetchSizeOf ceilQuotient searchQuery
    match (cluster.reply 0).read with
    | .error failure => ⟨1, none, .error failure⟩
    | .ok none => ⟨1, none, .ok []⟩
    | .ok (some resp) =>
      let found := totalDocsFound resp fetchSize
      if searchQuery.fromDoc < found then
        match sliceFrom resp.hits searchQuery.fromDoc with
        | .error failure => ⟨1, none, .error failure⟩
        | .ok docs =>
          cluster.scrollRest searchQuery.fetchAllDocs fetchSize fuel resp 0
            (searchQuery.size - (fetchSize - searchQuery.fromDoc)) docs
      else if found < fetchSize then ⟨1, none, .ok []⟩
      else
        cluster.scrollRest searchQuery.fetchAllDocs fetchSize fuel resp
          (searchQuery.fromDoc - fetchSize) searchQuery.size []

/-! ### Search after -/

variable [DecidableEq σ]

def Index.after : Option σ → List δ
  | none => index.docs
  | some tuple => (index.docs.dropWhile fun doc => decide (index.sortOf doc ≠ tuple)).tail

abbrev Index.Distinct : Prop := (index.docs.map index.sortOf).Nodup

/-- What the cursor of a query leaves. -/
abbrev Index.behind (query : Query σ) : List δ := index.after query.searchAfter

def searchRequestWithQuery (query : Query σ) : SearchResponse δ where
  hits := (((index.behind query).drop (query.fromDoc.getD 0).toNat).take
    (query.size.getD 10).toNat).map fun doc => ⟨doc, query.source⟩
  total := index.docs.length
  scrollID := ""

/-- The loop of `jumpToActiveBatchOfDocuments`. It looks at the number of all matches
and not at the number of hits before it takes the last hit. -/
def jumpLoop (index : Index δ σ) : Nat → Int → Query σ → Except Failure (Int × Bool) × Query σ
  | 0, _, query => (.error .outOfFuel, query)
  | fuel + 1, fromDoc, query =>
    if (esMaxFetchSize : Int) ≤ fromDoc then
      let resp := searchRequestWithQuery index query
      if resp.total = 0 then (.ok (fromDoc, true), query)
      else
        match lastOf resp.hits with
        | .error failure => (.error failure, query)
        | .ok lastHit =>
          jumpLoop index fuel (fromDoc - esMaxFetchSize)
            { query with searchAfter := some (index.sortOf lastHit.doc) }
    else (.ok (fromDoc, false), query)

/-- The number that is left of `from`, and whether there were no documents. A panic in
the loop passes over the line that puts `_source` back. -/
def jumpToActiveBatchOfDocuments (fuel : Nat) (fromDoc : Int) (query : Query σ) :
    Except Failure (Int × Bool) × Query σ :=
  if query.source = some .other then
    (.error (.err "invalid type for _source, expected []string"), query)
  else
    let entered := if (esMaxFetchSize : Int) ≤ fromDoc then
        { query with source := some (.strings ["_id"]), size := some esMaxFetchSize }
      else query
    match jumpLoop index fuel fromDoc entered with
    | (.error failure, jumped) => (.error failure, jumped)
    | (.ok found, jumped) => (.ok found, { jumped with source := query.source })

def collectLoop (index : Index δ σ) (fetchAllDocs : Bool) :
    Nat → Query σ → Int → Int → List (Hit δ) → Except Failure (List (Hit δ)) × Query σ
  | 0, query, _, _, _ => (.error .outOfFuel, query)
  | fuel + 1, query, fetchFrom, totalDocsToFetch, docs =>
    if fetchAllDocs = true ∨ 0 < totalDocsToFetch then
      let batchSize : Int :=
        if fetchAllDocs = false ∧ totalDocsToFetch < esMaxFetchSize then totalDocsToFetch
        else esMaxFetchSize
      let sized := { query with size := some batchSize }
      let resp := searchRequestWithQuery index sized
      if (resp.hits.length : Int) < batchSize then
        (if fetchFrom < resp.hits.length then (sliceFrom resp.hits fetchFrom).map (docs ++ ·)
         else .ok docs, sized)
      else
        match lastOf resp.hits with
        | .error failure => (.error failure, sized)
        | .ok lastHit =>
          let moved := { sized with searchAfter := some (index.sortOf lastHit.doc) }
          match sliceFrom resp.hits fetchFrom with
          | .error failure => (.error failure, moved)
          | .ok tail =>
            collectLoop index fetchAllDocs fuel moved 0
              (if fetchAllDocs then totalDocsToFetch else totalDocsToFetch - batchSize)
              (docs ++ tail)
    else (.ok docs, query)

def getDocumentsWithSearchAfter (fuel : Nat) (searchQuery : SearchQuery σ) (query : Query σ) :
    Except Failure (List (Hit δ)) × Query σ :=
  if searchQuery.sort = [] then (.error (.err "sort order should not be empty"), query)
  else
    let sorted := { query with sort := some searchQuery.sort, fromDoc := none }
    match jumpToActiveBatchOfDocuments index fuel searchQuery.fromDoc sorted with
    | (.error failure, jumped) =>
      (wrapError "error while jumping to active batch of documents: " (.error failure), jumped)
    | (.ok (_, true), jumped) => (.ok [], jumped)
    | (.ok (fromDoc, false), jumped) =>
      collectLoop index searchQuery.fetchAllDocs fuel jumped fromDoc
        (fromDoc + searchQuery.size) []

/-- What a search did: the requests it sent for the pages of a scroll, the caller's query
map as it leaves it, and what it returned. -/
structure Searched (δ σ : Type) where
  sent : Nat
  query : Option (Query σ)
  result : Except Failure (SearchResponse δ)

/-- The requests of the search-after path are answered by pages and not counted. A scroll
writes to the map once it has a client, before its first request. -/
def Cluster.getBulkDocuments (fuel : Nat) (searchQuery : SearchQuery σ) (query : Query σ) :
    Searched δ σ :=
  let (sent, docs, left) :=
    if searchQuery.sort ≠ [] then
      (0, getDocumentsWithSearchAfter cluster.index fuel searchQuery query)
    else
      let scroll := cluster.getDocumentsWithScrollApi ceilQuotient fuel searchQuery
      (scroll.sent, scroll.result,
        if cluster.clientError = none then
          { query with size := some (fetchSizeOf ceilQuotient searchQuery), fromDoc := none }
        else query)
  ⟨sent, some left, do
    let docs ← wrapError "error while getting documents : " docs
    .ok ⟨docs, docs.length, ""⟩⟩

def Cluster.incrementalSearch (fuel : Nat) (searchQuery : SearchQuery σ) : Searched δ σ :=
  if searchQuery.fetchAllDocs = false ∧ (searchQuery.fromDoc < 0 ∨ searchQuery.size ≤ 0) then
    ⟨0, searchQuery.query, .error (.err
      ("invalid parameters: 'from' must be >= 0 and 'size' must be > 0, given from: " ++
        toString searchQuery.fromDoc ++ ", size: " ++ toString searchQuery.size))⟩
  else
    match searchQuery.query with
    | none => ⟨0, none, .error (.err "query cannot be nil")⟩
    | some query =>
      let searchQuery := searchQuery.given
      if searchQuery.fetchAllDocs = true ∨
          (esMaxFetchSize : Int) < wrapI64 (searchQuery.fromDoc + searchQuery.size) then
        cluster.getBulkDocuments ceilQuotient fuel searchQuery query
      else
        let numbered := { query with
          size := some searchQuery.size
          fromDoc := some searchQuery.fromDoc
          sort := if searchQuery.sort ≠ [] then some searchQuery.sort else query.sort }
        ⟨0, some numbered, .ok (searchRequestWithQuery cluster.index numbered)⟩

/-- The cluster that answers every request of a scroll by the next chunk of the list. -/
def Index.serving (query : Query σ) (fetchSize : Int) : Cluster δ σ where
  index := index
  clientError := none
  reply := fun k => .page (scrollChunk index query fetchSize k)
  clearError := fun _ => none

/-- The search of a fixed list of documents. -/
def Index.search (ceilQuotient : Int → Int → Int) (fuel : Nat) (searchQuery : SearchQuery σ) :
    Searched δ σ :=
  (index.serving (searchQuery.query.getD ⟨none, none, none, none, none⟩)
    (fetchSizeOf ceilQuotient searchQuery.given)).incrementalSearch ceilQuotient fuel searchQuery

def ceilDiv (a b : Int) : Int := -((-a) / b)

def incrementalSearch (fuel : Nat) (searchQuery : SearchQuery σ) :
    Except Failure (SearchResponse δ) :=
  (index.search ceilDiv fuel searchQuery).result

def requested (searchQuery : SearchQuery σ) : List δ :=
  if searchQuery.fetchAllDocs then index.docs
  else window index.docs searchQuery.fromDoc.toNat searchQuery.size.toNat

def response (docs : List δ) (source : Option Source) : SearchResponse δ :=
  ⟨docs.map fun doc => ⟨doc, source⟩, docs.length, ""⟩

section Deep

variable {cluster : Cluster δ σ} {ceilQuotient : Int → Int → Int} {fuel : Nat}
  {searchQuery : SearchQuery σ} {query : Query σ}

omit [DecidableEq σ] in
theorem requested_window {index : Index δ σ} (hbounded : searchQuery.fetchAllDocs = false)
    {start size : Nat} (hfrom : searchQuery.fromDoc = start) (hsize : searchQuery.size = size) :
    requested index searchQuery = window index.docs start size := by
  simp [requested, hbounded, hfrom, hsize]

/-- A search for all documents, or for a window that ends behind the first page. -/
def SearchQuery.Bulk (searchQuery : SearchQuery σ) : Prop :=
  searchQuery.fetchAllDocs = false → 0 ≤ searchQuery.fromDoc ∧ 0 < searchQuery.size ∧
    (esMaxFetchSize : Int) < wrapI64 (searchQuery.fromDoc + searchQuery.size)

omit [DecidableEq σ] in
theorem bulk_of_lt (h : searchQuery.fetchAllDocs = false → 0 ≤ searchQuery.fromDoc ∧
    0 < searchQuery.size ∧ (esMaxFetchSize : Int) < searchQuery.fromDoc + searchQuery.size ∧
    searchQuery.fromDoc + searchQuery.size < 2 ^ 63) : searchQuery.Bulk := by
  intro hall
  obtain ⟨hfrom, hsize, hdeep, hsum⟩ := h hall
  rw [wrapI64_of_bounds (by omega) hsum]
  exact ⟨hfrom, hsize, hdeep⟩

theorem incrementalSearch_bulk (hquery : searchQuery.query = some query)
    (hrange : searchQuery.Bulk) :
    cluster.incrementalSearch ceilQuotient fuel searchQuery =
      cluster.getBulkDocuments ceilQuotient fuel searchQuery.given query := by
  cases hall : searchQuery.fetchAllDocs with
  | true => simp [Cluster.incrementalSearch, SearchQuery.given, hquery, hall]
  | false =>
    obtain ⟨hfrom, hsize, hdeep⟩ := hrange hall
    have hvalid : ¬ (searchQuery.fromDoc < 0 ∨ searchQuery.size ≤ 0) := by omega
    simp [Cluster.incrementalSearch, SearchQuery.given, hquery, hall, hvalid, hdeep]

/-- The response of documents that were found on either path. -/
theorem bulk_response {docs : List δ} {source : Option Source}
    {result : Except Failure (List (Hit δ))}
    (h : result = .ok (docs.map fun doc => ⟨doc, source⟩)) :
    (do
      let docs ← wrapError "error while getting documents : " result
      .ok (⟨docs, docs.length, ""⟩ : SearchResponse δ)) = .ok (response docs source) := by
  rw [h, wrapError_ok, ok_bind, response, List.length_map]

theorem bulk_unsorted (hsort : searchQuery.sort = []) :
    cluster.getBulkDocuments ceilQuotient fuel searchQuery query =
      ⟨(cluster.getDocumentsWithScrollApi ceilQuotient fuel searchQuery).sent,
        some (if cluster.clientError = none then
          { query with size := some (fetchSizeOf ceilQuotient searchQuery), fromDoc := none }
        else query), do
        let docs ← wrapError "error while getting documents : "
          (cluster.getDocumentsWithScrollApi ceilQuotient fuel searchQuery).result
        .ok ⟨docs, docs.length, ""⟩⟩ := by
  rw [Cluster.getBulkDocuments, if_neg (not_not.mpr hsort)]

variable {index : Index δ σ} (hquery : searchQuery.query = some query)
  (hrange : searchQuery.Bulk)
include hquery hrange

theorem search_bulk : index.search ceilQuotient fuel searchQuery =
    (index.serving query (fetchSizeOf ceilQuotient searchQuery.given)).getBulkDocuments
      ceilQuotient fuel searchQuery.given query := by
  rw [Index.search, hquery, Option.getD_some, incrementalSearch_bulk hquery hrange]

theorem search_sorted (hsort : searchQuery.sort ≠ []) :
    index.search ceilQuotient fuel searchQuery =
      ⟨0, some (getDocumentsWithSearchAfter index fuel searchQuery.given query).2, do
        let docs ← wrapError "error while getting documents : "
          (getDocumentsWithSearchAfter index fuel searchQuery.given query).1
        .ok ⟨docs, docs.length, ""⟩⟩ := by
  rw [search_bulk hquery hrange, Cluster.getBulkDocuments,
    if_pos (given_sort searchQuery ▸ hsort)]
  rfl

end Deep

end Photon.Elasticsearch
