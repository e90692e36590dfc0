import Mathlib.Data.List.DropRight
import Photon.Lib.Url

/-!
The REST client of `storage/qdrant`: the settings it is made with, the base URL it keeps, and the
request that an operation sends. The bodies of the requests are given by their JSON. Texts are
bytes.
-/

namespace Photon.Qdrant

open Photon.Lib

def trimSlashes (s : Bytes) : Bytes := s.rdropWhile (· == slash)

structure ConnectionConfig where
  baseURL : Bytes
  apiKey : Bytes
  timeout : Int64
  dialTimeout : Int64
  idleConnTimeout : Int64
  retryMaxAttempts : Int64
  retryBaseDelay : Int64
  retryMaxDelay : Int64
  retryJitter : Float

structure RestClient where
  baseURL : Bytes
  apiKey : Bytes
  timeout : Int64
  dialTimeout : Int64
  idleConnTimeout : Int64
  retryMaxAttempts : Int64
  retryBaseDelay : Int64
  retryMaxDelay : Int64
  retryJitter : Float

def validateBaseURL (hosts : HostReader) (raw : Bytes) : Except String Bytes :=
  match URL.parse hosts (trimSpace raw) with
  | none => .error "qdrant: invalid BaseURL"
  | some u =>
    if u.scheme = [] ∨ u.host = [] then .error "qdrant: invalid BaseURL"
    else if u.scheme ≠ ascii "http" ∧ u.scheme ≠ ascii "https" then
      .error "qdrant: BaseURL must use http or https"
    else if u.user ≠ none then .error "qdrant: BaseURL must not include credentials"
    else if u.rawQuery ≠ [] ∨ u.fragment ≠ [] then
      .error "qdrant: BaseURL must not include query or fragment"
    else .ok { u with path := trimSlashes u.path, rawPath := [] }.text

def positiveOr (default setting : Int64) : Int64 := if setting ≤ 0 then default else setting

def millisecond : Int64 := 1000000
def second : Int64 := 1000000000

/-- The client for a valid base URL, with the defaults for what is not set. -/
def RestClient.configured (cfg : ConnectionConfig) (baseURL : Bytes) : RestClient where
  baseURL := baseURL
  apiKey := cfg.apiKey
  timeout := positiveOr (10 * second) cfg.timeout
  dialTimeout := positiveOr (5 * second) cfg.dialTimeout
  idleConnTimeout := positiveOr (90 * second) cfg.idleConnTimeout
  retryMaxAttempts := positiveOr 3 cfg.retryMaxAttempts
  retryBaseDelay := positiveOr (150 * millisecond) cfg.retryBaseDelay
  retryMaxDelay := positiveOr (2 * second) cfg.retryMaxDelay
  retryJitter := if cfg.retryJitter < 0 ∨ 1 < cfg.retryJitter then 0.2 else cfg.retryJitter

def newRESTClient (hosts : HostReader) : Option ConnectionConfig → Except String RestClient
  | none => .error "qdrant: nil config"
  | some cfg =>
    let base := trimSpace cfg.baseURL
    if base = [] then .error "qdrant: BaseURL is required"
    else
      match validateBaseURL hosts base with
      | .error e => .error e
      | .ok baseURL => .ok (RestClient.configured cfg baseURL)

theorem newRESTClient_ok {hosts : HostReader} {cfg : ConnectionConfig} {client : RestClient}
    (h : newRESTClient hosts (some cfg) = .ok client) :
    ∃ baseURL, validateBaseURL hosts (trimSpace cfg.baseURL) = .ok baseURL ∧
      client = RestClient.configured cfg baseURL := by
  rw [newRESTClient] at h
  split_ifs at h
  cases hvalid : validateBaseURL hosts (trimSpace cfg.baseURL) with
  | error e =>
    rw [hvalid] at h
    cases h
  | ok baseURL =>
    rw [hvalid] at h
    cases h
    exact ⟨baseURL, rfl, rfl⟩

namespace RestClient

variable (hosts : HostReader) (c : RestClient)

def requestURL (path : Bytes) : Except String Bytes :=
  if path.head? ≠ some slash then .error "qdrant: request path must be absolute"
  else
    match URL.parse hosts c.baseURL with
    | none => .error "qdrant: invalid BaseURL"
    | some base =>
      let (pathPart, query) := cut questionMark path
      .ok { base with
        path := trimSlashes base.path ++ pathPart
        rawPath := []
        rawQuery := query
        fragment := [] }.text

inductive Method where
  | get
  | put
  | post
  | delete
deriving DecidableEq

structure Request where
  method : Method
  url : URL
  body : Bytes
  contentType : Option String
  apiKey : Option Bytes
deriving DecidableEq

/-- The URL of a request is parsed once more by `http.NewRequestWithContext`. -/
def newRequest (method : Method) (path payload : Bytes) (hasPayload : Bool) :
    Except String Request :=
  match c.requestURL hosts path with
  | .error e => .error e
  | .ok target =>
    match URL.parse hosts target with
    | none => .error "parse"
    | some url =>
      .ok {
        method := method
        url := url
        body := payload
        contentType := if hasPayload then some "application/json" else none
        apiKey := if c.apiKey ≠ [] then some c.apiKey else none }

end RestClient

/-- An operation on a collection, with what its check reads of the request: the number of points
or of IDs, the length of the vector and the limit, and whether a filter can be decoded. -/
inductive Operation where
  | upsertPoints (points : ℕ) (wait : Bool)
  | deletePoints (ids : ℕ) (wait : Bool)
  | search (vector : ℕ) (limit : Int) (filter : Bool)
  | createCollection
  | deleteCollection
  | getCollectionInfo
deriving DecidableEq

namespace Operation

def check (collection : Bytes) : Operation → Except String Unit
  | upsertPoints points _ =>
    if collection = [] ∨ points = 0 then .error "qdrant: UpsertPoints invalid request" else .ok ()
  | deletePoints ids _ =>
    if collection = [] ∨ ids = 0 then .error "qdrant: DeletePoints invalid request" else .ok ()
  | search vector limit filter =>
    if collection = [] ∨ vector = 0 ∨ limit ≤ 0 then .error "qdrant: Search invalid request"
    else if filter then .ok () else .error "qdrant: invalid filter JSON"
  | createCollection =>
    if trimSpace collection = [] then .error "qdrant: CreateCollection invalid collection"
    else .ok ()
  | deleteCollection =>
    if trimSpace collection = [] then .error "qdrant: DeleteCollection invalid collection"
    else .ok ()
  | getCollectionInfo =>
    if trimSpace collection = [] then .error "qdrant: GetCollectionInfo invalid collection"
    else .ok ()

def method : Operation → RestClient.Method
  | upsertPoints _ _ => .put
  | deletePoints _ _ => .post
  | search _ _ _ => .post
  | createCollection => .put
  | deleteCollection => .delete
  | getCollectionInfo => .get

def suffix : Operation → Bytes
  | upsertPoints _ _ => ascii "/points"
  | deletePoints _ _ => ascii "/points/delete"
  | search _ _ _ => ascii "/points/search"
  | _ => []

def waits : Operation → Bool
  | upsertPoints _ wait => wait
  | deletePoints _ wait => wait
  | _ => false

def path (collection : Bytes) (op : Operation) : Bytes :=
  ascii "/collections/" ++ pathEscape collection ++ op.suffix ++
    (if op.waits then ascii "?wait=true" else [])

def hasPayload : Operation → Bool
  | deleteCollection => false
  | getCollectionInfo => false
  | _ => true

end Operation

/-- The request of every attempt of an operation. The payload is the JSON of its body. -/
def RestClient.request (hosts : HostReader) (c : RestClient) (op : Operation) (collection : Bytes)
    (payload : Except String Bytes) : Except String Request :=
  match op.check collection with
  | .error e => .error e
  | .ok () =>
    if op.hasPayload then
      match payload with
      | .error e => .error e
      | .ok payload => c.newRequest hosts op.method (op.path collection) payload true
    else c.newRequest hosts op.method (op.path collection) [] false

def plainHosts : HostReader where
  read text := if text.all keepHost then some text else none
  read_escape h := by
    rename_i text host
    split_ifs at h with hkeep
    cases h
    rw [escape_of_forall (List.all_eq_true.mp hkeep)]
    exact if_pos hkeep

end Photon.Qdrant
