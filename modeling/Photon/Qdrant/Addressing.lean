import Photon.Qdrant.Client

/-!
Where the requests of the Qdrant client go. The name of the collection is escaped when the path is
built and escaped again when the URL is printed, so what arrives is the escaped name. The path of
the base URL is printed from its decoded form, so that an escaped slash of it arrives as a
slash. A request addresses its collection just if the name needs no escaping and the base path has
no escaped slash.
-/

namespace Photon.Qdrant

open Photon.Lib

/-- What stands between the slashes of a path that begins with one. -/
def segments (path : Bytes) : List Bytes := (path.splitOn slash).drop 1

def Decodes (path : Bytes) (decoded : List Bytes) : Prop :=
  (segments path).map unescape = decoded.map some

instance (path : Bytes) (decoded : List Bytes) : Decidable (Decodes path decoded) :=
  inferInstanceAs (Decidable ((segments path).map unescape = decoded.map some))

def Operation.fixedSegments : Operation → List Bytes
  | .upsertPoints _ _ => [ascii "points"]
  | .deletePoints _ _ => [ascii "points", ascii "delete"]
  | .search _ _ _ => [ascii "points", ascii "search"]
  | _ => []

def Operation.intendedQuery : Operation → Bytes
  | .upsertPoints _ true => ascii "wait=true"
  | .deletePoints _ true => ascii "wait=true"
  | _ => []

def Operation.Valid : Operation → Prop
  | .upsertPoints points _ => 0 < points
  | .deletePoints ids _ => 0 < ids
  | .search vector limit filter => 0 < vector ∧ 0 < limit ∧ filter = true
  | _ => True

/-- The URL of the request has the segments of the base, the collection and those of the
operation, and its query. -/
structure Addresses (base : URL) (op : Operation) (collection : Bytes)
    (req : RestClient.Request) : Prop where
  path : ∃ baseSegments, Decodes (trimSlashes base.givenPath) baseSegments ∧
    Decodes req.url.escapedPath
      (baseSegments ++ [ascii "collections", collection] ++ op.fixedSegments)
  query : req.url.rawQuery = op.intendedQuery

/-! ### Segments -/

theorem segments_append_cons (before rest : Bytes) :
    segments (before ++ slash :: rest) = segments before ++ rest.splitOn slash := by
  rw [segments, List.splitOn_append_cons_self,
    List.drop_append_of_le_length (List.length_pos_iff.mpr (List.splitOn_ne_nil _ _)), segments]

/-- Segments without a slash, each behind a slash. -/
theorem segments_append_flatMap {parts : List Bytes} (hparts : ∀ part ∈ parts, slash ∉ part)
    (before : Bytes) :
    segments (before ++ parts.flatMap (slash :: ·)) = segments before ++ parts := by
  induction parts generalizing before with
  | nil => simp
  | cons part parts ih =>
    obtain ⟨hpart, hrest⟩ := List.forall_mem_cons.mp hparts
    have hsplit : before ++ (part :: parts).flatMap (slash :: ·) =
        (before ++ slash :: part) ++ parts.flatMap (slash :: ·) := by simp
    rw [hsplit, ih hrest, segments_append_cons, List.splitOn_eq_singleton hpart,
      List.append_assoc, List.singleton_append]

/-- The segments of a printed path, decoded, are those of the path. -/
theorem map_unescape_segments_escape (path : Bytes) :
    (segments (escape keepPath path)).map unescape = (segments path).map some := by
  rw [segments, splitOn_escape separates_slash (by decide), ← List.map_drop, List.map_map, segments]
  exact List.map_congr_left fun s _ => unescape_escape (by decide) s

theorem head?_trimSlashes {s : Bytes} (h : s = [] ∨ s.head? = some slash) :
    trimSlashes s = [] ∨ (trimSlashes s).head? = some slash := by
  obtain ⟨rest, hrest⟩ : trimSlashes s <+: s := List.rdropWhile_prefix _ _
  cases htrim : trimSlashes s with
  | nil => exact Or.inl rfl
  | cons b front =>
    rw [← hrest, htrim] at h
    simpa using h

/-! ### The request -/

variable {collection : Bytes}

section Request

variable {hosts : HostReader}

def stored (base : URL) : URL := { base with path := trimSlashes base.path, rawPath := [] }

theorem head?_of_unescape {given path : Bytes} (hpath : unescape given = some path)
    (hslashed : given = [] ∨ given.head? = some slash) :
    path = [] ∨ path.head? = some slash := by
  rcases hslashed with rfl | hhead
  · rw [unescape] at hpath
    exact Or.inl (Option.some.inj hpath).symm
  · obtain ⟨rest, rfl⟩ := List.head?_eq_some_iff.mp hhead
    rw [unescape_cons_of_ne separates_slash.ne_percent] at hpath
    obtain ⟨tail, -, rfl⟩ := Option.map_eq_some_iff.mp hpath
    exact Or.inr rfl

theorem lower_of_scheme {scheme : Bytes} (h : scheme = ascii "http" ∨ scheme = ascii "https") :
    scheme ≠ [] ∧ ∀ b ∈ scheme, 97 ≤ b.toNat ∧ b.toNat ≤ 122 := by
  have hall : ∀ s : Bytes, s.all (fun b => 97 ≤ b.toNat && b.toNat ≤ 122) = true →
      ∀ b ∈ s, 97 ≤ b.toNat ∧ b.toNat ≤ 122 := by
    intro s hs b hb
    simpa using List.all_eq_true.mp hs b hb
  rcases h with rfl | rfl <;> exact ⟨by decide, hall _ (by decide)⟩

theorem validateBaseURL_ok {raw out : Bytes} (h : validateBaseURL hosts raw = .ok out) :
    ∃ base, URL.parse hosts (trimSpace raw) = some base ∧ (stored base).Plain hosts ∧
      out = (stored base).text := by
  rw [validateBaseURL] at h
  split at h
  · cases h
  · rename_i base hbase
    split_ifs at h with hhost hscheme huser hquery
    push Not at hhost hquery huser
    have hread := URL.hasHost_of_parse hbase hhost.2
    have hcase : base.scheme = ascii "http" ∨ base.scheme = ascii "https" := by tauto
    obtain ⟨hne, hlower⟩ := lower_of_scheme hcase
    cases h
    refine ⟨base, hbase, ⟨hne, hlower, hread.opaquePart, huser, hhost.2, hread.host,
      head?_trimSlashes (head?_of_unescape hread.path hread.slashed), rfl, hread.omitHost, ?_,
      hquery.2⟩, rfl⟩
    intro b hb
    have hnil : (stored base).rawQuery = [] := hquery.1
    rw [hnil] at hb
    exact absurd hb List.not_mem_nil

variable {client : RestClient}

/-- The URL of a request under a base that the client keeps. -/
theorem newRequest_ok {base : URL} (hbase : base.Plain hosts)
    (hstored : client.baseURL = base.text) {path pathPart query : Bytes}
    (hslash : path.head? = some slash) (hpart : pathPart.head? = some slash)
    (hcut : cut questionMark path = (pathPart, query))
    (hquery : ∀ b ∈ query, b ≠ hashSign ∧ isControl b = false) (method : RestClient.Method)
    (payload : Bytes) (hasPayload : Bool) :
    ∃ req, client.newRequest hosts method path payload hasPayload = .ok req ∧
      req.url.escapedPath = escape keepPath (trimSlashes base.path ++ pathPart) ∧
      req.url.rawQuery = query := by
  let sent : URL := { base with
    path := trimSlashes base.path ++ pathPart
    rawPath := []
    forceQuery := base.forceQuery && base.rawQuery.isEmpty
    rawQuery := query
    fragment := [] }
  have hpath : sent.path = [] ∨ sent.path.head? = some slash := by
    refine Or.inr ?_
    rcases head?_trimSlashes hbase.path with hnil | hhead
    · change (trimSlashes base.path ++ pathPart).head? = some slash
      rw [hnil, List.nil_append, hpart]
    · change (trimSlashes base.path ++ pathPart).head? = some slash
      rw [List.head?_append, hhead]
      rfl
  have hsent : sent.Plain hosts :=
    ⟨hbase.scheme_ne, hbase.lower, hbase.opaquePart, hbase.user, hbase.host_ne, hbase.host, hpath,
      rfl, hbase.omitHost, hquery, rfl⟩
  have htarget : client.requestURL hosts path = .ok sent.text := by
    rw [RestClient.requestURL, if_neg (not_not.mpr hslash), hstored, hbase.parse_text]
    rw [hcut]
  have hparsed := hsent.parse_text
  have hagain : ({ sent with forceQuery := sent.forceQuery && sent.rawQuery.isEmpty } : URL).Plain
      hosts :=
    ⟨hsent.scheme_ne, hsent.lower, hsent.opaquePart, hsent.user, hsent.host_ne, hsent.host,
      hsent.path, rfl, hsent.omitHost, hsent.query, rfl⟩
  rw [RestClient.newRequest, htarget]
  dsimp only
  rw [hparsed]
  exact ⟨_, rfl, hagain.escapedPath, rfl⟩

/-- The path of an operation as the client makes it, without the query. -/
def pathSegments (op : Operation) (collection : Bytes) : List Bytes :=
  [ascii "collections", pathEscape collection] ++ op.fixedSegments

theorem cut_path (op : Operation) (collection : Bytes) :
    cut questionMark (op.path collection) =
      ((pathSegments op collection).flatMap (slash :: ·), op.intendedQuery) := by
  have hname : questionMark ∉ pathEscape collection :=
    separates_questionMark.notMem_escape_of_not_keep (by decide) _
  have hroot : ascii "/collections/" = slash :: ascii "collections" ++ [slash] := by decide
  have hfree : questionMark ∉ ascii "/collections/" := by decide
  have hsuffix : op.suffix = op.fixedSegments.flatMap (slash :: ·) := by
    cases op <;> rfl
  have hsuffixFree : questionMark ∉ op.suffix := by
    have hcontains : op.suffix.contains questionMark = false := by cases op <;> rfl
    simpa using hcontains
  have hbody : questionMark ∉ ascii "/collections/" ++ pathEscape collection ++ op.suffix := by
    simp only [List.mem_append, not_or]
    exact ⟨⟨hfree, hname⟩, hsuffixFree⟩
  have hparts : (pathSegments op collection).flatMap (slash :: ·) =
      ascii "/collections/" ++ pathEscape collection ++ op.suffix := by
    rw [hroot, hsuffix]
    simp [pathSegments]
  have hquery : op.intendedQuery = if op.waits then ascii "wait=true" else [] := by
    cases op with
    | upsertPoints _ wait | deletePoints _ wait => cases wait <;> rfl
    | _ => rfl
  have hmark : ascii "?wait=true" = questionMark :: ascii "wait=true" := by decide
  rw [hparts, hquery, Operation.path]
  cases op.waits with
  | false =>
    rw [if_neg (by decide), if_neg (by decide), List.append_nil]
    exact cut_of_notMem hbody
  | true =>
    rw [if_pos rfl, if_pos rfl, hmark]
    exact cut_append_cons hbody _

theorem pathSegments_free (op : Operation) (collection : Bytes) :
    ∀ part ∈ pathSegments op collection, slash ∉ part := by
  have hname : slash ∉ pathEscape collection :=
    separates_slash.notMem_escape_of_not_keep (by decide) _
  have hfixed : op.fixedSegments.all (fun part => !part.contains slash) = true := by
    cases op <;> rfl
  intro part hpart
  simp only [pathSegments, List.mem_append, List.mem_cons, List.not_mem_nil, or_false] at hpart
  rcases hpart with (rfl | rfl) | hpart
  · decide
  · exact hname
  · simpa using List.all_eq_true.mp hfixed part hpart

theorem intendedQuery_plain (op : Operation) :
    ∀ b ∈ op.intendedQuery, b ≠ hashSign ∧ isControl b = false := by
  have hall : op.intendedQuery.all (fun b => b != hashSign && !isControl b) = true := by
    cases op with
    | upsertPoints _ wait | deletePoints _ wait => cases wait <;> rfl
    | _ => rfl
  intro b hb
  simpa using List.all_eq_true.mp hall b hb

/-- What a request of the client decodes to. -/
theorem request_ok {base : URL} (hbase : (stored base).Plain hosts)
    (hstored : client.baseURL = (stored base).text) {op : Operation}
    (hcheck : op.check collection = .ok ()) (payload : Bytes) :
    ∃ req, client.request hosts op collection (.ok payload) = .ok req ∧
      (segments req.url.escapedPath).map unescape =
        (segments (trimSlashes base.path) ++ pathSegments op collection).map some ∧
      req.url.rawQuery = op.intendedQuery := by
  have hroot : ∃ rest, (pathSegments op collection).flatMap (slash :: ·) = slash :: rest :=
    ⟨_, rfl⟩
  have hcut := cut_path op collection
  have hslash : (op.path collection).head? = some slash := rfl
  obtain ⟨rest, hrest⟩ := hroot
  have hmake := fun payload hasPayload => newRequest_ok hbase hstored hslash
    (by rw [hrest]; rfl) hcut (intendedQuery_plain op) op.method payload hasPayload
  have htrim : trimSlashes (stored base).path = trimSlashes base.path :=
    List.rdropWhile_idempotent _ _
  have hdecode : ∀ req : RestClient.Request,
      req.url.escapedPath = escape keepPath (trimSlashes (stored base).path ++
        (pathSegments op collection).flatMap (slash :: ·)) →
      (segments req.url.escapedPath).map unescape =
        (segments (trimSlashes base.path) ++ pathSegments op collection).map some := by
    intro req hpath
    rw [hpath, map_unescape_segments_escape, htrim,
      segments_append_flatMap (pathSegments_free op collection)]
  rw [RestClient.request, hcheck]
  cases hpayload : op.hasPayload with
  | false =>
    obtain ⟨req, hreq, hpath, hquery⟩ := hmake [] false
    exact ⟨req, hreq, hdecode req hpath, hquery⟩
  | true =>
    obtain ⟨req, hreq, hpath, hquery⟩ := hmake payload true
    exact ⟨req, hreq, hdecode req hpath, hquery⟩

/-- A request that its operation refuses is not sent. -/
theorem check_of_request {op : Operation} {payload : Except String Bytes}
    {req : RestClient.Request} (h : client.request hosts op collection payload = .ok req) :
    op.check collection = .ok () := by
  rw [RestClient.request.eq_def] at h
  cases hcheck : op.check collection with
  | error e =>
    rw [hcheck] at h
    cases h
  | ok => rfl

end Request

/-! ### Which requests arrive -/

section Names

/-- No part of a text whose bytes are kept is a space. -/
theorem not_space_of_kept {s : Bytes} (h : ∀ b ∈ s, keepPathSegment b = true) {space : Bytes}
    (hspace : space ∈ spaces) : ¬space ⊆ s := by
  have hall : spaces.all (fun space => space.any fun b => !keepPathSegment b) = true := by decide
  obtain ⟨b, hb, hkeep⟩ := List.any_eq_true.mp (List.all_eq_true.mp hall space hspace)
  intro hsubset
  rw [h b (hsubset hb)] at hkeep
  cases hkeep

theorem trimSpace_of_kept {s : Bytes} (h : ∀ b ∈ s, keepPathSegment b = true) :
    trimSpace s = s := by
  have hfirst : dropSpace s = s := by
    have hnone : (spaces.find? fun space => space.isPrefixOf s) = none := by
      rw [List.find?_eq_none]
      intro space hspace hbegins
      exact not_space_of_kept h hspace (List.isPrefixOf_iff_prefix.mp hbegins).subset
    rw [dropSpace, hnone]
  have hlast : dropLastSpace s = s := by
    have hnone : (spaces.find? fun space => space.isSuffixOf s) = none := by
      rw [List.find?_eq_none]
      intro space hspace hends
      exact not_space_of_kept h hspace (List.isSuffixOf_iff_suffix.mp hends).subset
    rw [dropLastSpace, hnone]
  rw [trimSpace, Function.iterate_fixed hfirst, Function.iterate_fixed hlast]

theorem check_of_kept {op : Operation} (hop : op.Valid) (hne : collection ≠ [])
    (hkept : ∀ b ∈ collection, keepPathSegment b = true) : op.check collection = .ok () := by
  have htrim := trimSpace_of_kept hkept
  cases op with
  | upsertPoints points wait =>
    have hpoints : points ≠ 0 := Nat.pos_iff_ne_zero.mp hop
    simp [Operation.check, hne, hpoints]
  | deletePoints ids wait =>
    have hids : ids ≠ 0 := Nat.pos_iff_ne_zero.mp hop
    simp [Operation.check, hne, hids]
  | search vector limit filter =>
    obtain ⟨hvector, hlimit, hfilter⟩ := hop
    have hbad : ¬(collection = [] ∨ vector = 0 ∨ limit ≤ 0) := by
      simp only [hne, false_or]
      omega
    simp [Operation.check, hbad, hfilter]
  | createCollection | deleteCollection | getCollectionInfo => simp [Operation.check, htrim, hne]

end Names

/-- A valid operation on a collection is sent to that collection just if its name has only bytes
that are not escaped in a segment, and the base path has the same segments whether it is split or
decoded first. -/
theorem requests_address_collection_iff (hosts : HostReader) {cfg : ConnectionConfig}
    {client : RestClient} (hclient : newRESTClient hosts (some cfg) = .ok client) {base : URL}
    (hbase : URL.parse hosts (trimSpace (trimSpace cfg.baseURL)) = some base) {op : Operation}
    (hop : op.Valid) {collection : Bytes} (hname : collection ≠ []) (payload : Bytes) :
    (∃ req, client.request hosts op collection (.ok payload) = .ok req ∧
      Addresses base op collection req) ↔
    (∀ b ∈ collection, keepPathSegment b = true) ∧
      Decodes (trimSlashes base.givenPath) (segments (trimSlashes base.path)) := by
  obtain ⟨baseURL, hvalid, rfl⟩ := newRESTClient_ok hclient
  obtain ⟨_, hsame, hplain, hstored⟩ := validateBaseURL_ok hvalid
  cases hbase.symm.trans hsame
  have hurl : (RestClient.configured cfg baseURL).baseURL = (stored base).text := hstored
  have hsome : Function.Injective (List.map (some : Bytes → Option Bytes)) :=
    List.map_injective_iff.mpr (Option.some_injective _)
  constructor
  · rintro ⟨req, hreq, ⟨baseSegments, hdecoded, hpath⟩, -⟩
    obtain ⟨_, hagain, hsent, -⟩ := request_ok hplain hurl (check_of_request hreq) payload
    cases hreq.symm.trans hagain
    have heq := hsome (hsent.symm.trans hpath)
    rw [List.append_assoc] at heq
    obtain ⟨hbases, hown⟩ := List.append_inj' heq (by simp [pathSegments])
    rw [pathSegments, List.append_cancel_right_eq, List.cons.injEq, List.cons.injEq] at hown
    exact ⟨(escape_eq_self_iff collection).mp hown.2.1, hbases ▸ hdecoded⟩
  · rintro ⟨hkept, hdecoded⟩
    obtain ⟨req, hreq, hsent, hquery⟩ :=
      request_ok hplain hurl (check_of_kept hop hname hkept) payload
    refine ⟨req, hreq, ⟨_, hdecoded, ?_⟩, hquery⟩
    rw [Decodes, hsent, pathSegments, pathEscape, escape_of_forall hkept, List.append_assoc]

def localConfig : ConnectionConfig :=
  ⟨ascii " http://db:6333/api/", [], 0, 0, 0, 0, 0, 0, 0⟩

def localClient : RestClient := .configured localConfig (ascii "http://db:6333/api")

theorem localClient_ok : newRESTClient plainHosts (some localConfig) = .ok localClient := by
  have hne : trimSpace localConfig.baseURL ≠ [] := by decide +kernel
  have hvalid : validateBaseURL plainHosts (trimSpace localConfig.baseURL) =
      .ok (ascii "http://db:6333/api") := by decide +kernel
  rw [newRESTClient, if_neg hne, hvalid]
  rfl

def localBase : URL :=
  { URL.empty with
    scheme := ascii "http"
    host := ascii "db:6333"
    path := ascii "/api/" }

theorem users_addressed :
    ∃ req, localClient.request plainHosts (.upsertPoints 1 true) (ascii "users") (.ok []) =
        .ok req ∧
      Addresses localBase (.upsertPoints 1 true) (ascii "users") req := by
  have hop : (Operation.upsertPoints 1 true).Valid := Nat.one_pos
  have hname : (ascii "users").all keepPathSegment = true := by decide
  refine (requests_address_collection_iff plainHosts localClient_ok (by decide +kernel) hop
    (by decide) []).mpr ⟨List.all_eq_true.mp hname, ?_⟩
  decide +kernel

/-- A space is escaped twice: the server is asked for a collection `a%20b`. -/
theorem space_escaped_twice :
    ∃ req, localClient.request plainHosts (.upsertPoints 1 false) (ascii "a b") (.ok []) =
        .ok req ∧
      req.url.escapedPath = ascii "/api/collections/a%2520b/points" ∧
      ¬Addresses localBase (.upsertPoints 1 false) (ascii "a b") req := by
  refine ⟨⟨.put, { localBase with path := ascii "/api/collections/a%20b/points" }, [],
    some "application/json", none⟩, by decide +kernel, by decide +kernel, ?_⟩
  rintro ⟨⟨baseSegments, hbase, hpath⟩, -⟩
  have hapi : Decodes (trimSlashes localBase.givenPath) [ascii "api"] := by decide +kernel
  obtain rfl : [ascii "api"] = baseSegments :=
    List.map_injective_iff.mpr (Option.some_injective _) (hapi.symm.trans hbase)
  exact absurd hpath (by decide +kernel)

end Photon.Qdrant
