import Photon.Elasticsearch.ScrollReplies

/-!
Deep pagination without a sort order. The scroll hands out the matching documents in
chunks, and the loop carries the window that is still to be collected, counted from
the next chunk on.
-/

namespace Photon.Elasticsearch

open Photon.Lib

variable {δ σ : Type}

theorem ceilDiv_spec (a : Int) {b : Int} (hb : 0 < b) :
    (ceilDiv a b - 1) * b < a ∧ a ≤ ceilDiv a b * b := by
  have hle : (-a) / b * b ≤ -a := Int.ediv_mul_le (-a) hb.ne'
  have hlt : -a < ((-a) / b + 1) * b := Int.lt_ediv_add_one_mul_self (-a) hb
  unfold ceilDiv
  constructor <;> nlinarith

/-- The page size of a deep search is positive and smaller than the search. -/
theorem fetchSize_bounds {wanted : Int} (h : (esMaxFetchSize : Int) < wanted) :
    0 < ceilDiv wanted (ceilDiv wanted esMaxFetchSize) ∧
      ceilDiv wanted (ceilDiv wanted esMaxFetchSize) < wanted := by
  have hmax : (esMaxFetchSize : Int) = 10000 := rfl
  obtain ⟨-, hpages⟩ := ceilDiv_spec wanted (b := (esMaxFetchSize : Int)) (by omega)
  have htwo : 2 ≤ ceilDiv wanted esMaxFetchSize := by
    by_contra hone
    nlinarith
  obtain ⟨hlow, hhigh⟩ := ceilDiv_spec wanted (show 0 < ceilDiv wanted esMaxFetchSize by omega)
  constructor
  · by_contra hnone
    nlinarith
  · by_contra hall
    nlinarith

section Chunks

variable (index : Index δ σ) (query : Query σ) (size chunk : Nat)

def fromChunk : List δ := index.docs.drop (chunk * size)

theorem fromChunk_succ :
    fromChunk index size (chunk + 1) = (fromChunk index size chunk).drop size := by
  rw [fromChunk, fromChunk, List.drop_drop, Nat.succ_mul]

theorem scrollChunk_hits :
    (scrollChunk index query size chunk).hits =
      ((fromChunk index size chunk).take size).map fun doc => ⟨doc, query.source⟩ := by
  rw [scrollChunk, fromChunk, Int.toNat_natCast]

theorem scrollChunk_found :
    totalDocsFound (scrollChunk index query size chunk) size =
      ((min (fromChunk index size chunk).length size : Nat) : Int) := by
  rw [totalDocsFound, scrollChunk_hits, List.length_map, List.length_take]
  split <;> omega

end Chunks

/-- The requests of a scroll: one for each page up to the end of the window, or up to
the first page that is not full. -/
def pagesNeeded (page documents wanted : Nat) : Nat :=
  min ((wanted + page - 1) / page) (documents / page + 1)

theorem pagesNeeded_last {page documents wanted : Nat} (hwanted : 0 < wanted) (hpage : 0 < page)
    (h : documents < page ∨ wanted ≤ page) : pagesNeeded page documents wanted = 1 := by
  have hone : 1 ≤ (wanted + page - 1) / page := by
    rw [Nat.one_le_div_iff hpage]
    omega
  rcases h with hshort | hends
  · rw [pagesNeeded, Nat.div_eq_of_lt hshort, min_eq_right hone]
  · have htop : (wanted + page - 1) / page < 2 := Nat.div_lt_of_lt_mul (by omega)
    have hleft : (wanted + page - 1) / page = 1 := by omega
    rw [pagesNeeded, hleft, min_eq_left (Nat.le_add_left 1 _)]

theorem pagesNeeded_succ {page documents wanted : Nat} (hpage : 0 < page)
    (hfull : page ≤ documents) (hmore : page < wanted) :
    pagesNeeded page documents wanted =
      pagesNeeded page (documents - page) (wanted - page) + 1 := by
  obtain ⟨rest, rfl⟩ := Nat.exists_eq_add_of_le' hfull
  obtain ⟨left, rfl⟩ := Nat.exists_eq_add_of_le' hmore.le
  have hsum : left + page + page - 1 = left + page - 1 + page := by omega
  rw [pagesNeeded, pagesNeeded, hsum, Nat.add_div_right _ hpage, Nat.add_div_right _ hpage,
    Nat.add_sub_cancel, Nat.add_sub_cancel]
  omega

def selected (fetchAllDocs : Bool) (fromDoc size : Int) (l : List δ) : List δ :=
  if fetchAllDocs then l else window l fromDoc.toNat size.toNat

/-- How far a search looks. One for all documents looks for one more than there are. -/
def reach (fetchAllDocs : Bool) (fromDoc size : Int) (l : List δ) : Nat :=
  if fetchAllDocs then l.length + 1 else (fromDoc + size).toNat

/-- What is left of a search for the documents behind a full page. -/
structure Leaves (source : Option Source) (fetchAllDocs : Bool) (page : Nat) (fromDoc size : Int)
    (docs : List (Hit δ)) (l : List δ) (fromDoc' size' : Int) (docs' : List (Hit δ)) : Prop where
  bounds : fetchAllDocs = false → 0 ≤ fromDoc' ∧ 0 < size'
  reaches : reach fetchAllDocs fromDoc' size' (l.drop page) =
    reach fetchAllDocs fromDoc size l - page
  selects : docs' ++ (selected fetchAllDocs fromDoc' size' (l.drop page)).map
      (fun doc => ⟨doc, source⟩) =
    docs ++ (selected fetchAllDocs fromDoc size l).map fun doc => ⟨doc, source⟩

section Turn

variable {source : Option Source} {page : Nat} {fromDoc size : Int} {docs : List (Hit δ)}
  {l : List δ}

theorem leaves_all (hfull : page ≤ l.length) (fromDoc' size' : Int) :
    Leaves source true page fromDoc size docs l fromDoc' size'
      (docs ++ (l.take page).map fun doc => ⟨doc, source⟩) := by
  refine ⟨nofun, ?_, ?_⟩
  · simp only [reach, if_true, List.length_drop]
    omega
  · simp only [selected, if_true]
    rw [List.append_assoc, ← List.map_append, List.take_append_drop]

theorem leaves_inside (hfrom : 0 ≤ fromDoc) (hinside : fromDoc ≤ page)
    (hmore : page < fromDoc + size) :
    Leaves source false page fromDoc size docs l 0 (size - (page - fromDoc))
      (docs ++ ((l.take page).map fun doc => ⟨doc, source⟩).drop fromDoc.toNat) := by
  refine ⟨fun _ => by omega, ?_, ?_⟩
  · simp only [reach, Bool.false_eq_true, if_false]
    omega
  · simp only [selected, Bool.false_eq_true, if_false]
    have hleft : (size - (page - fromDoc)).toNat = fromDoc.toNat + size.toNat - page := by omega
    rw [hleft, List.append_assoc, ← List.map_drop, ← List.map_append, Int.toNat_zero,
      ← window_page (by omega) (by omega)]

theorem leaves_behind (hbehind : page ≤ fromDoc) (hsize : 0 < size) :
    Leaves source false page fromDoc size docs l (fromDoc - page) size docs := by
  refine ⟨fun _ => by omega, ?_, ?_⟩
  · simp only [reach, Bool.false_eq_true, if_false]
    omega
  · simp only [selected, Bool.false_eq_true, if_false]
    have hleft : (fromDoc - page).toNat = fromDoc.toNat - page := by omega
    rw [hleft, ← window_skip (by omega)]

variable (index : Index δ σ) (query : Query σ) (chunk : Nat) (scrollID : String)
  {fetchAllDocs : Bool} (hbounds : fetchAllDocs = false → 0 ≤ fromDoc ∧ 0 < size)

include hbounds

theorem pageTurn_last (hlast : (fromChunk index page chunk).length < page ∨
      reach fetchAllDocs fromDoc size (fromChunk index page chunk) ≤ page) :
    ∃ id, pageTurn fetchAllDocs page scrollID fromDoc size docs
        (scrollChunk index query page chunk) =
      .stop (.ok (docs ++ (selected fetchAllDocs fromDoc size (fromChunk index page chunk)).map
        (fun doc => ⟨doc, query.source⟩), id)) := by
  simp only [pageTurn, scrollChunk_found, scrollChunk_hits, selected]
  cases fetchAllDocs with
  | true =>
    simp only [reach, if_true] at hlast ⊢
    rw [if_pos (by omega), List.take_of_length_le (by omega)]
    exact ⟨_, rfl⟩
  | false =>
    obtain ⟨hfrom, hsize⟩ := hbounds rfl
    simp only [reach, Bool.false_eq_true, if_false] at hlast ⊢
    have hlength : (((fromChunk index page chunk).take page).map fun doc =>
        (⟨doc, query.source⟩ : Hit δ)).length = min page (fromChunk index page chunk).length := by
      rw [List.length_map, List.length_take]
    split
    case isTrue hinside =>
      split
      case isTrue hends =>
        have hcount : (fromDoc + size - fromDoc).toNat = size.toNat := by omega
        rw [slice, if_pos (by omega), hcount, ← List.map_drop, ← List.map_take]
        exact ⟨_, by rw [List.drop_take, List.take_take, min_eq_left (by omega)]; rfl⟩
      case isFalse hopen =>
        rw [sliceFrom, if_pos (by omega)]
        dsimp only
        rw [if_pos (by omega), List.take_of_length_le (by omega), ← List.map_drop,
          window_of_length_le (by omega)]
        exact ⟨_, rfl⟩
    case isFalse hbehind =>
      rw [if_pos (by omega), window_of_length_le (by omega), List.drop_eq_nil_of_le (by omega),
        List.map_nil, List.append_nil]
      exact ⟨_, rfl⟩

theorem pageTurn_more (hfull : page ≤ (fromChunk index page chunk).length)
    (hmore : page < reach fetchAllDocs fromDoc size (fromChunk index page chunk)) :
    ∃ fromDoc' size' docs', pageTurn fetchAllDocs page scrollID fromDoc size docs
        (scrollChunk index query page chunk) =
      .next (index.scrollID chunk) fromDoc' size' docs' ∧
      Leaves query.source fetchAllDocs page fromDoc size docs (fromChunk index page chunk)
        fromDoc' size' docs' := by
  have hfound : totalDocsFound (scrollChunk index query page chunk) page = page := by
    rw [scrollChunk_found, min_eq_right hfull]
  simp only [pageTurn, hfound, lt_irrefl, if_false]
  cases fetchAllDocs with
  | true =>
    exact ⟨fromDoc, size, _, rfl, scrollChunk_hits index query page chunk ▸ leaves_all hfull _ _⟩
  | false =>
    obtain ⟨hfrom, hsize⟩ := hbounds rfl
    simp only [reach, Bool.false_eq_true, if_false] at hmore ⊢
    split
    case isTrue hinside =>
      rw [if_neg (by omega), scrollChunk_hits, sliceFrom,
        if_pos (by rw [List.length_map, List.length_take]; omega)]
      exact ⟨_, _, _, rfl, leaves_inside hfrom hinside.le (by omega)⟩
    case isFalse hbehind => exact ⟨_, _, _, rfl, leaves_behind (Int.not_lt.mp hbehind) hsize⟩

variable (hpage : 0 < page)

include hpage

/-- The session of a healthy cluster sends the requests that the documents behind the
chunk need, and collects those that are searched for. -/
theorem healthy_session_eq (cluster : Cluster δ σ) {fuel : Nat} {scrollID : String}
    (hid : scrollID ≠ "") (hfuel : (fromChunk cluster.index page chunk).length < fuel) :
    ∃ id, (cluster.healthy query page).getDocumentsWithScrollSession fetchAllDocs page fuel chunk
        scrollID fromDoc size docs =
      (chunk + pagesNeeded page (fromChunk cluster.index page chunk).length
        (reach fetchAllDocs fromDoc size (fromChunk cluster.index page chunk)),
      .ok (docs ++ (selected fetchAllDocs fromDoc size (fromChunk cluster.index page chunk)).map
        (fun doc => ⟨doc, query.source⟩), id)) := by
  induction fuel generalizing chunk scrollID fromDoc size docs with
  | zero => exact absurd hfuel (Nat.not_lt_zero _)
  | succ fuel ih =>
    have hread : ((cluster.healthy query page).reply chunk).read =
        .ok (some (scrollChunk cluster.index query page chunk)) := rfl
    rw [Cluster.getDocumentsWithScrollSession, if_neg hid, hread]
    dsimp only
    by_cases hlast : (fromChunk cluster.index page chunk).length < page ∨
        reach fetchAllDocs fromDoc size (fromChunk cluster.index page chunk) ≤ page
    · obtain ⟨id, hturn⟩ := pageTurn_last cluster.index query chunk scrollID hbounds hlast
      have hreach : 0 < reach fetchAllDocs fromDoc size (fromChunk cluster.index page chunk) := by
        unfold reach
        cases fetchAllDocs with
        | true => exact Nat.succ_pos _
        | false =>
          have := hbounds rfl
          rw [if_neg Bool.false_ne_true]
          omega
      rw [hturn, pagesNeeded_last hreach hpage hlast]
      exact ⟨id, rfl⟩
    · rw [not_or, Nat.not_lt, Nat.not_le] at hlast
      obtain ⟨hfull, hmore⟩ := hlast
      obtain ⟨fromDoc', size', docs', hturn, hleaves⟩ :=
        pageTurn_more cluster.index query chunk scrollID hbounds hfull hmore
      have hrest := fromChunk_succ cluster.index page chunk
      obtain ⟨id, hsession⟩ := ih (chunk + 1) hleaves.bounds (cluster.index.scrollID_ne chunk)
        (by rw [hrest, List.length_drop]; omega)
      refine ⟨id, ?_⟩
      rw [hturn]
      dsimp only
      rw [hsession, hrest, hleaves.reaches, hleaves.selects, pagesNeeded_succ hpage hfull hmore,
        List.length_drop, Nat.add_assoc, Nat.add_comm 1]

end Turn

/-- The requests that a search needs for its pages. A search for all documents looks for
one more document than there are. -/
def requestsNeeded (index : Index δ σ) (searchQuery : SearchQuery σ) (page : Nat) : Nat :=
  pagesNeeded page index.docs.length
    (if searchQuery.fetchAllDocs then index.docs.length + 1
     else (searchQuery.fromDoc + searchQuery.size).toNat)

/-- A scroll has sent the requests that it needs, and returned the requested documents
unless it could not be cleared. -/
def Completes (cluster : Cluster δ σ) (searchQuery : SearchQuery σ) (page : Nat)
    (source : Option Source) (outcome : ScrollOutcome δ) : Prop :=
  outcome.sent = requestsNeeded cluster.index searchQuery page ∧
    (outcome.result = .ok ((requested cluster.index searchQuery).map fun doc => ⟨doc, source⟩) ∨
      (∃ id, cluster.clearError id ≠ none) ∧ ∃ message, outcome.result = .error (.err message))

section Pages

variable {index : Index δ σ} {searchQuery : SearchQuery σ} {page fuel : Nat} {start size : Nat}

theorem fromChunk_one : fromChunk index page 1 = index.docs.drop page := by
  rw [fromChunk, Nat.one_mul]

variable (index) in
/-- What the first page leaves of a scroll: nothing if it is not full, and otherwise a
search behind it. -/
theorem firstPage_cases (query : Query σ) (hpage : 0 < page) (hfrom : searchQuery.fromDoc = start)
    (hsize : searchQuery.size = size)
    (hwindow : searchQuery.fetchAllDocs = false → 0 < size ∧ page < start + size)
    (hzero : searchQuery.fetchAllDocs = true → start = 0) :
    (index.docs.length < page ∧
      totalDocsFound (scrollChunk index query page 0) page = index.docs.length ∧
      (searchQuery.fromDoc < index.docs.length ∧
        sliceFrom (scrollChunk index query page 0).hits searchQuery.fromDoc =
          .ok ((requested index searchQuery).map fun doc => ⟨doc, query.source⟩) ∨
        ¬ searchQuery.fromDoc < index.docs.length ∧ requested index searchQuery = [])) ∨
    (page ≤ index.docs.length ∧ totalDocsFound (scrollChunk index query page 0) page = page ∧
      (searchQuery.fromDoc < page ∧ (∃ docs,
          sliceFrom (scrollChunk index query page 0).hits searchQuery.fromDoc = .ok docs ∧
          Leaves query.source searchQuery.fetchAllDocs page searchQuery.fromDoc searchQuery.size []
            index.docs 0 (searchQuery.size - (page - searchQuery.fromDoc)) docs) ∨
        ¬ searchQuery.fromDoc < page ∧
          Leaves query.source searchQuery.fetchAllDocs page searchQuery.fromDoc searchQuery.size []
            index.docs (searchQuery.fromDoc - page) searchQuery.size [])) := by
  have hlength : (((index.docs.take page).map fun doc => (⟨doc, query.source⟩ : Hit δ))).length =
      min page index.docs.length := by
    rw [List.length_map, List.length_take]
  simp only [scrollChunk_found, scrollChunk_hits, fromChunk, Nat.zero_mul, List.drop_zero, hfrom,
    hsize]
  rcases Nat.lt_or_ge index.docs.length page with hshort | hfull
  · refine .inl ⟨hshort, by omega, ?_⟩
    have hdocs : requested index searchQuery = index.docs.drop start := by
      cases hall : searchQuery.fetchAllDocs with
      | true => rw [requested, if_pos hall, hzero hall, List.drop_zero]
      | false =>
        rw [requested_window hall hfrom hsize, window_of_length_le (by have := hwindow hall; omega)]
    rw [hdocs]
    by_cases hinside : start < index.docs.length
    · refine .inl ⟨by omega, ?_⟩
      rw [sliceFrom_ok (by omega), List.take_of_length_le (by omega), List.map_drop]
    · exact .inr ⟨by omega, List.drop_eq_nil_of_le (by omega)⟩
  · refine .inr ⟨hfull, by omega, ?_⟩
    by_cases hinside : start < page
    · refine .inl ⟨by omega, _, sliceFrom_ok (by omega), ?_⟩
      cases hall : searchQuery.fetchAllDocs with
      | true =>
        rw [hzero hall, List.drop_zero]
        exact leaves_all hfull _ _
      | false =>
        have := hwindow hall
        exact leaves_inside (Int.natCast_nonneg start) (by omega) (by omega)
    · cases hall : searchQuery.fetchAllDocs with
      | true =>
        have := hzero hall
        omega
      | false =>
        have := hwindow hall
        exact .inr ⟨by omega, leaves_behind (by omega) (by omega)⟩

theorem clearScroll_completes {cluster : Cluster δ σ} {source : Option Source}
    {docs found : List (Hit δ)} {id : String}
    (hdocs : docs ++ found = (requested cluster.index searchQuery).map fun doc => ⟨doc, source⟩) :
    Completes cluster searchQuery page source
      (cluster.clearScroll docs (requestsNeeded cluster.index searchQuery page,
        .ok (found, id))) := by
  simp only [Cluster.clearScroll, hdocs]
  split
  case h_1 message hclear => exact ⟨rfl, .inr ⟨⟨id, by simp [hclear]⟩, _, rfl⟩⟩
  case h_2 => exact ⟨rfl, .inl rfl⟩

variable (query : Query σ) (hpage : 0 < page) (hfrom : searchQuery.fromDoc = start)
  (hsize : searchQuery.size = size)
  (hwindow : searchQuery.fetchAllDocs = false → 0 < size ∧ page < start + size)
  (hzero : searchQuery.fetchAllDocs = true → start = 0)

include hpage hfrom hsize hwindow hzero

theorem healthy_scroll (cluster : Cluster δ σ) (hclient : cluster.clientError = none)
    {ceilQuotient : Int → Int → Int} (hfetch : fetchSizeOf ceilQuotient searchQuery = page)
    (hfuel : cluster.index.docs.length < fuel) :
    Completes cluster searchQuery page query.source
      ((cluster.healthy query page).getDocumentsWithScrollApi ceilQuotient fuel searchQuery) := by
  have hhealthy : (cluster.healthy query page).clientError = none := hclient
  have hread : ((cluster.healthy query page).reply 0).read =
      .ok (some (scrollChunk cluster.index query page 0)) := rfl
  have hreach : 0 < reach searchQuery.fetchAllDocs searchQuery.fromDoc searchQuery.size
      cluster.index.docs ∧ (page ≤ cluster.index.docs.length → page < reach
        searchQuery.fetchAllDocs searchQuery.fromDoc searchQuery.size cluster.index.docs) := by
    unfold reach
    cases hall : searchQuery.fetchAllDocs with
    | true => exact ⟨Nat.succ_pos _, Nat.lt_succ_of_le⟩
    | false =>
      have := hwindow hall
      rw [if_neg Bool.false_ne_true]
      omega
  have hshortNeeds : cluster.index.docs.length < page →
      requestsNeeded cluster.index searchQuery page = 1 := fun hshort =>
    pagesNeeded_last hreach.1 hpage (.inl hshort)
  have hrest : page ≤ cluster.index.docs.length →
      totalDocsFound (scrollChunk cluster.index query page 0) page = page →
      ∀ {fromDoc' size' docs'}, Leaves query.source searchQuery.fetchAllDocs page
        searchQuery.fromDoc searchQuery.size [] cluster.index.docs fromDoc' size' docs' →
      Completes cluster searchQuery page query.source
        ((cluster.healthy query page).scrollRest searchQuery.fetchAllDocs page fuel
          (scrollChunk cluster.index query page 0) fromDoc' size' docs') := by
    intro hfull hfound fromDoc' size' docs' hleaves
    obtain ⟨id, hsession⟩ := healthy_session_eq query 1 hleaves.bounds hpage cluster
      (show (scrollChunk cluster.index query page 0).scrollID ≠ "" from cluster.index.scrollID_ne 0)
      (show _ < fuel by rw [fromChunk_one, List.length_drop]; omega)
    rw [Cluster.scrollRest, if_pos hfound, hsession, fromChunk_one, hleaves.reaches,
      List.length_drop, Nat.add_comm, ← pagesNeeded_succ hpage hfull (hreach.2 hfull)]
    exact clearScroll_completes hleaves.selects
  have hfirst := firstPage_cases cluster.index query hpage hfrom hsize hwindow hzero
  simp only [Cluster.getDocumentsWithScrollApi, hhealthy, hread, hfetch]
  rcases hfirst with ⟨hshort, hfound, ⟨hinside, hslice⟩ | ⟨hbehind, hnone⟩⟩ |
    ⟨hfull, hfound, ⟨hinside, docs, hslice, hleaves⟩ | ⟨hbehind, hleaves⟩⟩
  · rw [hfound, if_pos hinside, hslice]
    dsimp only
    rw [Cluster.scrollRest, hfound, if_neg (by omega), ← hshortNeeds hshort]
    exact clearScroll_completes (List.append_nil _)
  · rw [hfound, if_neg hbehind, if_pos (by omega)]
    exact ⟨(hshortNeeds hshort).symm, .inl (by rw [hnone]; rfl)⟩
  · rw [hfound, if_pos hinside, hslice]
    exact hrest hfull hfound hleaves
  · rw [hfound, if_neg hbehind, if_neg (lt_irrefl _)]
    exact hrest hfull hfound hleaves

end Pages

section Given

variable (searchQuery : SearchQuery σ)

/-- What does not depend on the numbers of a search for all documents. -/
theorem given_congr {α : Type} (f : SearchQuery σ → α)
    (hf : searchQuery.fetchAllDocs = true → f { searchQuery with fromDoc := 0, size := 0 } =
      f searchQuery) : f searchQuery.given = f searchQuery := by
  cases hall : searchQuery.fetchAllDocs with
  | true => rw [given_of_all _ hall, hf hall]
  | false => rw [given_of_bounded _ hall]

theorem fetchSizeOf_given (ceilQuotient : Int → Int → Int) :
    fetchSizeOf ceilQuotient searchQuery.given = fetchSizeOf ceilQuotient searchQuery :=
  given_congr searchQuery _ fun hall => by rw [fetchSizeOf, fetchSizeOf, if_pos hall, if_pos hall]

theorem requested_given (index : Index δ σ) :
    requested index searchQuery.given = requested index searchQuery :=
  given_congr searchQuery _ fun hall => by rw [requested, requested, if_pos hall, if_pos hall]

theorem requestsNeeded_given (index : Index δ σ) (page : Nat) :
    requestsNeeded index searchQuery.given page = requestsNeeded index searchQuery page :=
  given_congr searchQuery (requestsNeeded index · page) fun hall => by
    simp only [requestsNeeded, if_pos hall]

/-- The numbers of a search on the scroll path. The window does not end in the first
page, and the sum that chooses the path does not overflow. -/
theorem given_numbers {ceilQuotient : Int → Int → Int}
    (hquotient : ∀ wanted : Int, esMaxFetchSize < wanted → wanted < 2 ^ 63 →
      0 < ceilQuotient wanted (ceilQuotient wanted esMaxFetchSize) ∧
      ceilQuotient wanted (ceilQuotient wanted esMaxFetchSize) < wanted)
    (hint64 : searchQuery.fetchAllDocs = false →
      searchQuery.fromDoc < 2 ^ 63 ∧ searchQuery.size < 2 ^ 63)
    (hrange : searchQuery.Bulk) :
    ∃ page start size : Nat, fetchSizeOf ceilQuotient searchQuery = page ∧ 0 < page ∧
      searchQuery.given.fromDoc = start ∧ searchQuery.given.size = size ∧
      (searchQuery.given.fetchAllDocs = false → 0 < size ∧ page < start + size) ∧
      (searchQuery.given.fetchAllDocs = true → start = 0) := by
  cases hall : searchQuery.fetchAllDocs with
  | true =>
    rw [given_of_all _ hall, fetchSizeOf, if_pos hall]
    refine ⟨esMaxFetchSize, 0, 0, rfl, by decide, rfl, rfl, ?_, fun _ => rfl⟩
    intro hbounded
    rw [hall] at hbounded
    cases hbounded
  | false =>
    obtain ⟨hfrom, hsize, hdeep⟩ := hrange hall
    have hless := hint64 hall
    have hsum : searchQuery.fromDoc + searchQuery.size < 2 ^ 63 := by
      by_contra hover
      have hneg := wrapI64_neg_of_overflow (Int.not_lt.mp hover) (by omega)
      omega
    rw [wrapI64_of_bounds (by omega) hsum] at hdeep
    obtain ⟨hpos, hless⟩ := hquotient _ hdeep hsum
    have hfetch : fetchSizeOf ceilQuotient searchQuery =
        ceilQuotient (searchQuery.fromDoc + searchQuery.size)
          (ceilQuotient (searchQuery.fromDoc + searchQuery.size) esMaxFetchSize) := by
      rw [fetchSizeOf, if_neg (by simp [hall])]
    rw [← hfetch] at hpos hless
    rw [given_of_bounded _ hall, hall]
    obtain ⟨page, hpage⟩ := Int.eq_ofNat_of_zero_le hpos.le
    obtain ⟨start, hstart⟩ := Int.eq_ofNat_of_zero_le hfrom
    obtain ⟨size, hsize'⟩ := Int.eq_ofNat_of_zero_le hsize.le
    exact ⟨page, start, size, hpage, by omega, hstart, hsize', fun _ => by omega,
      fun h => by cases h⟩

end Given

variable [DecidableEq σ]

end Photon.Elasticsearch
