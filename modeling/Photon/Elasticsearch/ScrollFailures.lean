import Photon.Elasticsearch.Scroll

/-!
What a failing request makes of a search on the scroll path. The requests that a scroll
needs are counted; a status 400 among them is taken for the end of the documents, so
that the search reports success, and every other failure is reported.
-/

namespace Photon.Elasticsearch

open Photon.Lib

variable {δ σ : Type}

/-- No bad request ends the scroll and is forgotten: where the first answer that is not
a page is a bad request, it is not the first of all, and the scroll cannot be cleared. -/
def Cluster.NoSilentEnd (cluster : Cluster δ σ) (needed : Nat) : Prop :=
  ∀ k < needed, (∀ j < k, (cluster.reply j).isPage = true) → cluster.reply k = .badRequest →
    0 < k ∧ cluster.clearError (cluster.index.scrollID (k - 1)) ≠ none

/-- A scroll that returns documents without an error returns all of them, and reports a
bad request. -/
def Cluster.ReportsFailures (cluster : Cluster δ σ) {α : Type} (expected : α)
    (outcome : Nat × Except Failure α) : Prop :=
  (∀ found, outcome.2 = .ok found → found = expected) ∧
  ∀ k < outcome.1, cluster.reply k = .badRequest → ∃ message, outcome.2 = .error (.err message)

section Reports

variable {cluster : Cluster δ σ}

/-- The answers up to a number are pages, or there is a first one that is not. -/
theorem pages_or_fault (cluster : Cluster δ σ) (sent : Nat) :
    (∀ k < sent, (cluster.reply k).isPage = true) ∨
    ∃ f < sent, (cluster.reply f).isPage = false ∧ ∀ k < f, (cluster.reply k).isPage = true := by
  induction sent with
  | zero => exact .inl fun k hk => absurd hk (Nat.not_lt_zero k)
  | succ sent ih =>
    rcases ih with hpages | ⟨f, hf, hfault, hfirst⟩
    · cases hpage : (cluster.reply sent).isPage with
      | true =>
        refine .inl fun k hk => ?_
        rcases Nat.lt_succ_iff_lt_or_eq.mp hk with hlt | rfl
        · exact hpages k hlt
        · exact hpage
      | false => exact .inr ⟨sent, Nat.lt_succ_self sent, hpage, hpages⟩
    · exact .inr ⟨f, Nat.lt_succ_of_lt hf, hfault, hfirst⟩

/-- What a scroll reports, given what it is up to the first fault. -/
theorem reportsFailures_iff {outcome healthy : ScrollOutcome δ} {docs : List (Hit δ)}
    (hfaults : cluster.UntilFault 0 healthy.sent (outcome = healthy)
      fun f => cluster.EndsAt f outcome)
    (hresult : healthy.result = .ok docs ∨ ∃ message, healthy.result = .error (.err message)) :
    ((∃ found, outcome.result = .ok found) ∨ ∃ message, outcome.result = .error (.err message)) ∧
    (cluster.ReportsFailures docs (outcome.sent, outcome.result) ↔
      cluster.NoSilentEnd healthy.sent) := by
  rcases pages_or_fault cluster healthy.sent with hpages | ⟨f, hf, hfault, hfirst⟩
  · -- every answer is a page
    have hpage : ∀ k < healthy.sent, cluster.reply k ≠ .badRequest := fun k hk =>
      Reply.not_badRequest (hpages k hk)
    obtain rfl := hfaults.1 fun k _ hk => hpages k hk
    refine ⟨hresult.imp_left fun h => ⟨docs, h⟩, fun _ k hk _ hbad => absurd hbad (hpage k hk),
      fun _ => ⟨fun found hfound => ?_, fun k hk hbad => absurd hbad (hpage k hk)⟩⟩
    rcases hresult with hok | ⟨message, herror⟩
    · rw [hok] at hfound
      exact (Except.ok.inj hfound).symm
    · rw [herror] at hfound
      cases hfound
  · -- answer `f` is the first one that is not a page
    have hends := hfaults.2 f (Nat.zero_le f) hf (fun k _ hk => hfirst k hk) hfault
    have hunique : ∀ k, (∀ j < k, (cluster.reply j).isPage = true) →
        cluster.reply k = .badRequest → k = f := by
      intro k hbefore hbad
      rcases lt_trichotomy k f with hlt | heq | hgt
      · exact absurd hbad (Reply.not_badRequest (hfirst k hlt))
      · exact heq
      · exact absurd (hbefore f hgt) (by simp [hfault])
    have herror : ∀ message, outcome.result = .error (.err message) →
        cluster.ReportsFailures docs (outcome.sent, outcome.result) := by
      intro message herror
      refine ⟨fun found hfound => ?_, fun _ _ _ => ⟨message, herror⟩⟩
      rw [herror] at hfound
      cases hfound
    cases hread : (cluster.reply f).read with
    | error failure =>
      obtain ⟨message, rfl⟩ := Reply.read_error hread
      have hfailed := hends.failed _ hread
      refine ⟨.inr ⟨message, hfailed⟩, fun _ k _ hbefore hbad => ?_, fun _ => herror _ hfailed⟩
      rw [← hunique k hbefore hbad, hbad] at hread
      cases hread
    | ok resp =>
      have hbad : cluster.reply f = .badRequest := Reply.badRequest_of_read hfault hread
      by_cases hsilent : f = 0 ∨ cluster.clearError (cluster.index.scrollID (f - 1)) = none
      · obtain ⟨found, hfound⟩ := hends.silent hbad hsilent
        refine ⟨.inl ⟨found, hfound⟩, fun hreports => ?_, fun hnone => ?_⟩
        · obtain ⟨message, hfailed⟩ := hreports.2 f (by rw [hends.sent]; exact Nat.lt_succ_self f)
            hbad
          rw [hfound] at hfailed
          cases hfailed
        · obtain ⟨hpos, hclear⟩ := hnone f hf hfirst hbad
          exact absurd hsilent (not_or.mpr ⟨hpos.ne', hclear⟩)
      · rw [not_or] at hsilent
        obtain ⟨message, hclear⟩ := Option.ne_none_iff_exists'.mp hsilent.2
        have hfailed := hends.uncleared hbad (Nat.pos_of_ne_zero hsilent.1) message hclear
        refine ⟨.inr ⟨_, hfailed⟩, fun _ k _ hbefore hbad' => ?_, fun _ => herror _ hfailed⟩
        rw [hunique k hbefore hbad']
        exact ⟨Nat.pos_of_ne_zero hsilent.1, hsilent.2⟩

end Reports

/-- What the scroll path reports, for a page size that does not cover the window. -/
theorem scroll_reports_iff (cluster : Cluster δ σ) (hclient : cluster.clientError = none)
    {ceilQuotient : Int → Int → Int} {searchQuery : SearchQuery σ} (query : Query σ) {page : Nat}
    (hfetch : fetchSizeOf ceilQuotient searchQuery = page) (hpage : 0 < page)
    (hserves : cluster.Serves { query with size := some (page : Int), fromDoc := none } page)
    {start size : Nat} (hfrom : searchQuery.fromDoc = start) (hsize : searchQuery.size = size)
    (hwindow : searchQuery.fetchAllDocs = false → 0 < size ∧ page < start + size)
    (hzero : searchQuery.fetchAllDocs = true → start = 0)
    {fuel : Nat} (hfuel : cluster.index.docs.length < fuel) {scroll : ScrollOutcome δ}
    (hscroll : scroll = cluster.getDocumentsWithScrollApi ceilQuotient fuel searchQuery) :
    ((∃ found, scroll.result = .ok found) ∨ ∃ message, scroll.result = .error (.err message)) ∧
    (cluster.ReportsFailures
        ((requested cluster.index searchQuery).map fun doc => ⟨doc, query.source⟩)
        (scroll.sent, scroll.result) ↔
      cluster.NoSilentEnd (requestsNeeded cluster.index searchQuery page)) := by
  rw [← hfetch] at hserves
  have hfaults := scroll_until_fault ceilQuotient searchQuery hclient hserves fuel
  rw [hfetch] at hfaults
  obtain ⟨hsent, hresult⟩ :=
    healthy_scroll { query with size := some (page : Int), fromDoc := none } hpage hfrom hsize
      hwindow hzero cluster hclient hfetch hfuel
  rw [hscroll, ← hsent]
  exact reportsFailures_iff hfaults (hresult.imp_right And.right)

theorem reportsFailures_wrap (cluster : Cluster δ σ) (docs : List δ) (source : Option Source)
    (sent : Nat) (result : Except Failure (List (Hit δ))) (context : String) :
    cluster.ReportsFailures (response docs source) (sent, do
        let docs ← wrapError context result
        .ok ⟨docs, docs.length, ""⟩) ↔
      cluster.ReportsFailures (docs.map fun doc => ⟨doc, source⟩) (sent, result) := by
  cases result with
  | error failure => cases failure <;> simp [Cluster.ReportsFailures, wrapError]
  | ok found =>
    have hsame : (⟨found, found.length, ""⟩ : SearchResponse δ) = response docs source ↔
        found = docs.map fun doc => ⟨doc, source⟩ := by
      constructor
      · exact fun h => congrArg SearchResponse.hits h
      · rintro rfl
        rw [response, List.length_map]
    simp [Cluster.ReportsFailures, hsame]

variable [DecidableEq σ]

/-- A search on the scroll path returns a response or an error. That a response is the
requested window, and that a bad request is an error, holds exactly when no bad request
ends the scroll silently. -/
theorem scroll_failures_reported_iff (cluster : Cluster δ σ) (ceilQuotient : Int → Int → Int)
    (hquotient : ∀ wanted : Int, esMaxFetchSize < wanted → wanted < 2 ^ 63 →
      0 < ceilQuotient wanted (ceilQuotient wanted esMaxFetchSize) ∧
      ceilQuotient wanted (ceilQuotient wanted esMaxFetchSize) < wanted)
    (searchQuery : SearchQuery σ) (query : Query σ) (hquery : searchQuery.query = some query)
    (hsort : searchQuery.sort = [])
    (hint64 : searchQuery.fromDoc < 2 ^ 63 ∧ searchQuery.size < 2 ^ 63)
    (hrange : searchQuery.Bulk)
    (hserves : cluster.Serves
      { query with size := some (fetchSizeOf ceilQuotient searchQuery), fromDoc := none }
      (fetchSizeOf ceilQuotient searchQuery)) :
    ∃ bound, ∀ fuel, bound ≤ fuel →
      ((∃ found, (cluster.incrementalSearch ceilQuotient fuel searchQuery).result = .ok found) ∨
        ∃ message, (cluster.incrementalSearch ceilQuotient fuel searchQuery).result =
          .error (.err message)) ∧
      (cluster.ReportsFailures (response (requested cluster.index searchQuery) query.source)
          ((cluster.incrementalSearch ceilQuotient fuel searchQuery).sent,
            (cluster.incrementalSearch ceilQuotient fuel searchQuery).result) ↔
        cluster.clientError ≠ none ∨ cluster.NoSilentEnd (requestsNeeded cluster.index searchQuery
          (fetchSizeOf ceilQuotient searchQuery).toNat)) := by
  refine ⟨cluster.index.docs.length + 1, fun fuel hfuel => ?_⟩
  rw [incrementalSearch_bulk hquery hrange, bulk_unsorted ((given_sort searchQuery).trans hsort),
    reportsFailures_wrap]
  cases hclient : cluster.clientError with
  | some message =>
    simp [Cluster.getDocumentsWithScrollApi, hclient, wrapError, Cluster.ReportsFailures]
  | none =>
    obtain ⟨page, start, size, hfetch, hpage, hfrom, hsize, hwindow, hzero⟩ :=
      given_numbers searchQuery hquotient (fun _ => hint64) hrange
    rw [hfetch] at hserves ⊢
    have hgiven : fetchSizeOf ceilQuotient searchQuery.given = page := by
      rw [fetchSizeOf_given, hfetch]
    obtain ⟨hreturns, hreports⟩ := scroll_reports_iff cluster hclient query hgiven hpage hserves
      hfrom hsize hwindow hzero (show cluster.index.docs.length < fuel by omega) rfl
    rw [requested_given, requestsNeeded_given] at hreports
    refine ⟨?_, ?_⟩
    · rcases hreturns with ⟨found, hfound⟩ | ⟨message, herror⟩
      · rw [hfound]
        exact .inl ⟨_, rfl⟩
      · rw [herror]
        exact .inr ⟨_, rfl⟩
    · rw [hreports, Int.toNat_natCast]
      simp

/-- One full page of documents behind a connection that breaks after it. -/
def oneGoodReply : Cluster Nat Nat where
  index := .numbered (List.range 5001)
  clientError := none
  reply := fun k => if k = 0 then
      .page (scrollChunk (.numbered (List.range 5001)) ⟨none, none, none, none, none⟩ 5001 0)
    else .transportError "connection reset"
  clearError := fun _ => none

def secondWindow : SearchQuery Nat := ⟨some ⟨none, none, none, none, none⟩, [], 2, 9999, false⟩

theorem one_page_scroll_reported :
    requestsNeeded oneGoodReply.index secondWindow 5001 = 2 ∧
    oneGoodReply.reply 1 = .transportError "connection reset" ∧
    ∃ bound, ∀ fuel, bound ≤ fuel →
      oneGoodReply.ReportsFailures (response (requested oneGoodReply.index secondWindow) none)
        ((oneGoodReply.incrementalSearch ceilDiv fuel secondWindow).sent,
          (oneGoodReply.incrementalSearch ceilDiv fuel secondWindow).result) := by
  obtain ⟨bound, hbound⟩ := scroll_failures_reported_iff oneGoodReply ceilDiv
    (fun wanted hdeep _ => fetchSize_bounds hdeep) secondWindow ⟨none, none, none, none, none⟩
    rfl rfl (by decide) (fun _ => by decide) (fun k resp hreply => by
      rcases Nat.eq_zero_or_pos k with rfl | hpos
      · exact (Reply.page.inj hreply).symm
      · simp [oneGoodReply, hpos.ne'] at hreply)
  refine ⟨by simp [requestsNeeded, oneGoodReply, secondWindow, Index.numbered, pagesNeeded], rfl,
    bound, fun fuel hfuel => (hbound fuel hfuel).2.mpr (.inr fun k _ _ hbad => ?_)⟩
  unfold oneGoodReply at hbad
  dsimp only at hbad
  split at hbad <;> cases hbad

/-- One document more than a page holds, behind a server that answers with the first
`pages` pages and then with the status 400. -/
def refusingAfter (pages : Nat) : Cluster Nat Nat where
  index := .numbered (List.range (esMaxFetchSize + 1))
  clientError := none
  reply := fun k => if k < pages then
      .page (scrollChunk (.numbered (List.range (esMaxFetchSize + 1)))
        ⟨none, none, none, none, none⟩ esMaxFetchSize k)
    else .badRequest
  clearError := fun _ => none

def allUnsorted : SearchQuery Nat := ⟨some ⟨none, none, none, none, none⟩, [], 0, 0, true⟩

/-- A search for all documents that is refused returns none of them, and one that is
refused after the first page returns that page, both without an error. -/
theorem refused_scrolls_succeed :
    (∃ turns, ∀ fuel, turns ≤ fuel → ∃ docs : List (Hit Nat),
      ((refusingAfter 1).incrementalSearch ceilDiv fuel allUnsorted).sent = 2 ∧
      ((refusingAfter 1).incrementalSearch ceilDiv fuel allUnsorted).result =
        .ok ⟨docs, 10000, ""⟩ ∧ docs.length = 10000) ∧
    (∀ fuel, ((refusingAfter 0).incrementalSearch ceilDiv fuel allUnsorted).sent = 1 ∧
      ((refusingAfter 0).incrementalSearch ceilDiv fuel allUnsorted).result = .ok ⟨[], 0, ""⟩) ∧
    (requested (refusingAfter 0).index allUnsorted).length = 10001 := by
  refine ⟨⟨1, fun fuel hfuel => ?_⟩, fun fuel => ⟨rfl, rfl⟩, ?_⟩
  · obtain ⟨more, rfl⟩ := Nat.exists_eq_add_of_le' hfuel
    let first := scrollChunk (refusingAfter 1).index ⟨none, none, none, none, none⟩ esMaxFetchSize 0
    have hhits : first.hits.length = esMaxFetchSize := by
      simp [first, scrollChunk, refusingAfter, Index.numbered]
    have hfound : totalDocsFound first esMaxFetchSize = esMaxFetchSize := by
      rw [totalDocsFound, hhits, if_neg (Int.lt_irrefl _)]
    have hread : ((refusingAfter 1).reply 0).read = .ok (some first) := rfl
    have hdocs : sliceFrom first.hits 0 = .ok first.hits := sliceFrom_ok (Nat.zero_le _)
    have hscroll : (refusingAfter 1).getDocumentsWithScrollApi ceilDiv (more + 1) allUnsorted =
        ⟨2, some "scroll", .ok (first.hits ++ [])⟩ := by
      rw [Cluster.getDocumentsWithScrollApi]
      simp only [hread, fetchSizeOf, allUnsorted, if_true, hfound]
      rw [if_pos (by decide), hdocs]
      dsimp only
      rw [Cluster.scrollRest, if_pos hfound]
      rfl
    have hgiven : allUnsorted.given = allUnsorted := given_of_all _ rfl
    refine ⟨first.hits, ?_⟩
    rw [incrementalSearch_bulk rfl (fun h => by cases h), hgiven, bulk_unsorted rfl, hscroll,
      List.append_nil, wrapError_ok, ok_bind, hhits]
    exact ⟨rfl, rfl, rfl⟩
  · simp [requested, refusingAfter, allUnsorted, Index.numbered, esMaxFetchSize]

end Photon.Elasticsearch
