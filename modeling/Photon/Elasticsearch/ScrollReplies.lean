import Photon.Elasticsearch.Helper

/-!
A scroll up to the first answer that is not a page. Until then it goes as it does against
a healthy cluster, and it ends there: a status 400 ends it without an error, because the
first request returns the error of the request, which is nil, and the loop breaks as it
does at the end of the documents.
-/

namespace Photon.Elasticsearch

open Photon.Lib

variable {δ σ : Type}

/-- The pages that a server sends are the chunks of its documents, in order. -/
def Cluster.Serves (cluster : Cluster δ σ) (query : Query σ) (fetchSize : Int) : Prop :=
  ∀ k resp, cluster.reply k = .page resp → resp = scrollChunk cluster.index query fetchSize k

def Cluster.healthy (cluster : Cluster δ σ) (query : Query σ) (fetchSize : Int) : Cluster δ σ :=
  { cluster with reply := fun k => .page (scrollChunk cluster.index query fetchSize k) }

theorem Cluster.Serves.read {cluster : Cluster δ σ} {query : Query σ} {fetchSize : Int}
    (hserves : cluster.Serves query fetchSize) {k : Nat} (hpage : (cluster.reply k).isPage = true) :
    (cluster.reply k).read = ((cluster.healthy query fetchSize).reply k).read := by
  cases hreply : cluster.reply k with
  | page resp => rw [hserves k resp hreply, healthy]
  | transportError | undecodable | badRequest => simp [hreply, Reply.isPage] at hpage

theorem Reply.read_error {reply : Reply δ} {failure : Failure} (h : reply.read = .error failure) :
    ∃ message, failure = .err message := by
  cases reply with
  | page resp => cases h
  | transportError | undecodable => exact ⟨_, (Except.error.inj h).symm⟩
  | badRequest => cases h

theorem Reply.not_badRequest {reply : Reply δ} (h : reply.isPage = true) :
    reply ≠ .badRequest := by
  rintro rfl
  cases h

theorem Reply.badRequest_of_read {reply : Reply δ} {resp : Option (SearchResponse δ)}
    (hfault : reply.isPage = false) (h : reply.read = .ok resp) : reply = .badRequest := by
  cases reply with
  | page resp => cases hfault
  | transportError message => cases h
  | undecodable res message => cases h
  | badRequest => rfl

theorem pageTurn_next {fetchAllDocs : Bool} {fetchSize fromDoc size fromDoc' size' : Int}
    {scrollID scrollID' : String} {docs docs' : List (Hit δ)} {resp : SearchResponse δ}
    (h : pageTurn fetchAllDocs fetchSize scrollID fromDoc size docs resp =
      .next scrollID' fromDoc' size' docs') : scrollID' = resp.scrollID := by
  unfold pageTurn at h
  grind

section Session

variable {cluster : Cluster δ σ} {query : Query σ} {fetchAllDocs : Bool} {fetchSize : Int}

theorem session_sent_le (fuel sent : Nat) (scrollID : String) (fromDoc size : Int)
    (docs : List (Hit δ)) :
    sent ≤ (cluster.getDocumentsWithScrollSession fetchAllDocs fetchSize fuel sent scrollID fromDoc
      size docs).1 := by
  induction fuel generalizing sent scrollID fromDoc size docs with
  | zero => exact le_rfl
  | succ fuel ih =>
    rw [Cluster.getDocumentsWithScrollSession]
    split
    · exact le_rfl
    · split
      · exact Nat.le_succ sent
      · exact Nat.le_succ sent
      · split
        · exact Nat.le_succ sent
        · exact (Nat.le_succ sent).trans (ih _ _ _ _ _)

end Session

/-- The answers from `first` on decide how a scroll goes that sends `sent` requests when
nothing fails: as it should if all of them are pages, and otherwise by the first one
that is not. -/
def Cluster.UntilFault (cluster : Cluster δ σ) (first sent : Nat) (same : Prop)
    (ends : Nat → Prop) : Prop :=
  ((∀ k, first ≤ k → k < sent → (cluster.reply k).isPage = true) → same) ∧
  ∀ f, first ≤ f → f < sent → (∀ k, first ≤ k → k < f → (cluster.reply k).isPage = true) →
    (cluster.reply f).isPage = false → ends f

section UntilFault

variable {cluster : Cluster δ σ} {first sent : Nat} {same : Prop} {ends : Nat → Prop}

theorem untilFault_of_done (hsent : sent ≤ first) (hsame : same) :
    cluster.UntilFault first sent same ends :=
  ⟨fun _ => hsame, fun _ hle hlt => absurd (hsent.trans hle) (Nat.not_le.mpr hlt)⟩

theorem untilFault_of_page (hpage : (cluster.reply first).isPage = true)
    (h : cluster.UntilFault (first + 1) sent same ends) :
    cluster.UntilFault first sent same ends := by
  refine ⟨fun hpages => h.1 fun k hle hlt => hpages k (by omega) hlt,
    fun f hle hlt hpages hfault => ?_⟩
  rcases Nat.eq_or_lt_of_le hle with rfl | hlater
  · simp [hpage] at hfault
  · exact h.2 f hlater hlt (fun k hle' hlt' => hpages k (by omega) hlt') hfault

theorem untilFault_of_fault (hfault : (cluster.reply first).isPage = false) (hsent : first < sent)
    (hends : ends first) : cluster.UntilFault first sent same ends := by
  refine ⟨fun hpages => ?_, fun f hle _ hpages _ => ?_⟩
  · exact absurd (hpages first le_rfl hsent) (by simp [hfault])
  · rcases Nat.eq_or_lt_of_le hle with rfl | hlater
    · exact hends
    · simp [hpages first le_rfl hlater] at hfault

end UntilFault

structure Cluster.SessionEndsAt (cluster : Cluster δ σ) (f : Nat)
    (answer : Nat × Except Failure (List (Hit δ) × String)) : Prop where
  failed : ∀ failure, (cluster.reply f).read = .error failure → answer = (f + 1, .error failure)
  silent : cluster.reply f = .badRequest →
    ∃ docs, answer = (f + 1, .ok (docs, cluster.index.scrollID (f - 1)))

section Scroll

variable {cluster : Cluster δ σ} {query : Query σ} {fetchSize : Int}

theorem session_until_fault (hserves : cluster.Serves query fetchSize) (fetchAllDocs : Bool)
    (fuel sent : Nat) {scrollID : String} (hid : scrollID = cluster.index.scrollID (sent - 1))
    (fromDoc size : Int) (docs : List (Hit δ)) :
    cluster.UntilFault sent
      ((cluster.healthy query fetchSize).getDocumentsWithScrollSession fetchAllDocs fetchSize fuel
        sent scrollID fromDoc size docs).1
      (cluster.getDocumentsWithScrollSession fetchAllDocs fetchSize fuel sent scrollID fromDoc size
          docs =
        (cluster.healthy query fetchSize).getDocumentsWithScrollSession fetchAllDocs fetchSize fuel
          sent scrollID fromDoc size docs)
      fun f => cluster.SessionEndsAt f
        (cluster.getDocumentsWithScrollSession fetchAllDocs fetchSize fuel sent scrollID fromDoc
          size docs) := by
  induction fuel generalizing sent scrollID fromDoc size docs with
  | zero => exact untilFault_of_done le_rfl rfl
  | succ fuel ih =>
    have hsome : ¬ scrollID = "" := hid ▸ cluster.index.scrollID_ne _
    have hread : ((cluster.healthy query fetchSize).reply sent).read =
        .ok (some (scrollChunk cluster.index query fetchSize sent)) := rfl
    simp only [Cluster.getDocumentsWithScrollSession, if_neg hsome, hread]
    cases hpage : (cluster.reply sent).isPage with
    | true =>
      refine untilFault_of_page hpage ?_
      rw [hserves.read hpage, hread]
      dsimp only
      cases hturn : pageTurn fetchAllDocs fetchSize scrollID fromDoc size docs
          (scrollChunk cluster.index query fetchSize sent) with
      | stop result => exact untilFault_of_done le_rfl rfl
      | next scrollID fromDoc size docs => exact ih (sent + 1) (pageTurn_next hturn) _ _ _
    | false =>
      refine untilFault_of_fault hpage ?_ ⟨fun failure herror => ?_, fun hbad => ⟨docs, ?_⟩⟩
      · split
        · exact Nat.lt_succ_self sent
        · exact Nat.lt_of_succ_le (session_sent_le _ _ _ _ _ _)
      · rw [herror]
      · rw [hbad, Reply.read, hid]

structure Cluster.EndsAt (cluster : Cluster δ σ) (f : Nat) (outcome : ScrollOutcome δ) : Prop where
  sent : outcome.sent = f + 1
  failed : ∀ failure, (cluster.reply f).read = .error failure → outcome.result = .error failure
  silent : cluster.reply f = .badRequest →
    f = 0 ∨ cluster.clearError (cluster.index.scrollID (f - 1)) = none →
      ∃ docs, outcome.result = .ok docs
  uncleared : cluster.reply f = .badRequest → 0 < f →
    ∀ message, cluster.clearError (cluster.index.scrollID (f - 1)) = some message →
      outcome.result = .error (.err ("error clearing scroll session: " ++ message))

theorem clearScroll_sent (docs : List (Hit δ))
    (answer : Nat × Except Failure (List (Hit δ) × String)) :
    (cluster.clearScroll docs answer).sent = answer.1 := by
  rcases answer with ⟨sent, failure | ⟨resp, scrollID⟩⟩
  · rfl
  · simp only [Cluster.clearScroll]
    split <;> rfl

theorem clearScroll_healthy (docs : List (Hit δ)) :
    (cluster.healthy query fetchSize).clearScroll docs = cluster.clearScroll docs := by
  funext answer
  rcases answer with ⟨sent, failure | ⟨resp, scrollID⟩⟩ <;> rfl

theorem clearScroll_endsAt {f : Nat} (hf : 0 < f)
    {answer : Nat × Except Failure (List (Hit δ) × String)} (h : cluster.SessionEndsAt f answer)
    (hfault : (cluster.reply f).isPage = false) (docs : List (Hit δ)) :
    cluster.EndsAt f (cluster.clearScroll docs answer) := by
  cases hread : (cluster.reply f).read with
  | error failure =>
    obtain rfl := h.failed failure hread
    refine ⟨rfl, fun _ herror => ?_, fun hbad => ?_, fun hbad => ?_⟩
    · rw [hread] at herror
      cases herror
      rfl
    all_goals simp [hbad, Reply.read] at hread
  | ok resp =>
    have hbad : cluster.reply f = .badRequest := Reply.badRequest_of_read hfault hread
    obtain ⟨found, rfl⟩ := h.silent hbad
    refine ⟨clearScroll_sent _ _, fun failure herror => ?_, fun _ hclear => ?_,
      fun _ _ message hclear => ?_⟩
    · simp [hbad, Reply.read] at herror
    · exact ⟨docs ++ found, by simp [Cluster.clearScroll, hclear.resolve_left hf.ne']⟩
    · simp [Cluster.clearScroll, hclear]

theorem scrollRest_sent_pos (fetchAllDocs : Bool) (fuel : Nat) (first : SearchResponse δ)
    (fromDoc size : Int) (docs : List (Hit δ)) :
    0 < (cluster.scrollRest fetchAllDocs fetchSize fuel first fromDoc size docs).sent := by
  rw [Cluster.scrollRest, clearScroll_sent]
  split
  · exact Nat.lt_of_succ_le (session_sent_le _ _ _ _ _ _)
  · exact Nat.one_pos

theorem scrollRest_until_fault (hserves : cluster.Serves query fetchSize) (fetchAllDocs : Bool)
    (fuel : Nat) (fromDoc size : Int) (docs : List (Hit δ)) :
    cluster.UntilFault 1
      ((cluster.healthy query fetchSize).scrollRest fetchAllDocs fetchSize fuel
        (scrollChunk cluster.index query fetchSize 0) fromDoc size docs).sent
      (cluster.scrollRest fetchAllDocs fetchSize fuel (scrollChunk cluster.index query fetchSize 0)
          fromDoc size docs =
        (cluster.healthy query fetchSize).scrollRest fetchAllDocs fetchSize fuel
          (scrollChunk cluster.index query fetchSize 0) fromDoc size docs)
      fun f => cluster.EndsAt f (cluster.scrollRest fetchAllDocs fetchSize fuel
        (scrollChunk cluster.index query fetchSize 0) fromDoc size docs) := by
  simp only [Cluster.scrollRest, clearScroll_healthy, clearScroll_sent]
  split
  case isFalse hshort => exact untilFault_of_done le_rfl rfl
  case isTrue hfull =>
    obtain ⟨hsame, hends⟩ := session_until_fault hserves fetchAllDocs fuel 1 rfl fromDoc size []
    refine ⟨fun hpages => congrArg _ (hsame hpages), fun f hf hlt hpages hfault => ?_⟩
    exact clearScroll_endsAt hf (hends f hf hlt hpages hfault) hfault docs

variable (ceilQuotient : Int → Int → Int) (searchQuery : SearchQuery σ)

/-- A scroll is that of the healthy cluster up to the first answer that is not a page,
and ends there. -/
theorem scroll_until_fault (hclient : cluster.clientError = none)
    (hserves : cluster.Serves query (fetchSizeOf ceilQuotient searchQuery)) (fuel : Nat) :
    cluster.UntilFault 0
      ((cluster.healthy query (fetchSizeOf ceilQuotient searchQuery)).getDocumentsWithScrollApi
        ceilQuotient fuel searchQuery).sent
      (cluster.getDocumentsWithScrollApi ceilQuotient fuel searchQuery =
        (cluster.healthy query (fetchSizeOf ceilQuotient searchQuery)).getDocumentsWithScrollApi
          ceilQuotient fuel searchQuery)
      fun f => cluster.EndsAt f
        (cluster.getDocumentsWithScrollApi ceilQuotient fuel searchQuery) := by
  have hhealthy : (cluster.healthy query (fetchSizeOf ceilQuotient searchQuery)).clientError =
      none := hclient
  have hread : ((cluster.healthy query (fetchSizeOf ceilQuotient searchQuery)).reply 0).read =
      .ok (some (scrollChunk cluster.index query (fetchSizeOf ceilQuotient searchQuery) 0)) := rfl
  simp only [Cluster.getDocumentsWithScrollApi, hclient, hhealthy, hread]
  cases hpage : (cluster.reply 0).isPage with
  | true =>
    refine untilFault_of_page hpage ?_
    rw [hserves.read hpage, hread]
    dsimp only
    split
    · split
      · exact untilFault_of_done le_rfl rfl
      · exact scrollRest_until_fault hserves _ _ _ _ _
    · split
      · exact untilFault_of_done le_rfl rfl
      · exact scrollRest_until_fault hserves _ _ _ _ _
  | false =>
    refine untilFault_of_fault hpage ?_ ?_
    · split
      · split
        · exact Nat.one_pos
        · exact scrollRest_sent_pos _ _ _ _ _ _
      · split
        · exact Nat.one_pos
        · exact scrollRest_sent_pos _ _ _ _ _ _
    · cases hfirst : (cluster.reply 0).read with
      | error failure =>
        refine ⟨rfl, fun failure herror => ?_, fun hbad => ?_, fun hbad => ?_⟩
        · rw [hfirst] at herror
          cases herror
          rfl
        all_goals simp [hbad, Reply.read] at hfirst
      | ok resp =>
        obtain rfl : none = resp := by
          rw [Reply.badRequest_of_read hpage hfirst, Reply.read] at hfirst
          exact Except.ok.inj hfirst
        refine ⟨rfl, fun failure herror => ?_, fun _ _ => ⟨[], rfl⟩, fun _ hpos => ?_⟩
        · rw [hfirst] at herror
          cases herror
        · exact absurd hpos (Nat.lt_irrefl 0)

end Scroll

end Photon.Elasticsearch
