import Photon.Elasticsearch.Helper

/-!
Deep pagination with a sort order. Both loops move a cursor over the matching
documents; what lies behind the cursor is a suffix of the list, and one full page
takes the page off its front. The jump takes the last hit of a page without looking
whether the page has one, so it panics when the documents end before the last page
it jumps over.
-/

namespace Photon.Elasticsearch

open Photon.Lib

variable {δ σ : Type} [DecidableEq σ] {index : Index δ σ}

/-- The cursor of a document is followed by the rest of the list. -/
theorem after_some (hunique : index.Distinct) {front back : List δ} {doc : δ}
    (hdocs : index.docs = front ++ doc :: back) :
    index.after (some (index.sortOf doc)) = back := by
  have hfront : ∀ d ∈ front, decide (index.sortOf d ≠ index.sortOf doc) = true := by
    intro d hd
    rw [Index.Distinct, hdocs, List.map_append, List.nodup_append] at hunique
    have hne := hunique.2.2 (index.sortOf d) (List.mem_map_of_mem hd) (index.sortOf doc) (by simp)
    simpa using hne
  rw [Index.after, hdocs, List.dropWhile_append_of_pos hfront, List.dropWhile_cons]
  simp

theorem after_suffix (cursor : Option σ) : index.after cursor <:+ index.docs := by
  cases cursor with
  | none => exact List.suffix_rfl
  | some tuple => exact (List.tail_suffix _).trans (List.dropWhile_suffix _)

/-- The last hit of a page that has one moves the cursor to the end of the page. -/
theorem lastOf_page (hunique : index.Distinct) {cursor : Option σ}
    {page : Nat} (hpage : (index.after cursor).take page ≠ []) (source : Option Source) :
    ∃ hit : Hit δ, lastOf (((index.after cursor).take page).map fun doc => ⟨doc, source⟩) =
        .ok hit ∧
      index.after (some (index.sortOf hit.doc)) = (index.after cursor).drop page := by
  obtain ⟨init, doc, hlast⟩ := List.eq_nil_or_concat' _ |>.resolve_left hpage
  obtain ⟨front, hdocs⟩ := after_suffix cursor
  refine ⟨⟨doc, source⟩, ?_, ?_⟩
  · rw [hlast, List.map_append]
    simp [lastOf]
  · have hsplit : index.docs = (front ++ init) ++ doc :: (index.after cursor).drop page := by
      rw [← hdocs]
      conv_lhs => rw [← List.take_append_drop page (index.after cursor), hlast]
      simp
    exact after_some hunique hsplit

/-- The reply to a query without `from`. -/
theorem search_hits (index : Index δ σ) (query : Query σ) (hfrom : query.fromDoc = none)
    {size : Nat} (hsize : query.size = some (size : Int)) :
    (searchRequestWithQuery index query).hits =
      ((index.behind query).take size).map fun doc => ⟨doc, query.source⟩ := by
  simp [searchRequestWithQuery, hfrom, hsize]

def Reaches (pages documents : Nat) : Prop :=
  pages = 0 ∨ esMaxFetchSize * (pages - 1) < documents

theorem reaches_succ {pages documents : Nat} (h : 0 < documents) :
    Reaches (pages + 1) documents ↔ Reaches pages (documents - esMaxFetchSize) := by
  have hpos : 0 < esMaxFetchSize := by decide
  unfold Reaches
  cases pages with
  | zero => simp [h]
  | succ pages =>
    have hmul : esMaxFetchSize * (pages + 1) = esMaxFetchSize * pages + esMaxFetchSize := by ring
    simp only [Nat.add_sub_cancel, Nat.succ_ne_zero, false_or, hmul]
    omega

/-- The jump over `pages` pages, for enough fuel. -/
theorem jumpLoop_eq (hunique : index.Distinct) (hdocs : index.docs ≠ [])
    {left : Nat} (hleft : left < esMaxFetchSize) (pages fuel : Nat) (hfuel : pages < fuel)
    (query : Query σ) (hfrom : query.fromDoc = none)
    (hsize : query.size = some (esMaxFetchSize : Int)) :
    (Reaches pages (index.behind query).length →
      ∃ cursor, jumpLoop index fuel ((esMaxFetchSize * pages + left : Nat) : Int) query =
          (.ok ((left : Int), false), { query with searchAfter := cursor }) ∧
        index.after cursor = (index.behind query).drop (esMaxFetchSize * pages)) ∧
    (¬ Reaches pages (index.behind query).length →
      ∃ jumped, jumpLoop index fuel ((esMaxFetchSize * pages + left : Nat) : Int) query =
        (.error .panic, jumped)) := by
  induction pages generalizing fuel query with
  | zero =>
    obtain ⟨fuel, rfl⟩ := Nat.exists_eq_add_of_lt hfuel
    have hstop : ¬ (esMaxFetchSize : Int) ≤ ((esMaxFetchSize * 0 + left : Nat) : Int) := by
      rw [Nat.mul_zero, Nat.zero_add]
      omega
    refine ⟨fun _ => ⟨query.searchAfter, ?_, by simp⟩, fun h => absurd (.inl rfl) h⟩
    rw [jumpLoop, if_neg hstop]
    simp
  | succ pages ih =>
    obtain ⟨fuel, rfl⟩ := Nat.exists_eq_add_of_lt hfuel
    have hmore : (esMaxFetchSize : Int) ≤ ((esMaxFetchSize * (pages + 1) + left : Nat) : Int) := by
      rw [Nat.mul_succ]
      omega
    have hnext : ((esMaxFetchSize * (pages + 1) + left : Nat) : Int) - esMaxFetchSize =
        ((esMaxFetchSize * pages + left : Nat) : Int) := by
      rw [Nat.mul_succ]
      omega
    have htotal : ¬ (searchRequestWithQuery index query).total = 0 := by
      simpa [searchRequestWithQuery] using hdocs
    have hhits := search_hits index query hfrom hsize
    by_cases hrest : index.behind query = []
    · rw [hrest] at hhits ⊢
      refine ⟨fun hreaches => ?_, fun _ => ?_⟩
      · rcases hreaches with h | h
        · cases h
        · exact absurd h (Nat.not_lt_zero _)
      · rw [jumpLoop, if_pos hmore, if_neg htotal, hhits]
        exact ⟨query, rfl⟩
    · have hpage : (index.behind query).take esMaxFetchSize ≠ [] := by
        simpa [esMaxFetchSize] using hrest
      obtain ⟨hit, hlast, hcursor⟩ := lastOf_page hunique hpage query.source
      have hstep : jumpLoop index (pages + 1 + fuel + 1)
          ((esMaxFetchSize * (pages + 1) + left : Nat) : Int) query =
          jumpLoop index (pages + 1 + fuel) ((esMaxFetchSize * pages + left : Nat) : Int)
            { query with searchAfter := some (index.sortOf hit.doc) } := by
        rw [jumpLoop, if_pos hmore, if_neg htotal, hhits, hlast, ← hnext]
      obtain ⟨hok, hpanic⟩ := ih (pages + 1 + fuel) (by omega)
        { query with searchAfter := some (index.sortOf hit.doc) } hfrom hsize
      simp only [hcursor, List.length_drop] at hok hpanic
      rw [hstep, reaches_succ (List.length_pos_iff.mpr hrest)]
      refine ⟨fun hreaches => ?_, hpanic⟩
      obtain ⟨cursor, hjump, hafter⟩ := hok hreaches
      exact ⟨cursor, hjump, by rw [hafter, List.drop_drop, Nat.mul_succ, Nat.add_comm]⟩

/-- One turn of the collecting loop. A short page ends the loop, a full one moves the
cursor to its end. -/
theorem collectLoop_step (hunique : index.Distinct) {fetchAllDocs : Bool}
    {total : Int} (hgo : fetchAllDocs = true ∨ 0 < total) {batch : Nat}
    (hbatch : (if fetchAllDocs = false ∧
      total < (esMaxFetchSize : Int) then total else (esMaxFetchSize : Int)) = (batch : Int))
    (hpos : 0 < batch) {start : Nat} (hstart : start ≤ batch) {query : Query σ}
    (hfrom : query.fromDoc = none) (fuel : Nat) (docs : List (Hit δ)) :
    ((index.behind query).length < batch →
      collectLoop index fetchAllDocs (fuel + 1) query start total docs =
        (.ok (docs ++ ((index.behind query).drop start).map fun doc =>
          ⟨doc, query.source⟩), { query with size := some (batch : Int) })) ∧
    (batch ≤ (index.behind query).length → ∃ tuple,
      index.after (some tuple) = (index.behind query).drop batch ∧
      collectLoop index fetchAllDocs (fuel + 1) query start total docs =
        collectLoop index fetchAllDocs fuel
          { query with size := some (batch : Int), searchAfter := some tuple } 0
          (if fetchAllDocs then total else total - batch)
          (docs ++ (((index.behind query).take batch).drop start).map fun doc =>
            ⟨doc, query.source⟩)) := by
  have hhits := search_hits index { query with size := some (batch : Int) } hfrom rfl
  constructor
  · intro hshort
    have hall : (index.behind query).take batch = index.behind query :=
      List.take_of_length_le hshort.le
    rw [hall] at hhits
    rw [collectLoop, if_pos hgo]
    simp only [hbatch]
    rw [hhits, List.length_map, if_pos (by omega)]
    split
    · rename_i hlong
      rw [sliceFrom_ok (by rw [List.length_map]; omega), ← List.map_drop]
      rfl
    · rename_i hnone
      rw [List.drop_eq_nil_of_le (by omega), List.map_nil, List.append_nil]
  · intro hfull
    have hpage : (index.behind query).take batch ≠ [] := by
      intro hnil
      rw [List.take_eq_nil_iff] at hnil
      rcases hnil with h | h
      · omega
      · rw [h] at hfull
        simp at hfull
        omega
    obtain ⟨hit, hlast, hcursor⟩ := lastOf_page hunique hpage query.source
    have hlength : (((index.behind query).take batch).map fun doc =>
        (⟨doc, query.source⟩ : Hit δ)).length = batch := by
      rw [List.length_map, List.length_take, min_eq_left hfull]
    refine ⟨index.sortOf hit.doc, hcursor, ?_⟩
    rw [collectLoop, if_pos hgo]
    simp only [hbatch]
    rw [hhits, if_neg (by rw [hlength]; omega), hlast,
      sliceFrom_ok (by rw [hlength]; exact hstart), ← List.map_drop]

/-- The loop collects the window that was asked for. Without a limit that is any window which
reaches the end of the documents. -/
theorem collectLoop_window (hunique : index.Distinct) {fetchAllDocs : Bool}
    (fuel : Nat) (query : Query σ) (hfrom : query.fromDoc = none)
    (hfuel : (index.behind query).length < fuel) {start : Nat}
    (hstart : start < esMaxFetchSize) {size : Nat} {total : Int}
    (htotal : fetchAllDocs = false → total = ((start + size : Nat) : Int))
    (hall : fetchAllDocs = true → (index.behind query).length ≤ start + size)
    (docs : List (Hit δ)) :
    (collectLoop index fetchAllDocs fuel query start total docs).1 =
      .ok (docs ++ (window (index.behind query) start size).map fun doc =>
        ⟨doc, query.source⟩) := by
  induction fuel generalizing query start size total docs with
  | zero => exact absurd hfuel (Nat.not_lt_zero _)
  | succ fuel ih =>
    by_cases hgo : fetchAllDocs = true ∨ 0 < total
    · obtain ⟨batch, hbatch, hpos, hfirst, hless⟩ : ∃ batch : Nat,
          (if fetchAllDocs = false ∧ total < (esMaxFetchSize : Int) then total
            else (esMaxFetchSize : Int)) = batch ∧ 0 < batch ∧ start ≤ batch ∧
          (fetchAllDocs = false → batch ≤ start + size) := by
        cases fetchAllDocs with
        | true => exact ⟨esMaxFetchSize, rfl, by omega, by omega, fun h => by cases h⟩
        | false =>
          have hsum := htotal rfl
          have hpositive := hgo.resolve_left Bool.false_ne_true
          refine ⟨min (start + size) esMaxFetchSize, ?_, by omega, by omega, fun _ => by omega⟩
          simp only [true_and]
          split <;> omega
      obtain ⟨hshort, hfull⟩ :=
        collectLoop_step hunique hgo hbatch hpos hfirst hfrom fuel docs
      by_cases hlength : (index.behind query).length < batch
      · have hend : (index.behind query).length ≤ start + size := by
          cases fetchAllDocs with
          | true => exact hall rfl
          | false => exact hlength.le.trans (hless rfl)
        rw [hshort hlength, window_of_length_le hend]
      · have hpage : batch ≤ start + size := by
          cases fetchAllDocs with
          | true => exact (not_lt.mp hlength).trans (hall rfl)
          | false => exact hless rfl
        obtain ⟨tuple, hafter, hstep⟩ := hfull (not_lt.mp hlength)
        have hleft : fetchAllDocs = false → (if fetchAllDocs = true then total else total - batch) =
            ((0 + (start + size - batch) : Nat) : Int) := by
          intro hbounded
          rw [hbounded, if_neg Bool.false_ne_true, htotal hbounded]
          omega
        rw [hstep, ← Nat.cast_zero,
          ih { query with size := some (batch : Int), searchAfter := some tuple } hfrom _
            (by decide) hleft]
        · simp only [Index.behind]
          rw [hafter, List.append_assoc, ← List.map_append, ← window_page hfirst hpage]
        · intro heverything
          have := hall heverything
          rw [Index.behind, hafter, List.length_drop]
          omega
        · rw [Index.behind, hafter, List.length_drop]
          omega
    · obtain ⟨hbounded, hnone⟩ := not_or.mp hgo
      have hsum := htotal (Bool.eq_false_of_not_eq_true hbounded)
      have hsize : size = 0 := by omega
      rw [collectLoop, if_neg hgo]
      simp [window, hsize]

section Search

variable {index : Index δ σ} {query : Query σ}

/-- A window that starts in the first page needs no jump. -/
theorem jump_none (index : Index δ σ) (query : Query σ) (hsource : query.source ≠ some .other)
    {left : Nat} (hleft : left < esMaxFetchSize) (fuel : Nat) :
    jumpToActiveBatchOfDocuments index (fuel + 1) left query =
      (.ok ((left : Int), false), query) := by
  have hstop : ¬ (esMaxFetchSize : Int) ≤ (left : Int) := by omega
  rw [jumpToActiveBatchOfDocuments, if_neg hsource]
  simp only [jumpLoop, if_neg hstop]

/-- An empty reply to the first jump is seen by its total. -/
theorem jump_empty (query : Query σ) (hsource : query.source ≠ some .other)
    (hdocs : index.docs = []) {fromDoc : Nat} (hfrom : esMaxFetchSize ≤ fromDoc) (fuel : Nat) :
    ∃ jumped, jumpToActiveBatchOfDocuments index (fuel + 1) fromDoc query =
      (.ok ((fromDoc : Int), true), jumped) := by
  have hmore : (esMaxFetchSize : Int) ≤ (fromDoc : Int) := by omega
  rw [jumpToActiveBatchOfDocuments, if_neg hsource]
  simp only [jumpLoop, if_pos hmore]
  rw [if_pos (by simp [searchRequestWithQuery, hdocs])]
  exact ⟨_, rfl⟩

theorem jump_pages (query : Query σ) (hunique : index.Distinct)
    (hsource : query.source ≠ some .other) (hfresh : query.searchAfter = none)
    (hfrom : query.fromDoc = none) (hdocs : index.docs ≠ []) {left pages fuel : Nat}
    (hleft : left < esMaxFetchSize) (hpages : 0 < pages) (hfuel : pages < fuel) :
    (Reaches pages index.docs.length →
      ∃ jumped : Query σ, jumpToActiveBatchOfDocuments index fuel
          ((esMaxFetchSize * pages + left : Nat) : Int) query =
            (.ok ((left : Int), false), jumped) ∧
        jumped.source = query.source ∧ jumped.fromDoc = none ∧
        index.behind jumped = index.docs.drop (esMaxFetchSize * pages)) ∧
    (¬ Reaches pages index.docs.length →
      ∃ jumped, jumpToActiveBatchOfDocuments index fuel
        ((esMaxFetchSize * pages + left : Nat) : Int) query = (.error .panic, jumped)) := by
  have hmore : (esMaxFetchSize : Int) ≤ ((esMaxFetchSize * pages + left : Nat) : Int) := by
    have := Nat.le_mul_of_pos_right esMaxFetchSize hpages
    omega
  let entered : Query σ :=
    { query with source := some (.strings ["_id"]), size := some (esMaxFetchSize : Int) }
  have hafter : index.behind entered = index.docs := by
    simp only [entered, hfresh]
    rfl
  obtain ⟨hok, hpanic⟩ := jumpLoop_eq hunique hdocs hleft pages fuel hfuel entered hfrom rfl
  rw [hafter] at hok hpanic
  rw [jumpToActiveBatchOfDocuments, if_neg hsource]
  simp only [if_pos hmore]
  constructor
  · intro hreaches
    obtain ⟨cursor, hjump, hcursor⟩ := hok hreaches
    refine ⟨{ entered with searchAfter := cursor, source := query.source }, ?_, rfl, hfrom, hcursor⟩
    rw [hjump]
  · intro hreaches
    obtain ⟨jumped, hjump⟩ := hpanic hreaches
    exact ⟨jumped, by rw [hjump]⟩

variable {searchQuery : SearchQuery σ}

/-- A search with a sort order that starts `left` documents behind `pages` full pages, for
enough fuel. -/
theorem searchAfter_window (hunique : index.Distinct)
    (hsource : query.source ≠ some .other) (hfresh : query.searchAfter = none)
    (hsort : searchQuery.sort ≠ []) {pages left size : Nat} (hleft : left < esMaxFetchSize)
    (hfrom : searchQuery.fromDoc = ((esMaxFetchSize * pages + left : Nat) : Int))
    (hsize : searchQuery.fetchAllDocs = false → searchQuery.size = size)
    (hall : searchQuery.fetchAllDocs = true → index.docs.length ≤ size) {fuel : Nat}
    (hfuel : pages + index.docs.length < fuel) :
    (index.docs = [] ∨ Reaches pages index.docs.length →
      (getDocumentsWithSearchAfter index fuel searchQuery query).1 =
        .ok ((window index.docs (esMaxFetchSize * pages + left) size).map fun doc =>
          ⟨doc, query.source⟩)) ∧
    (¬ (index.docs = [] ∨ Reaches pages index.docs.length) →
      (getDocumentsWithSearchAfter index fuel searchQuery query).1 = .error .panic) := by
  obtain ⟨fuel, rfl⟩ : ∃ more, fuel = more + 1 := ⟨fuel - 1, by omega⟩
  let sorted : Query σ := { query with sort := some searchQuery.sort, fromDoc := none }
  have hafter : index.behind sorted = index.docs := by
    simp only [sorted, hfresh]
    rfl
  have htotal : searchQuery.fetchAllDocs = false →
      (left : Int) + searchQuery.size = ((left + size : Nat) : Int) := by
    intro hbounded
    rw [hsize hbounded, Nat.cast_add]
  simp only [getDocumentsWithSearchAfter, if_neg hsort, hfrom]
  rcases Nat.eq_zero_or_pos pages with rfl | hpages
  · refine ⟨fun _ => ?_, fun h => absurd (.inr (.inl rfl)) h⟩
    have hcollect := collectLoop_window hunique (fuel + 1) sorted rfl
      (by rw [hafter]; omega) hleft htotal (fun h => by rw [hafter]; have := hall h; omega) []
    rw [hafter] at hcollect
    rw [Nat.mul_zero, Nat.zero_add, jump_none index sorted hsource hleft fuel]
    exact hcollect
  · by_cases hdocs : index.docs = []
    · have hmore : esMaxFetchSize ≤ esMaxFetchSize * pages + left :=
        (Nat.le_mul_of_pos_right esMaxFetchSize hpages).trans (Nat.le_add_right _ _)
      obtain ⟨jumped, hjump⟩ := jump_empty sorted hsource hdocs hmore fuel
      refine ⟨fun _ => ?_, fun h => absurd (.inl hdocs) h⟩
      rw [hjump]
      simp only [hdocs, window, List.drop_nil, List.take_nil]
      rfl
    · obtain ⟨hok, hpanic⟩ := jump_pages sorted hunique hsource hfresh rfl hdocs hleft hpages
        (show pages < fuel + 1 by omega)
      refine ⟨fun hreaches => ?_, fun hreaches => ?_⟩
      · obtain ⟨jumped, hjump, hjumpedSource, hjumpedFrom, hjumped⟩ :=
          hok (hreaches.resolve_left hdocs)
        have hcollect := collectLoop_window hunique (fuel + 1) jumped hjumpedFrom
          (by rw [hjumped, List.length_drop]; omega) hleft htotal
          (fun h => by rw [hjumped, List.length_drop]; have := hall h; omega) []
        rw [hjumped, hjumpedSource] at hcollect
        rw [hjump, window_skip (Nat.le_add_right _ left), Nat.add_sub_cancel_left]
        exact hcollect
      · obtain ⟨jumped, hjump⟩ := hpanic fun h => hreaches (.inr h)
        rw [hjump]
        rfl

end Search

/-- A deep search with a sort order returns the requested documents, with the `_source`
it was given, exactly when there are none, or when each page it jumps over has one. -/
theorem sorted_search_iff (index : Index δ σ) (hunique : index.Distinct)
    (searchQuery : SearchQuery σ) (query : Query σ) (hquery : searchQuery.query = some query)
    (hsource : query.source ≠ some .other) (hfresh : query.searchAfter = none)
    (hsort : searchQuery.sort ≠ [])
    (hrange : searchQuery.fetchAllDocs = false → 0 ≤ searchQuery.fromDoc ∧ 0 < searchQuery.size ∧
      (esMaxFetchSize : Int) < searchQuery.fromDoc + searchQuery.size ∧
      searchQuery.fromDoc + searchQuery.size < 2 ^ 62) :
    (∃ bound, ∀ fuel, bound ≤ fuel → incrementalSearch index fuel searchQuery =
      .ok (response (requested index searchQuery) query.source)) ↔
    (searchQuery.fetchAllDocs = true ∨ index.docs = [] ∨
      Reaches (searchQuery.fromDoc.toNat / esMaxFetchSize) index.docs.length) := by
  have hdeep : searchQuery.Bulk := bulk_of_lt fun hall => by
    have := hrange hall
    omega
  simp only [incrementalSearch, search_sorted hquery hdeep hsort]
  cases hall : searchQuery.fetchAllDocs with
  | true =>
    refine ⟨fun _ => .inl rfl, fun _ => ⟨index.docs.length + 1, fun fuel hfuel => ?_⟩⟩
    have hspec := searchAfter_window hunique hsource hfresh
      (show ({ searchQuery with fromDoc := 0, size := 0 } : SearchQuery σ).sort ≠ [] from hsort)
      (by decide) (show (0 : Int) = ((esMaxFetchSize * 0 + 0 : Nat) : Int) from rfl)
      (fun h => by rw [hall] at h; cases h) (fun _ => le_rfl)
      (show 0 + index.docs.length < fuel by omega)
    have hdocs := hspec.1 (.inr (.inl rfl))
    rw [window_of_length_le (by omega), Nat.mul_zero, List.drop_zero] at hdocs
    rw [requested, if_pos hall, given_of_all _ hall]
    exact bulk_response hdocs
  | false =>
    obtain ⟨hfrom, hsize, -, -⟩ := hrange hall
    obtain ⟨start, hstart⟩ := Int.eq_ofNat_of_zero_le hfrom
    obtain ⟨size, hsize'⟩ := Int.eq_ofNat_of_zero_le hsize.le
    have hleft : start % esMaxFetchSize < esMaxFetchSize := Nat.mod_lt _ (by decide)
    have hsplit : esMaxFetchSize * (start / esMaxFetchSize) + start % esMaxFetchSize = start :=
      Nat.div_add_mod start esMaxFetchSize
    have hspec : ∀ fuel, start / esMaxFetchSize + index.docs.length < fuel → _ := fun fuel hfuel =>
      searchAfter_window hunique hsource hfresh hsort hleft (by rw [hstart, hsplit])
        (fun _ => hsize') (fun h => by rw [hall] at h; cases h) hfuel
    rw [hsplit] at hspec
    simp only [given_of_bounded _ hall, Bool.false_eq_true, false_or, hstart, Int.toNat_natCast,
      requested_window hall hstart hsize']
    constructor
    · rintro ⟨bound, hbound⟩
      by_contra hreaches
      have hfuel : start / esMaxFetchSize + index.docs.length <
          bound + (start / esMaxFetchSize + index.docs.length) + 1 := by omega
      have hok := hbound (bound + (start / esMaxFetchSize + index.docs.length) + 1)
        (Nat.le_succ_of_le (Nat.le_add_right _ _))
      rw [(hspec _ hfuel).2 hreaches] at hok
      cases hok
    · intro hreaches
      refine ⟨start / esMaxFetchSize + index.docs.length + 1, fun fuel hfuel => ?_⟩
      exact bulk_response ((hspec fuel (by omega)).1 hreaches)

def threeDocs : Index Nat Nat := .numbered [1, 2, 3]

def freshQuery : Query Nat := ⟨none, none, none, none, some (.strings ["name"])⟩

theorem sorted_search_first_page :
    ∃ bound, ∀ fuel, bound ≤ fuel →
      incrementalSearch threeDocs fuel ⟨some freshQuery, ["id"], 1, 10000, false⟩ =
        .ok (response [2, 3] (some (.strings ["name"]))) := by
  have h := (sorted_search_iff threeDocs (by decide) ⟨some freshQuery, ["id"], 1, 10000, false⟩
    freshQuery rfl (by decide) rfl (by decide) (fun _ => by decide)).mpr
    (.inr (.inr (.inl (by decide))))
  exact h

/-- The third page of three documents: the second jump finds an empty page and takes
its last hit. -/
theorem sorted_search_third_page_panics :
    ∃ turns, ∀ fuel, turns ≤ fuel →
      incrementalSearch threeDocs fuel ⟨some freshQuery, ["id"], 20000, 1, false⟩ =
        .error .panic := by
  refine ⟨2, fun fuel hfuel => ?_⟩
  obtain ⟨more, rfl⟩ := Nat.exists_eq_add_of_le' hfuel
  rfl

end Photon.Elasticsearch
