import Photon.Elasticsearch.SearchAfter
import Photon.Elasticsearch.Scroll

/-!
What `IncrementalSearch` leaves in the caller's query map. The map is passed by
reference, so every entry that a search sets or deletes is there for the caller and for
the next search with the same map, also after an error. The plain search leaves its
`size`, `from` and `sort`, the scroll its page size, and the search with a sort order the
cursor it ended at, behind which a second search starts.
-/

namespace Photon.Elasticsearch.QueryMap

open Photon.Lib

variable {δ σ : Type} [DecidableEq σ] {fetchAllDocs : Bool}

section Cursor

variable {index : Index δ σ}

end Cursor

section SearchAfter

variable {index : Index δ σ} {searchQuery : SearchQuery σ} {query : Query σ}

/-- The map has what a deep search with a sort order leaves. With a `_source` that is not read
that is all it sets; otherwise the search reads one page that is not full, or jumps and finds
no document behind the cursor. -/
structure SortedKept (index : Index δ σ) (searchQuery : SearchQuery σ) (query : Query σ) :
    Prop where
  sort : query.sort = some searchQuery.sort
  fromDoc : query.fromDoc = none
  size : query.source ≠ some .other → query.size = some (esMaxFetchSize : Int)
  short : query.source ≠ some .other → (index.behind query).length < esMaxFetchSize
  jump : query.source ≠ some .other → (esMaxFetchSize : Int) ≤ searchQuery.fromDoc →
    index.behind query = [] ∧
      (index.docs = [] ∨ query.source = some (.strings ["_id"]))

section

variable {fuel : Nat} (hsort : searchQuery.sort ≠ [])
  (hended : (getDocumentsWithSearchAfter index fuel searchQuery query).1 ≠ .error .outOfFuel)
  (hdeep : searchQuery.fetchAllDocs = true ∨
    (esMaxFetchSize : Int) < searchQuery.fromDoc + searchQuery.size)
include hsort hended hdeep

end

end SearchAfter

def Valid (searchQuery : SearchQuery σ) : Prop :=
  searchQuery.fetchAllDocs = false → 0 ≤ searchQuery.fromDoc ∧ 0 < searchQuery.size

def Deep (searchQuery : SearchQuery σ) : Prop :=
  searchQuery.fetchAllDocs = false →
    (esMaxFetchSize : Int) < wrapI64 (searchQuery.fromDoc + searchQuery.size)

instance (searchQuery : SearchQuery σ) : Decidable (Deep searchQuery) :=
  inferInstanceAs (Decidable (_ → _))

/-- The search is refused before it writes, or the map has the entries that the search
leaves. -/
def Kept (index : Index δ σ) (ceilQuotient : Int → Int → Int) (searchQuery : SearchQuery σ) :
    Prop :=
  Valid searchQuery → ∀ query, searchQuery.query = some query →
    (¬ Deep searchQuery → query.size = some searchQuery.size ∧
      query.fromDoc = some searchQuery.fromDoc ∧
      (searchQuery.sort ≠ [] → query.sort = some searchQuery.sort)) ∧
    (Deep searchQuery → searchQuery.sort = [] →
      query.size = some (fetchSizeOf ceilQuotient searchQuery.given) ∧ query.fromDoc = none) ∧
    (Deep searchQuery → searchQuery.sort ≠ [] → SortedKept index searchQuery.given query)

section Search

variable {index : Index δ σ} {ceilQuotient : Int → Int → Int} {fuel : Nat}
  {searchQuery : SearchQuery σ} {query : Query σ}

variable (hvalid : Valid searchQuery) (hquery : searchQuery.query = some query)
include hvalid hquery

variable (hdeep : Deep searchQuery)
include hdeep

end Search

section Rerun

variable {index : Index δ σ} {query : Query σ}

end Rerun

end Photon.Elasticsearch.QueryMap
