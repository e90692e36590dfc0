import Mathlib.Data.List.AList
import Mathlib.Tactic

/-!
The total weight of a finite map. Accounting code keeps a running counter next
to a map and adjusts it by the weight of each entry that comes or goes; these
lemmas give the total after every map operation, so the counter can be compared
with it.
-/

namespace Photon.Lib

variable {K V : Type}

def total (weight : V → Int) (m : AList (fun _ : K => V)) : Int :=
  (m.entries.map (fun entry => weight entry.2)).sum

variable [DecidableEq K] (weight : V → Int) (m : AList (fun _ : K => V))

/-- Entry lists without duplicate keys split a total at any present key. -/
private theorem sum_kerase (entries : List (Sigma fun _ : K => V)) (key : K) (value : V)
    (hmem : value ∈ entries.dlookup key) :
    ((entries.kerase key).map (fun entry => weight entry.2)).sum =
      (entries.map (fun entry => weight entry.2)).sum - weight value := by
  induction entries with
  | nil => simp at hmem
  | cons entry rest ih =>
    obtain ⟨name, stored⟩ := entry
    by_cases hkey : key = name
    · subst hkey
      rw [List.dlookup_cons_eq] at hmem
      obtain rfl : stored = value := by simpa using hmem
      have herase : (⟨key, stored⟩ :: rest : List (Sigma fun _ : K => V)).kerase key = rest :=
        List.kerase_cons_eq rfl
      rw [herase]
      simp
    · rw [List.dlookup_cons_ne _ _ (by simpa using hkey)] at hmem
      rw [List.kerase_cons_ne (by simpa using hkey)]
      simp only [List.map_cons, List.sum_cons]
      rw [ih hmem]
      ring

theorem total_erase_of_lookup {key : K} {value : V} (hlookup : m.lookup key = some value) :
    total weight (m.erase key) = total weight m - weight value :=
  sum_kerase weight m.entries key value hlookup

theorem erase_of_lookup_none {key : K} (hlookup : m.lookup key = none) : m.erase key = m := by
  apply AList.ext
  exact List.kerase_of_notMem_keys (AList.lookup_eq_none.mp hlookup)

theorem total_insert (key : K) (value : V) :
    total weight (m.insert key value) = weight value + total weight (m.erase key) := by
  unfold total
  rw [AList.entries_insert, List.map_cons, List.sum_cons]
  rfl

theorem total_nonneg (hweight : ∀ key value, m.lookup key = some value → 0 ≤ weight value) :
    0 ≤ total weight m := by
  apply List.sum_nonneg
  intro w hw
  obtain ⟨entry, hentry, rfl⟩ := List.mem_map.mp hw
  exact hweight entry.1 entry.2 (AList.mem_lookup_iff.mpr hentry)

/-- One entry weighs at most as much as the whole map. -/
theorem weight_le_total (hweight : ∀ key value, m.lookup key = some value → 0 ≤ weight value)
    {key : K} {value : V} (hlookup : m.lookup key = some value) :
    weight value ≤ total weight m := by
  have hrest : 0 ≤ total weight (m.erase key) := by
    apply total_nonneg
    intro name stored hstored
    by_cases hname : name = key
    · subst hname
      rw [AList.lookup_erase] at hstored
      cases hstored
    · rw [AList.lookup_erase_ne hname] at hstored
      exact hweight name stored hstored
  rw [total_erase_of_lookup weight m hlookup] at hrest
  omega

/-- The sum of the weights stored at some keys; an absent key weighs nothing. -/
def totalOn (weight : V → Int) (m : AList (fun _ : K => V)) (keys : List K) : Int :=
  (keys.map fun key => (m.lookup key).elim 0 weight).sum

@[simp]
theorem totalOn_nil : totalOn weight m [] = 0 :=
  rfl

@[simp]
theorem totalOn_cons (key : K) (keys : List K) :
    totalOn weight m (key :: keys) = (m.lookup key).elim 0 weight + totalOn weight m keys :=
  List.sum_cons

theorem totalOn_append (first second : List K) :
    totalOn weight m (first ++ second) = totalOn weight m first + totalOn weight m second := by
  rw [totalOn, List.map_append, List.sum_append]
  rfl

theorem totalOn_perm {keys others : List K} (h : keys.Perm others) :
    totalOn weight m keys = totalOn weight m others :=
  (h.map _).sum_eq

theorem totalOn_congr {m other : AList (fun _ : K => V)} {keys : List K}
    (h : ∀ key ∈ keys, m.lookup key = other.lookup key) :
    totalOn weight m keys = totalOn weight other keys := by
  refine congrArg List.sum (List.map_congr_left fun key hkey => ?_)
  rw [h key hkey]

theorem totalOn_nonneg {m : AList (fun _ : K => V)}
    (hweight : ∀ key value, m.lookup key = some value → 0 ≤ weight value) (keys : List K) :
    0 ≤ totalOn weight m keys := by
  apply List.sum_nonneg
  intro w hw
  obtain ⟨key, -, rfl⟩ := List.mem_map.mp hw
  cases hlookup : m.lookup key with
  | none => exact le_rfl
  | some value => exact hweight key value hlookup

/-- The total is the sum over the keys, in whatever order they are listed. -/
theorem total_eq_totalOn {keys : List K} (h : keys.Perm m.keys) :
    total weight m = totalOn weight m keys := by
  rw [totalOn_perm weight m h]
  change _ = ((m.entries.map Sigma.fst).map fun key => (m.lookup key).elim 0 weight).sum
  rw [List.map_map]
  refine congrArg List.sum (List.map_congr_left fun entry hentry => ?_)
  have hlookup : m.lookup entry.1 = some entry.2 := AList.mem_lookup_iff.mpr hentry
  rw [Function.comp_apply, hlookup]
  rfl

end Photon.Lib
