import Photon.Caching.ServerCaches

/-!
`MultiGet` of the Memcached cache. It asks the server for all physical keys at once and
reads the caller's keys back from the answer, as what follows the second colon. That is
the caller's key only if neither the namespace nor the collection holds a colon.
-/

namespace Photon.Caching.MemcachedCache

open Photon.Lib Photon.FlashDb

/-- The last part of `strings.SplitN(k, ":", 3)`. -/
def originalKey (physical : String) : String :=
  String.ofList ((splitN ':' 3 physical.toList).getLastD [])

/-- `items` are visited in the order of the list. -/
def multiGetContext (getMulti : List String → Except ClientError (List (String × Item)))
    (ctx : Option String) (ns coll : String) (keys : List String) :
    Except Failure (GoMap String) :=
  match ctx with
  | some e => .error (.context e)
  | none =>
    match getMulti (keys.map (formatKey ns coll)) with
    | .error e => .error (.client e)
    | .ok items =>
      .ok (items.foldl (fun result (k, v) => result.insert (originalKey k) v.value) ∅)

/-- Exactly the items stored under the given keys, once each, in some order. -/
structure Fetched (server : Server) (physical : List String) (items : List (String × Item)) :
    Prop where
  nodup : (items.map Prod.fst).Nodup
  mem_iff : ∀ key item, (key, item) ∈ items ↔ key ∈ physical ∧ server key = some item

section Recovery

/-- The text before the key, cut at its first two colons. -/
theorem exists_cut (ns coll : List Char) :
    ∃ first second extra, ':' ∉ first ∧ ':' ∉ second ∧
      (extra = [] ↔ ':' ∉ ns ∧ ':' ∉ coll) ∧
      ∀ key, ns ++ ':' :: (coll ++ ':' :: key) =
        first ++ ':' :: (second ++ ':' :: (extra ++ key)) := by
  by_cases hns : ':' ∈ ns
  · obtain ⟨first, after, rfl, hfirst⟩ := List.eq_append_cons_of_mem hns
    by_cases hafter : ':' ∈ after
    · obtain ⟨second, more, rfl, hsecond⟩ := List.eq_append_cons_of_mem hafter
      exact ⟨first, second, more ++ ':' :: (coll ++ [':']), hfirst, hsecond, by simp, by simp⟩
    · exact ⟨first, after, coll ++ [':'], hfirst, hafter, by simp, by simp⟩
  · by_cases hcoll : ':' ∈ coll
    · obtain ⟨second, more, rfl, hsecond⟩ := List.eq_append_cons_of_mem hcoll
      exact ⟨ns, second, more ++ [':'], hns, hsecond, by simp, by simp⟩
    · exact ⟨ns, coll, [], hns, hcoll, by simp [hns, hcoll], by simp⟩

/-- Every recovered key is the caller's key behind one fixed text, which is empty exactly
if the names hold no colon. -/
theorem originalKey_formatKey (ns coll : String) :
    ∃ extra : List Char, (extra = [] ↔ ':' ∉ ns.toList ∧ ':' ∉ coll.toList) ∧
      ∀ key, originalKey (formatKey ns coll key) = String.ofList (extra ++ key.toList) := by
  obtain ⟨first, second, extra, hfirst, hsecond, hextra, hcut⟩ := exists_cut ns.toList coll.toList
  refine ⟨extra, hextra, fun key => ?_⟩
  rw [originalKey, formatKey, joinKey_toList, hcut, splitN_append hfirst, splitN_append hsecond]
  rfl

end Recovery

section Result

/-- The map that a loop of assignments to different keys leaves. -/
theorem lookup_foldl_insert {ι V : Type} (key : ι → String) (value : ι → V) {items : List ι}
    (hnodup : (items.map key).Nodup) (result : GoMap V) (k : String) (v : V) :
    (items.foldl (fun result i => result.insert (key i) (value i)) result).lookup k = some v ↔
      (∃ i ∈ items, key i = k ∧ value i = v) ∨
        k ∉ items.map key ∧ result.lookup k = some v := by
  induction items generalizing result with
  | nil => simp
  | cons i items ih =>
    obtain ⟨hfresh, hnodup⟩ := List.nodup_cons.mp hnodup
    rw [List.foldl_cons, ih hnodup]
    by_cases hk : k = key i
    · subst hk
      have hnone : ¬ ∃ j ∈ items, key j = key i ∧ value j = v := by
        rintro ⟨j, hj, heq, -⟩
        exact hfresh (heq ▸ List.mem_map_of_mem hj)
      simp [hfresh, hnone]
    · rw [AList.lookup_insert_ne hk]
      simp [hk, Ne.symm hk]

variable {server : Server} {ns coll : String} {keys : List String}
  {getMulti : List String → Except ClientError (List (String × Item))}

theorem getContext_eq_some_iff {key value : String} :
    getContext server none ⟨ns, coll, key⟩ = .ok (some value) ↔
      ∃ item, server (formatKey ns coll key) = some item ∧ item.value = value := by
  simp only [getContext, serverGet]
  cases server (formatKey ns coll key) <;> simp

/-- What `MultiGet` returns: each found key, behind the text that comes with it. -/
theorem multiGetContext_lookup {items : List (String × Item)}
    (hitems : getMulti (keys.map (formatKey ns coll)) = .ok items)
    (hfetched : Fetched server (keys.map (formatKey ns coll)) items) {extra : List Char}
    (hextra : ∀ key, originalKey (formatKey ns coll key) = String.ofList (extra ++ key.toList)) :
    ∃ result, multiGetContext getMulti none ns coll keys = .ok result ∧
      ∀ k value, result.lookup k = some value ↔
        ∃ key ∈ keys, k = String.ofList (extra ++ key.toList) ∧
          ∃ item, server (formatKey ns coll key) = some item ∧ item.value = value := by
  have hinj : ∀ first ∈ items.map Prod.fst, ∀ second ∈ items.map Prod.fst,
      originalKey first = originalKey second → first = second := by
    intro first hfirst second hsecond heq
    obtain ⟨⟨_, item⟩, hmem, rfl⟩ := List.mem_map.mp hfirst
    obtain ⟨⟨_, item'⟩, hmem', rfl⟩ := List.mem_map.mp hsecond
    obtain ⟨key, -, rfl⟩ := List.mem_map.mp ((hfetched.mem_iff _ _).mp hmem).1
    obtain ⟨key', -, rfl⟩ := List.mem_map.mp ((hfetched.mem_iff _ _).mp hmem').1
    rw [hextra, hextra, String.ofList_inj, List.append_cancel_left_eq, String.toList_inj] at heq
    rw [heq]
  have hnodup : (items.map fun item => originalKey item.1).Nodup := by
    have hmap := hfetched.nodup.map_on hinj
    rwa [List.map_map] at hmap
  refine ⟨items.foldl (fun result (k, v) => result.insert (originalKey k) v.value) ∅, ?_, ?_⟩
  · simp [multiGetContext, hitems]
  · intro k value
    rw [lookup_foldl_insert (fun item : String × Item => originalKey item.1)
      (fun item => item.2.value) hnodup]
    constructor
    · rintro (⟨⟨physical, item⟩, hmem, rfl, rfl⟩ | ⟨-, hempty⟩)
      · obtain ⟨hphysical, hitem⟩ := (hfetched.mem_iff _ _).mp hmem
        obtain ⟨key, hkey, rfl⟩ := List.mem_map.mp hphysical
        exact ⟨key, hkey, hextra key, item, hitem, rfl⟩
      · cases hempty
    · rintro ⟨key, hkey, rfl, item, hitem, rfl⟩
      refine Or.inl ⟨(formatKey ns coll key, item), ?_, hextra key, rfl⟩
      exact (hfetched.mem_iff _ _).mpr ⟨List.mem_map_of_mem hkey, hitem⟩

/-- The result has the requested keys that `Get` finds, with the values of `Get`. -/
def Agrees (server : Server) (getMulti : List String → Except ClientError (List (String × Item)))
    (ns coll : String) (keys : List String) : Prop :=
  ∃ result, multiGetContext getMulti none ns coll keys = .ok result ∧
    ∀ key value, result.lookup key = some value ↔
      key ∈ keys ∧ getContext server none ⟨ns, coll, key⟩ = .ok (some value)

/-- `MultiGet` agrees with `Get` exactly if the namespace and the collection hold no
colon, or nothing is found. -/
theorem multiGet_agrees_iff {items : List (String × Item)}
    (hitems : getMulti (keys.map (formatKey ns coll)) = .ok items)
    (hfetched : Fetched server (keys.map (formatKey ns coll)) items) :
    Agrees server getMulti ns coll keys ↔
      (':' ∉ ns.toList ∧ ':' ∉ coll.toList) ∨
        ∀ key ∈ keys, server (formatKey ns coll key) = none := by
  obtain ⟨extra, hempty, hextra⟩ := originalKey_formatKey ns coll
  obtain ⟨result, hresult, hlookup⟩ := multiGetContext_lookup hitems hfetched hextra
  rw [← hempty]
  constructor
  · rintro ⟨other, hother, hagrees⟩
    cases hresult.symm.trans hother
    by_contra hcon
    obtain ⟨hne, hfound⟩ := not_or.mp hcon
    push Not at hfound
    obtain ⟨found, hfound, hsome⟩ := hfound
    -- the longest key that is found: with the text before it, it is too long to be found
    obtain ⟨key, hkey, hlongest⟩ := Finset.exists_max_image
      (keys.toFinset.filter fun key => server (formatKey ns coll key) ≠ none)
      (fun key => key.toList.length) ⟨found, by simp [hfound, hsome]⟩
    simp only [Finset.mem_filter, List.mem_toFinset] at hkey hlongest
    obtain ⟨item, hitem⟩ := Option.ne_none_iff_exists'.mp hkey.2
    have hlong := (hlookup (String.ofList (extra ++ key.toList)) item.value).mpr
      ⟨key, hkey.1, rfl, item, hitem, rfl⟩
    obtain ⟨hmem, hget⟩ := (hagrees _ _).mp hlong
    obtain ⟨item', hitem', -⟩ := getContext_eq_some_iff.mp hget
    have hle := hlongest _ ⟨hmem, hitem' ▸ Option.some_ne_none item'⟩
    have hpos := List.length_pos_iff.mpr hne
    simp only [String.toList_ofList, List.length_append] at hle
    omega
  · rintro (rfl | hnone)
    · refine ⟨result, hresult, fun key value => ?_⟩
      rw [hlookup, getContext_eq_some_iff]
      constructor
      · rintro ⟨other, hmem, rfl, hitem⟩
        rw [List.nil_append, String.ofList_toList]
        exact ⟨hmem, hitem⟩
      · rintro ⟨hmem, hitem⟩
        exact ⟨key, hmem, by simp, hitem⟩
    · refine ⟨result, hresult, fun key value => ?_⟩
      rw [hlookup, getContext_eq_some_iff]
      constructor
      · rintro ⟨other, hmem, -, item, hitem, -⟩
        rw [hnone other hmem] at hitem
        cases hitem
      · rintro ⟨hmem, item, hitem, -⟩
        rw [hnone key hmem] at hitem
        cases hitem

def oneItem (physical value : String) : Server :=
  fun key => if key = physical then some ⟨value, 0⟩ else none

theorem fetched_oneItem (physical value : String) :
    Fetched (oneItem physical value) [physical] [(physical, ⟨value, 0⟩)] := by
  refine ⟨List.nodup_singleton physical, fun key item => ?_⟩
  simp only [oneItem, List.mem_singleton, Prod.mk.injEq]
  constructor
  · rintro ⟨rfl, rfl⟩
    exact ⟨rfl, if_pos rfl⟩
  · rintro ⟨rfl, hitem⟩
    rw [if_pos rfl] at hitem
    exact ⟨rfl, (Option.some.inj hitem).symm⟩

theorem multiGet_agrees_on_one_item :
    Agrees (oneItem "users:profile:42" "v") (fun _ => .ok [("users:profile:42", ⟨"v", 0⟩)])
      "users" "profile" ["42"] :=
  (multiGet_agrees_iff rfl (fetched_oneItem "users:profile:42" "v")).mpr
    (Or.inl ⟨by decide, by decide⟩)

/-- Under a namespace with a colon the item of `k` is returned for the key `c:k`. -/
theorem multiGet_returns_wrong_key :
    Fetched (oneItem "a:b:c:k" "v") (["k"].map (formatKey "a:b" "c")) [("a:b:c:k", ⟨"v", 0⟩)] ∧
      getContext (oneItem "a:b:c:k" "v") none ⟨"a:b", "c", "k"⟩ = .ok (some "v") ∧
      ∃ result, multiGetContext (fun _ => .ok [("a:b:c:k", ⟨"v", 0⟩)]) none "a:b" "c" ["k"] =
          .ok result ∧
        result.lookup "k" = none ∧ result.lookup "c:k" = some "v" := by
  refine ⟨fetched_oneItem "a:b:c:k" "v", by decide, AList.singleton "c:k" "v", ?_, ?_, ?_⟩ <;> rfl

end Result

end Photon.Caching.MemcachedCache
