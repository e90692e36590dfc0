import Mathlib.Data.List.AList
import Photon.Http.Routes
import Photon.Lib.Paths

/-!
The minifier header of `middleware/api_minifier.go`. The middleware decides before the router
does, by the cleaned path alone: it knows neither the method of the request nor the parameters
of a pattern.
-/

namespace Photon.Http

open Photon.Lib

variable {H : Type}

/-- One part of a relative path: two dots go up where there is a name to leave. -/
def relativeStep (names : List (List Char)) (part : List Char) : List (List Char) :=
  if part = [] ∨ part = ['.'] then names
  else if part = ['.', '.'] ∧ names ≠ [] ∧ names.getLast? ≠ some ['.', '.'] then names.dropLast
  else names ++ [part]

/-- `path.Clean`. -/
def clean (path : List Char) : List Char :=
  if path.head? = some '/' then (CleanPath.ofText path).text
  else if (path.splitOn '/').foldl relativeStep [] = [] then ['.']
  else List.intercalate ['/'] ((path.splitOn '/').foldl relativeStep [])

abbrev MinifyInput := AList fun _ : String => Bool

/-- The map that `handleMiddlewares` gives to the middleware. -/
def minifierMwInput (routes : List (HttpRoute H)) : MinifyInput :=
  routes.foldl (fun input route => input.insert route.urlRoute route.enableMinify) ∅

/-- The middleware's own map, made by ranging over the given one in the order of the keys. -/
def minifyRoutes (httproutes : MinifyInput) (order : List String) : List Char → Bool :=
  order.foldl
    (fun routes p => Function.update routes (clean p.toList) ((httproutes.lookup p).getD false))
    fun _ => false

/-- Whether `ApiMinifier` sets the header. -/
def apiMinifier (enabled : Bool) (routes : List Char → Bool) (path : List Char) : Bool :=
  enabled && routes (clean path)

/-- The router: which route of a table serves a request. -/
structure Router (H : Type) where
  serve : List (HttpRoute H) → String → List Char → Option (HttpRoute H)
  serve_mem : ∀ routes method path route, serve routes method path = some route → route ∈ routes

/-! ### The map of the flags -/

theorem lookup_minifierMwInput (routes : List (HttpRoute H)) (p : String) :
    (minifierMwInput routes).lookup p =
      (routes.reverse.find? fun route => route.urlRoute = p).map HttpRoute.enableMinify := by
  induction routes using List.reverseRecOn with
  | nil => rfl
  | append_singleton routes route ih =>
    have hlast : minifierMwInput (routes ++ [route]) =
        (minifierMwInput routes).insert route.urlRoute route.enableMinify := by
      rw [minifierMwInput, List.foldl_append]
      rfl
    rw [hlast, List.reverse_concat, List.find?_cons]
    by_cases hp : route.urlRoute = p
    · subst hp
      simp
    · simp only [hp, decide_false]
      rw [AList.lookup_insert_ne (Ne.symm hp), ih]

/-- The last route of a pattern gives its flag. -/
theorem lookup_eq_some_iff {routes : List (HttpRoute H)} {p : String} {flag : Bool} :
    (minifierMwInput routes).lookup p = some flag ↔
      ∃ before route after, routes = before ++ route :: after ∧
        (∀ later ∈ after, later.urlRoute ≠ route.urlRoute) ∧ route.urlRoute = p ∧
        route.enableMinify = flag := by
  rw [lookup_minifierMwInput, Option.map_eq_some_iff]
  constructor
  · rintro ⟨route, hfind, rfl⟩
    obtain ⟨hp, later, earlier, hsplit, hlater⟩ := List.find?_eq_some_iff_append.mp hfind
    obtain rfl := of_decide_eq_true hp
    refine ⟨earlier.reverse, route, later.reverse, ?_, fun other hother => ?_, rfl, rfl⟩
    · rw [← List.reverse_reverse routes, hsplit]
      simp
    · simpa using hlater other (List.mem_reverse.mp hother)
  · rintro ⟨before, route, after, rfl, hlater, rfl, rfl⟩
    refine ⟨route, List.find?_eq_some_iff_append.mpr ⟨by simp, after.reverse, before.reverse, ?_,
      fun other hother => ?_⟩, rfl⟩
    · simp
    · simpa using hlater other (List.mem_reverse.mp hother)

/-! ### All orders of the range -/

theorem minifyRoutes_concat (input : MinifyInput) (order : List String) (p : String) :
    minifyRoutes input (order ++ [p]) =
      Function.update (minifyRoutes input order) (clean p.toList)
        ((input.lookup p).getD false) := by
  rw [minifyRoutes, List.foldl_append]
  rfl

theorem minifyRoutes_of_agree (input : MinifyInput) (order : List String) {path : List Char}
    {flag : Bool}
    (hagree : ∀ p ∈ order, clean p.toList = path → (input.lookup p).getD false = flag)
    (hsome : flag = true → ∃ p ∈ order, clean p.toList = path) :
    minifyRoutes input order path = flag := by
  induction order using List.reverseRecOn with
  | nil =>
    cases flag with
    | false => rfl
    | true =>
      obtain ⟨p, hp, -⟩ := hsome rfl
      cases hp
  | append_singleton order p ih =>
    rw [minifyRoutes_concat]
    by_cases hp : clean p.toList = path
    · rw [hp, Function.update_self]
      exact hagree p (by simp) hp
    · rw [Function.update_of_ne (Ne.symm hp)]
      refine ih (fun q hq => hagree q (List.mem_append_left _ hq)) fun hflag => ?_
      obtain ⟨q, hq, hclean⟩ := hsome hflag
      rcases List.mem_append.mp hq with hq | hq
      · exact ⟨q, hq, hclean⟩
      · exact absurd (List.mem_singleton.mp hq ▸ hclean) hp

/-- Every order gives the flag just if all patterns of the path have it, and one has it if it is
set. -/
theorem forall_order_iff (input : MinifyInput) (path : List Char) (flag : Bool) :
    (∀ order, order.Perm input.keys → minifyRoutes input order path = flag) ↔
      (∀ p value, input.lookup p = some value → clean p.toList = path → value = flag) ∧
        (flag = true → ∃ p ∈ input.keys, clean p.toList = path) := by
  constructor
  · intro hall
    constructor
    · intro p value hvalue hp
      have hmem : p ∈ input.keys := AList.mem_keys.mp (AList.lookup_isSome.mp (by simp [hvalue]))
      -- In this order the range comes to the pattern last.
      have hlast := hall (input.keys.erase p ++ [p])
        (List.perm_append_singleton p _ |>.trans (List.perm_cons_erase hmem).symm)
      rw [minifyRoutes_concat, ← hp, Function.update_self, hvalue] at hlast
      exact hlast
    · rintro rfl
      by_contra hnone
      have hfalse : minifyRoutes input input.keys path = false :=
        minifyRoutes_of_agree input input.keys
          (fun p hp hclean => absurd ⟨p, hp, hclean⟩ hnone) (by simp)
      rw [hall _ (List.Perm.refl _)] at hfalse
      cases hfalse
  · rintro ⟨hagree, hsome⟩ order horder
    refine minifyRoutes_of_agree input order (fun p hp hclean => ?_) fun hflag => ?_
    · have hin : p ∈ input := AList.mem_keys.mpr (horder.mem_iff.mp hp)
      obtain ⟨value, hvalue⟩ := Option.isSome_iff_exists.mp (AList.lookup_isSome.mpr hin)
      rw [hvalue]
      exact hagree p value hvalue hclean
    · obtain ⟨p, hp, hclean⟩ := hsome hflag
      exact ⟨p, horder.mem_iff.mpr hp, hclean⟩

/-! ### The header and the route -/

/-- The routes whose patterns are, as texts, the path: each that counts has the flag, and there is
one if the flag is set. A route counts if no later one has its pattern. -/
structure Agrees (routes : List (HttpRoute H)) (path : List Char) (flag : Bool) : Prop where
  last : ∀ before route after, routes = before ++ route :: after →
    (∀ later ∈ after, later.urlRoute ≠ route.urlRoute) →
    clean route.urlRoute.toList = clean path → route.enableMinify = flag
  found : flag = true → ∃ route ∈ routes, clean route.urlRoute.toList = clean path

theorem mem_keys_minifierMwInput {routes : List (HttpRoute H)} {p : String} :
    p ∈ (minifierMwInput routes).keys ↔ ∃ route ∈ routes, route.urlRoute = p := by
  rw [← AList.mem_keys, ← AList.lookup_isSome, lookup_minifierMwInput, Option.isSome_map,
    List.find?_isSome]
  simp

theorem forall_order_iff_agrees (routes : List (HttpRoute H)) (path : List Char) (flag : Bool) :
    (∀ order, order.Perm (minifierMwInput routes).keys →
        apiMinifier true (minifyRoutes (minifierMwInput routes) order) path = flag) ↔
      Agrees routes path flag := by
  simp only [apiMinifier, Bool.true_and]
  rw [forall_order_iff]
  constructor
  · rintro ⟨hagree, hfound⟩
    refine ⟨fun before route after hsplit hlater hclean => ?_, fun hflag => ?_⟩
    · exact hagree route.urlRoute route.enableMinify
        (lookup_eq_some_iff.mpr ⟨before, route, after, hsplit, hlater, rfl, rfl⟩) hclean
    · obtain ⟨p, hp, hclean⟩ := hfound hflag
      obtain ⟨route, hroute, rfl⟩ := mem_keys_minifierMwInput.mp hp
      exact ⟨route, hroute, hclean⟩
  · rintro ⟨hlast, hfound⟩
    refine ⟨fun p value hvalue hclean => ?_, fun hflag => ?_⟩
    · obtain ⟨before, route, after, hsplit, hlater, rfl, rfl⟩ := lookup_eq_some_iff.mp hvalue
      exact hlast before route after hsplit hlater hclean
    · obtain ⟨route, hroute, hclean⟩ := hfound hflag
      exact ⟨_, mem_keys_minifierMwInput.mpr ⟨route, hroute, rfl⟩, hclean⟩

/-- The header follows the serving route just if the routes with the text of the path agree with
it. -/
theorem minify_header_follows_iff (router : Router H) (routes : List (HttpRoute H))
    (method : String) (path : List Char) :
    (∀ route order, router.serve routes method path = some route →
        order.Perm (minifierMwInput routes).keys →
        (apiMinifier true (minifyRoutes (minifierMwInput routes) order) path = true ↔
          route.enableMinify = true)) ↔
      ∀ route, router.serve routes method path = some route →
        Agrees routes path route.enableMinify := by
  refine forall_congr' fun route => ?_
  rw [← forall_order_iff_agrees]
  constructor
  · exact fun h hserve order horder => Bool.eq_iff_iff.mpr (h order hserve horder)
  · exact fun h order hserve horder => Bool.eq_iff_iff.mp (h hserve order horder)

/-- The router of the registered handlers, by the pattern that a path is resolved to. -/
def registered (resolve : List Char → String) : Router H where
  serve routes method path :=
    ((configOf routes).serve method (resolve path)).map Entry.route
  serve_mem := by
    intro routes method path route hserve
    obtain ⟨entry, hentry, rfl⟩ := Option.map_eq_some_iff.mp hserve
    obtain ⟨route, hroute, -, rfl⟩ := ServerConfig.serve_eq_some hentry
    simpa [ServerConfig.routes, configOf, List.reduceOption, HttpRoute.entry] using hroute

def getA : HttpRoute String := ⟨"/a", "GET", some "get", [], true⟩

def postA : HttpRoute String := ⟨"/a", "POST", some "post", [], false⟩

def getUser : HttpRoute String := ⟨"/users/\x7bid\x7d", "GET", some "user", [], true⟩

def resolveUser (path : List Char) : String :=
  if path = "/users/7".toList then getUser.urlRoute else String.ofList path

/-- The flag of a later route with another method counts, and a pattern with a parameter is not
the path of any request that it serves. -/
theorem minify_header_lost :
    (registered resolveUser).serve [getA, postA] "GET" "/a".toList = some getA ∧
    (minifierMwInput [getA, postA]).keys = ["/a"] ∧
    apiMinifier true (minifyRoutes (minifierMwInput [getA, postA]) ["/a"]) "/a".toList = false ∧
    (registered resolveUser).serve [getUser] "GET" "/users/7".toList = some getUser ∧
    (minifierMwInput [getUser]).keys = [getUser.urlRoute] ∧
    apiMinifier true (minifyRoutes (minifierMwInput [getUser]) [getUser.urlRoute])
      "/users/7".toList = false := by
  refine ⟨rfl, by decide, by decide, rfl, by decide, by decide⟩

end Photon.Http
