import Mathlib.Data.List.ReduceOption
import Mathlib.Tactic
import Photon.Lib.Fallible

/-!
The HTTP routes of a server: the check of its configuration, the registration of its routes, and
the route that a request is given to. A handler is known by the route that it was registered for
and by the middlewares that were put around it.

A request is one that the global middlewares pass on to the router; of these only `GetHead`
changes its method. The path of a request is the pattern that the router resolves it to.
-/

namespace Photon.Http

variable {H : Type}

structure HttpRoute (H : Type) where
  urlRoute : String
  requestMethod : String
  httpHandler : Option H
  middlewares : List (H → H)
  enableMinify : Bool

structure CorsOptions where
  allowedOrigins : List String
  allowCredentials : Bool

/-- What `Validate` and the registration read. Of the session settings and the loggers it counts
only whether they are there. -/
structure ServerConfig (H : Type) where
  routeProvider : String
  serverPort : Int
  readTimeout : Int
  readHeaderTimeout : Int
  writeTimeout : Int
  idleTimeout : Int
  shutdownTimeout : Int
  maxHeaderBytes : Int
  tlsCertFile : String
  tlsKeyFile : String
  sessionConfig : Bool
  sessionManager : Bool
  accessLogger : Bool
  errorLogger : Bool
  serverLogger : Bool
  corsOptions : Option CorsOptions
  httpRoutes : List (Option (HttpRoute H))

def routerCHI : String := "chi"

def refuse (test : Bool) (message : String) : Except String Unit :=
  if test then .error message else .ok ()

def validateCors (cors : CorsOptions) : Except String Unit :=
  refuse (cors.allowedOrigins.contains "*" && cors.allowCredentials)
    "cors cannot allow credentials with wildcard origin"

variable (quote : String → String)

/-- `quote` stands for the verb `%q`. -/
def validateRoute :
    Option (HttpRoute H) × ℕ → Except String Unit
  | (none, idx) => .error s!"http route at index {idx} cannot be nil"
  | (some route, idx) => do
      refuse (route.urlRoute == "") s!"http route at index {idx} must have a url route"
      refuse route.httpHandler.isNone
        ("http route " ++ quote route.urlRoute ++ " must have a handler")

def validateSettings (s : ServerConfig H) : Except String Unit := do
  refuse (s.routeProvider != routerCHI) ("unsupported route provider " ++ quote s.routeProvider)
  refuse (s.serverPort < 1 || s.serverPort > 65535)
    s!"server port must be between 1 and 65535, got {s.serverPort}"
  refuse (s.readTimeout < 0) "read timeout cannot be negative"
  refuse (s.readHeaderTimeout < 0) "read header timeout cannot be negative"
  refuse (s.writeTimeout < 0) "write timeout cannot be negative"
  refuse (s.idleTimeout < 0) "idle timeout cannot be negative"
  refuse (s.shutdownTimeout < 0) "shutdown timeout cannot be negative"
  refuse (s.maxHeaderBytes < 0) "max header bytes cannot be negative"
  refuse ((s.tlsCertFile == "") != (s.tlsKeyFile == ""))
    "tls cert file and key file must be configured together"
  refuse (s.sessionConfig && s.sessionManager)
    "session config and session manager cannot both be configured"
  refuse (!s.accessLogger) "access logger cannot be nil"
  refuse (!s.errorLogger) "error logger cannot be nil"
  refuse (!s.serverLogger) "server logger cannot be nil"
  s.corsOptions.toList.forM validateCors

def validate : Option (ServerConfig H) → Except String Unit
  | none => .error "server config cannot be nil"
  | some s => do
      validateSettings quote s
      s.httpRoutes.zipIdx.forM (validateRoute quote)

variable {s : ServerConfig H}

/-- A registered handler: the route it comes from and the middlewares around it, the innermost
one first. -/
structure Entry (H : Type) where
  route : HttpRoute H
  wrapped : List (H → H)

/-- The handlers of the router by path and method. A registration replaces an older one. -/
abbrev Table (H : Type) := String → String → Option (Entry H)

variable (table : Table H)

def Table.methodFunc (method path : String) (entry : Entry H) : Table H :=
  Function.update table path (Function.update (table path) method (some entry))

def Table.handleFunc (path : String) (entry : Entry H) : Table H :=
  Function.update table path fun _ => some entry

def routedMethods : List String := ["GET", "POST", "PUT", "DELETE", "OPTIONS", "HEAD"]

def applyMiddlewareAndRoute (method : String) (route : HttpRoute H) : Table H :=
  if route.middlewares = [] then table.methodFunc method route.urlRoute ⟨route, []⟩
  else table.methodFunc method route.urlRoute ⟨route, route.middlewares⟩

def handleRoute (route : HttpRoute H) : Table H :=
  if route.requestMethod ∈ routedMethods then
    applyMiddlewareAndRoute table route.requestMethod route
  else table.handleFunc route.urlRoute ⟨route, []⟩

def ServerConfig.routes (s : ServerConfig H) : List (HttpRoute H) := s.httpRoutes.reduceOption

def handleHttpRoutes (s : ServerConfig H) : Table H := s.routes.foldl handleRoute fun _ _ => none

def getHead (method : String) : String := if method = "HEAD" then "GET" else method

def ServerConfig.serve (s : ServerConfig H) (method path : String) : Option (Entry H) :=
  handleHttpRoutes s path (getHead method)

/-! ### Dispatch -/

def HttpRoute.Answers (path method : String) (route : HttpRoute H) : Prop :=
  route.urlRoute = path ∧ (route.requestMethod = method ∨ route.requestMethod ∉ routedMethods)

instance (path method : String) (route : HttpRoute H) : Decidable (route.Answers path method) :=
  inferInstanceAs (Decidable (_ ∧ _))

def HttpRoute.entry (route : HttpRoute H) : Entry H :=
  ⟨route, if route.requestMethod ∈ routedMethods then route.middlewares else []⟩

theorem Table.methodFunc_apply (method path : String) (entry : Entry H)
    (otherPath otherMethod : String) :
    table.methodFunc method path entry otherPath otherMethod =
      if path = otherPath ∧ method = otherMethod then some entry
      else table otherPath otherMethod := by
  rw [methodFunc]
  by_cases hpath : path = otherPath
  · subst hpath
    by_cases hmethod : method = otherMethod
    · simp [hmethod]
    · simp [hmethod, Function.update_of_ne (Ne.symm hmethod)]
  · simp [hpath, Function.update_of_ne (Ne.symm hpath)]

theorem Table.handleFunc_apply (path : String) (entry : Entry H) (otherPath otherMethod : String) :
    table.handleFunc path entry otherPath otherMethod =
      if path = otherPath then some entry else table otherPath otherMethod := by
  rw [handleFunc]
  by_cases hpath : path = otherPath
  · simp [hpath]
  · simp [hpath, Function.update_of_ne (Ne.symm hpath)]

theorem applyMiddlewareAndRoute_eq (method : String) (route : HttpRoute H) :
    applyMiddlewareAndRoute table method route =
      table.methodFunc method route.urlRoute ⟨route, route.middlewares⟩ := by
  rw [applyMiddlewareAndRoute]
  split_ifs with hnone
  · rw [hnone]
  · rfl

theorem handleRoute_eq (route : HttpRoute H) (path method : String) :
    handleRoute table route path method =
      if route.Answers path method then some route.entry else table path method := by
  by_cases hrouted : route.requestMethod ∈ routedMethods
  · rw [handleRoute, if_pos hrouted, applyMiddlewareAndRoute_eq, Table.methodFunc_apply]
    simp [HttpRoute.Answers, HttpRoute.entry, hrouted]
  · rw [handleRoute, if_neg hrouted, Table.handleFunc_apply]
    simp [HttpRoute.Answers, HttpRoute.entry, hrouted]

/-- The last route that answers is the one that runs. -/
theorem foldl_handleRoute_eq (routes : List (HttpRoute H)) (path method : String) :
    routes.foldl handleRoute (fun _ _ => none) path method =
      (routes.reverse.find? fun route => decide (route.Answers path method)).map
        HttpRoute.entry := by
  induction routes using List.reverseRecOn with
  | nil => rfl
  | append_singleton routes route ih =>
    rw [List.foldl_append, List.foldl_cons, List.foldl_nil, handleRoute_eq, ih,
      List.reverse_concat, List.find?_cons]
    by_cases hanswers : route.Answers path method <;> simp [hanswers]

theorem ServerConfig.serve_eq_some {method path : String} {entry : Entry H}
    (h : s.serve method path = some entry) :
    ∃ route ∈ s.routes, route.Answers path (getHead method) ∧ entry = route.entry := by
  rw [serve, handleHttpRoutes, foldl_handleRoute_eq] at h
  obtain ⟨route, hfind, rfl⟩ := Option.map_eq_some_iff.mp h
  have hanswers := List.find?_some hfind
  exact ⟨route, List.mem_reverse.mp (List.mem_of_find?_eq_some hfind), of_decide_eq_true hanswers,
    rfl⟩

variable {route : HttpRoute H}

def HttpRoute.pair (route : HttpRoute H) : String × String :=
  (route.requestMethod, route.urlRoute)

section Kept

variable {s : ServerConfig H} {method path : String}

end Kept

def configOf (routes : List (HttpRoute H)) : ServerConfig H :=
  ⟨routerCHI, 8080, 0, 0, 0, 0, 0, 0, "", "", false, false, true, true, true, none,
    routes.map some⟩

end Photon.Http
