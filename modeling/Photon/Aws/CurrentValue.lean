import Photon.Aws.AppConfig

/-!
The current value of a configuration. A poll whose content has the hash of the last one changes
nothing, and `StopAllWatching` forgets the values but not the hashes. So the value is up to date
after all polls of a run just if none of them brings the last content of its ID again after
`StopAllWatching`, or another content with the same hash.
-/

namespace Photon.Aws

open Photon.Lib

variable (app : AppConfig)

def AppConfig.Shows (id : String) (content : List UInt8) : Prop :=
  ∃ result, app.getCurrentConfiguration id = .ok result ∧ result.content = content

abbrev History := List (Action × Answer)

/-- A content that was polled, and whether there was no `StopAllWatching` since. -/
structure Polled where
  content : List UInt8
  kept : Bool

def afterEvent (id : String) (last : Option Polled) (event : Action × Answer) : Option Polled :=
  match event.2 with
  | .polled other content => if other = id then some ⟨content, true⟩ else last
  | _ =>
    match event.1 with
    | .stopAllWatching => last.map fun polled => ⟨polled.content, false⟩
    | _ => last

def lastPolled (id : String) (past : History) : Option Polled := past.foldl (afterEvent id) none

/-- The last content with the hash of the new one is the new one, and there was no
`StopAllWatching` since. -/
def Distinguished (digest : List UInt8 → String) (past : History) (id : String)
    (content : List UInt8) : Prop :=
  ∀ last, lastPolled id past = some last → digest last.content = digest content →
    last.content = content ∧ last.kept = true

/-! ### The two maps -/

section Maps

variable (digest : List UInt8 → String)

theorem AppConfig.shows_iff (id : String) (content : List UInt8) :
    app.Shows id content ↔ ∃ result, app.watchedConfigs id = some result ∧
      result.content = content := by
  rw [Shows, getCurrentConfiguration]
  cases app.watchedConfigs id <;> simp

theorem AppConfig.shows_congr {app other : AppConfig} {id : String}
    (h : app.watchedConfigs id = other.watchedConfigs id) (content : List UInt8) :
    app.Shows id content ↔ other.Shows id content := by
  rw [shows_iff, shows_iff, h]

/-- A poll shows its content, unless the hash says that there is nothing new. -/
theorem AppConfig.shows_update_iff (input : WatchConfigInput) (configuration : List UInt8)
    (contentType : Option String) :
    (app.update digest input configuration contentType).1.Shows input.uniqueConfigID
        configuration ↔
      (app.lastHashes input.uniqueConfigID = some (digest configuration) →
        app.Shows input.uniqueConfigID configuration) := by
  rw [update]
  split_ifs with hhash
  · exact ⟨fun h _ => h, fun h => h hhash⟩
  · refine iff_of_true ((shows_iff ..).mpr ?_) fun h => absurd h hhash
    exact ⟨_, Function.update_self .., rfl⟩

theorem AppConfig.lastHashes_update (input : WatchConfigInput) (configuration : List UInt8)
    (contentType : Option String) :
    (app.update digest input configuration contentType).1.lastHashes =
      Function.update app.lastHashes input.uniqueConfigID (some (digest configuration)) := by
  rw [update]
  split_ifs with hhash
  · exact (Function.update_eq_self_iff.mpr hhash.symm).symm
  · rfl

theorem AppConfig.watchedConfigs_update_of_ne {input : WatchConfigInput} {id : String}
    (h : id ≠ input.uniqueConfigID) (configuration : List UInt8) (contentType : Option String) :
    (app.update digest input configuration contentType).1.watchedConfigs id =
      app.watchedConfigs id := by
  rw [update]
  split_ifs
  · rfl
  · exact Function.update_of_ne h ..

theorem System.maps_watchConfig (s : System) (parent : ℕ) (input : WatchConfigInput)
    (hasCallback : Bool) (session : Except String (Option String)) :
    (s.watchConfig parent input hasCallback session).1.app.lastHashes = s.app.lastHashes ∧
      (s.watchConfig parent input hasCallback session).1.app.watchedConfigs =
        s.app.watchedConfigs := by
  rw [watchConfig.eq_def]
  split_ifs
  · exact ⟨rfl, rfl⟩
  · cases session with
    | error e => exact ⟨rfl, rfl⟩
    | ok token => cases token <;> exact ⟨rfl, rfl⟩

theorem System.maps_stopWatching (s : System) (id : String) :
    (s.stopWatching id).1.app.lastHashes = s.app.lastHashes ∧
      (s.stopWatching id).1.app.watchedConfigs = s.app.watchedConfigs := by
  rw [stopWatching]
  cases s.app.watchers.lookup id <;> exact ⟨rfl, rfl⟩

inductive MapStep (s : System) : Action → System × Answer → Prop
  | polled {action : Action} {next : System} (input : WatchConfigInput)
      (configuration : List UInt8) (contentType : Option String)
      (happ : next.app = (s.app.update digest input configuration contentType).1) :
      MapStep s action (next, .polled input.uniqueConfigID configuration)
  | cleared : MapStep s .stopAllWatching (s.stopAllWatching, .nothing)
  | same {action : Action} {next : System} {answer : Answer}
      (hanswer : ∀ id content, answer ≠ .polled id content) (haction : action ≠ .stopAllWatching)
      (hhashes : next.app.lastHashes = s.app.lastHashes)
      (hconfigs : next.app.watchedConfigs = s.app.watchedConfigs) :
      MapStep s action (next, answer)

theorem System.mapStep (s : System) (a : Action) : MapStep digest s a (s.step digest a) := by
  cases a with
  | watchConfig parent input hasCallback session =>
    obtain ⟨hhashes, hconfigs⟩ := s.maps_watchConfig parent input hasCallback session
    exact .same nofun nofun hhashes hconfigs
  | stopWatching id =>
    obtain ⟨hhashes, hconfigs⟩ := s.maps_stopWatching id
    exact .same nofun nofun hhashes hconfigs
  | stopAllWatching => exact .cleared
  | endParent parent e => exact .same nofun nofun rfl rfl
  | turn i t =>
    rw [step]
    cases s.loops[i]? with
    | none => exact .same nofun nofun rfl rfl
    | some loop =>
      dsimp only
      rcases loop.turn_cases digest s.app t with
        ⟨stage, token, hturn, -⟩ | ⟨configuration, contentType, next, -, -, -, hturn⟩
      · rw [hturn]
        exact .same nofun nofun rfl rfl
      · rw [hturn]
        exact .polled loop.input configuration contentType rfl

end Maps

/-! ### Histories -/

theorem lastPolled_concat (id : String) (past : History) (event : Action × Answer) :
    lastPolled id (past ++ [event]) = afterEvent id (lastPolled id past) event := by
  rw [lastPolled, List.foldl_concat]
  rfl

theorem afterEvent_of_ne {id : String} {last : Option Polled} {event : Action × Answer}
    (hanswer : ∀ id content, event.2 ≠ .polled id content) (haction : event.1 ≠ .stopAllWatching) :
    afterEvent id last event = last := by
  rw [afterEvent]
  split
  · exact absurd ‹event.2 = _› (hanswer _ _)
  · split
    · exact absurd ‹event.1 = _› haction
    · rfl

/-- The hash is that of the last content, and as long as nothing was cleared the value is too. -/
structure Synced (digest : List UInt8 → String) (past : History) (s : System) : Prop where
  hashes : ∀ id, s.app.lastHashes id = (lastPolled id past).map fun last => digest last.content
  kept : ∀ id last, lastPolled id past = some last → last.kept = true →
    s.app.Shows id last.content
  cleared : ∀ id last, lastPolled id past = some last → last.kept = false →
    s.app.watchedConfigs id = none

namespace Synced

variable {digest : List UInt8 → String} {past : History} {s next : System}

section

variable (h : Synced digest past s)
include h

/-- What the hash hides is just what the history does not distinguish. -/
theorem shows_iff (id : String) (content : List UInt8) :
    (s.app.lastHashes id = some (digest content) → s.app.Shows id content) ↔
      Distinguished digest past id content := by
  rw [h.hashes]
  constructor
  · intro hshows last hlast hdigest
    have hcurrent := hshows (by rw [hlast, Option.map_some, hdigest])
    obtain ⟨result, hresult, rfl⟩ := (AppConfig.shows_iff ..).mp hcurrent
    cases hkept : last.kept with
    | false => exact absurd (hresult.symm.trans (h.cleared id last hlast hkept)) nofun
    | true =>
      obtain ⟨same, hsame, hcontent⟩ := (AppConfig.shows_iff ..).mp (h.kept id last hlast hkept)
      cases hresult.symm.trans hsame
      exact ⟨hcontent.symm, rfl⟩
  · intro hdistinguished hhash
    obtain ⟨last, hlast, hdigest⟩ := Option.map_eq_some_iff.mp hhash
    obtain ⟨rfl, hkept⟩ := hdistinguished last hlast hdigest
    exact h.kept id last hlast hkept

theorem same {a : Action} {answer : Answer} (hanswer : ∀ id content, answer ≠ .polled id content)
    (haction : a ≠ .stopAllWatching) (hhashes : next.app.lastHashes = s.app.lastHashes)
    (hconfigs : next.app.watchedConfigs = s.app.watchedConfigs) :
    Synced digest (past ++ [(a, answer)]) next := by
  have hlast : ∀ id, lastPolled id (past ++ [(a, answer)]) = lastPolled id past := by
    intro id
    rw [lastPolled_concat]
    exact afterEvent_of_ne hanswer haction
  refine ⟨fun id => ?_, fun id last hid hkept => ?_, fun id last hid hkept => ?_⟩
  · rw [hlast, hhashes]
    exact h.hashes id
  · rw [hlast] at hid
    exact (AppConfig.shows_congr (congrFun hconfigs id) _).mpr (h.kept id last hid hkept)
  · rw [hlast] at hid
    exact (congrFun hconfigs id).trans (h.cleared id last hid hkept)

theorem clear : Synced digest (past ++ [(.stopAllWatching, .nothing)]) s.stopAllWatching := by
  have hlast : ∀ id, lastPolled id (past ++ [(.stopAllWatching, .nothing)]) =
      (lastPolled id past).map fun polled => ⟨polled.content, false⟩ := fun id =>
    lastPolled_concat id past _
  refine ⟨fun id => ?_, fun id last hid hkept => ?_, fun _ _ _ _ => rfl⟩
  · rw [hlast, Option.map_map]
    exact h.hashes id
  · rw [hlast] at hid
    obtain ⟨old, -, rfl⟩ := Option.map_eq_some_iff.mp hid
    cases hkept

/-- A poll whose content is shown. -/
theorem poll {a : Action} {input : WatchConfigInput} {configuration : List UInt8}
    {contentType : Option String}
    (happ : next.app = (s.app.update digest input configuration contentType).1)
    (hshows : next.app.Shows input.uniqueConfigID configuration) :
    Synced digest (past ++ [(a, .polled input.uniqueConfigID configuration)]) next := by
  have hsame : lastPolled input.uniqueConfigID
      (past ++ [(a, .polled input.uniqueConfigID configuration)]) =
        some ⟨configuration, true⟩ := by
    rw [lastPolled_concat]
    exact if_pos rfl
  have hother : ∀ {id}, id ≠ input.uniqueConfigID → lastPolled id
      (past ++ [(a, .polled input.uniqueConfigID configuration)]) = lastPolled id past := by
    intro id hid
    rw [lastPolled_concat]
    exact if_neg (Ne.symm hid)
  have hconfigs : ∀ {id}, id ≠ input.uniqueConfigID →
      next.app.watchedConfigs id = s.app.watchedConfigs id := by
    intro id hid
    rw [happ]
    exact s.app.watchedConfigs_update_of_ne digest hid configuration contentType
  refine ⟨fun id => ?_, fun id last hlast hkept => ?_, fun id last hlast hkept => ?_⟩
  · rw [happ, s.app.lastHashes_update]
    by_cases hid : id = input.uniqueConfigID
    · rw [hid, hsame, Function.update_self]
      rfl
    · rw [hother hid, Function.update_of_ne hid]
      exact h.hashes id
  · by_cases hid : id = input.uniqueConfigID
    · rw [hid, hsame] at hlast
      cases hlast
      rw [hid]
      exact hshows
    · rw [hother hid] at hlast
      exact (AppConfig.shows_congr (hconfigs hid) _).mpr (h.kept id last hlast hkept)
  · by_cases hid : id = input.uniqueConfigID
    · rw [hid, hsame] at hlast
      cases hlast
      cases hkept
    · rw [hother hid] at hlast
      exact (hconfigs hid).trans (h.cleared id last hlast hkept)

/-- A step that shows what it polled. -/
theorem step (a : Action) (hshows : ∀ id content, (s.step digest a).2 = .polled id content →
      (s.step digest a).1.app.Shows id content) :
    Synced digest (past ++ [(a, (s.step digest a).2)]) (s.step digest a).1 := by
  have hmaps := s.mapStep digest a
  revert hshows hmaps
  rcases s.step digest a with ⟨next, answer⟩
  intro hshows hmaps
  cases hmaps with
  | polled input configuration contentType happ => exact h.poll happ (hshows _ _ rfl)
  | cleared => exact h.clear
  | same hanswer haction hhashes hconfigs => exact h.same hanswer haction hhashes hconfigs

/-- A poll is shown just if the history distinguishes it. -/
theorem shows_step_iff (a : Action) (id : String) (content : List UInt8)
    (hpolled : (s.step digest a).2 = .polled id content) :
    (s.step digest a).1.app.Shows id content ↔ Distinguished digest past id content := by
  have hmaps := s.mapStep digest a
  revert hpolled hmaps
  rcases s.step digest a with ⟨next, answer⟩
  intro hpolled hmaps
  cases hmaps with
  | polled input configuration contentType happ =>
    cases hpolled
    rw [happ, AppConfig.shows_update_iff]
    exact h.shows_iff _ _
  | cleared => cases hpolled
  | same hanswer => exact absurd hpolled (hanswer id content)

end

end Synced

/-- After every poll of a run its content is shown just if the history distinguishes every poll. -/
theorem current_configuration_iff (digest : List UInt8 → String) (actions : List Action) :
    (∀ before action after, actions = before ++ action :: after → ∀ id content,
      (((watching digest).run System.start before).step digest action).2 = .polled id content →
        (((watching digest).run System.start before).step digest action).1.app.Shows id content) ↔
      ∀ before action after, actions = before ++ action :: after → ∀ id content,
        (((watching digest).run System.start before).step digest action).2 = .polled id content →
          Distinguished digest ((watching digest).trace System.start before) id content := by
  have hstart : Synced digest [] System.start := ⟨fun _ => rfl, nofun, nofun⟩
  exact (watching digest).forall_steps_iff (Synced digest)
    (fun _ s a => ∀ id content, (s.step digest a).2 = .polled id content →
      (s.step digest a).1.app.Shows id content)
    (fun past s a => ∀ id content, (s.step digest a).2 = .polled id content →
      Distinguished digest past id content)
    (fun _ s a h => forall₂_congr fun id content => imp_congr_right (h.shows_step_iff a id content))
    (fun _ s a h => h.step a) [] System.start actions hstart

def bytesText (content : List UInt8) : String :=
  String.ofList (content.map fun byte => Char.ofNat byte.toNat)

def watchOnce (loop : ℕ) (content : List UInt8) : List Action :=
  [.watchConfig 0 polledInput false (.ok (some "token")), .turn loop .enter,
    .turn loop (.tick (.response content none none))]

example : ((watching bytesText).run System.start
    (watchOnce 0 [1] ++ .stopAllWatching :: watchOnce 1 [2])).app.getCurrentConfiguration "main" =
      .ok ⟨"profile", "main", [2], ""⟩ := rfl

/-- The same content is hidden after `StopAllWatching`. -/
theorem same_content_hidden :
    (((watching bytesText).trace System.start
      (watchOnce 0 [1] ++ .stopAllWatching :: watchOnce 1 [1])).getLast?.map (·.2)) =
        some (.polled "main" [1]) ∧
      ((watching bytesText).run System.start
        (watchOnce 0 [1] ++ .stopAllWatching :: watchOnce 1 [1])).app.getCurrentConfiguration
          "main" = .error "no configuration found for main" :=
  ⟨rfl, rfl⟩

end Photon.Aws
