import Photon.Aws.AppConfig

/-!
The watchers that are registered and the loops that live. A loop that ends by itself leaves its
entry behind, and the ID cannot be watched again until somebody stops the dead watcher. The entries
are accurate along a run just if no loop ends in another way than by the call that removes its
entry.
-/

namespace Photon.Aws

open Photon.Lib

variable (loop : WatchLoop)

/-- A loop runs or waits to restart, until it ends or its context does. -/
def WatchLoop.Live : Prop := loop.stage ≠ .ended ∧ loop.err = none

instance (loop : WatchLoop) : Decidable loop.Live :=
  inferInstanceAs (Decidable (loop.stage ≠ .ended ∧ loop.err = none))

def System.HasLoop (s : System) (id : String) : Prop :=
  ∃ loop ∈ s.loops, loop.input.uniqueConfigID = id ∧ loop.Live

/-- Just the IDs with a live loop are registered, and where the service works `WatchConfig`
refuses only those. -/
structure System.Accurate (s : System) : Prop where
  registered : ∀ id, (s.app.watchers.lookup id).isSome = true ↔ s.HasLoop id
  refused : ∀ parent input hasCallback token e,
    (s.watchConfig parent input hasCallback (.ok (some token))).2 = .error e →
      s.HasLoop input.uniqueConfigID

/-- A new watch starts under a context that has not ended, no context ends under a live loop, and
no live loop gives up. -/
def Harmless (s : System) : Action → Prop
  | .watchConfig parent input _ session =>
    s.app.watchers.lookup input.uniqueConfigID = none →
      ∀ token, session = .ok (some token) → s.parents parent = none
  | .endParent parent _ => ∀ loop ∈ s.loops, loop.Live → loop.parent ≠ parent
  | .turn i turn => ∀ loop, s.loops[i]? = some loop → loop.Live → ¬loop.GivesUp turn
  | _ => True

/-! ### Loops -/

theorem WatchLoop.not_live_cancel (e : ContextErr) : ¬(loop.cancel e).Live := by
  rintro ⟨-, herr⟩
  rw [cancel] at herr
  cases hold : loop.err <;> simp [hold] at herr

theorem WatchLoop.cancel_cancel (e : ContextErr) : (loop.cancel e).cancel e = loop.cancel e := by
  rw [cancel, cancel]
  cases loop.err <;> rfl

variable (digest : List UInt8 → String)

/-- A turn leaves the watchers and the input, and only a loop that gives up dies of it. -/
theorem WatchLoop.turn_spec (app : AppConfig) (loop : WatchLoop) (t : Turn) :
    (loop.turn digest app t).1.watchers = app.watchers ∧
      (loop.turn digest app t).2.1.input = loop.input ∧
      ((loop.turn digest app t).2.1.Live ↔ loop.Live ∧ ¬loop.GivesUp t) := by
  rcases loop.turn_cases digest app t with
    ⟨stage, token, hturn, hended⟩ | ⟨configuration, contentType, next, hstage, -, rfl, hturn⟩
  · rw [hturn]
    refine ⟨rfl, rfl, ?_⟩
    constructor
    · rintro ⟨hstage, herr⟩
      have hended := hended herr
      exact ⟨⟨fun h => hstage (hended.mpr (Or.inl h)), herr⟩,
        fun h => hstage (hended.mpr (Or.inr h))⟩
    · rintro ⟨⟨hstage, herr⟩, hgives⟩
      refine ⟨fun h => ?_, herr⟩
      rcases (hended herr).mp h with hold | hnew
      · exact hstage hold
      · exact hgives hnew
  · rw [hturn]
    refine ⟨by rw [AppConfig.update]; split_ifs <;> rfl, rfl, ?_⟩
    constructor
    · rintro ⟨-, herr⟩
      exact ⟨⟨by rw [hstage]; nofun, herr⟩, nofun⟩
    · rintro ⟨⟨-, herr⟩, -⟩
      refine ⟨?_, herr⟩
      split_ifs <;> nofun

/-- Cancelling leaves the other loops. -/
theorem getElem?_cancelAll (entries : List (String × ℕ)) (loops : List WatchLoop) (i : ℕ) :
    (cancelAll entries loops)[i]? =
      loops[i]?.map fun loop => if i ∈ entries.map (·.2) then loop.cancel .canceled else loop := by
  induction entries generalizing loops with
  | nil => simp [cancelAll]
  | cons entry entries ih =>
    rw [cancelAll, List.foldl_cons]
    refine (ih _).trans ?_
    rw [List.getElem?_modify]
    cases loops[i]? with
    | none => rfl
    | some loop =>
      by_cases hentry : entry.2 = i
      · by_cases hi : i ∈ entries.map (·.2)
        · simp [hentry, hi, WatchLoop.cancel_cancel]
        · simp [hentry, hi]
      · simp only [hentry, if_false, List.map_cons, List.mem_cons, Ne.symm hentry, false_or]
        rfl

/-! ### Entries -/

/-- What the calls and the turns keep: every entry belongs to a loop with its ID, and every live
loop has its entry. -/
structure System.Registry (s : System) : Prop where
  keys : (s.app.watchers.map (·.1)).Nodup
  entry : ∀ id i, (id, i) ∈ s.app.watchers →
    ∃ loop, s.loops[i]? = some loop ∧ loop.input.uniqueConfigID = id
  live : ∀ i loop, s.loops[i]? = some loop → loop.Live →
    (loop.input.uniqueConfigID, i) ∈ s.app.watchers

def System.Backed (s : System) : Prop :=
  ∀ id i, (id, i) ∈ s.app.watchers → ∃ loop, s.loops[i]? = some loop ∧ loop.Live

namespace System

variable {s next : System}

theorem isSome_lookup_iff (s : System) (id : String) :
    (s.app.watchers.lookup id).isSome = true ↔ ∃ i, (id, i) ∈ s.app.watchers := by
  rw [List.lookup_isSome_iff]
  simp

theorem Registry.accurate_iff (h : s.Registry) : s.Accurate ↔ s.Backed := by
  constructor
  · intro haccurate id i hentry
    obtain ⟨loop, hloop, hid, hlive⟩ :=
      (haccurate.registered id).mp ((s.isSome_lookup_iff id).mpr ⟨i, hentry⟩)
    obtain ⟨j, hj⟩ := List.getElem?_of_mem hloop
    have hown := h.live j loop hj hlive
    rw [hid] at hown
    cases List.inj_on_of_nodup_map h.keys hentry hown rfl
    exact ⟨loop, hj, hlive⟩
  · intro hbacked
    have hhas : ∀ id i, (id, i) ∈ s.app.watchers → s.HasLoop id := by
      intro id i hentry
      obtain ⟨loop, hloop, hlive⟩ := hbacked id i hentry
      obtain ⟨_, hsame, hid⟩ := h.entry id i hentry
      cases hloop.symm.trans hsame
      exact ⟨loop, List.mem_of_getElem? hloop, hid, hlive⟩
    refine ⟨fun id => ⟨fun hsome => ?_, fun hloop => ?_⟩, ?_⟩
    · obtain ⟨i, hentry⟩ := (s.isSome_lookup_iff id).mp hsome
      exact hhas id i hentry
    · obtain ⟨loop, hloop, rfl, hlive⟩ := hloop
      obtain ⟨i, hi⟩ := List.getElem?_of_mem hloop
      exact (s.isSome_lookup_iff _).mpr ⟨i, h.live i loop hi hlive⟩
    · intro parent input hasCallback token e he
      rw [watchConfig] at he
      split_ifs at he with hsome
      · obtain ⟨i, hentry⟩ := (s.isSome_lookup_iff _).mp hsome
        exact hhas _ i hentry

/-- The loops change in their places, the entries are removed of those that are stopped. -/
theorem Registry.of_change (h : s.Registry) (change : ℕ → WatchLoop → WatchLoop)
    (hloops : ∀ i, next.loops[i]? = s.loops[i]?.map (change i))
    (hwatchers : next.app.watchers.Sublist s.app.watchers)
    (hinput : ∀ i loop, s.loops[i]? = some loop → (change i loop).input = loop.input)
    (hlive : ∀ i loop, s.loops[i]? = some loop → (change i loop).Live →
      loop.Live ∧ ∀ id, (id, i) ∈ s.app.watchers → (id, i) ∈ next.app.watchers) :
    next.Registry := by
  refine ⟨(hwatchers.map _).nodup h.keys, fun id i hentry => ?_, fun i loop hloop hlives => ?_⟩
  · obtain ⟨loop, hloop, hid⟩ := h.entry id i (hwatchers.subset hentry)
    exact ⟨change i loop, by rw [hloops, hloop, Option.map_some], by rw [hinput i loop hloop, hid]⟩
  · rw [hloops] at hloop
    obtain ⟨old, hold, rfl⟩ := Option.map_eq_some_iff.mp hloop
    obtain ⟨holdLive, hkept⟩ := hlive i old hold hlives
    rw [hinput i old hold]
    exact hkept _ (h.live i old hold holdLive)

theorem Registry.backed_of_change (h : s.Registry) (change : ℕ → WatchLoop → WatchLoop)
    (hloops : ∀ i, next.loops[i]? = s.loops[i]?.map (change i))
    (hwatchers : next.app.watchers.Sublist s.app.watchers) :
    next.Backed ↔ ∀ id i, (id, i) ∈ next.app.watchers → ∀ loop, s.loops[i]? = some loop →
      (change i loop).Live := by
  constructor
  · intro hbacked id i hentry loop hloop
    obtain ⟨new, hnew, hlive⟩ := hbacked id i hentry
    rw [hloops, hloop] at hnew
    cases hnew
    exact hlive
  · intro hlive id i hentry
    obtain ⟨loop, hloop, -⟩ := h.entry id i (hwatchers.subset hentry)
    exact ⟨change i loop, by rw [hloops, hloop, Option.map_some], hlive id i hentry loop hloop⟩

/-! ### One step -/

section

variable (h : s.Registry)
include h

theorem Registry.stopWatching (id : String) :
    (s.stopWatching id).1.Registry ∧ (s.Backed → (s.stopWatching id).1.Backed) := by
  rw [System.stopWatching]
  cases hlookup : s.app.watchers.lookup id with
  | none => exact ⟨h, fun hbacked => hbacked⟩
  | some i =>
    have hentry : (id, i) ∈ s.app.watchers := by
      obtain ⟨before, after, hsplit, -⟩ := List.lookup_eq_some_iff.mp hlookup
      rw [hsplit]
      simp
    have hsub : (s.app.watchers.filter (·.1 ≠ id)).Sublist s.app.watchers :=
      List.filter_sublist
    have hloops := fun j => List.getElem?_modify (WatchLoop.cancel .canceled) i s.loops j
    constructor
    · refine h.of_change _ hloops hsub (fun j loop _ => ?_) fun j loop hloop hlive => ?_
      · split_ifs <;> rfl
      · split_ifs at hlive with hij
        · exact absurd hlive (loop.not_live_cancel _)
        · refine ⟨hlive, fun other hother => List.mem_filter.mpr ⟨hother, ?_⟩⟩
          refine decide_eq_true fun heq => hij ?_
          cases List.inj_on_of_nodup_map h.keys hentry hother heq.symm
          rfl
    · intro hbacked
      refine (h.backed_of_change _ hloops hsub).mpr fun other j hother loop hloop => ?_
      obtain ⟨hmem, hne⟩ := List.mem_filter.mp hother
      obtain ⟨_, hsame, hlive⟩ := hbacked other j hmem
      cases hloop.symm.trans hsame
      have hij : i ≠ j := by
        rintro rfl
        obtain ⟨old, hold, hid⟩ := h.entry id i hentry
        obtain ⟨_, hagain, hotherId⟩ := h.entry other i hmem
        cases hold.symm.trans hagain
        exact of_decide_eq_true hne (hotherId.symm.trans hid)
      simpa only [hij, if_false] using hlive

theorem Registry.stopAllWatching : s.stopAllWatching.Registry ∧ s.stopAllWatching.Backed := by
  refine ⟨h.of_change _ (getElem?_cancelAll s.app.watchers s.loops) (List.nil_sublist _)
    (fun i loop _ => ?_) (fun i loop hloop hlive => ?_), nofun⟩
  · split_ifs <;> rfl
  · split_ifs at hlive with hi
    · exact absurd hlive (loop.not_live_cancel _)
    · refine ⟨hlive, fun id hentry => absurd ?_ hi⟩
      exact List.mem_map_of_mem hentry

theorem Registry.endParent (parent : ℕ) (e : ContextErr) :
    (s.endParent parent e).Registry ∧
      (s.Backed → ((s.endParent parent e).Backed ↔ Harmless s (.endParent parent e))) := by
  have hloops : ∀ i, (s.endParent parent e).loops[i]? = s.loops[i]?.map fun loop : WatchLoop =>
      if loop.parent = parent then loop.cancel e else loop := fun i => List.getElem?_map
  constructor
  · refine h.of_change _ hloops (List.Sublist.refl _) (fun i loop _ => ?_) fun i loop _ hlive => ?_
    · split_ifs <;> rfl
    · split_ifs at hlive
      · exact absurd hlive (loop.not_live_cancel e)
      · exact ⟨hlive, fun id hentry => hentry⟩
  · intro hbacked
    refine (h.backed_of_change _ hloops (List.Sublist.refl _)).trans ⟨fun hlive => ?_, ?_⟩
    · intro loop hloop holdLive hparent
      obtain ⟨i, hi⟩ := List.getElem?_of_mem hloop
      have hnew := hlive _ i (h.live i loop hi holdLive) loop hi
      rw [if_pos hparent] at hnew
      exact loop.not_live_cancel e hnew
    · intro hharmless id i hentry loop hloop
      obtain ⟨_, hsame, hlive⟩ := hbacked id i hentry
      cases hloop.symm.trans hsame
      rw [if_neg (hharmless loop (List.mem_of_getElem? hloop) hlive)]
      exact hlive

theorem Registry.turn (i : ℕ) (t : Turn) :
    (s.step digest (.turn i t)).1.Registry ∧
      (s.Backed → ((s.step digest (.turn i t)).1.Backed ↔ Harmless s (.turn i t))) := by
  rw [step]
  cases hi : s.loops[i]? with
  | none =>
    refine ⟨h, fun hbacked => iff_of_true hbacked fun loop hloop => ?_⟩
    cases hi.symm.trans hloop
  | some loop =>
    obtain ⟨hwatchers, hinput, hlives⟩ := loop.turn_spec digest s.app t
    have hloops : ∀ j, (s.loops.set i (loop.turn digest s.app t).2.1)[j]? =
        s.loops[j]?.map fun old => if i = j then (loop.turn digest s.app t).2.1 else old := by
      intro j
      by_cases hij : i = j
      · subst hij
        obtain ⟨hlt, -⟩ := List.getElem?_eq_some_iff.mp hi
        simp [hi, List.getElem?_set_self hlt]
      · simp [hij, List.getElem?_set_ne hij]
    have hsub : (loop.turn digest s.app t).1.watchers.Sublist s.app.watchers := by
      rw [hwatchers]
    constructor
    · refine h.of_change _ hloops hsub (fun j old hold => ?_) fun j old hold hlive => ?_
      · split_ifs with hij
        · subst hij
          cases hi.symm.trans hold
          exact hinput
        · rfl
      · refine ⟨?_, fun id hentry => by rw [hwatchers]; exact hentry⟩
        split_ifs at hlive with hij
        · subst hij
          cases hi.symm.trans hold
          exact (hlives.mp hlive).1
        · exact hlive
    · intro hbacked
      refine (h.backed_of_change _ hloops hsub).trans ⟨fun hlive => ?_, ?_⟩
      · intro old hold holdLive
        cases hi.symm.trans hold
        have hentry := h.live i loop hi holdLive
        rw [← hwatchers] at hentry
        have hnew := hlive _ i hentry loop hi
        rw [if_pos rfl] at hnew
        exact (hlives.mp hnew).2
      · intro hharmless id j hentry old hold
        rw [hwatchers] at hentry
        obtain ⟨_, hsame, holdLive⟩ := hbacked id j hentry
        cases hold.symm.trans hsame
        split_ifs with hij
        · subst hij
          cases hi.symm.trans hold
          exact hlives.mpr ⟨holdLive, hharmless loop hi holdLive⟩
        · exact holdLive

/-- A new loop with its entry. -/
theorem Registry.add {loop : WatchLoop} (hloops : next.loops = s.loops ++ [loop])
    (hwatchers : next.app.watchers = (loop.input.uniqueConfigID, s.loops.length) :: s.app.watchers)
    (hnew : s.app.watchers.lookup loop.input.uniqueConfigID = none) :
    next.Registry ∧ (s.Backed → (next.Backed ↔ loop.Live)) := by
  have hlast : next.loops[s.loops.length]? = some loop := by
    rw [hloops, List.getElem?_concat_length]
  have hold : ∀ {i : ℕ} {old : WatchLoop}, s.loops[i]? = some old → next.loops[i]? = some old := by
    intro i old hi
    obtain ⟨hlt, -⟩ := List.getElem?_eq_some_iff.mp hi
    rw [hloops, List.getElem?_append_left hlt]
    exact hi
  constructor
  · refine ⟨?_, fun id i hentry => ?_, fun i other hother hlive => ?_⟩
    · rw [hwatchers, List.map_cons, List.nodup_cons]
      refine ⟨fun hmem => ?_, h.keys⟩
      obtain ⟨entry, hentry, hid⟩ := List.mem_map.mp hmem
      have hne := List.lookup_eq_none_iff.mp hnew entry hentry
      simp [hid] at hne
    · rw [hwatchers] at hentry
      rcases List.mem_cons.mp hentry with heq | hmem
      · cases heq
        exact ⟨loop, hlast, rfl⟩
      · obtain ⟨old, hi, hid⟩ := h.entry id i hmem
        exact ⟨old, hold hi, hid⟩
    · rw [hwatchers]
      rcases Nat.lt_or_ge i s.loops.length with hlt | hge
      · rw [hloops, List.getElem?_append_left hlt] at hother
        exact List.mem_cons_of_mem _ (h.live i other hother hlive)
      · obtain ⟨hbound, -⟩ := List.getElem?_eq_some_iff.mp hother
        rw [hloops, List.length_append, List.length_singleton] at hbound
        obtain rfl : i = s.loops.length := by omega
        cases hlast.symm.trans hother
        exact List.mem_cons_self
  · intro hbacked
    constructor
    · intro hnext
      obtain ⟨other, hother, hlive⟩ := hnext _ _ (hwatchers ▸ List.mem_cons_self)
      cases hlast.symm.trans hother
      exact hlive
    · intro hlive id i hentry
      rw [hwatchers] at hentry
      rcases List.mem_cons.mp hentry with heq | hmem
      · cases heq
        exact ⟨loop, hlast, hlive⟩
      · obtain ⟨old, hi, holdLive⟩ := hbacked id i hmem
        exact ⟨old, hold hi, holdLive⟩

theorem Registry.watchConfig (parent : ℕ) (input : WatchConfigInput) (hasCallback : Bool)
    (session : Except String (Option String)) :
    (s.watchConfig parent input hasCallback session).1.Registry ∧
      (s.Backed → ((s.watchConfig parent input hasCallback session).1.Backed ↔
        Harmless s (.watchConfig parent input hasCallback session))) := by
  rw [System.watchConfig.eq_def]
  split_ifs with hsome
  · refine ⟨h, fun hbacked => iff_of_true hbacked fun hnone => ?_⟩
    rw [hnone] at hsome
    cases hsome
  · have hnone := Option.not_isSome_iff_eq_none.mp hsome
    cases session with
    | error e => exact ⟨h, fun hbacked => iff_of_true hbacked nofun⟩
    | ok session =>
      cases session with
      | none => exact ⟨h, fun hbacked => iff_of_true hbacked nofun⟩
      | some token =>
        have hlive : WatchLoop.Live
            ⟨input, hasCallback, parent, s.parents parent, some token, .starting⟩ ↔
            Harmless s (.watchConfig parent input hasCallback (.ok (some token))) :=
          ⟨fun hlive _ _ _ => hlive.2, fun hharmless => ⟨nofun, hharmless hnone token rfl⟩⟩
        rw [← hlive]
        exact h.add rfl rfl hnone

theorem Registry.step (a : Action) :
    (s.step digest a).1.Registry ∧ (s.Backed → ((s.step digest a).1.Backed ↔ Harmless s a)) := by
  cases a with
  | watchConfig parent input hasCallback session =>
    exact h.watchConfig parent input hasCallback session
  | stopWatching id =>
    obtain ⟨hregistry, hbacked⟩ := h.stopWatching id
    exact ⟨hregistry, fun hold => iff_of_true (hbacked hold) trivial⟩
  | stopAllWatching =>
    obtain ⟨hregistry, hbacked⟩ := h.stopAllWatching
    exact ⟨hregistry, fun _ => iff_of_true hbacked trivial⟩
  | endParent parent e => exact h.endParent parent e
  | turn i t => exact h.turn digest i t

end

end System

/-- The entries are accurate all along a run just if its steps are harmless. -/
theorem watchers_accurate_iff (digest : List UInt8 → String) (actions : List Action) :
    (∀ before, before <+: actions → ((watching digest).run System.start before).Accurate) ↔
      (watching digest).AllSteps Harmless System.start actions := by
  have hstart : System.start.Registry := ⟨List.nodup_nil, nofun, nofun⟩
  refine (watching digest).forall_prefix_iff_allSteps System.Registry System.Accurate Harmless
    (fun s a h => (h.step digest a).1) (fun s a h haccurate => ?_) _ actions hstart ?_
  · obtain ⟨hregistry, hbacked⟩ := h.step digest a
    exact hregistry.accurate_iff.trans (hbacked (h.accurate_iff.mp haccurate))
  · exact hstart.accurate_iff.mpr nofun

/-- A watch whose callback panics, which restarts after the delay and is stopped. -/
def restarted : List Action :=
  [.watchConfig 0 polledInput true (.ok (some "token")), .turn 0 .enter,
    .turn 0 (.tick (.response [1] none none)), .turn 0 (.callback true), .turn 0 .elapsed,
    .stopWatching "main"]

theorem restarted_accurate :
    ((watching fun _ => "").run System.start restarted).Accurate :=
  (watchers_accurate_iff (fun _ => "") restarted).mpr
    ⟨fun _ _ _ => rfl, fun _ _ _ => nofun, fun _ _ _ => nofun, fun _ _ _ => nofun,
      fun _ _ _ => nofun, trivial, trivial⟩ restarted List.prefix_rfl

/-- The context of the caller ends, and its ID cannot be watched again. -/
def abandoned : List Action :=
  [.watchConfig 0 polledInput true (.ok (some "token")), .turn 0 .enter, .endParent 0 .canceled,
    .turn 0 .done]

theorem abandoned_refused :
    ((watching fun _ => "").run System.start abandoned).loops.map (·.stage) = [.ended] ∧
      (((watching fun _ => "").run System.start abandoned).watchConfig 1 polledInput true
        (.ok (some "token"))).2 = .error "watcher for config profile[main] already exists" :=
  ⟨rfl, rfl⟩

end Photon.Aws
