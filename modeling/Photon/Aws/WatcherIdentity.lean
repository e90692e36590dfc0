import Photon.Aws.WatcherRegistry
import Photon.Lib.Delimited
import Photon.Lib.Text

/-!
The IDs under which the watchers of AppConfig are registered. An ID is a hash of four names joined
by hyphens, so that names which hold a hyphen themselves can be told apart in more than one way.
-/

namespace Photon.Aws

open Photon.Lib

structure WatcherOptions where
  application : String
  environment : String
  contentScope : String
  clientID : String
  pollInterval : Int

variable (hash : String → String) (o : WatcherOptions)

def WatcherOptions.names : List String :=
  [o.application, o.environment, o.contentScope, o.clientID]

/-- `hash` is the hexadecimal text of the SHA-256 sum. -/
def generateUniqueID : String :=
  hash (o.application ++ "-" ++ o.environment ++ "-" ++ o.contentScope ++ "-" ++ o.clientID)

def WatcherOptions.input : WatchConfigInput :=
  ⟨generateUniqueID hash o, o.contentScope, o.pollInterval⟩

/-- The action is no call of `WatchConfig`, or the one of a watcher. -/
def FromWatcher : Action → Prop
  | .watchConfig _ input _ _ => ∃ o : WatcherOptions, input = o.input hash
  | _ => True

/-- The ID stands for the names alone, and a watcher whose session would start is refused only
after a watch of the same names. -/
structure Distinct (hash : String → String) (digest : List UInt8 → String) (o : WatcherOptions) :
    Prop where
  names : ∀ other, generateUniqueID hash o = generateUniqueID hash other → o.names = other.names
  refused : ∀ actions : List Action, (∀ a ∈ actions, FromWatcher hash a) →
    ∀ parent hasCallback token,
      (((watching digest).run System.start actions).watchConfig parent (o.input hash) hasCallback
        (.ok (some token))).2 ≠ .ok () →
      ∃ (parent : ℕ) (other : WatcherOptions) (hasCallback : Bool) (session : _),
        Action.watchConfig parent (other.input hash) hasCallback session ∈ actions ∧
          other.names = o.names

/-! ### Entries -/

/-- An entry that a step leaves was there before, or is that of the step. -/
theorem System.mem_watchers_step {s : System} {digest : List UInt8 → String} {a : Action}
    {entry : String × ℕ} (h : entry ∈ (s.step digest a).1.app.watchers) :
    entry ∈ s.app.watchers ∨ ∃ parent input hasCallback session,
      a = .watchConfig parent input hasCallback session ∧ input.uniqueConfigID = entry.1 := by
  cases a with
  | watchConfig parent input hasCallback session =>
    rw [step, watchConfig.eq_def] at h
    split_ifs at h
    · exact Or.inl h
    · rcases session with e | _ | token
      · exact Or.inl h
      · exact Or.inl h
      · rcases List.mem_cons.mp h with rfl | hold
        · exact Or.inr ⟨parent, input, hasCallback, _, rfl, rfl⟩
        · exact Or.inl hold
  | stopWatching id =>
    rw [step, stopWatching] at h
    cases hlookup : s.app.watchers.lookup id with
    | none =>
      rw [hlookup] at h
      exact Or.inl h
    | some i =>
      rw [hlookup] at h
      exact Or.inl (List.mem_of_mem_filter h)
  | stopAllWatching => exact absurd h List.not_mem_nil
  | endParent parent e => exact Or.inl h
  | turn i t =>
    rw [step] at h
    cases hloop : s.loops[i]? with
    | none =>
      rw [hloop] at h
      exact Or.inl h
    | some loop =>
      rw [hloop] at h
      rw [(loop.turn_spec digest s.app t).1] at h
      exact Or.inl h

/-- Every entry is that of an earlier call. -/
theorem watched_before (digest : List UInt8 → String) (actions : List Action)
    {entry : String × ℕ}
    (h : entry ∈ ((watching digest).run System.start actions).app.watchers) :
    ∃ parent input hasCallback session,
      Action.watchConfig parent input hasCallback session ∈ actions ∧
        input.uniqueConfigID = entry.1 := by
  induction actions using List.reverseRecOn with
  | nil => exact absurd h List.not_mem_nil
  | append_singleton actions a ih =>
    rw [Machine.run_append] at h
    rcases System.mem_watchers_step h with hold | ⟨parent, input, hasCallback, session, rfl, hid⟩
    · obtain ⟨parent, input, hasCallback, session, hmem, hid⟩ := ih hold
      exact ⟨parent, input, hasCallback, session, List.mem_append_left _ hmem, hid⟩
    · exact ⟨parent, input, hasCallback, session, List.mem_append_right _ List.mem_cons_self, hid⟩

theorem exists_entry_of_refused {s : System} {parent : ℕ} {input : WatchConfigInput}
    {hasCallback : Bool} {token : String}
    (h : (s.watchConfig parent input hasCallback (.ok (some token))).2 ≠ .ok ()) :
    ∃ i, (input.uniqueConfigID, i) ∈ s.app.watchers := by
  rw [System.watchConfig] at h
  split_ifs at h with hsome
  · exact (s.isSome_lookup_iff input.uniqueConfigID).mp hsome
  · exact absurd rfl h

/-! ### Names -/

section Names

variable {hash : String → String}

/-- The text that is hashed. -/
theorem toList_joined :
    (o.application ++ "-" ++ o.environment ++ "-" ++ o.contentScope ++ "-" ++ o.clientID).toList =
      ['-'].intercalate (o.names.map String.toList) := by
  simp [WatcherOptions.names, String.toList_append, List.intercalate_cons_cons]

theorem names_eq_of_no_hyphen (hhash : Function.Injective hash) {o other : WatcherOptions}
    (ho : ∀ name ∈ o.names, '-' ∉ name.toList)
    (h : generateUniqueID hash o = generateUniqueID hash other) : o.names = other.names := by
  have htext := congrArg String.toList (hhash h)
  rw [toList_joined, toList_joined] at htext
  have hcount : ∀ name ∈ other.names, '-' ∉ name.toList := by
    have hhyphens := congrArg (List.count '-') htext
    simp only [WatcherOptions.names, List.forall_mem_cons, ← List.count_eq_zero] at ho
    simp only [WatcherOptions.names, List.map_cons, List.map_nil, List.intercalate_cons_cons,
      List.intercalate_singleton, List.count_append, ho] at hhyphens
    simp only [WatcherOptions.names, List.forall_mem_cons, ← List.count_eq_zero,
      List.not_mem_nil, false_imp_iff, implies_true, and_true]
    omega
  have hfree : ∀ {o : WatcherOptions}, (∀ name ∈ o.names, '-' ∉ name.toList) →
      ∀ part ∈ o.names.map String.toList, '-' ∉ part := by
    intro o ho part hpart
    obtain ⟨name, hname, rfl⟩ := List.mem_map.mp hpart
    exact ho name hname
  have hparts := intercalate_inj (List.cons_ne_nil _ _) (List.cons_ne_nil _ _) (hfree ho)
    (hfree hcount) htext
  exact List.map_injective_iff.mpr (fun _ _ => String.toList_injective) hparts

theorem exists_hyphen {s : String} (h : '-' ∈ s.toList) : ∃ x y, s = x ++ "-" ++ y := by
  obtain ⟨front, back, hs⟩ := List.append_of_mem h
  refine ⟨String.ofList front, String.ofList back, String.toList_injective ?_⟩
  simp [String.toList_append, hs]

/-- A hyphen in a name can be taken for one that joins two names. -/
theorem exists_other_names (hash : String → String) {o : WatcherOptions} {name : String}
    (hname : name ∈ o.names) (h : '-' ∈ name.toList) :
    ∃ other, generateUniqueID hash o = generateUniqueID hash other ∧ o.names ≠ other.names := by
  have hne (x y : String) : x ≠ x ++ "-" ++ y := ne_append_separator (by decide) (.inl rfl)
  obtain ⟨x, y, rfl⟩ := exists_hyphen h
  obtain ⟨application, environment, scope, client, interval⟩ := o
  simp only [WatcherOptions.names, List.mem_cons, List.not_mem_nil, or_false] at hname
  rcases hname with rfl | rfl | rfl | rfl
  · refine ⟨⟨x, y ++ "-" ++ environment, scope, client, interval⟩, ?_, fun heq => ?_⟩
    · simp only [generateUniqueID, String.append_assoc]
    · exact hne x y (List.cons.inj heq).1.symm
  · refine ⟨⟨application ++ "-" ++ x, y, scope, client, interval⟩, ?_, fun heq => ?_⟩
    · simp only [generateUniqueID, String.append_assoc]
    · exact hne application x (List.cons.inj heq).1
  · refine ⟨⟨application, environment ++ "-" ++ x, y, client, interval⟩, ?_, fun heq => ?_⟩
    · simp only [generateUniqueID, String.append_assoc]
    · exact hne environment x (List.cons.inj (List.cons.inj heq).2).1
  · refine ⟨⟨application, environment, scope ++ "-" ++ x, y, interval⟩, ?_, fun heq => ?_⟩
    · simp only [generateUniqueID, String.append_assoc]
    · exact hne scope x (List.cons.inj (List.cons.inj (List.cons.inj heq).2).2).1

end Names

/-- Options are told apart from all others just if none of their names holds a hyphen. -/
theorem watcher_ids_distinct_iff {hash : String → String} (hhash : Function.Injective hash)
    (digest : List UInt8 → String) (o : WatcherOptions) :
    Distinct hash digest o ↔ ∀ name ∈ o.names, '-' ∉ name.toList := by
  constructor
  · intro h name hname hhyphen
    obtain ⟨other, hid, hne⟩ := exists_other_names hash hname hhyphen
    exact hne (h.names other hid)
  · intro hfree
    refine ⟨fun other hid => names_eq_of_no_hyphen hhash hfree hid, ?_⟩
    intro actions hactions parent hasCallback token hrefused
    obtain ⟨i, hentry⟩ := exists_entry_of_refused hrefused
    obtain ⟨parent, input, hasCallback, session, hmem, hid⟩ := watched_before digest actions hentry
    obtain ⟨other, rfl⟩ := hactions _ hmem
    exact ⟨parent, other, hasCallback, session, hmem,
      (names_eq_of_no_hyphen hhash hfree hid.symm).symm⟩

theorem shop_distinct :
    Distinct id (fun _ => "") ⟨"shop", "prod", "flags", "web", 1⟩ := by
  refine (watcher_ids_distinct_iff Function.injective_id _ _).mpr ?_
  decide

/-- Two applications with one ID: the second is refused while the first is watched. -/
theorem other_application_refused :
    let first : WatcherOptions := ⟨"shop-eu", "prod", "flags", "web", 1⟩
    let second : WatcherOptions := ⟨"shop", "eu-prod", "flags", "web", 1⟩
    first.names ≠ second.names ∧ generateUniqueID id first = generateUniqueID id second ∧
      (((watching fun _ => "").run System.start
        [.watchConfig 0 (first.input id) true (.ok (some "token"))]).watchConfig 0
          (second.input id) true (.ok (some "token"))).2 ≠ .ok () := by
  refine ⟨by decide, rfl, ?_⟩
  decide

end Photon.Aws
