import Mathlib.Tactic

/-!
Deterministic machines driven by a list of actions. A run keeps the final
state, a trace pairs each action with its answer. `AllSteps` says that a side
condition held whenever an action was taken, so a safety result for every run
is two facts: the invariant holds at the start and one permitted step keeps it.
-/

namespace Photon.Lib

/-- A machine answers each action and moves to the next state. -/
structure Machine (σ α β : Type) where
  step : σ → α → σ × β

namespace Machine

variable {σ α β : Type} (m : Machine σ α β)

def run (s : σ) : List α → σ
  | [] => s
  | a :: rest => run (m.step s a).1 rest

def trace (s : σ) : List α → List (α × β)
  | [] => []
  | a :: rest => (a, (m.step s a).2) :: trace (m.step s a).1 rest

/-- The side condition `Ok` held before every action of the run. -/
def AllSteps (Ok : σ → α → Prop) (s : σ) : List α → Prop
  | [] => True
  | a :: rest => Ok s a ∧ AllSteps Ok (m.step s a).1 rest

instance decidableAllSteps (Ok : σ → α → Prop) [∀ s a, Decidable (Ok s a)] (s : σ) :
    (actions : List α) → Decidable (m.AllSteps Ok s actions)
  | [] => .isTrue trivial
  | a :: rest =>
    have := decidableAllSteps Ok (m.step s a).1 rest
    inferInstanceAs (Decidable (Ok s a ∧ m.AllSteps Ok (m.step s a).1 rest))

@[simp]
theorem run_nil (s : σ) : m.run s [] = s := rfl

@[simp]
theorem run_cons (s : σ) (a : α) (rest : List α) :
    m.run s (a :: rest) = m.run (m.step s a).1 rest := rfl

theorem run_eq_foldl (s : σ) (actions : List α) :
    m.run s actions = actions.foldl (fun s a => (m.step s a).1) s := by
  induction actions generalizing s with
  | nil => rfl
  | cons a rest ih => exact ih (m.step s a).1

theorem run_append (s : σ) (first second : List α) :
    m.run s (first ++ second) = m.run (m.run s first) second := by
  induction first generalizing s with
  | nil => rfl
  | cons a rest ih => exact ih (m.step s a).1

theorem trace_append (s : σ) (first second : List α) :
    m.trace s (first ++ second) = m.trace s first ++ m.trace (m.run s first) second := by
  induction first generalizing s with
  | nil => rfl
  | cons a rest ih => exact congrArg (_ :: ·) (ih (m.step s a).1)

variable {actions : List α}

/-- A condition on actions alone is checked action by action. -/
theorem allSteps_of_forall_mem {Good : α → Prop} (s : σ) (h : ∀ a ∈ actions, Good a) :
    m.AllSteps (fun _ a => Good a) s actions := by
  induction actions generalizing s with
  | nil => trivial
  | cons a rest ih =>
    exact ⟨h a List.mem_cons_self, ih _ (fun b hb => h b (List.mem_cons_of_mem a hb))⟩

/-- A weaker side condition held too. -/
theorem AllSteps.imp {m : Machine σ α β} {Ok Weak : σ → α → Prop} (h : ∀ s a, Ok s a → Weak s a)
    {s : σ} (hsteps : m.AllSteps Ok s actions) : m.AllSteps Weak s actions := by
  induction actions generalizing s with
  | nil => trivial
  | cons a rest ih => exact ⟨h s a hsteps.1, ih hsteps.2⟩

/-- Both parts of a run met the side condition. -/
theorem AllSteps.of_append {m : Machine σ α β} {Ok : σ → α → Prop} {s : σ}
    {first second : List α} (h : m.AllSteps Ok s (first ++ second)) :
    m.AllSteps Ok s first ∧ m.AllSteps Ok (m.run s first) second := by
  induction first generalizing s with
  | nil => exact ⟨trivial, h⟩
  | cons a rest ih => exact ⟨⟨h.1, (ih h.2).1⟩, (ih h.2).2⟩

/-- An event of a trace was answered in the state its past leads to. -/
theorem trace_eq_append {s : σ} {past rest : List (α × β)} {a : α} {b : β}
    (h : m.trace s actions = past ++ (a, b) :: rest) :
    ∃ before after, actions = before ++ a :: after ∧ m.trace s before = past ∧
      (m.step (m.run s before) a).2 = b := by
  induction past generalizing s actions with
  | nil =>
    cases actions with
    | nil => cases h
    | cons first others =>
      obtain ⟨hevent, _⟩ := List.cons.inj h
      obtain ⟨rfl, hanswer⟩ := Prod.mk.inj hevent
      exact ⟨[], others, rfl, rfl, hanswer⟩
  | cons event past ih =>
    cases actions with
    | nil => cases h
    | cons first others =>
      obtain ⟨rfl, hrest⟩ := List.cons.inj h
      obtain ⟨before, after, rfl, hpast, hanswer⟩ := ih hrest
      exact ⟨first :: before, after, rfl, by simp [trace, hpast], hanswer⟩

/-- A property of every action of a list and of the actions before it. -/
theorem forall_split_cons {P : List α → α → Prop} (a : α) (rest : List α) :
    (∀ before at_ after, a :: rest = before ++ at_ :: after → P before at_) ↔
      P [] a ∧ ∀ before at_ after, rest = before ++ at_ :: after → P (a :: before) at_ := by
  constructor
  · intro h
    exact ⟨h [] a rest rfl, fun before at_ after hsplit =>
      h (a :: before) at_ after (by rw [hsplit]; rfl)⟩
  · rintro ⟨hhead, htail⟩ before at_ after hsplit
    cases before with
    | nil =>
      obtain ⟨rfl, _⟩ := List.cons.inj hsplit
      exact hhead
    | cons _ before =>
      obtain ⟨rfl, hrest⟩ := List.cons.inj hsplit
      exact htail before at_ after hrest

/-- An invariant kept by every permitted step holds after every permitted run. -/
theorem run_invariant (Inv : σ → Prop) (Ok : σ → α → Prop)
    (hstep : ∀ s a, Inv s → Ok s a → Inv (m.step s a).1)
    (s : σ) (actions : List α) (hstart : Inv s)
    (hsteps : m.AllSteps Ok s actions) : Inv (m.run s actions) := by
  induction actions generalizing s with
  | nil => exact hstart
  | cons a rest ih =>
    exact ih (m.step s a).1 (hstep s a hstart hsteps.1) hsteps.2

/-- An invariant kept by every step holds after every run. -/
theorem run_invariant_of_step (Inv : σ → Prop) (hstep : ∀ s a, Inv s → Inv (m.step s a).1)
    (s : σ) (actions : List α) (hstart : Inv s) : Inv (m.run s actions) :=
  m.run_invariant Inv (fun _ _ => True) (fun s a hs _ => hstep s a hs) s actions hstart
    (m.allSteps_of_forall_mem s fun _ _ => trivial)

/-- If the permitted steps are just those that keep a property, the property holds all along a
run just if all of its steps are permitted. -/
theorem forall_prefix_iff_allSteps (Inv Good : σ → Prop) (Ok : σ → α → Prop)
    (hinv : ∀ s a, Inv s → Inv (m.step s a).1)
    (hstep : ∀ s a, Inv s → Good s → (Good (m.step s a).1 ↔ Ok s a))
    (s : σ) (actions : List α) (hstart : Inv s) (hgood : Good s) :
    (∀ before, before <+: actions → Good (m.run s before)) ↔ m.AllSteps Ok s actions := by
  induction actions generalizing s with
  | nil =>
    refine iff_of_true (fun before hbefore => ?_) trivial
    rw [List.prefix_nil.mp hbefore]
    exact hgood
  | cons a rest ih =>
    constructor
    · intro h
      have hnext : ∀ before, before <+: rest → Good (m.run (m.step s a).1 before) :=
        fun before hbefore => h (a :: before) (List.cons_prefix_cons.mpr ⟨rfl, hbefore⟩)
      have hkept := hnext [] List.nil_prefix
      exact ⟨(hstep s a hstart hgood).mp hkept, (ih _ (hinv s a hstart) hkept).mp hnext⟩
    · rintro ⟨hok, hrest⟩ before hbefore
      have hkept := (hstep s a hstart hgood).mpr hok
      cases before with
      | nil => exact hgood
      | cons b before =>
        obtain ⟨rfl, hprefix⟩ := List.cons_prefix_cons.mp hbefore
        exact (ih _ (hinv s _ hstart) hkept).mpr hrest before hprefix

/-- The same rule where something is known of every state on the way. -/
theorem run_invariant_along (Inv Known : σ → Prop) (Ok : σ → α → Prop)
    (hstep : ∀ s a, Inv s → Ok s a → Known s → Known (m.step s a).1 → Inv (m.step s a).1)
    (s : σ) (actions : List α) (hstart : Inv s)
    (hknown : ∀ before, before <+: actions → Known (m.run s before))
    (hsteps : m.AllSteps Ok s actions) : Inv (m.run s actions) := by
  induction actions generalizing s with
  | nil => exact hstart
  | cons a rest ih =>
    have hnow := hknown [] List.nil_prefix
    have hnext : ∀ before, before <+: rest → Known (m.run (m.step s a).1 before) :=
      fun before hbefore => hknown (a :: before) (List.cons_prefix_cons.mpr ⟨rfl, hbefore⟩)
    exact ih (m.step s a).1 (hstep s a hstart hsteps.1 hnow (hnext [] List.nil_prefix)) hnext
      hsteps.2

/-- The same rule for an invariant that also speaks of the answers given so
far. -/
theorem trace_invariant (Inv : List (α × β) → σ → Prop) (Ok : σ → α → Prop)
    (hstep : ∀ past s a, Inv past s → Ok s a →
      Inv (past ++ [(a, (m.step s a).2)]) (m.step s a).1)
    (past : List (α × β)) (s : σ) (actions : List α) (hstart : Inv past s)
    (hsteps : m.AllSteps Ok s actions) :
    Inv (past ++ m.trace s actions) (m.run s actions) := by
  induction actions generalizing s past with
  | nil => simpa [trace] using hstart
  | cons a rest ih =>
    have hnext := ih (past ++ [(a, (m.step s a).2)]) (m.step s a).1
      (hstep past s a hstart hsteps.1) hsteps.2
    simpa [trace, List.append_assoc] using hnext

/-- If good steps are just the permitted ones as long as the steps before were good, then all steps
of a run are good just if all are permitted. -/
theorem forall_steps_iff (Inv : List (α × β) → σ → Prop) (Good Ok : List (α × β) → σ → α → Prop)
    (hiff : ∀ past s a, Inv past s → (Good past s a ↔ Ok past s a))
    (hstep : ∀ past s a, Inv past s → Good past s a →
      Inv (past ++ [(a, (m.step s a).2)]) (m.step s a).1)
    (past : List (α × β)) (s : σ) (actions : List α) (hstart : Inv past s) :
    (∀ before a after, actions = before ++ a :: after →
        Good (past ++ m.trace s before) (m.run s before) a) ↔
      ∀ before a after, actions = before ++ a :: after →
        Ok (past ++ m.trace s before) (m.run s before) a := by
  induction actions generalizing s past with
  | nil => simp
  | cons a rest ih =>
    rw [forall_split_cons
        (P := fun before b => Good (past ++ m.trace s before) (m.run s before) b),
      forall_split_cons
        (P := fun before b => Ok (past ++ m.trace s before) (m.run s before) b)]
    have htrace : ∀ before, past ++ m.trace s (a :: before) =
        (past ++ [(a, (m.step s a).2)]) ++ m.trace (m.step s a).1 before := by
      intro before
      rw [trace, List.append_cons]
    simp only [htrace, run_nil, run_cons]
    rw [trace, List.append_nil, hiff past s a hstart]
    refine and_congr_right fun hok => ih _ _ (hstep past s a hstart ?_)
    exact (hiff past s a hstart).mpr hok

/-- Simulation: machines whose single steps answer alike and keep a relation between
their states answer alike along every run. -/
theorem simulation {τ : Type} (spec : Machine τ α β) (R : σ → τ → Prop)
    (hstep : ∀ s t a, R s t →
      (m.step s a).2 = (spec.step t a).2 ∧ R (m.step s a).1 (spec.step t a).1)
    {s : σ} {t : τ} (hstart : R s t) (actions : List α) :
    m.trace s actions = spec.trace t actions ∧ R (m.run s actions) (spec.run t actions) := by
  induction actions generalizing s t with
  | nil => exact ⟨rfl, hstart⟩
  | cons a rest ih =>
    obtain ⟨hanswer, hnext⟩ := hstep s t a hstart
    obtain ⟨htrace, hrun⟩ := ih hnext
    exact ⟨by rw [trace, trace, hanswer, htrace], hrun⟩

/--
Actions that leave a relation to a second state as it is can be taken out of a run: the answers to
the others are those of the run without them.
-/
theorem trace_filter (keep : α → Bool) (Good : α → Prop) (R : σ → σ → Prop)
    (hkept : ∀ s t a, R s t → Good a → keep a = true →
      (m.step s a).2 = (m.step t a).2 ∧ R (m.step s a).1 (m.step t a).1)
    (hdropped : ∀ s t a, R s t → Good a → keep a = false → R (m.step s a).1 t) {s t : σ}
    (hstart : R s t) (hgood : ∀ a ∈ actions, Good a) :
    (m.trace s actions).filter (fun entry => keep entry.1) = m.trace t (actions.filter keep) ∧
      R (m.run s actions) (m.run t (actions.filter keep)) := by
  induction actions generalizing s t with
  | nil => exact ⟨rfl, hstart⟩
  | cons a rest ih =>
    have ha := hgood a List.mem_cons_self
    have hrest : ∀ a ∈ rest, Good a := fun a h => hgood a (List.mem_cons_of_mem _ h)
    cases hkeep : keep a with
    | true =>
      obtain ⟨hanswer, hnext⟩ := hkept s t a hstart ha hkeep
      obtain ⟨htrace, hrun⟩ := ih hnext hrest
      rw [List.filter_cons_of_pos hkeep]
      refine ⟨?_, hrun⟩
      rw [trace, trace, List.filter_cons, if_pos hkeep, htrace, hanswer]
    | false =>
      obtain ⟨htrace, hrun⟩ := ih (hdropped s t a hstart ha hkeep) hrest
      have hnot : ¬keep a = true := by simp [hkeep]
      rw [List.filter_cons_of_neg hnot]
      refine ⟨?_, hrun⟩
      rw [trace, List.filter_cons, if_neg hnot, htrace]

end Machine

end Photon.Lib
