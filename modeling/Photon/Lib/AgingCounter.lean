import Mathlib.Tactic

/-!
Counters that stop at a limit and age by halving: on request, and after every
`interval` observations since they were cleared. A counter picks the observations it
counts; it ages at the same points whichever it picks. The number of observations is
kept modulo `modulus`.
-/

namespace Photon.Lib

inductive Tally (α : Type) where
  | observe (a : α)
  | halve
  | clear

structure Aging where
  limit : Nat
  interval : Nat
  modulus : Nat

structure AgingCounter where
  value : Nat
  seen : Nat
deriving DecidableEq

namespace AgingCounter

variable {α : Type} (p : Aging) (limit : Nat) (counts more : α → Bool)

def bump (limit v : Nat) : Nat := if v ≠ limit then v + 1 else v

def step (s : AgingCounter) : Tally α → AgingCounter
  | .observe a =>
    let value := if counts a then bump p.limit s.value else s.value
    let seen := (s.seen + 1) % p.modulus
    ⟨if p.interval ≠ 0 ∧ seen % p.interval = 0 then value / 2 else value, seen⟩
  | .halve => ⟨s.value / 2, s.seen⟩
  | .clear => ⟨0, 0⟩

def run (events : List (Tally α)) : AgingCounter :=
  events.foldl (step p counts) ⟨0, 0⟩

def sinceClear (events : List (Tally α)) : List α :=
  events.foldl (fun past event =>
    match event with
    | .observe a => past ++ [a]
    | .halve => past
    | .clear => []) []

theorem run_snoc (events : List (Tally α)) (event : Tally α) :
    run p counts (events ++ [event]) =
      step p counts (run p counts events) event := by
  simp [run]

theorem bump_mono {v w : Nat} (h : v ≤ w) : bump limit v ≤ bump limit w := by
  unfold bump
  split <;> split <;> omega

theorem bump_le {v : Nat} (h : v ≤ limit) : bump limit v ≤ limit := by
  unfold bump
  split <;> omega

theorem bump_le_succ (v : Nat) : bump limit v ≤ v + 1 := by
  unfold bump
  split <;> omega

theorem bump_min (n : Nat) : bump limit (min limit n) = min limit (n + 1) := by
  unfold bump
  split <;> omega

/-- An observation leaves at most the bumped value, whether it ages or not. -/
theorem step_observe_le (s : AgingCounter) (a : α) :
    (step p counts s (.observe a)).value ≤
      if counts a then bump p.limit s.value else s.value := by
  simp only [step]
  generalize (if counts a = true then bump p.limit s.value else s.value) = v
  split <;> omega

theorem run_seen (events : List (Tally α)) :
    (run p counts events).seen = (run p more events).seen := by
  induction events using List.reverseRecOn with
  | nil => rfl
  | append_singleton events event ih =>
    rw [run_snoc, run_snoc]
    cases event with
    | observe a => simp [step, ih]
    | halve => exact ih
    | clear => rfl

variable {counts more}

/-- A counter that counts more is never behind. -/
theorem run_mono (h : ∀ a, counts a = true → more a = true) (events : List (Tally α)) :
    (run p counts events).value ≤ (run p more events).value := by
  induction events using List.reverseRecOn with
  | nil => exact le_rfl
  | append_singleton events event ih =>
    have hseen := run_seen p counts more events
    rw [run_snoc, run_snoc]
    cases event with
    | observe a =>
      have hvalue : (if counts a then bump p.limit (run p counts events).value
          else (run p counts events).value) ≤
          if more a then bump p.limit (run p more events).value else (run p more events).value := by
        have hbump := bump_mono p.limit ih
        have hgrow : (run p more events).value ≤ bump p.limit (run p more events).value := by
          unfold bump
          split <;> omega
        cases hcounts : counts a with
        | true => simpa [h a hcounts] using hbump
        | false => cases more a <;> simp <;> omega
      simp only [step, hseen]
      split
      · exact Nat.div_le_div_right hvalue
      · exact hvalue
    | halve => exact Nat.div_le_div_right ih
    | clear => exact le_rfl

theorem run_le_limit (counts : α → Bool) (events : List (Tally α)) :
    (run p counts events).value ≤ p.limit := by
  induction events using List.reverseRecOn with
  | nil => exact Nat.zero_le _
  | append_singleton events event ih =>
    rw [run_snoc]
    cases event with
    | observe a =>
      refine (step_observe_le p counts _ a).trans ?_
      split
      · exact bump_le p.limit ih
      · exact ih
    | halve => exact (Nat.div_le_self _ 2).trans ih
    | clear => exact Nat.zero_le _

/-- Up to the first aging, a counter has counted everything it picks, up to the limit. -/
theorem run_observes (counts : α → Bool) (hmodulus : p.interval ≤ p.modulus) {observed : List α}
    (hfew : observed.length < p.interval) :
    run p counts (observed.map .observe) =
      ⟨min p.limit (observed.countP counts), observed.length⟩ := by
  induction observed using List.reverseRecOn with
  | nil => simp [run]
  | append_singleton observed a ih =>
    rw [List.length_append, List.length_singleton] at hfew
    have hseen : (observed.length + 1) % p.modulus = observed.length + 1 :=
      Nat.mod_eq_of_lt (by omega)
    have hage : ¬ (p.interval ≠ 0 ∧ (observed.length + 1) % p.interval = 0) := by
      rw [Nat.mod_eq_of_lt hfew]
      omega
    rw [List.map_append, List.map_singleton, run_snoc, ih (by omega), step]
    simp only [hseen, if_neg hage, List.countP_append, List.countP_singleton, List.length_append,
      List.length_singleton]
    split
    · rw [bump_min]
    · rfl

/-- A counter has counted nothing from before it was cleared. -/
theorem run_le_length (counts : α → Bool) (events : List (Tally α)) :
    (run p counts events).value ≤ (sinceClear events).length := by
  induction events using List.reverseRecOn with
  | nil => exact le_rfl
  | append_singleton events event ih =>
    rw [run_snoc]
    cases event with
    | observe a =>
      have hstep := step_observe_le p counts (run p counts events) a
      have hbump := bump_le_succ p.limit (run p counts events).value
      have hlength : (sinceClear (events ++ [.observe a])).length =
          (sinceClear events).length + 1 := by simp [sinceClear]
      rw [hlength]
      split at hstep <;> omega
    | halve =>
      simp only [sinceClear, List.foldl_append] at ih ⊢
      exact (Nat.div_le_self _ 2).trans ih
    | clear => exact Nat.zero_le _

/-- Counters that pick the same observations since they were cleared are equal. -/
theorem run_congr {events : List (Tally α)}
    (h : ∀ a ∈ sinceClear events, counts a = more a) :
    run p counts events = run p more events := by
  induction events using List.reverseRecOn with
  | nil => rfl
  | append_singleton events event ih =>
    rw [run_snoc, run_snoc]
    simp only [sinceClear, List.foldl_append] at h ih
    cases event with
    | observe a =>
      simp only [List.foldl_cons, List.foldl_nil, List.mem_append, List.mem_singleton] at h
      rw [ih fun b hb => h b (Or.inl hb), step, step, h a (Or.inr rfl)]
    | halve => rw [ih h, step, step]
    | clear => rfl

end AgingCounter

end Photon.Lib
