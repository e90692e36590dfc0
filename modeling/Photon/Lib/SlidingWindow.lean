import Mathlib.Tactic

/-!
Sliding-window counters. A counter keeps the times of earlier attempts, forgets
those that have left the window when the next attempt comes, and allows the attempt
while few enough are left. Forgetting costs nothing, because the clock never goes
back, so the decisions are those of a counter that remembers everything, and no
window of time holds more allowed attempts than the limit.
-/

namespace Photon.Lib.SlidingWindow

def recent (window now : Nat) (times : List Nat) : List Nat :=
  times.filter fun time => decide (now - time ≤ window)

/-- The kept times are as good as the whole record from `now` on. -/
def Keeps (window : Nat) (kept times : List Nat) (now : Nat) : Prop :=
  ∀ later, now ≤ later → recent window later kept = recent window later times

variable {window now : Nat} {kept times : List Nat}

theorem Keeps.nil : Keeps window [] [] now := fun _ _ => rfl

theorem Keeps.later (h : Keeps window kept times now) {later : Nat} (hle : now ≤ later) :
    Keeps window kept times later :=
  fun last hlast => h last (hle.trans hlast)

/-- What has left the window now has left it later too. -/
theorem recent_recent {later : Nat} (hle : now ≤ later) (times : List Nat) :
    recent window later (recent window now times) = recent window later times := by
  rw [recent, recent, List.filter_filter, recent]
  refine List.filter_congr fun time _ => ?_
  have himp : later - time ≤ window → now - time ≤ window := by omega
  simpa using himp

/-- One attempt forgets the old times and records its own. -/
theorem Keeps.attempt (h : Keeps window kept times now) {time : Nat} (hle : now ≤ time) :
    Keeps window (recent window time kept ++ [time]) (times ++ [time]) time := by
  intro later hlater
  have hold : recent window later (recent window time kept) = recent window later times := by
    rw [h time hle, recent_recent hlater]
  simp only [recent, List.filter_append] at hold ⊢
  rw [hold]

/-- Each attempt, given with its time and the decision, was decided by the attempts
before it that were still in the window. -/
def Metered (window limit : Nat) (attempts : List (Nat × Bool)) : Prop :=
  ∀ before time allowed after, attempts = before ++ (time, allowed) :: after →
    (allowed = true ↔ (recent window time (before.map Prod.fst)).length + 1 ≤ limit)

theorem Metered.snoc {limit : Nat} {attempts : List (Nat × Bool)}
    (h : Metered window limit attempts) {time : Nat} {allowed : Bool}
    (hdecided : allowed = true ↔
      (recent window time (attempts.map Prod.fst)).length + 1 ≤ limit) :
    Metered window limit (attempts ++ [(time, allowed)]) := by
  intro before other decision after hsplit
  rcases List.eq_nil_or_concat after with rfl | ⟨init, last, rfl⟩
  · obtain ⟨rfl, hlast⟩ := List.append_inj' hsplit rfl
    cases hlast
    exact hdecided
  · rw [List.concat_eq_append, ← List.cons_append, ← List.append_assoc] at hsplit
    exact h before other decision init (List.append_inj' hsplit rfl).1

/-- The allowed attempts in the window of time that begins at `start`. -/
def allowedWithin (window start : Nat) (attempts : List (Nat × Bool)) : Nat :=
  attempts.countP fun attempt =>
    attempt.2 && decide (start ≤ attempt.1) && decide (attempt.1 ≤ start + window)

/-- No window of time holds more allowed attempts than the limit. The last of them
saw all the others. -/
theorem Metered.allowedWithin_le {limit : Nat} {attempts : List (Nat × Bool)}
    (h : Metered window limit attempts) (start : Nat) :
    allowedWithin window start attempts ≤ limit := by
  induction attempts using List.reverseRecOn with
  | nil => exact Nat.zero_le _
  | append_singleton before last ih =>
    obtain ⟨time, allowed⟩ := last
    have hbefore : Metered window limit before := fun init other decision rest hsplit =>
      h init other decision (rest ++ [(time, allowed)]) (by rw [hsplit, List.append_assoc]; rfl)
    rw [allowedWithin, List.countP_append, List.countP_singleton]
    split
    case isFalse => exact ih hbefore
    case isTrue hcounted =>
      simp only [Bool.and_eq_true, decide_eq_true_eq] at hcounted
      obtain ⟨⟨rfl, hstart⟩, hend⟩ := hcounted
      have hroom := (h before time true [] rfl).mp rfl
      have hseen : allowedWithin window start before ≤
          (recent window time (before.map Prod.fst)).length := by
        rw [recent, ← List.countP_eq_length_filter, List.countP_map]
        refine List.countP_mono_left fun attempt _ hcounted => ?_
        simp only [Bool.and_eq_true, decide_eq_true_eq] at hcounted
        simp only [Function.comp_apply, decide_eq_true_eq]
        omega
      exact (Nat.add_le_add_right hseen 1).trans hroom

end Photon.Lib.SlidingWindow
