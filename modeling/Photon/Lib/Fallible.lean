import Mathlib.Tactic

/-!
Computations that may fail. A sequence of calls succeeds if all of them do. A loop that tests
element after element and returns at the first answer it stops at fails just if a failing test
is reached; where no test fails it is the disjunction or the conjunction of the answers.
-/

namespace Photon.Lib

variable {α β ε : Type}

@[simp]
theorem ok_bind (a : α) (f : α → Except ε β) : (Except.ok a >>= f) = f a := rfl

@[simp]
theorem error_bind (e : ε) (f : α → Except ε β) : (Except.error e >>= f) = .error e := rfl

/-- A sequence of two calls succeeds if both do. -/
theorem bind_eq_ok_iff {x : Except ε α} {f : α → Except ε β} {r : β} :
    x >>= f = .ok r ↔ ∃ a, x = .ok a ∧ f a = .ok r := by
  cases x with
  | error e => exact iff_of_false (fun h => by cases h) fun ⟨_, h, _⟩ => by cases h
  | ok a =>
    constructor
    · exact fun h => ⟨a, rfl, h⟩
    · rintro ⟨_, ha, h⟩
      cases ha
      exact h

theorem map_eq_ok_iff {f : α → β} {x : Except ε α} {r : β} :
    x.map f = .ok r ↔ ∃ a, x = .ok a ∧ f a = r := by
  cases x <;> simp [Except.map]

/-- A loop of checks passes if every check does. -/
theorem forM_eq_ok_iff {check : α → Except ε Unit} {l : List α} :
    l.forM check = .ok () ↔ ∀ a ∈ l, check a = .ok () := by
  induction l with
  | nil => exact iff_of_true rfl (by simp)
  | cons a rest ih =>
    have hstep : (a :: rest).forM check = check a >>= fun _ => rest.forM check := rfl
    rw [hstep, bind_eq_ok_iff, List.forall_mem_cons, ← ih]
    exact ⟨fun ⟨_, ha, hrest⟩ => ⟨ha, hrest⟩, fun ⟨ha, hrest⟩ => ⟨(), ha, hrest⟩⟩

/-- Stops at the first answer `stop`; without one it gives the other answer. -/
def search (stop : Bool) (test : α → Except ε Bool) : List α → Except ε Bool
  | [] => .ok (!stop)
  | a :: rest =>
    match test a with
    | .error e => .error e
    | .ok answer => if answer = stop then .ok stop else search stop test rest

def Failed (result : Except ε β) : Prop := ∃ e, result = .error e

@[simp] theorem failed_error (e : ε) : Failed (.error e : Except ε β) := ⟨e, rfl⟩

@[simp] theorem not_failed_ok (b : β) : ¬ Failed (.ok b : Except ε β) := by
  rintro ⟨e, h⟩
  cases h

theorem returns_iff_not_failed (result : Except ε β) :
    (∃ b, result = .ok b) ↔ ¬ Failed result := by
  cases result <;> simp

@[simp] theorem failed_map {γ : Type} (f : β → γ) (result : Except ε β) :
    Failed (result.map f) ↔ Failed result := by
  cases result <;> simp [Except.map]

/-- A failing test is reached if all tests before it give the other answer. -/
theorem search_failed_iff (stop : Bool) (test : α → Except ε Bool) (l : List α) :
    Failed (search stop test l) ↔ ∃ before a behind, l = before ++ a :: behind ∧
      (∀ x ∈ before, test x = .ok (!stop)) ∧ Failed (test a) := by
  induction l with
  | nil => simp [search]
  | cons a rest ih =>
    constructor
    · intro h
      rw [search] at h
      cases htest : test a with
      | error e => exact ⟨[], a, rest, rfl, by simp, by rw [htest]; exact failed_error e⟩
      | ok answer =>
        simp only [htest] at h
        split_ifs at h with hstop
        · exact absurd h (not_failed_ok stop)
        · obtain ⟨before, x, behind, rfl, hbefore, hx⟩ := ih.mp h
          refine ⟨a :: before, x, behind, rfl, ?_, hx⟩
          intro y hy
          rcases List.mem_cons.mp hy with rfl | hy
          · rw [htest, Bool.eq_not.mpr hstop]
          · exact hbefore y hy
    · rintro ⟨before, x, behind, hsplit, hbefore, hx⟩
      cases before with
      | nil =>
        cases hsplit
        obtain ⟨e, he⟩ := hx
        exact ⟨e, by rw [search, he]⟩
      | cons y before =>
        cases hsplit
        have hrest := ih.mpr ⟨before, x, behind, rfl,
          fun z hz => hbefore z (List.mem_cons_of_mem _ hz), hx⟩
        have hother : (!stop) ≠ stop := by cases stop <;> simp
        rw [search, hbefore a List.mem_cons_self]
        simpa only [if_neg hother] using hrest

/-- Without failures the loop that stops at `true` is the disjunction of the answers, and the
other their conjunction. -/
theorem search_eq (stop : Bool) (test : α → Except ε Bool) (answer : α → Bool) {l : List α}
    (h : ∀ a ∈ l, test a = .ok (answer a)) :
    search stop test l = .ok (bif stop then l.any answer else l.all answer) := by
  induction l with
  | nil => cases stop <;> rfl
  | cons a rest ih =>
    have hrest := ih fun x hx => h x (List.mem_cons_of_mem _ hx)
    rw [search, h a List.mem_cons_self]
    cases stop <;> cases hanswer : answer a <;> simp_all

end Photon.Lib
