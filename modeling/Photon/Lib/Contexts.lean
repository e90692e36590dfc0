import Mathlib.Tactic

/-!
Contexts that end. A context is derived from a parent with a cancel function, known by a number,
and may have a deadline. It ends with its parent, when its cancel function is called, or at its
deadline, whichever comes first, and from then on it reports why.
-/

namespace Photon.Lib

inductive Context where
  | background
  | derived (parent : Context) (id : ℕ) (deadline : Option ℕ)
deriving DecidableEq

inductive ContextErr where
  | canceled
  | deadlineExceeded
deriving DecidableEq

/-- The times at which cancel functions are called for the first time. -/
abbrev Cancellations := ℕ → Option ℕ

namespace Context

def deadline : Context → Option ℕ
  | background => none
  | derived parent _ own =>
    match own, parent.deadline with
    | none, other => other
    | some t, none => some t
    | some t, some u => some (min t u)

def earlier : Option (ℕ × ContextErr) → Option (ℕ × ContextErr) → Option (ℕ × ContextErr)
  | none, other => other
  | some e, none => some e
  | some e, some f => if e.1 ≤ f.1 then some e else some f

def ending (calls : Cancellations) : Context → Option (ℕ × ContextErr)
  | background => none
  | derived parent id own =>
    earlier (parent.ending calls)
      (earlier ((calls id).map (·, .canceled)) (own.map (·, .deadlineExceeded)))

def err (calls : Cancellations) (now : ℕ) (c : Context) : Option ContextErr :=
  (c.ending calls).bind fun e => if e.1 ≤ now then some e.2 else none

def Done (calls : Cancellations) (now : ℕ) (c : Context) : Prop := (c.err calls now).isSome = true

variable {calls : Cancellations} {now : ℕ} {c : Context}

theorem done_iff : c.Done calls now ↔ ∃ e ∈ c.ending calls, e.1 ≤ now := by
  rw [Done, err]
  cases c.ending calls with
  | none => simp
  | some e => by_cases h : e.1 ≤ now <;> simp [h]

theorem exists_earlier_iff (a b : Option (ℕ × ContextErr)) :
    (∃ e ∈ earlier a b, e.1 ≤ now) ↔ (∃ e ∈ a, e.1 ≤ now) ∨ ∃ e ∈ b, e.1 ≤ now := by
  cases a with
  | none => simp [earlier]
  | some e =>
    cases b with
    | none => simp [earlier]
    | some f =>
      rw [earlier]
      split_ifs with h
      · simp
        omega
      · simp
        omega

/-- The three reasons for the end of a derived context. -/
theorem done_derived_iff {id : ℕ} {own : Option ℕ} :
    (derived c id own).Done calls now ↔
      c.Done calls now ∨ (∃ t ∈ calls id, t ≤ now) ∨ ∃ t ∈ own, t ≤ now := by
  rw [done_iff, done_iff, ending, exists_earlier_iff, exists_earlier_iff]
  simp

theorem Done.mono {later : ℕ} (h : c.Done calls now) (hlater : now ≤ later) :
    c.Done calls later := by
  obtain ⟨e, he, hnow⟩ := done_iff.mp h
  exact done_iff.mpr ⟨e, he, hnow.trans hlater⟩

end Context

end Photon.Lib
