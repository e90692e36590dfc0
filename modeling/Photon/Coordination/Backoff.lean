import Mathlib.Data.List.Basic

/-!
The retry loop of `coordination/backoff/exponential.go`. The world gives what each attempt
returns, its delay, and the error of a context that ends the wait behind it.
-/

namespace Photon.Coordination

inductive RetryError (ε : Type) where
  | maxRetriesExceeded
  | ctxErr (cause : ε)
  | fnErr (err : ε)

structure RetryContext (ε : Type) where
  attempt : Nat
  delayUsed : Int64
  error : ε

structure World (α ε : Type) where
  fn : Nat → α × Option ε
  getDelay : Nat → Int64
  done : Nat → Option ε

/-- With `math.MaxInt` for the limit the condition of the loop never fails, and it has no end. -/
structure Backoff (ε : Type) where
  maxRetries : Int64
  ends : maxRetries ≠ Int64.maxValue
  retryIf : Option (ε → Bool)

/-- The attempts of a call, what the metrics hook was given, and the result. -/
structure Run (α ε : Type) where
  calls : Nat
  metrics : List (RetryContext ε)
  result : Option α × Option (RetryError ε)

namespace Backoff

variable {α ε : Type} (b : Backoff ε) (w : World α ε)

def retryLoop : Nat → Nat → List (RetryContext ε) → Run α ε
  | 0, attempt, metrics => ⟨attempt, metrics, none, some .maxRetriesExceeded⟩
  | left + 1, attempt, metrics =>
    match w.fn attempt with
    | (val, none) => ⟨attempt + 1, metrics, some val, none⟩
    | (val, some err) =>
      if b.retryIf.any (!· err) then ⟨attempt + 1, metrics, some val, some (.fnErr err)⟩
      else if attempt < b.maxRetries.toInt then
        let metrics := metrics ++ [⟨attempt + 1, w.getDelay (attempt + 1), err⟩]
        match w.done attempt with
        | some cause => ⟨attempt + 1, metrics, none, some (.ctxErr cause)⟩
        | none => retryLoop left (attempt + 1) metrics
      else retryLoop left (attempt + 1) metrics

def limit : Nat := (b.maxRetries.toInt + 1).toNat

def retry : Run α ε := b.retryLoop w b.limit 0 []

def Retries (attempt : Nat) (err : ε) : Prop :=
  (w.fn attempt).2 = some err ∧ b.retryIf.any (!· err) = false

def GoesOn (attempt : Nat) : Prop :=
  (∃ err, b.Retries w attempt err) ∧ (attempt < b.maxRetries.toInt → w.done attempt = none)

def Stops (attempt : Nat) (result : Option α × Option (RetryError ε)) : Prop :=
  (∃ val, w.fn attempt = (val, none) ∧ result = (some val, none)) ∨
  (∃ val err, w.fn attempt = (val, some err) ∧ ¬ b.Retries w attempt err ∧
    result = (some val, some (.fnErr err))) ∨
  ∃ err cause, b.Retries w attempt err ∧ attempt < b.maxRetries.toInt ∧
    w.done attempt = some cause ∧ result = (none, some (.ctxErr cause))

def report (attempt : Nat) : Option (RetryContext ε) :=
  (w.fn attempt).2.bind fun err =>
    if b.retryIf.any (!· err) = false ∧ attempt < b.maxRetries.toInt then
      some ⟨attempt + 1, w.getDelay (attempt + 1), err⟩
    else none

def Contract (r : Run α ε) : Prop :=
  r.metrics = (List.range r.calls).filterMap (b.report w) ∧ ∃ k, (∀ m < k, b.GoesOn w m) ∧
    (k = b.limit ∧ r.calls = k ∧ r.result = (none, some .maxRetriesExceeded) ∨
      k < b.limit ∧ r.calls = k + 1 ∧ b.Stops w k r.result)

theorem retryLoop_contract (left attempt : Nat) (hleft : attempt + left = b.limit)
    (hbefore : ∀ m < attempt, b.GoesOn w m) :
    b.Contract w (b.retryLoop w left attempt ((List.range attempt).filterMap (b.report w))) := by
  induction left generalizing attempt with
  | zero => exact ⟨rfl, attempt, hbefore, .inl ⟨hleft, rfl, rfl⟩⟩
  | succ left ih =>
    have hlast (result) (hstops : b.Stops w attempt result) :
        b.Contract w ⟨attempt + 1, (List.range (attempt + 1)).filterMap (b.report w), result⟩ :=
      ⟨rfl, attempt, hbefore, .inr ⟨by omega, rfl, hstops⟩⟩
    have hnext (hgoes : b.GoesOn w attempt) := ih (attempt + 1) (by omega) fun m hm =>
      (Nat.lt_succ_iff_lt_or_eq.mp hm).elim (hbefore m) fun h => h ▸ hgoes
    simp only [List.range_succ, List.filterMap_append, List.filterMap_cons, List.filterMap_nil,
      report] at hlast hnext
    rw [retryLoop]
    split
    · next val hfn => simpa [hfn] using hlast _ (.inl ⟨val, hfn, rfl⟩)
    · next val err hfn =>
      split_ifs with hrefused hwait
      · simpa [hfn, hrefused] using
          hlast _ (.inr (.inl ⟨val, err, hfn, by simp [Retries, hrefused], rfl⟩))
      all_goals have hretries : b.Retries w attempt err := ⟨by rw [hfn], by simpa using hrefused⟩
      · cases hdone : w.done attempt with
        | some cause =>
          simpa [hfn, hretries.2, hwait] using
            hlast _ (.inr (.inr ⟨err, cause, hretries, hwait, hdone, rfl⟩))
        | none => simpa [hfn, hretries.2, hwait] using hnext ⟨⟨err, hretries⟩, fun _ => hdone⟩
      · simpa [hfn, hwait] using hnext ⟨⟨err, hretries⟩, fun h => absurd h hwait⟩

/-- Attempts are made up to the first that stops the loop; the hook is given each failure with a
wait behind it, in order. -/
theorem retry_contract : b.Contract w (b.retry w) :=
  retryLoop_contract b w b.limit 0 (Nat.zero_add _) nofun

end Backoff

end Photon.Coordination
