import Photon.Workers.Budget

/-!
The restart policy of `workers/restart.go` by itself: the count of recent restarts under a name and
the delay before the next one. The delays are `time.Duration`s, so the doubling is done in 64 bits.
-/

namespace Photon.Workers

open Photon.Lib Photon.Lib.SlidingWindow

/-! ### The window -/

/-- The package variable `workerRestartHistory` under calls of `trackWorkerRestart`, each with a
name and a reading of the clock. The answer is the count, the delay and whether it is allowed. -/
def restartTracker (settings : Settings) :
    Machine (String → List Nat) (String × Nat) (Nat × Nat × Bool) where
  step histories call :=
    let out := trackWorkerRestart settings call.2 (histories call.1)
    (Function.update histories call.1 out.1, out.1.length, out.2)

/-- The times of the calls for a name. -/
def timesOf (name : String) (calls : List (String × Nat)) : List Nat :=
  (calls.filter fun call => call.1 = name).map Prod.snd

section Window

variable (settings : Settings) (name : String)

def historiesAfter (calls : List (String × Nat)) : String → List Nat :=
  (restartTracker settings).run (fun _ => []) calls

/-- The calls for a name with their times and whether they were allowed. -/
def attemptsOf (calls : List (String × Nat)) : List (Nat × Bool) :=
  (((restartTracker settings).trace (fun _ => []) calls).filter fun e => e.1.1 = name).map
    fun e => (e.1.2, e.2.2.2)

variable (calls : List (String × Nat))

theorem timesOf_snoc (call : String × Nat) :
    timesOf name (calls ++ [call]) =
      timesOf name calls ++ if call.1 = name then [call.2] else [] := by
  rw [timesOf, List.filter_append, List.map_append]
  by_cases hname : call.1 = name <;> simp [timesOf, hname]

theorem attemptsOf_snoc (call : String × Nat) :
    attemptsOf settings name (calls ++ [call]) = attemptsOf settings name calls ++
      if call.1 = name then [(call.2, (trackWorkerRestart settings call.2
        (historiesAfter settings calls call.1)).2.2)] else [] := by
  rw [attemptsOf, Machine.trace_append, List.filter_append, List.map_append]
  by_cases hname : call.1 = name
  · simp [attemptsOf, Machine.trace, restartTracker, historiesAfter, hname]
  · simp [attemptsOf, Machine.trace, hname]

theorem map_fst_attemptsOf :
    (attemptsOf settings name calls).map Prod.fst = timesOf name calls := by
  induction calls using List.reverseRecOn with
  | nil => rfl
  | append_singleton calls call ih =>
    rw [attemptsOf_snoc, timesOf_snoc, List.map_append, ih]
    split <;> rfl

/-- The history of a name is as good as the times of all its calls, and they decided the calls. -/
structure Tracked (calls : List (String × Nat)) : Prop where
  keeps : ∃ now, (∀ t, (∀ u ∈ timesOf name calls, u ≤ t) → now ≤ t) ∧
    Keeps settings.workerRestartWindow (historiesAfter settings calls name)
      (timesOf name calls) now
  metered : Metered settings.workerRestartWindow settings.workerRestartLimit
    (attemptsOf settings name calls)

variable {settings name} {calls : List (String × Nat)}

theorem Tracked.recent_eq (h : Tracked settings name calls) {t : Nat}
    (hle : ∀ u ∈ timesOf name calls, u ≤ t) :
    recent settings.workerRestartWindow t (historiesAfter settings calls name) =
      recent settings.workerRestartWindow t (timesOf name calls) := by
  obtain ⟨now, hnow, hkeeps⟩ := h.keeps
  exact hkeeps t (hnow t hle)

theorem Tracked.snoc (h : Tracked settings name calls) (call : String × Nat)
    (hle : call.1 = name → ∀ u ∈ timesOf name calls, u ≤ call.2) :
    Tracked settings name (calls ++ [call]) := by
  have hafter : historiesAfter settings (calls ++ [call]) =
      Function.update (historiesAfter settings calls) call.1
        (trackWorkerRestart settings call.2 (historiesAfter settings calls call.1)).1 :=
    (restartTracker settings).run_append _ calls [call]
  obtain ⟨other, t⟩ := call
  by_cases hname : other = name
  · subst hname
    obtain ⟨hhistory, hallowed⟩ := trackWorkerRestart_allowed settings t
      (historiesAfter settings calls other)
    obtain ⟨now, hnow, hkeeps⟩ := h.keeps
    refine ⟨⟨t, ?_, ?_⟩, ?_⟩
    · intro later hlater
      exact hlater t (by simp [timesOf_snoc])
    · rw [hafter, Function.update_self, hhistory, timesOf_snoc, if_pos rfl]
      exact hkeeps.attempt (hnow t (hle rfl))
    · rw [attemptsOf_snoc, if_pos rfl]
      apply h.metered.snoc
      rw [map_fst_attemptsOf, ← h.recent_eq (hle rfl)]
      exact hallowed
  · have hsame : historiesAfter settings (calls ++ [(other, t)]) name =
        historiesAfter settings calls name := by
      rw [hafter, Function.update_of_ne (Ne.symm hname)]
    constructor
    · rw [hsame, timesOf_snoc, if_neg hname, List.append_nil]
      exact h.keeps
    · rw [attemptsOf_snoc, if_neg hname, List.append_nil]
      exact h.metered

theorem tracked (settings : Settings) (h : (timesOf name calls).Pairwise (· ≤ ·)) :
    Tracked settings name calls := by
  induction calls using List.reverseRecOn with
  | nil =>
    refine ⟨⟨0, fun t _ => Nat.zero_le t, Keeps.nil⟩, ?_⟩
    intro before time allowed after hsplit
    cases before <;> cases hsplit
  | append_singleton calls call ih =>
    rw [timesOf_snoc, List.pairwise_append] at h
    refine (ih h.1).snoc call fun hname u hu => ?_
    exact h.2.2 u hu call.2 (by simp [hname])

end Window

/--
For every worker name, every limit and window, and every sequence of calls in which the times of
that name do not decrease: a call counts the calls for its name, itself included, that lie at most
the window back, it is allowed just if they are within the limit, and no interval as long as the
window holds more allowed calls than the limit.
-/
theorem restart_window_exact (settings : Settings) (name : String)
    (calls : List (String × Nat)) (hsorted : (timesOf name calls).Pairwise (· ≤ ·)) :
    (∀ before t after, calls = before ++ (name, t) :: after →
      let answer := ((restartTracker settings).step
        ((restartTracker settings).run (fun _ => []) before) (name, t)).2
      answer.1 = (timesOf name (before ++ [(name, t)])).countP
          (fun u => t ≤ u + settings.workerRestartWindow ∧ u ≤ t) ∧
        (answer.2.2 = true ↔ answer.1 ≤ settings.workerRestartLimit)) ∧
      ∀ start, ((restartTracker settings).trace (fun _ => []) calls).countP (fun event =>
        event.1.1 = name ∧ event.2.2.2 = true ∧ start ≤ event.1.2 ∧
          event.1.2 ≤ start + settings.workerRestartWindow) ≤ settings.workerRestartLimit := by
  constructor
  · rintro before t after rfl
    rw [timesOf, List.filter_append, List.map_append, List.pairwise_append] at hsorted
    have hbefore : ∀ u ∈ timesOf name before, u ≤ t := fun u hu =>
      hsorted.2.2 u hu t (by simp)
    have hrecent := (tracked settings hsorted.1).recent_eq hbefore
    obtain ⟨hhistory, hallowed⟩ := trackWorkerRestart_allowed settings t
      (historiesAfter settings before name)
    have hcount : (timesOf name (before ++ [(name, t)])).countP
        (fun u => t ≤ u + settings.workerRestartWindow ∧ u ≤ t) =
          (recent settings.workerRestartWindow t (timesOf name before)).length + 1 := by
      rw [timesOf_snoc, if_pos rfl, List.countP_append, List.countP_singleton, recent,
        ← List.countP_eq_length_filter]
      congr 1
      · refine List.countP_congr fun u hu => ?_
        have hle := hbefore u hu
        simp only [decide_eq_true_eq]
        omega
      · simp
    have hlength := congrArg List.length hhistory
    rw [List.length_append, List.length_singleton, hrecent] at hlength
    rw [hrecent] at hallowed
    refine ⟨hlength.trans hcount.symm, hallowed.trans ?_⟩
    rw [← hlength]
    rfl
  · intro start
    refine le_trans (le_of_eq ?_) ((tracked settings hsorted).metered.allowedWithin_le start)
    rw [allowedWithin, attemptsOf, List.countP_map, List.countP_filter]
    refine List.countP_congr fun event _ => ?_
    simp only [Function.comp_apply, Bool.and_eq_true, decide_eq_true_eq]
    tauto

theorem two_restarts_per_ten :
    ((restartTracker ⟨2, 10, 1, 1, 1, 1⟩).trace (fun _ => [])
        [("w", 0), ("v", 3), ("w", 4), ("w", 10), ("w", 11)]).countP (fun event =>
      event.1.1 = "w" ∧ event.2.2.2 = true ∧ 1 ≤ event.1.2 ∧ event.1.2 ≤ 1 + 10) ≤ 2 :=
  (restart_window_exact ⟨2, 10, 1, 1, 1, 1⟩ "w"
    [("w", 0), ("v", 3), ("w", 4), ("w", 10), ("w", 11)] (by decide)).2 1

/-! ### The delay -/

/-- The variables of the back-off, as the durations they are. -/
structure BackoffVars where
  workerRestartBackoff : Int64
  workerRestartBackoffM : Int64

variable (vars : BackoffVars)

/-- The part of `applyOverseerOptions` that sets them. -/
def BackoffVars.applyOverseerOptions (minBackoff maxBackoff : Int64) :
    BackoffVars where
  workerRestartBackoff := if 0 < minBackoff then minBackoff else vars.workerRestartBackoff
  workerRestartBackoffM := if 0 < maxBackoff then maxBackoff else vars.workerRestartBackoffM

def BackoffVars.computeWorkerRestartBackoff (restartCount : Int) : Int64 :=
  if restartCount ≤ 1 then vars.workerRestartBackoff
  else double (restartCount - 1).toNat vars.workerRestartBackoff
where
  double : Nat → Int64 → Int64
    | 0, backoff => backoff
    | rounds + 1, backoff =>
      if vars.workerRestartBackoffM / 2 ≤ backoff then vars.workerRestartBackoffM
      else double rounds (backoff * 2)

/-- The same variables in the overseer, whose durations have no upper bound. -/
def BackoffVars.settings : Settings :=
  { defaultSettings with
    workerRestartBackoff := vars.workerRestartBackoff.toInt.toNat
    workerRestartBackoffM := vars.workerRestartBackoffM.toInt.toNat }

section Doubling

variable (settings : Settings)

open computeWorkerRestartBackoff (double)

theorem computeWorkerRestartBackoff_eq (restartCount : Nat) :
    computeWorkerRestartBackoff settings restartCount =
      double settings (restartCount - 1) settings.workerRestartBackoff := by
  rw [computeWorkerRestartBackoff]
  split
  · next hfew => rw [Nat.sub_eq_zero_of_le hfew, double]
  · rfl

variable {settings} {backoff : Nat}

theorem double_le (rounds : Nat) (hle : backoff ≤ settings.workerRestartBackoffM) :
    double settings rounds backoff ≤ settings.workerRestartBackoffM := by
  induction rounds generalizing backoff with
  | zero => exact hle
  | succ rounds ih =>
    rw [double]
    split
    · exact le_rfl
    · exact ih (by omega)

theorem double_mono (hle : backoff ≤ settings.workerRestartBackoffM) :
    Monotone fun rounds => double settings rounds backoff := by
  refine monotone_nat_of_le_succ fun rounds => ?_
  induction rounds generalizing backoff with
  | zero =>
    rw [double, double, double]
    split <;> omega
  | succ rounds ih =>
    rw [double, double]
    split
    · exact le_rfl
    · exact ih (by omega)

/-- Below the half of the bound, doubling stays in 64 bits. -/
theorem toInt_double (hcap : 0 < vars.workerRestartBackoffM) (rounds : Nat) {backoff : Int64}
    (hpos : 0 < backoff) :
    (BackoffVars.computeWorkerRestartBackoff.double vars rounds backoff).toInt =
      double vars.settings rounds backoff.toInt.toNat := by
  have hcap' : 0 < vars.workerRestartBackoffM.toInt := Int64.lt_iff_toInt_lt.mp hcap
  have hlt := vars.workerRestartBackoffM.toInt_lt
  have hhalf : (vars.workerRestartBackoffM / 2).toInt = vars.workerRestartBackoffM.toInt / 2 := by
    rw [Int64.toInt_div, Int.tdiv_eq_ediv_of_nonneg hcap'.le]
    exact Int.bmod_eq_of_le (by show _ ≤ _ / 2; omega) (by show _ / 2 < _; omega)
  induction rounds generalizing backoff with
  | zero => exact (Int.toNat_of_nonneg (Int64.lt_iff_toInt_lt.mp hpos).le).symm
  | succ rounds ih =>
    have hpos' : 0 < backoff.toInt := Int64.lt_iff_toInt_lt.mp hpos
    have hiff : vars.workerRestartBackoffM / 2 ≤ backoff ↔
        vars.settings.workerRestartBackoffM / 2 ≤ backoff.toInt.toNat := by
      rw [Int64.le_iff_toInt_le, hhalf]
      show _ ↔ vars.workerRestartBackoffM.toInt.toNat / 2 ≤ _
      omega
    rw [BackoffVars.computeWorkerRestartBackoff.double, double]
    by_cases hlarge : vars.workerRestartBackoffM / 2 ≤ backoff
    · rw [if_pos hlarge, if_pos (hiff.mp hlarge)]
      exact (Int.toNat_of_nonneg hcap'.le).symm
    · have hsmall : backoff.toInt < vars.workerRestartBackoffM.toInt / 2 := by
        rw [← hhalf]
        exact Int64.lt_iff_toInt_lt.mp (Int64.not_le.mp hlarge)
      have hdouble : (backoff * 2).toInt = backoff.toInt * 2 := by
        rw [Int64.toInt_mul]
        exact Int.bmod_eq_of_le (by show _ ≤ _ * 2; omega) (by show _ * 2 < _; omega)
      have hnat : (backoff.toInt * 2).toNat = backoff.toInt.toNat * 2 := by omega
      rw [if_neg hlarge, if_neg (mt hiff.mpr hlarge), ih, hdouble, hnat]
      rw [Int64.lt_iff_toInt_lt, hdouble]
      show 0 < _
      omega

theorem toInt_computeWorkerRestartBackoff {vars : BackoffVars}
    (hmin : 0 < vars.workerRestartBackoff) (hcap : 0 < vars.workerRestartBackoffM)
    (restartCount : Int) :
    (vars.computeWorkerRestartBackoff restartCount).toInt =
      computeWorkerRestartBackoff vars.settings restartCount.toNat := by
  have hrounds : (restartCount - 1).toNat = restartCount.toNat - 1 := by omega
  have hall : vars.computeWorkerRestartBackoff restartCount =
      BackoffVars.computeWorkerRestartBackoff.double vars (restartCount.toNat - 1)
        vars.workerRestartBackoff := by
    rw [BackoffVars.computeWorkerRestartBackoff, hrounds]
    split
    · next hfew =>
        have hzero : restartCount.toNat - 1 = 0 := by omega
        rw [hzero, BackoffVars.computeWorkerRestartBackoff.double]
    · rfl
  rw [hall, toInt_double vars hcap _ hmin, computeWorkerRestartBackoff_eq]
  rfl

end Doubling

/--
For all positive bounds that the options can set, the delays are those of unbounded arithmetic; they
are positive, grow with the count and stay below the upper bound just if the bounds are in order.
-/
theorem restart_backoff_capped_iff (vars : BackoffVars) (minBackoff maxBackoff : Int64)
    (hmin : 0 < minBackoff) (hmax : 0 < maxBackoff) :
    let applied := vars.applyOverseerOptions minBackoff maxBackoff
    ((∀ m n : Int, m ≤ n → 0 < applied.computeWorkerRestartBackoff m ∧
        applied.computeWorkerRestartBackoff m ≤ applied.computeWorkerRestartBackoff n ∧
        applied.computeWorkerRestartBackoff n ≤ maxBackoff) ∧
      ∀ n : Int, (applied.computeWorkerRestartBackoff n).toInt =
        computeWorkerRestartBackoff applied.settings n.toNat) ↔ minBackoff ≤ maxBackoff := by
  have hvars : vars.applyOverseerOptions minBackoff maxBackoff = ⟨minBackoff, maxBackoff⟩ := by
    rw [BackoffVars.applyOverseerOptions, if_pos hmin, if_pos hmax]
  rw [hvars]
  intro applied
  have hexact (n : Int) : (applied.computeWorkerRestartBackoff n).toInt =
      computeWorkerRestartBackoff applied.settings n.toNat :=
    toInt_computeWorkerRestartBackoff hmin hmax n
  have hcap : 0 < maxBackoff.toInt := Int64.lt_iff_toInt_lt.mp hmax
  have hfirst : 0 < minBackoff.toInt := Int64.lt_iff_toInt_lt.mp hmin
  constructor
  · rintro ⟨h, -⟩
    exact (h 1 1 le_rfl).2.2
  · intro hle
    have hbounds : applied.settings.workerRestartBackoff ≤ applied.settings.workerRestartBackoffM :=
      Int.toNat_le_toNat (Int64.le_iff_toInt_le.mp hle)
    refine ⟨fun m n hmn => ?_, hexact⟩
    simp only [Int64.lt_iff_toInt_lt, Int64.le_iff_toInt_le, hexact,
      computeWorkerRestartBackoff_eq]
    refine ⟨?_, ?_, ?_⟩
    · refine lt_of_lt_of_le ?_ (Int.ofNat_le.mpr (double_mono hbounds (Nat.zero_le _)))
      exact Int.natCast_pos.mpr (Int.pos_iff_toNat_pos.mp hfirst)
    · exact Int.ofNat_le.mpr (double_mono hbounds (by omega))
    · refine (Int.ofNat_le.mpr (double_le _ hbounds)).trans ?_
      exact (Int.toNat_of_nonneg hcap.le).le

theorem backoff_of_ordered_bounds :
    let applied := BackoffVars.applyOverseerOptions ⟨500000000, 30000000000⟩ 500000000 10000000000
    applied.computeWorkerRestartBackoff 2 ≤ applied.computeWorkerRestartBackoff 9 :=
  (((restart_backoff_capped_iff ⟨500000000, 30000000000⟩ 500000000 10000000000 (by decide)
    (by decide)).mpr (by decide)).1 2 9 (by decide)).2.1

/-- The first restart skips the bound, and the second comes sooner than the first. -/
theorem first_delay_above_the_bound :
    let applied := BackoffVars.applyOverseerOptions ⟨500000000, 30000000000⟩ 60000000000 30000000000
    (30000000000 : Int64) < applied.computeWorkerRestartBackoff 1 ∧
      applied.computeWorkerRestartBackoff 2 < applied.computeWorkerRestartBackoff 1 := by
  decide

end Photon.Workers
