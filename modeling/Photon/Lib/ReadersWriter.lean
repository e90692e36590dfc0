import Mathlib.Data.List.Perm.Basic
import Photon.Lib.Machine

/-!
Calls on a shared object whose bodies run step by step, interleaved in any way. A call
is entered, runs its body and returns. If a call is only entered when no call in
conflict with it is inside, as under a readers-writer lock, then the calls that have
finished their bodies had the results of a sequential run, and the object is in the
state of that run whenever no writing call is inside.
-/

namespace Photon.Lib

/-- An object with its operations as step functions. A body starts at a program
counter and goes on until it yields a result. Reading bodies are quiet: their steps
leave the state alone. -/
structure SharedObject (S Op Pc R : Type) where
  reads : Op → Bool
  start : Op → Pc
  step : Pc → S → S × (Pc ⊕ R)
  Quiet : Pc → Prop
  quiet_start : ∀ op, reads op = true → Quiet (start op)
  quiet_step : ∀ pc s, Quiet pc → (step pc s).1 = s
  quiet_next : ∀ pc s next, Quiet pc → (step pc s).2 = .inl next → Quiet next

/-- Where a call is: before its lock, in its body, before its unlock, or behind it. -/
inductive Phase (Pc R : Type) where
  | waiting
  | inside (pc : Pc)
  | leaving (r : R)
  | returned (r : R)
deriving DecidableEq

def Phase.isWaiting {Pc R : Type} : Phase Pc R → Bool
  | .waiting => true
  | .inside _ | .leaving _ | .returned _ => false

theorem Phase.isWaiting_iff {Pc R : Type} (phase : Phase Pc R) :
    phase.isWaiting = true ↔ phase = .waiting := by
  cases phase <;> simp [isWaiting]

structure Call (Op Pc R : Type) where
  op : Op
  phase : Phase Pc R
deriving DecidableEq

structure Pool (S Op Pc R : Type) where
  state : S
  calls : List (Call Op Pc R)

inductive PoolAction (Op : Type) where
  | call (op : Op)
  | step (i : Nat)
deriving DecidableEq

variable {S Op Pc R : Type} (p : Pool S Op Pc R) (call : Call Op Pc R)

def Call.holding : Bool :=
  match call.phase with
  | .inside _ => true
  | .leaving _ => true
  | _ => false

def Call.inBody : Bool :=
  match call.phase with
  | .inside _ => true
  | _ => false

def Call.finished : Option (Op × R) :=
  match call.phase with
  | .leaving r => some (call.op, r)
  | .returned r => some (call.op, r)
  | _ => none

theorem Call.holding_of_inBody {call : Call Op Pc R} (h : call.inBody = true) :
    call.holding = true := by
  obtain ⟨op, phase⟩ := call
  cases phase with
  | inside _ | leaving _ => rfl
  | waiting | returned _ => cases h

def Pool.finished : List (Op × R) := p.calls.filterMap Call.finished

namespace SharedObject

variable (o : SharedObject S Op Pc R)

/-- The next step of a call. The lock and the unlock change nothing. -/
def advance (s : S) (call : Call Op Pc R) : S × Call Op Pc R :=
  match call.phase with
  | .waiting => (s, {call with phase := .inside (o.start call.op)})
  | .inside pc =>
    let (next, outcome) := o.step pc s
    (next, {call with phase := match outcome with
      | .inl pc => .inside pc
      | .inr r => .leaving r})
  | .leaving r => (s, {call with phase := .returned r})
  | .returned _ => (s, call)

def poolStep : PoolAction Op → Pool S Op Pc R
  | .call op => {p with calls := p.calls ++ [⟨op, .waiting⟩]}
  | .step i =>
    match p.calls[i]? with
    | some call => ⟨(o.advance p.state call).1, p.calls.set i (o.advance p.state call).2⟩
    | none => p

def pool : Machine (Pool S Op Pc R) (PoolAction Op) Unit where
  step p a := (o.poolStep p a, ())

/-- What a readers-writer lock lets pass: whoever holds the lock reads, and so does the
call that is entered. -/
def Admits (op : Op) (calls : List (Call Op Pc R)) : Prop :=
  ∀ call ∈ calls, call.holding = true → o.reads op = true ∧ o.reads call.op = true

def Excludes : PoolAction Op → Prop
  | .call _ => True
  | .step i => ∀ call, p.calls[i]? = some call → call.phase = .waiting → o.Admits call.op p.calls

instance (op : Op) (calls : List (Call Op Pc R)) : Decidable (o.Admits op calls) :=
  inferInstanceAs (Decidable (∀ call ∈ calls, _))

instance [DecidableEq Pc] [DecidableEq R] (p : Pool S Op Pc R) :
    (a : PoolAction Op) → Decidable (o.Excludes p a)
  | .call _ => .isTrue trivial
  | .step i =>
    decidable_of_iff (∀ call ∈ p.calls[i]?, call.phase = .waiting → o.Admits call.op p.calls)
      Iff.rfl

/-- The body runs from a program counter to its result, alone. -/
inductive Exec : Pc → S → S → R → Prop
  | last {pc : Pc} {s next : S} {r : R} (h : o.step pc s = (next, .inr r)) : Exec pc s next r
  | more {pc pc' : Pc} {s middle next : S} {r : R} (h : o.step pc s = (middle, .inl pc'))
      (hrest : Exec pc' middle next r) : Exec pc s next r

inductive Sequential (s : S) : List (Op × R) → S → Prop
  | nil : Sequential s [] s
  | snoc {calls : List (Op × R)} {middle next : S} {op : Op} {r : R}
      (h : Sequential s calls middle) (hexec : o.Exec (o.start op) middle next r) :
      Sequential s (calls ++ [(op, r)]) next

variable {o}

theorem Exec.unique {pc : Pc} {s next other : S} {r r' : R} (h : o.Exec pc s next r)
    (h' : o.Exec pc s other r') : next = other ∧ r = r' := by
  induction h with
  | last hstep =>
    cases h' with
    | last hstep' =>
      rw [hstep] at hstep'
      cases hstep'
      exact ⟨rfl, rfl⟩
    | more hstep' =>
      rw [hstep] at hstep'
      cases hstep'
  | more hstep _ ih =>
    cases h' with
    | last hstep' =>
      rw [hstep] at hstep'
      cases hstep'
    | more hstep' hrest' =>
      rw [hstep] at hstep'
      cases hstep'
      exact ih hrest'

def Compatible (o : SharedObject S Op Pc R) (first second : Call Op Pc R) : Prop :=
  first.holding = true → second.holding = true → o.reads first.op = true ∧ o.reads second.op = true

theorem Compatible.symm {first second : Call Op Pc R} (h : o.Compatible first second) :
    o.Compatible second first :=
  fun hsecond hfirst => (h hfirst hsecond).symm

def Undisturbed (o : SharedObject S Op Pc R) (calls : List (Call Op Pc R)) : Prop :=
  ∀ call ∈ calls, call.inBody = true → o.reads call.op = true

instance (calls : List (Call Op Pc R)) : Decidable (o.Undisturbed calls) :=
  inferInstanceAs (Decidable (∀ call ∈ calls, _))

/-- The finished calls in an order in which they could have run one after the other. A
body that is not finished runs on as if it had been started in the state `base` in
which that run ends. -/
structure Linearizes (o : SharedObject S Op Pc R) (s : S) (order : List (Op × R)) (base : S)
    (p : Pool S Op Pc R) : Prop where
  finished : order.Perm p.finished
  sequential : o.Sequential s order base
  exclusive : p.calls.Pairwise o.Compatible
  resumes : ∀ op pc, ⟨op, .inside pc⟩ ∈ p.calls → ∀ next r, o.Exec pc p.state next r →
    o.Exec (o.start op) base next r
  quiet : ∀ op pc, ⟨op, .inside pc⟩ ∈ p.calls → o.reads op = true → o.Quiet pc
  settled : o.Undisturbed p.calls → base = p.state

theorem exists_split_set {α : Type} {xs : List α} {i : Nat} {x : α} (h : xs[i]? = some x) :
    ∃ before after, xs = before ++ x :: after ∧ ∀ y, xs.set i y = before ++ y :: after := by
  induction xs generalizing i with
  | nil => cases h
  | cons head xs ih =>
    cases i with
    | zero =>
      cases h
      exact ⟨[], xs, rfl, fun _ => rfl⟩
    | succ i =>
      obtain ⟨before, after, rfl, hset⟩ := ih h
      exact ⟨head :: before, after, rfl, fun y => by rw [List.set_cons_succ, hset]; rfl⟩

/-- The order of the calls in the pool does not matter. -/
theorem Linearizes.perm {s base state : S} {order : List (Op × R)}
    {calls others : List (Call Op Pc R)}
    (h : o.Linearizes s order base ⟨state, calls⟩) (hperm : calls.Perm others) :
    o.Linearizes s order base ⟨state, others⟩ where
  finished := h.finished.trans (hperm.filterMap _)
  sequential := h.sequential
  exclusive := (hperm.pairwise_iff Compatible.symm).mp h.exclusive
  resumes op pc hmem := h.resumes op pc (hperm.mem_iff.mpr hmem)
  quiet op pc hmem := h.quiet op pc (hperm.mem_iff.mpr hmem)
  settled hothers := h.settled fun call hmem => hothers call (hperm.mem_iff.mp hmem)

section Steps

variable {s base state : S} {order : List (Op × R)} {others : List (Call Op Pc R)} {op : Op}

theorem Linearizes.calls (h : o.Linearizes s order base ⟨state, others⟩) (op : Op) :
    o.Linearizes s order base ⟨state, ⟨op, .waiting⟩ :: others⟩ where
  finished := h.finished
  sequential := h.sequential
  exclusive := List.pairwise_cons.mpr ⟨fun _ _ hholding => (by cases hholding), h.exclusive⟩
  resumes _ _ hmem := h.resumes _ _ (by simpa using hmem)
  quiet _ _ hmem := h.quiet _ _ (by simpa using hmem)
  settled hothers := h.settled fun call hmem => hothers call (List.mem_cons_of_mem _ hmem)

/-- A call that the lock lets pass starts in the state of the sequential run. -/
theorem Linearizes.enters (h : o.Linearizes s order base ⟨state, ⟨op, .waiting⟩ :: others⟩)
    (hadmits : o.Admits op others) :
    o.Linearizes s order base ⟨state, ⟨op, .inside (o.start op)⟩ :: others⟩ := by
  obtain ⟨-, hexclusive⟩ := List.pairwise_cons.mp h.exclusive
  have hbase : base = state := by
    refine h.settled fun call hmem hbody => ?_
    rcases List.mem_cons.mp hmem with rfl | hmem
    · cases hbody
    · exact (hadmits call hmem (Call.holding_of_inBody hbody)).2
  refine ⟨h.finished, h.sequential, List.pairwise_cons.mpr ⟨fun call hcall _ => hadmits call hcall,
    hexclusive⟩, fun other pc hmem next r hexec => ?_, fun other pc hmem hreads => ?_,
    fun _ => hbase⟩
  · rcases List.mem_cons.mp hmem with heq | hmem
    · cases heq
      rw [hbase]
      exact hexec
    · exact h.resumes other pc (List.mem_cons_of_mem _ hmem) next r hexec
  · rcases List.mem_cons.mp hmem with heq | hmem
    · cases heq
      exact o.quiet_start op hreads
    · exact h.quiet other pc (List.mem_cons_of_mem _ hmem) hreads

section

variable {pc : Pc} (h : o.Linearizes s order base ⟨state, ⟨op, .inside pc⟩ :: others⟩)
include h

/-- Beside a call that is inside, either all others that are inside read and the state
is the one of the sequential run, or there are none. -/
theorem Linearizes.beside :
    (o.reads op = true ∧ o.Quiet pc ∧ base = state) ∨
      (o.reads op = false ∧ ∀ call ∈ others, call.holding = false) := by
  obtain ⟨hhead, -⟩ := List.pairwise_cons.mp h.exclusive
  cases hreads : o.reads op with
  | true =>
    refine .inl ⟨rfl, h.quiet op pc List.mem_cons_self hreads, h.settled fun call hmem hbody => ?_⟩
    rcases List.mem_cons.mp hmem with rfl | hmem
    · exact hreads
    · exact (hhead call hmem rfl (Call.holding_of_inBody hbody)).2
  | false =>
    refine .inr ⟨rfl, fun call hcall => ?_⟩
    by_contra hholding
    have hboth := hhead call hcall rfl (by simpa using hholding)
    rw [hreads] at hboth
    cases hboth.1

/-- A step of a body that goes on. -/
theorem Linearizes.continues {pc' : Pc} {next : S} (hstep : o.step pc state = (next, .inl pc')) :
    o.Linearizes s order base ⟨next, ⟨op, .inside pc'⟩ :: others⟩ := by
  obtain ⟨hhead, hexclusive⟩ := List.pairwise_cons.mp h.exclusive
  have hresumes : ∀ final r, o.Exec pc' next final r → o.Exec (o.start op) base final r :=
    fun final r hexec => h.resumes op pc List.mem_cons_self final r (.more hstep hexec)
  have hexclusive' : (⟨op, .inside pc'⟩ :: others).Pairwise o.Compatible :=
    List.pairwise_cons.mpr ⟨fun call hcall _ => hhead call hcall rfl, hexclusive⟩
  rcases h.beside with ⟨hreads, hquiet, hbase⟩ | ⟨hwrites, halone⟩
  · have hsame : next = state := by simpa [hstep] using o.quiet_step pc state hquiet
    subst hsame
    refine ⟨h.finished, h.sequential, hexclusive', fun other at_ hmem final r hexec => ?_,
      fun other at_ hmem hother => ?_, fun _ => hbase⟩
    · rcases List.mem_cons.mp hmem with heq | hmem
      · cases heq
        exact hresumes final r hexec
      · exact h.resumes other at_ (List.mem_cons_of_mem _ hmem) final r hexec
    · rcases List.mem_cons.mp hmem with heq | hmem
      · cases heq
        exact o.quiet_next pc next pc' hquiet (by rw [hstep])
      · exact h.quiet other at_ (List.mem_cons_of_mem _ hmem) hother
  · have honly : ∀ other at_, ⟨other, .inside at_⟩ ∈ (⟨op, .inside pc'⟩ : Call Op Pc R) :: others →
        other = op ∧ at_ = pc' := by
      intro other at_ hmem
      rcases List.mem_cons.mp hmem with heq | hmem
      · cases heq
        exact ⟨rfl, rfl⟩
      · cases halone _ hmem
    refine ⟨h.finished, h.sequential, hexclusive', fun other at_ hmem final r hexec => ?_,
      fun other at_ hmem hother => ?_, fun hundisturbed => ?_⟩
    · obtain ⟨rfl, rfl⟩ := honly other at_ hmem
      exact hresumes final r hexec
    · obtain ⟨rfl, -⟩ := honly other at_ hmem
      rw [hwrites] at hother
      cases hother
    · have hreads := hundisturbed _ List.mem_cons_self rfl
      rw [hwrites] at hreads
      cases hreads

/-- The last step of a body puts the call at the end of the order. -/
theorem Linearizes.finishes {next : S} {r : R} (hstep : o.step pc state = (next, .inr r)) :
    o.Linearizes s (order ++ [(op, r)]) next ⟨next, ⟨op, .leaving r⟩ :: others⟩ := by
  obtain ⟨hhead, hexclusive⟩ := List.pairwise_cons.mp h.exclusive
  have hexec := h.resumes op pc List.mem_cons_self next r (.last hstep)
  have hfinished : (order ++ [(op, r)]).Perm ((op, r) :: others.filterMap Call.finished) :=
    (List.perm_append_singleton (op, r) order).trans (h.finished.cons (op, r))
  have hexclusive' : (⟨op, .leaving r⟩ :: others).Pairwise o.Compatible :=
    List.pairwise_cons.mpr ⟨fun call hcall _ => hhead call hcall rfl, hexclusive⟩
  rcases h.beside with ⟨hreads, hquiet, hbase⟩ | ⟨hwrites, halone⟩
  · have hsame : next = state := by simpa [hstep] using o.quiet_step pc state hquiet
    subst hsame hbase
    refine ⟨hfinished, h.sequential.snoc hexec, hexclusive', fun other at_ hmem => ?_,
      fun other at_ hmem => ?_, fun _ => rfl⟩
    · exact h.resumes other at_ (List.mem_cons_of_mem _ (by simpa using hmem))
    · exact h.quiet other at_ (List.mem_cons_of_mem _ (by simpa using hmem))
  · have hnone : ∀ other at_, ⟨other, .inside at_⟩ ∉
        (⟨op, .leaving r⟩ : Call Op Pc R) :: others := by
      intro other at_ hmem
      rcases List.mem_cons.mp hmem with heq | hmem
      · cases heq
      · cases halone _ hmem
    exact ⟨hfinished, h.sequential.snoc hexec, hexclusive', fun other at_ hmem =>
      absurd hmem (hnone other at_), fun other at_ hmem => absurd hmem (hnone other at_),
      fun _ => rfl⟩

end

theorem Linearizes.leaves {r : R}
    (h : o.Linearizes s order base ⟨state, ⟨op, .leaving r⟩ :: others⟩) :
    o.Linearizes s order base ⟨state, ⟨op, .returned r⟩ :: others⟩ where
  finished := h.finished
  sequential := h.sequential
  exclusive := List.pairwise_cons.mpr
    ⟨fun _ _ hholding => (by cases hholding), (List.pairwise_cons.mp h.exclusive).2⟩
  resumes _ _ hmem := h.resumes _ _ (List.mem_cons_of_mem _ (by simpa using hmem))
  quiet _ _ hmem := h.quiet _ _ (List.mem_cons_of_mem _ (by simpa using hmem))
  settled hothers := by
    refine h.settled fun call hmem hbody => ?_
    rcases List.mem_cons.mp hmem with rfl | hmem
    · cases hbody
    · exact hothers call (List.mem_cons_of_mem _ hmem) hbody

end Steps

/-- One step of the pool. -/
theorem Linearizes.advances {s base state : S} {order : List (Op × R)} {call : Call Op Pc R}
    {others : List (Call Op Pc R)} (h : o.Linearizes s order base ⟨state, call :: others⟩)
    (hadmits : call.phase = .waiting → o.Admits call.op others) :
    ∃ order base, o.Linearizes s order base
      ⟨(o.advance state call).1, (o.advance state call).2 :: others⟩ := by
  obtain ⟨op, phase⟩ := call
  cases phase with
  | waiting => exact ⟨order, base, h.enters (hadmits rfl)⟩
  | inside pc =>
    rcases hstep : o.step pc state with ⟨next, pc' | r⟩
    · simp only [advance, hstep]
      exact ⟨order, base, h.continues hstep⟩
    · simp only [advance, hstep]
      exact ⟨order ++ [(op, r)], next, h.finishes hstep⟩
  | leaving r => exact ⟨order, base, h.leaves⟩
  | returned r => exact ⟨order, base, h⟩

theorem linearizes_step {s : S} {p : Pool S Op Pc R} {a : PoolAction Op}
    (h : ∃ order base, o.Linearizes s order base p) (hexcludes : o.Excludes p a) :
    ∃ order base, o.Linearizes s order base (o.poolStep p a) := by
  obtain ⟨order, base, h⟩ := h
  cases a with
  | call op => exact ⟨order, base, (h.calls op).perm (List.perm_append_singleton _ _).symm⟩
  | step i =>
    cases hcall : p.calls[i]? with
    | none =>
      simp only [poolStep, hcall]
      exact ⟨order, base, h⟩
    | some call =>
      obtain ⟨before, after, hsplit, hset⟩ := exists_split_set hcall
      have hfirst : o.Linearizes s order base ⟨p.state, call :: (before ++ after)⟩ :=
        h.perm (hsplit ▸ List.perm_middle)
      obtain ⟨order', base', hnext⟩ := hfirst.advances fun hwaiting other hother hholding =>
        hexcludes call hcall hwaiting other
          (hsplit ▸ List.perm_middle.mem_iff.mpr (List.mem_cons_of_mem _ hother)) hholding
      simp only [poolStep, hcall, hset]
      refine ⟨order', base', ?_⟩
      exact hnext.perm List.perm_middle.symm

/-- Under exclusion every run is linearizable. -/
theorem linearizes_run (s : S) (actions : List (PoolAction Op))
    (hexcludes : o.pool.AllSteps o.Excludes ⟨s, []⟩ actions) :
    ∃ order base, o.Linearizes s order base (o.pool.run ⟨s, []⟩ actions) := by
  refine o.pool.run_invariant (fun p => ∃ order base, o.Linearizes s order base p) o.Excludes
    (fun p a h hexcludes => linearizes_step h hexcludes) ⟨s, []⟩ actions ?_ hexcludes
  exact ⟨[], s, .nil, .nil, .nil, by simp, by simp, fun _ => rfl⟩

end SharedObject

end Photon.Lib
