import Photon.Lib.ReadersWriter

/-!
Programs as sequences of atomic steps on a shared state. A step looks at the state,
changes it and decides how to go on, so programs of several callers can be interleaved
step by step. Run without interruption, a program is one function on the state, and
that function composes with the program.
-/

namespace Photon.Lib

/-- A program with a result. What follows a step depends on the state before it. -/
inductive Steps (S : Type) (R : Type) where
  | done (r : R)
  | act (change : S → S) (next : S → Steps S R)

namespace Steps

variable {S R Q α : Type}

def bind (p : Steps S R) (f : R → Steps S Q) : Steps S Q :=
  match p with
  | .done r => f r
  | .act change next => .act change fun s => (next s).bind f

instance : Monad (Steps S) where
  pure := .done
  bind := bind

def read (view : S → R) : Steps S R := .act id fun s => .done (view s)

def modify (change : S → S) : Steps S Unit := .act change fun _ => .done ()

def alone : Steps S R → S → S × R
  | .done r, s => (s, r)
  | .act change next, s => (next s).alone (change s)

@[simp]
theorem alone_pure (r : R) (s : S) : (pure r : Steps S R).alone s = (s, r) := rfl

@[simp]
theorem alone_read (view : S → R) (s : S) : (read view).alone s = (s, view s) := rfl

@[simp]
theorem alone_modify (change : S → S) (s : S) : (modify change).alone s = (change s, ()) := rfl

@[simp]
theorem alone_bind (p : Steps S R) (f : R → Steps S Q) (s : S) :
    (p >>= f).alone s = (f (p.alone s).2).alone (p.alone s).1 := by
  induction p generalizing s with
  | done r => rfl
  | act change next ih => exact ih s (change s)

/-- A loop over a list, with one function for each turn. -/
theorem alone_forM {body : α → Steps S PUnit} {turn : S → α → S}
    (hturn : ∀ a s, (body a).alone s = (turn s a, ⟨⟩)) (items : List α) (s : S) :
    (items.forM body).alone s = (items.foldl turn s, ⟨⟩) := by
  induction items generalizing s with
  | nil => rfl
  | cons a rest ih =>
    have hloop : (a :: rest).forM body = (body a >>= fun _ => rest.forM body) := rfl
    rw [hloop, alone_bind, hturn, ih, List.foldl_cons]

def step (p : Steps S R) (s : S) : S × (Steps S R ⊕ R) :=
  match p with
  | .done r => (s, .inr r)
  | .act change next => (change s, .inl (next s))

def object (Op : Type) (body : Op → Steps S R) : SharedObject S Op (Steps S R) R where
  reads _ := false
  start := body
  step := step
  Quiet _ := False
  quiet_start _ h := by cases h
  quiet_step _ _ h := h.elim
  quiet_next _ _ _ h := h.elim

theorem exec_alone {Op : Type} (body : Op → Steps S R) (p : Steps S R) (s : S) :
    (object Op body).Exec p s (p.alone s).1 (p.alone s).2 := by
  induction p generalizing s with
  | done r => exact .last rfl
  | act change next ih => exact .more rfl (ih s (change s))

end Steps

end Photon.Lib
