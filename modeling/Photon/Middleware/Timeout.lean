import Photon.Lib.Contexts
import Photon.Lib.Machine
import Photon.Middleware.Compressor

/-!
The timeout middleware of `middleware/timeout.go`. The handler runs on a buffered writer, beside the
goroutine of the request, which waits for the end of the handler or of the context and then writes
to the real writer, call by call. The steps of the two are interleaved; a call on the buffered
writer holds its mutex and is one step.

The real writer is known by the calls that reach it, and by the status codes that it refuses with a
panic. What else it makes of them is told where a response is compared with another one.
-/

namespace Photon.Middleware.Timeout

open Photon.Lib

/-- The calls on an `http.ResponseWriter` and on its header, with canonical keys. -/
inductive WriterCall where
  | set (key : String) (value : Text)
  | add (key : String) (value : Text)
  | del (key : String)
  /-- An assignment to the map itself. -/
  | assign (key : String) (values : List Text)
  | get (key : String)
  | writeHeader (code : Int)
  | write (p : Bytes)
  /-- The reader gives `data` and ends, with an error or without. -/
  | readFrom (data : Bytes) (err : Option String)

inductive Answer where
  | done
  | value (text : Text)
  | wrote (n : ℕ) (err : Option String)
deriving DecidableEq

def WriterCall.edit (h : Header) : WriterCall → Header
  | set key value => h.set key value
  | add key value => h.add key value
  | del key => h.del key
  | assign key values => Function.update h key values
  | _ => h

/-- `none` for a code that `net/http` refuses with a panic. -/
def statusOf (code : Int) : Option StatusCode :=
  if h : 100 ≤ code.toNat ∧ code.toNat ≤ 999 then some ⟨code.toNat, h⟩ else none

def WriterCall.refused : WriterCall → Bool
  | writeHeader code => (statusOf code).isNone
  | _ => false

def errHandlerTimedOut : String := "http handler timed out"

/-! ### The buffered writer -/

structure TimeoutResponseWriter where
  header : Header
  body : Bytes
  statusCode : Int
  wroteHeader : Bool
  timedOut : Bool

def newTimeoutResponseWriter : TimeoutResponseWriter := ⟨fun _ => [], [], 200, false, false⟩

/-- The order in which a loop over a header visits its keys: any order, as maps have none. -/
structure MapOrder where
  keys : Header → List String
  nodup : ∀ h, (keys h).Nodup
  complete : ∀ h : Header, {key | h key ≠ []}.Finite → ∀ key, h key ≠ [] → key ∈ keys h

namespace TimeoutResponseWriter

variable (t : TimeoutResponseWriter)

def writeHeader (statusCode : Int) : TimeoutResponseWriter :=
  if t.timedOut || t.wroteHeader then t
  else { t with statusCode := statusCode, wroteHeader := true }

def write (p : Bytes) (err : Option String) : TimeoutResponseWriter × Answer :=
  if t.timedOut then (t, .wrote 0 (some errHandlerTimedOut))
  else
    let t := if t.wroteHeader then t else { t with statusCode := 200, wroteHeader := true }
    ({ t with body := t.body ++ p }, .wrote p.length err)

def call : WriterCall → TimeoutResponseWriter × Answer
  | .get key => (t, .value (t.header.get key))
  | .writeHeader code => (t.writeHeader code, .done)
  | .write p => t.write p none
  | .readFrom data err => t.write data err
  | edit => ({ t with header := edit.edit t.header }, .done)

def markTimedOut : TimeoutResponseWriter := { t with timedOut := true }

/-- The calls that `copyTo` makes on the real writer. -/
def copyTo (order : MapOrder) (t : TimeoutResponseWriter) : List WriterCall :=
  if t.timedOut then []
  else
    ((order.keys t.header).flatMap fun key => (t.header key).map (.add key)) ++
      [.writeHeader t.statusCode, .write t.body]

end TimeoutResponseWriter

/-- The 408 as `Send` writes it. There is no data, so the minifier changes nothing. -/
def requestTimeout : List WriterCall :=
  [.set headerContentType "application/json; charset=UTF-8".toList, .writeHeader 408,
    .write ("\x7b\"success\":false,\"code\":\"E408\",\"data\":null," ++
      "\"message\":\"Request Timeout\"\x7d").toUTF8.toList]

/-! ### The two goroutines -/

inductive Handler where
  | running
  | returned
  | panicked
deriving DecidableEq

inductive Main where
  /-- The handler runs here, on the real writer. -/
  | direct
  | waiting
  /-- The context has passed its deadline, the writer is not marked yet. -/
  | expired
  | copying (pending : List WriterCall)
  | sending (pending : List WriterCall)
  | returned
  | panicked

def Main.Finished : Main → Prop
  | returned => True
  | panicked => True
  | _ => False

inductive Channel where
  | panicCh
  | done
  | ctxDone (why : ContextErr)

/-- `made` holds the calls of the handler with what it got back from the buffered writer in
`answers`, `taken` the channel that the `select` has taken, and `written` the calls on the real
writer. -/
structure State where
  handler : Handler
  tw : TimeoutResponseWriter
  made : List WriterCall
  answers : List Answer
  ctx : Option ContextErr
  taken : Option Channel
  main : Main
  written : List WriterCall

inductive Action where
  | call (c : WriterCall)
  | handlerReturns
  | handlerPanics
  /-- The deadline passes, that of the middleware or one of the request. -/
  | deadline
  | parentCancelled
  | selectPanic
  | selectDone
  | selectContext
  | markTimedOut
  | writeNext

def start (duration : Int) : State where
  handler := .running
  tw := newTimeoutResponseWriter
  made := []
  answers := []
  ctx := none
  taken := none
  main := if duration ≤ 0 then .direct else .waiting
  written := []

def State.call (s : State) (c : WriterCall) : State × Option Answer :=
  match s.handler, s.main with
  | .running, .direct =>
    ({ s with
      handler := if c.refused then .panicked else .running
      made := s.made ++ [c]
      main := if c.refused then .panicked else .direct
      written := s.written ++ [c] }, none)
  | .running, _ =>
    ({ s with
      tw := (s.tw.call c).1
      made := s.made ++ [c]
      answers := s.answers ++ [(s.tw.call c).2] }, some (s.tw.call c).2)
  | _, _ => (s, none)

/-- The handler ends; without a deadline the goroutine of the request ends with it. -/
def State.handlerEnds (s : State) (handler : Handler) (main : Main) : State :=
  match s.handler, s.main with
  | .running, .direct => { s with handler := handler, main := main }
  | .running, _ => { s with handler := handler }
  | _, _ => s

/-- A call on the real writer, which goes on or panics. -/
def State.send (s : State) (c : WriterCall) (main : Main) : State :=
  { s with written := s.written ++ [c], main := if c.refused then .panicked else main }

def State.writeNext (s : State) : State :=
  match s.main with
  | .copying (c :: pending) => s.send c (.copying pending)
  | .sending (c :: pending) => s.send c (.sending pending)
  | .copying [] => { s with main := .returned }
  | .sending [] => { s with main := .returned }
  | _ => s

/-- The branches of the `select` are taken when their channel is ready. -/
def machine (order : MapOrder) : Machine State Action (Option Answer) where
  step s
    | .call c => s.call c
    | .handlerReturns => (s.handlerEnds .returned .returned, none)
    | .handlerPanics => (s.handlerEnds .panicked .panicked, none)
    | .deadline => ({ s with ctx := s.ctx.or (some .deadlineExceeded) }, none)
    | .parentCancelled => ({ s with ctx := s.ctx.or (some .canceled) }, none)
    | .selectPanic =>
      match s.main, s.handler with
      | .waiting, .panicked => ({ s with taken := some .panicCh, main := .panicked }, none)
      | _, _ => (s, none)
    | .selectDone =>
      match s.main, s.handler with
      | .waiting, .returned =>
        ({ s with taken := some .done, main := .copying (s.tw.copyTo order) }, none)
      | _, _ => (s, none)
    | .selectContext =>
      match s.main, s.ctx with
      | .waiting, some .deadlineExceeded =>
        ({ s with taken := some (.ctxDone .deadlineExceeded), main := .expired }, none)
      | .waiting, some .canceled =>
        ({ s with taken := some (.ctxDone .canceled), main := .returned }, none)
      | _, _ => (s, none)
    | .markTimedOut =>
      match s.main with
      | .expired => ({ s with tw := s.tw.markTimedOut, main := .sending requestTimeout }, none)
      | _ => (s, none)
    | .writeNext => (s.writeNext, none)

/-! ### What the calls of a handler ask for -/

/-- The code that a call sends the header with, if it has not been sent. -/
def WriterCall.code? : WriterCall → Option Int
  | writeHeader code => some code
  | write _ => some 200
  | readFrom _ _ => some 200
  | _ => none

def firstCode? (calls : List WriterCall) : Option Int := calls.findSome? WriterCall.code?

def WriterCall.data : WriterCall → Bytes
  | write p => p
  | readFrom data _ => data
  | _ => []

def WriterCall.give (key : String) (values : List Text) : WriterCall → List Text
  | set k value => if key = k then [value] else values
  | add k value => if key = k then values ++ [value] else values
  | del k => if key = k then [] else values
  | assign k new => if key = k then new else values
  | _ => values

/-- The values that the calls give a key, since they last dropped those it had. -/
def given (key : String) (calls : List WriterCall) : List Text :=
  calls.foldl (WriterCall.give key) []

/-- The complete response to the calls of a handler: the values that they give the keys, in some
order of the keys, the first code or 200, and all their data. -/
def Complete (calls response : List WriterCall) : Prop :=
  ∃ keys : List String, keys.Nodup ∧ (∀ key, given key calls ≠ [] → key ∈ keys) ∧
    response = (keys.flatMap fun key => (given key calls).map (.add key)) ++
      [.writeHeader ((firstCode? calls).getD 200), .write (calls.flatMap WriterCall.data)]

def SendsTimeout (s : State) : Prop :=
  (∃ pending, s.main = .sending pending) ∨ (s.main = .returned ∧ s.written = requestTimeout)

variable {order : MapOrder} {s : State} (calls : List WriterCall) (c : WriterCall)

namespace TimeoutResponseWriter

variable (t : TimeoutResponseWriter)

@[simp]
theorem timedOut_writeHeader (code : Int) : (t.writeHeader code).timedOut = t.timedOut := by
  rw [writeHeader]
  split <;> rfl

@[simp]
theorem timedOut_write (p : Bytes) (err : Option String) :
    (t.write p err).1.timedOut = t.timedOut := by
  rw [write]
  split
  · rfl
  · dsimp only
    split <;> rfl

/-- No call of the handler touches the mark. -/
@[simp]
theorem timedOut_call : (t.call c).1.timedOut = t.timedOut := by
  cases c <;> simp [call]

end TimeoutResponseWriter

/-! ### The buffered writer behind a list of calls -/

def bufferMachine : Machine TimeoutResponseWriter WriterCall Answer :=
  ⟨TimeoutResponseWriter.call⟩

def buffer (calls : List WriterCall) : TimeoutResponseWriter :=
  bufferMachine.run newTimeoutResponseWriter calls

def bufferAnswers (calls : List WriterCall) : List Answer :=
  (bufferMachine.trace newTimeoutResponseWriter calls).map Prod.snd

def response (order : MapOrder) (calls : List WriterCall) : List WriterCall :=
  (buffer calls).copyTo order

theorem buffer_append :
    buffer (calls ++ [c]) = ((buffer calls).call c).1 := bufferMachine.run_append _ calls [c]

theorem bufferAnswers_append :
    bufferAnswers (calls ++ [c]) = bufferAnswers calls ++ [((buffer calls).call c).2] := by
  rw [bufferAnswers, Machine.trace_append, List.map_append]
  rfl

theorem edit_apply (h : Header) (c : WriterCall) (key : String) :
    c.edit h key = c.give key (h key) := by
  cases c with
  | add k value =>
    rw [WriterCall.edit, Header.add, Function.update_apply, WriterCall.give]
    split_ifs with hk
    · rw [hk]
    · rfl
  | set | del | assign => exact Function.update_apply h _ _ key
  | _ => rfl

theorem foldl_edit_apply (h : Header) (calls : List WriterCall) (key : String) :
    calls.foldl WriterCall.edit h key = calls.foldl (WriterCall.give key) (h key) := by
  induction calls generalizing h with
  | nil => rfl
  | cons c rest ih => rw [List.foldl_cons, List.foldl_cons, ih, edit_apply]

theorem foldl_edit_empty : calls.foldl WriterCall.edit (fun _ => []) = fun key => given key calls :=
  funext fun key => foldl_edit_apply (fun _ => []) calls key

theorem firstCode?_append : firstCode? (calls ++ [c]) = (firstCode? calls).or c.code? := by
  rw [firstCode?, List.findSome?_append]
  cases hc : c.code? <;> simp [hc, firstCode?]

/-- What the buffered writer holds behind the calls of a handler. -/
theorem buffer_eq :
    buffer calls = ⟨fun key => given key calls, calls.flatMap WriterCall.data,
      (firstCode? calls).getD 200, (firstCode? calls).isSome, false⟩ := by
  rw [← foldl_edit_empty]
  induction calls using List.reverseRecOn with
  | nil => rfl
  | append_singleton calls c ih =>
    rw [buffer_append, ih, firstCode?_append, List.foldl_concat, List.flatMap_append]
    cases firstCode? calls <;> cases c <;>
      simp [TimeoutResponseWriter.call, TimeoutResponseWriter.write,
        TimeoutResponseWriter.writeHeader, WriterCall.code?, WriterCall.data, WriterCall.edit]

theorem finite_update {h : Header} (hfinite : {key | h key ≠ []}.Finite) (k : String)
    (values : List Text) :
    {key | Function.update h k values key ≠ []}.Finite := by
  refine (hfinite.insert k).subset fun key hkey => ?_
  by_cases hk : key = k
  · exact .inl hk
  · exact .inr (by simpa [hk] using hkey)

theorem finite_edit {h : Header} (hfinite : {key | h key ≠ []}.Finite) (c : WriterCall) :
    {key | c.edit h key ≠ []}.Finite := by
  cases c with
  | set k | add k | del k | assign k => exact finite_update hfinite k _
  | _ => exact hfinite

/-- Calls give values to finitely many keys. -/
theorem finite_given : {key | given key calls ≠ []}.Finite := by
  have hfinite : {key | calls.foldl WriterCall.edit (fun _ => []) key ≠ []}.Finite := by
    induction calls using List.reverseRecOn with
    | nil => simp
    | append_singleton calls c ih =>
      rw [List.foldl_concat]
      exact finite_edit ih c
  rwa [foldl_edit_empty] at hfinite

/-- What is copied is the complete response to the calls of the handler. -/
theorem complete_response (order : MapOrder) (calls : List WriterCall) :
    Complete calls (response order calls) := by
  refine ⟨order.keys fun key => given key calls, order.nodup _, ?_, ?_⟩
  · exact order.complete _ (finite_given calls)
  · rw [response, buffer_eq]
    rfl

/-- The one call of a complete response that can be refused is the one that sends the header. -/
theorem Complete.refused {calls front pending : List WriterCall} {c : WriterCall}
    (h : Complete calls (front ++ c :: pending)) (hc : c.refused = true) :
    statusOf ((firstCode? calls).getD 200) = none ∧
      ∃ data, Complete calls (front ++ [c] ++ [.write data]) := by
  obtain ⟨keys, -, -, hresponse⟩ := id h
  have hadds : ∀ other ∈ keys.flatMap fun key => (given key calls).map (WriterCall.add key),
      other.refused = false := by
    intro other hother
    obtain ⟨key, -, hvalue⟩ := List.mem_flatMap.mp hother
    obtain ⟨value, -, rfl⟩ := List.mem_map.mp hvalue
    rfl
  generalize hcode : (firstCode? calls).getD 200 = code at *
  generalize (keys.flatMap fun key => (given key calls).map (WriterCall.add key)) = adds at *
  have hlast : c = .writeHeader code ∧ pending = [.write (calls.flatMap WriterCall.data)] := by
    rcases List.append_eq_append_iff.mp hresponse with ⟨middle, rfl, hrest⟩ | ⟨middle, -, hrest⟩
    · cases middle with
      | nil => exact List.cons.inj hrest
      | cons other middle =>
        obtain rfl : c = other := (List.cons.inj hrest).1
        simp [hadds c (by simp)] at hc
    · rcases middle with _ | ⟨_, _ | ⟨_, middle⟩⟩
      · simpa [eq_comm] using hrest
      · obtain ⟨-, rfl, -⟩ : _ ∧ WriterCall.write _ = c ∧ _ := by simpa using hrest
        cases hc
      · simp at hrest
  obtain ⟨rfl, rfl⟩ := hlast
  refine ⟨Option.isNone_iff_eq_none.mp hc, calls.flatMap WriterCall.data, ?_⟩
  rwa [List.append_assoc]

/-! ### One response -/

def InPhase (order : MapOrder) (s : State) : Prop :=
  match s.main with
  | .direct => False
  | .waiting => s.written = [] ∧ s.tw.timedOut = false
  | .expired => s.written = [] ∧ s.taken = some (.ctxDone .deadlineExceeded)
  | .copying pending =>
    s.taken = some .done ∧ s.handler = .returned ∧ s.tw.timedOut = false ∧
      s.written ++ pending = response order s.made
  | .sending pending =>
    s.taken = some (.ctxDone .deadlineExceeded) ∧ s.tw.timedOut = true ∧
      s.written ++ pending = requestTimeout
  | .returned =>
    (s.taken = some .done ∧ s.handler = .returned ∧ s.tw.timedOut = false ∧
        s.written = response order s.made) ∨
      (s.taken = some (.ctxDone .deadlineExceeded) ∧ s.tw.timedOut = true ∧
          s.written = requestTimeout) ∨
        (s.taken = some (.ctxDone .canceled) ∧ s.tw.timedOut = false ∧ s.written = [])
  | .panicked =>
    (s.handler = .panicked ∧ s.written = []) ∨
      (s.handler = .returned ∧ ∃ front c pending, s.written = front ++ [c] ∧ c.refused = true ∧
        front ++ c :: pending = response order s.made)

/-- Until it is marked, the buffer holds all calls of the handler. -/
structure Inv (order : MapOrder) (s : State) : Prop where
  buffered : s.tw.timedOut = false → s.tw = buffer s.made ∧ s.answers = bufferAnswers s.made
  ended : ∀ why, s.taken = some (.ctxDone why) → s.ctx = some why
  phase : InPhase order s

theorem inv_start {duration : Int} (h : 0 < duration) : Inv order (start duration) := by
  refine ⟨fun _ => ⟨rfl, rfl⟩, fun why htaken => (by cases htaken), ?_⟩
  simp [InPhase, start, not_le.mpr h, newTimeoutResponseWriter]

/-- While the handler runs, the phase only asks for the mark, the select and what was written. -/
theorem InPhase.of_running {s' : State} (h : InPhase order s) (hrunning : s.handler = .running)
    (hmain : s'.main = s.main) (hwritten : s'.written = s.written)
    (hmark : s'.tw.timedOut = s.tw.timedOut) (htaken : s'.taken = s.taken) :
    InPhase order s' := by
  rw [InPhase] at h ⊢
  rw [hmain]
  split at h <;> simp_all

section

variable (h : Inv order s)
include h

theorem Inv.call : Inv order (s.call c).1 := by
  rw [State.call]
  split
  · next hmain => exact (by simpa [InPhase, hmain] using h.phase : False).elim
  · next hrunning _ =>
      refine ⟨fun hmark => ?_, h.ended, h.phase.of_running hrunning rfl rfl (by simp) rfl⟩
      have hmark : s.tw.timedOut = false := by simpa using hmark
      obtain ⟨htw, hanswers⟩ := h.buffered hmark
      show (s.tw.call c).1 = buffer (s.made ++ [c]) ∧
        s.answers ++ [(s.tw.call c).2] = bufferAnswers (s.made ++ [c])
      rw [buffer_append, bufferAnswers_append, ← htw, hanswers]
      exact ⟨rfl, rfl⟩
  · exact h

theorem Inv.handlerEnds (handler : Handler) (main : Main) :
    Inv order (s.handlerEnds handler main) := by
  rw [State.handlerEnds]
  split
  · next hmain => exact (by simpa [InPhase, hmain] using h.phase : False).elim
  · next hrunning _ => exact ⟨h.buffered, h.ended, h.phase.of_running hrunning rfl rfl rfl rfl⟩
  · exact h

theorem Inv.contextEnds (why : ContextErr) : Inv order { s with ctx := s.ctx.or (some why) } := by
  refine ⟨h.buffered, fun e htaken => ?_, h.phase⟩
  rw [h.ended e htaken, Option.some_or]

theorem Inv.writeNext : Inv order s.writeNext := by
  have hphase := h.phase
  rw [State.writeNext]
  split
  · next c pending hmain =>
      simp only [InPhase, hmain] at hphase
      obtain ⟨htaken, hhandler, hmark, hwritten⟩ := hphase
      refine ⟨h.buffered, h.ended, ?_⟩
      cases hc : c.refused with
      | false => simpa [InPhase, State.send, hc] using ⟨htaken, hhandler, hmark, hwritten⟩
      | true =>
        simp only [InPhase, State.send, hc, if_true]
        exact .inr ⟨hhandler, s.written, c, pending, rfl, hc, hwritten⟩
  · next c pending hmain =>
      simp only [InPhase, hmain] at hphase
      have hc : c.refused = false := by
        have hmem : c ∈ requestTimeout := hphase.2.2 ▸ by simp
        simp only [requestTimeout, List.mem_cons, List.not_mem_nil, or_false] at hmem
        rcases hmem with rfl | rfl | rfl <;> rfl
      exact ⟨h.buffered, h.ended, by simpa [InPhase, State.send, hc] using hphase⟩
  · next hmain =>
      simp only [InPhase, hmain, List.append_nil] at hphase
      exact ⟨h.buffered, h.ended, .inl hphase⟩
  · next hmain =>
      simp only [InPhase, hmain, List.append_nil] at hphase
      exact ⟨h.buffered, h.ended, .inr (.inl hphase)⟩
  · exact h

theorem Inv.step (a : Action) : Inv order ((machine order).step s a).1 := by
  have hphase := h.phase
  cases a with
  | call c => exact h.call c
  | handlerReturns => exact h.handlerEnds .returned .returned
  | handlerPanics => exact h.handlerEnds .panicked .panicked
  | deadline => exact h.contextEnds .deadlineExceeded
  | parentCancelled => exact h.contextEnds .canceled
  | selectPanic =>
    simp only [machine]
    split
    · next hmain hhandler =>
        simp only [InPhase, hmain] at hphase
        exact ⟨h.buffered, fun why htaken => (by cases htaken), .inl ⟨hhandler, hphase.1⟩⟩
    · exact h
  | selectDone =>
    simp only [machine]
    split
    · next hmain hhandler =>
        simp only [InPhase, hmain] at hphase
        refine ⟨h.buffered, fun why htaken => (by cases htaken), rfl, hhandler, hphase.2, ?_⟩
        rw [hphase.1, (h.buffered hphase.2).1]
        rfl
    · exact h
  | selectContext =>
    simp only [machine]
    split
    · next hmain hctx =>
        simp only [InPhase, hmain] at hphase
        exact ⟨h.buffered, fun why htaken => (by cases htaken; exact hctx), hphase.1, rfl⟩
    · next hmain hctx =>
        simp only [InPhase, hmain] at hphase
        exact ⟨h.buffered, fun why htaken => (by cases htaken; exact hctx),
          .inr (.inr ⟨rfl, hphase.2, hphase.1⟩)⟩
    · exact h
  | markTimedOut =>
    simp only [machine]
    split
    · next hmain =>
        simp only [InPhase, hmain] at hphase
        refine ⟨fun hmark => absurd hmark (by simp [TimeoutResponseWriter.markTimedOut]), h.ended,
          hphase.2, rfl, ?_⟩
        rw [hphase.1]
        rfl
    · exact h
  | writeNext => exact h.writeNext

theorem Inv.run (actions : List Action) : Inv order ((machine order).run s actions) :=
  (machine order).run_invariant_of_step (Inv order) (fun _ a hs => hs.step a) s actions h

end

def Closed (s : State) : Prop := s.tw.timedOut = true ∨ s.handler ≠ .running

theorem Inv.closed (h : Inv order s) (hsends : SendsTimeout s) : Closed s := by
  have hphase := h.phase
  rcases hsends with ⟨pending, hmain⟩ | ⟨hmain, hwritten⟩
  · simp only [InPhase, hmain] at hphase
    exact .inl hphase.2.1
  · simp only [InPhase, hmain] at hphase
    rcases hphase with ⟨-, hhandler, -⟩ | ⟨-, hmark, -⟩ | ⟨-, -, hnothing⟩
    · exact .inr (by simp [hhandler])
    · exact .inl hmark
    · rw [hnothing] at hwritten
      cases hwritten

theorem Closed.handlerEnds (h : Closed s) (handler : Handler) (hends : handler ≠ .running)
    (main : Main) : Closed (s.handlerEnds handler main) := by
  rw [State.handlerEnds]
  split
  · exact .inr hends
  · exact .inr hends
  · exact h

theorem Closed.step (h : Closed s) (a : Action) : Closed ((machine order).step s a).1 := by
  cases a with
  | call c =>
    show Closed (s.call c).1
    rw [State.call]
    split
    · next hrunning _ => exact .inl (h.resolve_right (not_not.mpr hrunning))
    · exact h.imp_left fun hmark => by simpa using hmark
    · exact h
  | handlerReturns => exact h.handlerEnds .returned nofun .returned
  | handlerPanics => exact h.handlerEnds .panicked nofun .panicked
  | deadline | parentCancelled => exact h
  | writeNext =>
    simp only [machine, State.writeNext]
    split <;> exact h
  | markTimedOut =>
    simp only [machine]
    split
    · exact .inl rfl
    · exact h
  | _ =>
    simp only [machine]
    split <;> exact h

theorem Closed.run (h : Closed s) (actions : List Action) :
    Closed ((machine order).run s actions) :=
  (machine order).run_invariant_of_step Closed (fun _ a hs => hs.step a) s actions h

noncomputable def anyOrder : MapOrder where
  keys h := open Classical in
    if hfinite : {key | h key ≠ []}.Finite then hfinite.toFinset.toList else []
  nodup h := by
    split
    · exact Finset.nodup_toList _
    · exact List.nodup_nil
  complete h hfinite key hkey := by simp [hfinite, hkey]

end Photon.Middleware.Timeout
