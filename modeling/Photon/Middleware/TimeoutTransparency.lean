import Mathlib.Data.List.TakeWhile
import Photon.Middleware.Timeout

/-!
The timeout middleware around a handler that finishes in time, compared with the handler on the real
writer. The buffered writer starts with an empty header, the values of which are added to those of
the real writer at the end. So a key that the handler sets or deletes keeps its outer values, a key
that it reads seems to have none, and changes behind the first write are still sent.
-/

namespace Photon.Middleware.Timeout

open Photon.Lib

/-! ### The real writer -/

/-- A code that ends the header, unlike those sent ahead of the response. -/
def FinalCode (code : Int) : Prop :=
  ∃ status, statusOf code = some status ∧ status.informational = false

def receive (rw : ResponseWriter) : WriterCall → Option (ResponseWriter × Answer)
  | .get key => some (rw, .value (rw.header.get key))
  | .writeHeader code => (statusOf code).map fun status => (rw.writeHeader status, .done)
  | .write p => some (rw.write ⟨none, p⟩, .wrote p.length none)
  | .readFrom data err => some (rw.write ⟨none, data⟩, .wrote data.length err)
  | edit => some ({ rw with header := edit.edit rw.header }, .done)

def receiveAll (rw : ResponseWriter) :
    List WriterCall → Option (ResponseWriter × List Answer)
  | [] => some (rw, [])
  | c :: rest => do
      let (next, answer) ← receive rw c
      let (last, answers) ← receiveAll next rest
      some (last, answer :: answers)

def readsOf (answers : List Answer) : List Text :=
  answers.filterMap fun
    | .value text => some text
    | _ => none

structure Seen where
  status : StatusCode
  header : Header
  body : Bytes
  reads : List Text

def seenWith (rw : ResponseWriter) (answers : List Answer) : Seen :=
  ⟨rw.finish.status, rw.finish.header, rw.finish.body.flatMap Chunk.bytes, readsOf answers⟩

def direct (outer : Header) (calls : List WriterCall) : Option Seen :=
  (receiveAll ⟨outer, none, []⟩ calls).map fun out => seenWith out.1 out.2

def buffered (outer : Header) (s : State) : Option Seen :=
  (receiveAll ⟨outer, none, []⟩ s.written).map fun out => seenWith out.1 s.answers

def Transparent (outer : Header) (s : State) : Prop :=
  ∃ seen, direct outer s.made = some seen ∧ buffered outer s = some seen

/-! ### What the calls of a handler ask for -/

def early (calls : List WriterCall) : List WriterCall :=
  calls.takeWhile fun c => c.code?.isNone

def WriterCall.resets (key : String) : WriterCall → Bool
  | set k _ => key = k
  | del k => key = k
  | assign k _ => key = k
  | _ => false

/-- A key that is read has been set or deleted before, or its first value is the same without the
outer ones. -/
def ReadsKept (outer : Header) (calls : List WriterCall) : Prop :=
  ∀ before c after, calls = before ++ c :: after → ∀ key, c = .get key →
    before.any (WriterCall.resets key) = true ∨
      (outer key ++ given key before).headD [] = (given key before).headD []

/-- Of a key that is set or deleted before the header is sent, the values by then are those it has
outside with those that it has at the end behind them; of every other key, they are those at the
end. -/
structure HeadersKept (outer : Header) (calls : List WriterCall) : Prop where
  sent : ∀ key, given key (early calls) =
    if (early calls).any (WriterCall.resets key) then outer key ++ given key calls
    else given key calls
  read : ReadsKept outer calls

/-- What is sent when the `select` takes the end of the context: the 408, or nothing. -/
def sentInstead : ContextErr → List WriterCall
  | .deadlineExceeded => requestTimeout
  | .canceled => []

def statusFor (code : Int) : StatusCode := (statusOf code).getD statusOK

/-- The calls ask for the status, header and body of another response. -/
structure AsksFor (outer : Header) (calls other : List WriterCall) : Prop where
  code : statusFor ((firstCode? calls).getD 200) = statusFor ((firstCode? other).getD 200)
  sent : ∀ key, (early calls).foldl (WriterCall.give key) (outer key) =
    (early other).foldl (WriterCall.give key) (outer key)
  data : calls.flatMap WriterCall.data = other.flatMap WriterCall.data
  read : ReadsKept outer calls

/-! ### Headers, key by key -/

variable (h : Header) (key : String) (values : List Text)

/-- A call drops the values of the key or leaves them in front. -/
theorem give_eq (c : WriterCall) :
    c.give key values = if c.resets key then c.give key [] else values ++ c.give key [] := by
  cases c with
  | set k | add k | del k | assign k =>
    by_cases hk : key = k <;> simp [WriterCall.give, WriterCall.resets, hk]
  | _ => simp [WriterCall.give, WriterCall.resets]

theorem foldl_give_eq (calls : List WriterCall) :
    calls.foldl (WriterCall.give key) values =
      if calls.any (WriterCall.resets key) then given key calls else values ++ given key calls := by
  induction calls using List.reverseRecOn with
  | nil => simp [given]
  | append_singleton calls c ih =>
    have hgiven : given key (calls ++ [c]) = c.give key (given key calls) := by
      rw [given, List.foldl_concat]
      rfl
    rw [List.foldl_concat, ih, hgiven, List.any_append, List.any_cons, List.any_nil,
      Bool.or_false, give_eq key _ c, give_eq key (given key calls) c]
    cases c.resets key with
    | true => simp
    | false => cases calls.any (WriterCall.resets key) <;> simp

/-- The values behind the calls, from those that the key had. -/
theorem foldl_edit_eq (calls : List WriterCall) (key : String) :
    calls.foldl WriterCall.edit h key =
      if calls.any (WriterCall.resets key) then given key calls else h key ++ given key calls := by
  rw [foldl_edit_apply, foldl_give_eq]

variable {calls : List WriterCall} (rw : ResponseWriter) (order : MapOrder) (outer : Header)

/-- The header that is sent by a handler alone is the one that it leaves behind the outer one. -/
theorem sent_eq_iff (calls : List WriterCall) :
    (early calls).foldl WriterCall.edit outer = (fun key => outer key ++ given key calls) ↔
      ∀ key, given key (early calls) =
        if (early calls).any (WriterCall.resets key) then outer key ++ given key calls
        else given key calls := by
  rw [funext_iff]
  refine forall_congr' fun key => ?_
  rw [foldl_edit_eq]
  cases (early calls).any (WriterCall.resets key) <;> simp

/-! ### Reads -/

def WriterCall.read? (h : Header) : WriterCall → Option Text
  | get key => some (h.get key)
  | _ => none

def readsFrom (h : Header) : List WriterCall → List Text
  | [] => []
  | c :: rest => (c.read? h).toList ++ readsFrom (c.edit h) rest

theorem readsFrom_eq_iff (h h' : Header) (calls : List WriterCall) :
    readsFrom h calls = readsFrom h' calls ↔
      ∀ before c after, calls = before ++ c :: after → ∀ key, c = .get key →
        (before.foldl WriterCall.edit h).get key = (before.foldl WriterCall.edit h').get key := by
  induction calls generalizing h h' with
  | nil => simp [readsFrom]
  | cons c rest ih =>
    rw [Machine.forall_split_cons (P := fun before c => ∀ key, c = .get key →
      (before.foldl WriterCall.edit h).get key = (before.foldl WriterCall.edit h').get key)]
    simp only [List.foldl_cons, List.foldl_nil]
    rw [← ih, readsFrom, readsFrom]
    cases c <;> simp [WriterCall.read?]

/-- A read shows the outer values, unless the key was set or deleted before. -/
theorem reads_eq_iff (calls : List WriterCall) :
    readsFrom outer calls = readsFrom (fun _ => []) calls ↔ ReadsKept outer calls := by
  rw [readsFrom_eq_iff]
  refine forall₃_congr fun before c after => forall₃_congr fun _ key _ => ?_
  rw [Header.get, Header.get, foldl_edit_eq, foldl_edit_empty]
  cases before.any (WriterCall.resets key) <;> simp

/-! ### The real writer behind a list of calls -/

theorem finalCode_ok : FinalCode 200 := ⟨statusOK, rfl, rfl⟩

def FinalCodes (calls : List WriterCall) : Prop :=
  ∀ code, .writeHeader code ∈ calls → FinalCode code

theorem FinalCode.statusOf_eq {code : Int} (h : FinalCode code) :
    statusOf code = some (statusFor code) := by
  obtain ⟨status, hstatus, -⟩ := h
  rw [statusFor, hstatus, Option.getD_some]

theorem FinalCode.informational {code : Int} (h : FinalCode code) :
    (statusFor code).informational = false := by
  obtain ⟨status, hstatus, hfinal⟩ := h
  rw [statusFor, hstatus, Option.getD_some, hfinal]

theorem sent_writeHeader {status : StatusCode} (h : status.informational = false) :
    (rw.writeHeader status).sent = rw.sent.or (some (status, rw.header)) := by
  rw [ResponseWriter.writeHeader, h, Bool.or_false]
  cases hsent : rw.sent with
  | none => simp
  | some sent => simp [hsent]

structure Took (rw : ResponseWriter) (calls : List WriterCall) (rw' : ResponseWriter)
    (answers : List Answer) : Prop where
  sent : rw'.sent = rw.sent.or ((firstCode? calls).map fun code =>
    (statusFor code, (early calls).foldl WriterCall.edit rw.header))
  header : rw'.header = calls.foldl WriterCall.edit rw.header
  body : rw'.body.flatMap Chunk.bytes =
    rw.body.flatMap Chunk.bytes ++ calls.flatMap WriterCall.data
  reads : readsOf answers = readsFrom rw.header calls

theorem Took.nil : Took rw [] rw [] := by
  refine ⟨?_, rfl, ?_, rfl⟩
  · simp [firstCode?]
  · simp

/-- Writing sends the header first. -/
theorem took_write {c : WriterCall} (hcode : c.code? = some 200)
    (hedit : c.edit rw.header = rw.header) (hread : c.read? rw.header = none) (n : ℕ)
    (err : Option String) :
    Took rw [c] (rw.write ⟨none, c.data⟩) [.wrote n err] := by
  refine ⟨?_, ?_, ?_, ?_⟩
  · have hsent : (rw.write ⟨none, c.data⟩).sent =
        rw.sent.or (some (statusFor 200, rw.header)) :=
      sent_writeHeader rw finalCode_ok.informational
    simpa [firstCode?, early, hcode] using hsent
  · rw [ResponseWriter.header_write, List.foldl_cons, List.foldl_nil, hedit]
  · simp [ResponseWriter.body_write]
  · simp [readsOf, readsFrom, hread]

theorem receive_took {c : WriterCall} (h : FinalCodes [c]) :
    ∃ rw' answer, receive rw c = some (rw', answer) ∧ Took rw [c] rw' [answer] := by
  cases c with
  | writeHeader code =>
    have hcode : FinalCode code := h code List.mem_cons_self
    refine ⟨rw.writeHeader (statusFor code), .done, ?_, ?_, ?_, ?_, rfl⟩
    · rw [receive, hcode.statusOf_eq, Option.map_some]
    · simpa [firstCode?, early, WriterCall.code?] using sent_writeHeader rw hcode.informational
    · rw [ResponseWriter.header_writeHeader]
      rfl
    · simp [ResponseWriter.body_writeHeader, WriterCall.data]
  | write | readFrom => exact ⟨_, _, rfl, took_write rw rfl rfl rfl _ _⟩
  | _ =>
    refine ⟨_, _, rfl, ?_, rfl, ?_, rfl⟩
    · simp [firstCode?, WriterCall.code?]
    · simp [WriterCall.data]

/-- One call and then others. -/
theorem Took.cons {rw next last : ResponseWriter} {c : WriterCall} {answer : Answer}
    {answers : List Answer} {rest : List WriterCall} (hfirst : Took rw [c] next [answer])
    (hrest : Took next rest last answers) :
    Took rw (c :: rest) last (answer :: answers) := by
  have hnext : next.header = c.edit rw.header := hfirst.header
  refine ⟨?_, ?_, ?_, ?_⟩
  · rw [hrest.sent, hfirst.sent, hnext]
    cases hcode : c.code? <;> simp [firstCode?, early, hcode]
  · rw [hrest.header, hnext, List.foldl_cons]
  · rw [hrest.body, hfirst.body, List.append_assoc, ← List.flatMap_append]
    rfl
  · have hanswers : readsOf (answer :: answers) = readsOf [answer] ++ readsOf answers :=
      List.filterMap_append (l := [answer])
    rw [hanswers, hfirst.reads, hrest.reads, hnext, readsFrom, readsFrom, readsFrom,
      List.append_nil]

theorem receiveAll_took (h : FinalCodes calls) :
    ∃ rw' answers, receiveAll rw calls = some (rw', answers) ∧ Took rw calls rw' answers := by
  induction calls generalizing rw with
  | nil => exact ⟨rw, [], rfl, .nil rw⟩
  | cons c rest ih =>
    obtain ⟨next, answer, hreceive, hfirst⟩ := receive_took rw (c := c) fun code hcode =>
      h code (List.mem_singleton.mp hcode ▸ List.mem_cons_self)
    obtain ⟨last, answers, hall, hrest⟩ := ih next fun code hcode =>
      h code (List.mem_cons_of_mem _ hcode)
    exact ⟨last, answer :: answers, by simp [receiveAll, hreceive, hall], hfirst.cons hrest⟩

/-- The response is sent with the first code, or with 200 at the end. -/
theorem Took.seenWith {outer : Header} {rw : ResponseWriter} {answers : List Answer}
    (h : Took ⟨outer, none, []⟩ calls rw answers) (got : List Answer) :
    seenWith rw got = ⟨statusFor ((firstCode? calls).getD 200),
      (early calls).foldl WriterCall.edit outer, calls.flatMap WriterCall.data, readsOf got⟩ := by
  have hsent := h.sent
  have hbody : rw.body.flatMap Chunk.bytes = calls.flatMap WriterCall.data := by
    rw [h.body]
    rfl
  rw [Timeout.seenWith, ResponseWriter.finish]
  cases hcode : firstCode? calls with
  | none =>
    -- No call has sent the header, so all of them come before it.
    have hearly : early calls = calls := by
      rw [early, List.takeWhile_eq_self_iff]
      intro c hc
      rw [List.findSome?_eq_none_iff.mp hcode c hc]
      rfl
    rw [hcode, Option.map_none, Option.or_none] at hsent
    simp only [hsent, h.header, hearly, hbody]
    rfl
  | some code =>
    rw [hcode] at hsent
    simp only [hsent]
    simp [hbody]

theorem received_eq (h : FinalCodes calls) (got : List Answer) :
    (receiveAll ⟨outer, none, []⟩ calls).map (fun out => seenWith out.1 got) =
      some ⟨statusFor ((firstCode? calls).getD 200), (early calls).foldl WriterCall.edit outer,
        calls.flatMap WriterCall.data, readsOf got⟩ := by
  obtain ⟨rw, answers, hreceive, htook⟩ := receiveAll_took ⟨outer, none, []⟩ h
  rw [hreceive, Option.map_some, htook.seenWith]

theorem direct_eq (h : FinalCodes calls) :
    direct outer calls = some ⟨statusFor ((firstCode? calls).getD 200),
      (early calls).foldl WriterCall.edit outer, calls.flatMap WriterCall.data,
      readsFrom outer calls⟩ := by
  obtain ⟨rw, answers, hreceive, htook⟩ := receiveAll_took ⟨outer, none, []⟩ h
  rw [direct, hreceive, Option.map_some, htook.seenWith, htook.reads]

/-! ### The buffered writer behind a list of calls -/

theorem readsFrom_append (calls : List WriterCall) (c : WriterCall) :
    readsFrom h (calls ++ [c]) =
      readsFrom h calls ++ (c.read? (calls.foldl WriterCall.edit h)).toList := by
  induction calls generalizing h with
  | nil => simp [readsFrom]
  | cons first rest ih =>
    rw [List.cons_append, readsFrom, ih, readsFrom, List.append_assoc]
    rfl

theorem readsOf_bufferAnswers (calls : List WriterCall) :
    readsOf (bufferAnswers calls) = readsFrom (fun _ => []) calls := by
  induction calls using List.reverseRecOn with
  | nil => rfl
  | append_singleton calls c ih =>
    have hanswer : readsOf [((buffer calls).call c).2] =
        (c.read? (calls.foldl WriterCall.edit fun _ => [])).toList := by
      rw [buffer_eq, foldl_edit_empty]
      cases c <;> simp [TimeoutResponseWriter.call, TimeoutResponseWriter.write, readsOf,
        WriterCall.read?]
    rw [bufferAnswers_append, readsFrom_append, ← ih, ← hanswer]
    exact List.filterMap_append

/-! ### Copying -/

theorem foldl_add_values :
    (values.map (WriterCall.add key)).foldl WriterCall.edit h =
      Function.update h key (h key ++ values) := by
  induction values generalizing h with
  | nil => simp
  | cons value rest ih =>
    rw [List.map_cons, List.foldl_cons, ih]
    simp [WriterCall.edit, Header.add]

/-- The loops over the keys and their values add each value once. -/
theorem foldl_add_keys (h own : Header) {keys : List String} (hnodup : keys.Nodup) (key : String) :
    (keys.flatMap fun key => (own key).map (WriterCall.add key)).foldl WriterCall.edit h key =
      if key ∈ keys then h key ++ own key else h key := by
  induction keys generalizing h with
  | nil => simp
  | cons first rest ih =>
    obtain ⟨hfirst, hrest⟩ := List.nodup_cons.mp hnodup
    rw [List.flatMap_cons, List.foldl_append, foldl_add_values, ih _ hrest]
    by_cases hkey : key = first
    · simp [hkey, hfirst]
    · simp [hkey]

/-- All values of the buffered header come behind those of the real one. -/
theorem foldl_add_header (outer own : Header) {keys : List String} (hnodup : keys.Nodup)
    (hall : ∀ key, own key ≠ [] → key ∈ keys) :
    (keys.flatMap fun key => (own key).map (WriterCall.add key)).foldl WriterCall.edit outer =
      fun key => outer key ++ own key := by
  funext key
  rw [foldl_add_keys outer own hnodup]
  split_ifs with hkey
  · rfl
  · have hnone : own key = [] := by
      by_contra hsome
      exact hkey (hall key hsome)
    rw [hnone, List.append_nil]

theorem FinalCodes.firstCode (h : FinalCodes calls) : FinalCode ((firstCode? calls).getD 200) := by
  cases hfirst : firstCode? calls with
  | none => exact finalCode_ok
  | some code =>
    obtain ⟨c, hc, hcode⟩ := List.exists_of_findSome?_eq_some hfirst
    cases c with
    | writeHeader own => exact Option.some.inj hcode ▸ h own hc
    | write | readFrom => exact Option.some.inj hcode ▸ finalCode_ok
    | _ => cases hcode

/-- Behind calls that only change the header, the header is sent and the body written. -/
theorem took_copy {outer : Header} {adds : List WriterCall} {code : Int} {body : Bytes}
    (hadds : ∀ c ∈ adds, ∃ key value, c = .add key value) (hcode : FinalCode code)
    (got : List Answer) :
    (receiveAll ⟨outer, none, []⟩ (adds ++ [.writeHeader code, .write body])).map
        (fun out => seenWith out.1 got) =
      some ⟨statusFor code, adds.foldl WriterCall.edit outer, body, readsOf got⟩ := by
  have hfinal : FinalCodes (adds ++ [.writeHeader code, .write body]) := by
    intro other hother
    rcases List.mem_append.mp hother with hadd | hlast
    · obtain ⟨key, value, heq⟩ := hadds _ hadd
      cases heq
    · obtain rfl : other = code := by simpa using hlast
      exact hcode
  have hnone : ∀ c ∈ adds, c.code? = none ∧ c.data = [] := by
    intro c hc
    obtain ⟨key, value, rfl⟩ := hadds c hc
    exact ⟨rfl, rfl⟩
  have hfirst : firstCode? (adds ++ [.writeHeader code, .write body]) = some code := by
    rw [firstCode?, List.findSome?_append,
      List.findSome?_eq_none_iff.mpr fun c hc => (hnone c hc).1]
    rfl
  have hearly : early (adds ++ [.writeHeader code, .write body]) = adds := by
    rw [early, List.takeWhile_append_of_pos fun c hc => by rw [(hnone c hc).1]; rfl]
    exact List.append_nil adds
  have hdata :
      (adds ++ [WriterCall.writeHeader code, .write body]).flatMap WriterCall.data = body := by
    rw [List.flatMap_append, List.flatMap_eq_nil_iff.mpr fun c hc => (hnone c hc).2]
    exact List.append_nil body
  rw [received_eq outer hfinal, hfirst, hearly, hdata]
  rfl

/-- The complete response as the real writer takes it. -/
theorem Complete.received {written : List WriterCall} (h : Complete calls written)
    (hcodes : FinalCodes calls) (got : List Answer) :
    (receiveAll ⟨outer, none, []⟩ written).map (fun out => seenWith out.1 got) =
      some ⟨statusFor ((firstCode? calls).getD 200), fun key => outer key ++ given key calls,
        calls.flatMap WriterCall.data, readsOf got⟩ := by
  obtain ⟨keys, hnodup, hall, rfl⟩ := h
  have hadds : ∀ c ∈ keys.flatMap fun key => (given key calls).map (WriterCall.add key),
      ∃ key value, c = .add key value := by
    intro c hc
    obtain ⟨key, -, hvalue⟩ := List.mem_flatMap.mp hc
    obtain ⟨value, -, rfl⟩ := List.mem_map.mp hvalue
    exact ⟨key, value, rfl⟩
  rw [took_copy hadds hcodes.firstCode,
    foldl_add_header outer (fun key => given key calls) hnodup hall]

/-- The real writer takes all of a response with a final code. -/
theorem Complete.accepted {written : List WriterCall} (h : Complete calls written)
    (hcodes : FinalCodes calls) : ∀ c ∈ written, c.refused = false := by
  intro c hc
  obtain ⟨front, pending, rfl⟩ := List.append_of_mem hc
  by_contra hrefused
  obtain ⟨hnone, -⟩ := h.refused (Bool.eq_true_of_not_eq_false hrefused)
  rw [hcodes.firstCode.statusOf_eq] at hnone
  cases hnone

/-! ### Runs of handlers that return in time -/

variable {order} {s : State}

/-- The handler runs and the deadline has not passed. -/
structure InTime (s : State) : Prop where
  running : s.handler = .running
  early : s.ctx ≠ some .deadlineExceeded

/-- The writer of a handler that is in time is not marked. -/
theorem Inv.unmarked (h : Inv order s) (hin : InTime s) : s.tw.timedOut = false := by
  have hphase := h.phase
  have hend : s.taken ≠ some (.ctxDone .deadlineExceeded) :=
    fun htaken => hin.early (h.ended _ htaken)
  have hrunning := hin.running
  rw [InPhase] at hphase
  split at hphase <;> simp_all

/-- A handler that has returned calls no more. -/
theorem run_returned (order : MapOrder) (hhandler : s.handler = .returned) (actions : List Action) :
    let s' := (machine order).run s actions
    s'.handler = .returned ∧ s'.made = s.made ∧ s'.answers = s.answers := by
  refine (machine order).run_invariant_of_step
    (fun s' => s'.handler = .returned ∧ s'.made = s.made ∧ s'.answers = s.answers) ?_ s actions
    ⟨hhandler, rfl, rfl⟩
  rintro t a ⟨hreturned, hmade, hanswers⟩
  cases a with
  | call | handlerReturns | handlerPanics =>
    simpa [machine, State.call, State.handlerEnds, hreturned] using ⟨hmade, hanswers⟩
  | deadline | parentCancelled => exact ⟨hreturned, hmade, hanswers⟩
  | writeNext =>
    simp only [machine, State.writeNext]
    split <;> exact ⟨hreturned, hmade, hanswers⟩
  | _ =>
    simp only [machine]
    split <;> exact ⟨hreturned, hmade, hanswers⟩

/-- What a handler reads that returns in time, it reads from the buffer. -/
theorem Inv.answers_of_inTime (h : Inv order s) (hin : InTime s) (after : List Action) :
    let s' := (machine order).run s (.handlerReturns :: after)
    s'.handler = .returned ∧ s'.answers = bufferAnswers s'.made := by
  have hbuffered := (h.buffered (h.unmarked hin)).2
  have hreturns : (s.handlerEnds .returned .returned).handler = .returned ∧
      (s.handlerEnds .returned .returned).made = s.made ∧
      (s.handlerEnds .returned .returned).answers = s.answers := by
    rw [State.handlerEnds]
    split
    · exact ⟨rfl, rfl, rfl⟩
    · exact ⟨rfl, rfl, rfl⟩
    · next hnot _ => exact absurd hin.running hnot
  obtain ⟨hhandler, hmade, hanswers⟩ := hreturns
  obtain ⟨hreturned, hmade', hanswers'⟩ := run_returned order hhandler after
  refine ⟨hreturned, ?_⟩
  rw [Machine.run_cons]
  exact hanswers'.trans (hanswers.trans (hbuffered.trans (by rw [← hmade, ← hmade']; rfl)))

/-- A request is answered from the buffer, or as the end of the context has it. -/
theorem Inv.answered (h : Inv order s) (hhandler : s.handler = .returned)
    (hfinished : s.main.Finished) (hcodes : FinalCodes s.made) :
    (s.taken = some .done ∧ Complete s.made s.written) ∨
      ∃ why, s.taken = some (.ctxDone why) ∧ s.written = sentInstead why := by
  have hphase := h.phase
  have hcomplete := complete_response order s.made
  cases hmain : s.main with
  | returned =>
    simp only [InPhase, hmain] at hphase
    rcases hphase with ⟨htaken, -, -, hwritten⟩ | ⟨htaken, -, hwritten⟩ | ⟨htaken, -, hwritten⟩
    · exact .inl ⟨htaken, hwritten ▸ hcomplete⟩
    · exact .inr ⟨_, htaken, hwritten⟩
    · exact .inr ⟨_, htaken, hwritten⟩
  | panicked =>
    simp only [InPhase, hmain] at hphase
    rcases hphase with ⟨hpanicked, -⟩ | ⟨-, front, c, pending, -, hc, hall⟩
    · rw [hhandler] at hpanicked
      cases hpanicked
    · have haccepted := hcomplete.accepted hcodes c (hall ▸ by simp)
      rw [hc] at haccepted
      cases haccepted
  | _ => simp [hmain, Main.Finished] at hfinished

/-! ### Transparency -/

/-- The comparison, for a known response of the middleware. -/
theorem transparent_iff_of_buffered {outer : Header} (hcodes : FinalCodes s.made)
    {status : StatusCode} {header : Header} {body : Bytes}
    (hbuffered : buffered outer s = some ⟨status, header, body, readsFrom (fun _ => []) s.made⟩) :
    Transparent outer s ↔ statusFor ((firstCode? s.made).getD 200) = status ∧
      (early s.made).foldl WriterCall.edit outer = header ∧
        s.made.flatMap WriterCall.data = body ∧ ReadsKept outer s.made := by
  rw [← reads_eq_iff, Transparent, direct_eq outer hcodes, hbuffered]
  constructor
  · rintro ⟨seen, hdirect, hbehind⟩
    have heq := Option.some.inj (hdirect.trans hbehind.symm)
    simpa using heq
  · rintro ⟨rfl, rfl, rfl, hreads⟩
    exact ⟨_, rfl, by rw [hreads]⟩

theorem finalCodes_sentInstead (why : ContextErr) : FinalCodes (sentInstead why) := by
  intro code hcode
  cases why with
  | canceled => cases hcode
  | deadlineExceeded =>
    obtain rfl : code = 408 := by simpa [sentInstead, requestTimeout] using hcode
    exact ⟨⟨408, by decide⟩, rfl, rfl⟩

/--
For a handler that returns before the deadline the middleware does not show just if the `select`
takes its end and its headers are kept (no key that it sets, deletes or reads has outer values, and
none is changed behind the first write, or the values happen to be the same), or if the `select`
takes the end of the context and the handler asks for what is sent then.
-/
theorem timeout_transparent_iff (order : MapOrder) (duration : Int) (hduration : 0 < duration)
    (outer : Header) (before after : List Action) (s : State)
    (hin : InTime ((machine order).run (start duration) before))
    (hrun : s = (machine order).run (start duration) (before ++ .handlerReturns :: after))
    (hfinished : s.main.Finished) (hcodes : FinalCodes s.made) :
    Transparent outer s ↔ (s.taken = some .done ∧ HeadersKept outer s.made) ∨
      ∃ why, s.taken = some (.ctxDone why) ∧ AsksFor outer s.made (sentInstead why) := by
  have hinv : Inv order s := hrun ▸ (inv_start hduration).run _
  rw [Machine.run_append] at hrun
  obtain ⟨hhandler, hanswers⟩ := ((inv_start hduration).run before).answers_of_inTime hin after
  rw [← hrun] at hhandler hanswers
  have hreads : readsOf s.answers = readsFrom (fun _ => []) s.made :=
    hanswers ▸ readsOf_bufferAnswers s.made
  rcases hinv.answered hhandler hfinished hcodes with ⟨htaken, hcomplete⟩ | ⟨why, htaken, hwritten⟩
  · have hbuffered := hcomplete.received outer hcodes s.answers
    rw [hreads] at hbuffered
    rw [transparent_iff_of_buffered hcodes hbuffered, sent_eq_iff, htaken]
    simp only [true_and, reduceCtorEq, false_and, exists_false, or_false, Option.some.injEq]
    exact ⟨fun h => ⟨h.1, h.2⟩, fun h => ⟨h.sent, h.read⟩⟩
  · have hbuffered := received_eq outer (finalCodes_sentInstead why) s.answers
    rw [← hwritten, hreads] at hbuffered
    rw [transparent_iff_of_buffered hcodes hbuffered, funext_iff, htaken]
    simp only [foldl_edit_apply, Option.some.injEq, reduceCtorEq, false_and, false_or,
      Channel.ctxDone.injEq, exists_eq_left', hwritten]
    exact ⟨fun h => ⟨h.1, h.2.1, h.2.2.1, h.2.2.2⟩, fun h => ⟨h.code, h.sent, h.data, h.read⟩⟩

/-- The request is answered from the buffer before the deadline. -/
def serveInTime (order : MapOrder) (calls : List WriterCall) : List Action :=
  .selectDone :: List.replicate ((response order calls).length + 1) .writeNext

theorem run_calls (order : MapOrder) {s : State} (hhandler : s.handler = .running)
    (hmain : s.main = .waiting) (calls : List WriterCall) :
    let s' := (machine order).run s (calls.map .call)
    s'.handler = .running ∧ s'.main = .waiting ∧ s'.ctx = s.ctx ∧ s'.made = s.made ++ calls := by
  induction calls generalizing s with
  | nil => exact ⟨hhandler, hmain, rfl, (List.append_nil _).symm⟩
  | cons c rest ih =>
    have hstep : ((machine order).step s (.call c)).1 =
        { s with
          tw := (s.tw.call c).1
          made := s.made ++ [c]
          answers := s.answers ++ [(s.tw.call c).2] } := by
      simp [machine, State.call, hhandler, hmain]
    obtain ⟨hrunning, hwaiting, hctx, hmade⟩ :=
      ih (s := ((machine order).step s (.call c)).1) (by rw [hstep, hhandler])
        (by rw [hstep, hmain])
    refine ⟨hrunning, hwaiting, hctx.trans (by rw [hstep]), hmade.trans ?_⟩
    rw [hstep, List.append_assoc]
    rfl

theorem run_writeNext (order : MapOrder) {s : State} {pending : List WriterCall}
    (hmain : s.main = .copying pending) (haccepted : ∀ c ∈ pending, c.refused = false) :
    let s' := (machine order).run s (List.replicate (pending.length + 1) .writeNext)
    s'.main = .returned ∧ s'.taken = s.taken ∧ s'.made = s.made := by
  induction pending generalizing s with
  | nil => simp [machine, State.writeNext, hmain]
  | cons c pending ih =>
    have hstep : ((machine order).step s .writeNext).1 =
        { s with written := s.written ++ [c], main := .copying pending } := by
      simp [machine, State.writeNext, hmain, State.send, haccepted c List.mem_cons_self]
    rw [List.length_cons, List.replicate_succ, Machine.run_cons, hstep]
    exact ih rfl fun c hc => haccepted c (List.mem_cons_of_mem _ hc)

/-- Every handler with final codes can be served in time. -/
theorem run_serveInTime (order : MapOrder) (duration : Int) (hduration : 0 < duration)
    (hcodes : FinalCodes calls) :
    InTime ((machine order).run (start duration) (calls.map .call)) ∧
      let s := (machine order).run (start duration)
        (calls.map .call ++ .handlerReturns :: serveInTime order calls)
      s.main = .returned ∧ s.taken = some .done ∧ s.made = calls := by
  have hwait : (start duration).main = .waiting := if_neg (not_le.mpr hduration)
  obtain ⟨hrunning, hwaiting, hctx, hmade⟩ := run_calls order rfl hwait calls
  have hinv : Inv order ((machine order).run (start duration) (calls.map .call)) :=
    (inv_start hduration).run _
  have hin : InTime ((machine order).run (start duration) (calls.map .call)) :=
    ⟨hrunning, fun h => by cases hctx.symm.trans h⟩
  refine ⟨hin, ?_⟩
  rw [serveInTime, Machine.run_append, Machine.run_cons, Machine.run_cons]
  generalize (machine order).run (start duration) (calls.map .call) = s at *
  have hresponse : s.tw.copyTo order = response order calls := by
    rw [(hinv.buffered (hinv.unmarked hin)).1, hmade]
    rfl
  have hsteps : ((machine order).step ((machine order).step s .handlerReturns).1 .selectDone).1 =
      { s with
        handler := .returned
        taken := some .done
        main := .copying (response order calls) } := by
    simp [machine, State.handlerEnds, hrunning, hwaiting, hresponse]
  rw [hsteps]
  obtain ⟨hreturned, htaken, hmade'⟩ := run_writeNext order
    (s := { s with
      handler := .returned
      taken := some .done
      main := .copying (response order calls) }) rfl
    ((complete_response order calls).accepted hcodes)
  exact ⟨hreturned, htaken, hmade'.trans hmade⟩

def jsonCalls : List WriterCall :=
  [.set headerContentType "application/json".toList, .writeHeader 201, .write [123, 125]]

theorem finalCodes_jsonCalls : FinalCodes jsonCalls := by
  intro code hcode
  obtain rfl : code = 201 := by simpa [jsonCalls] using hcode
  exact ⟨⟨201, by decide⟩, rfl, rfl⟩

theorem headersKept_jsonCalls : HeadersKept (fun _ => []) jsonCalls where
  sent key := by simp [jsonCalls, early, given, WriterCall.code?, WriterCall.give]
  read before c after hsplit key hget := by
    have hmem : WriterCall.get key ∈ jsonCalls := by
      rw [hsplit, hget]
      exact List.mem_append_right _ List.mem_cons_self
    simp [jsonCalls] at hmem

noncomputable def jsonServed : State :=
  (machine anyOrder).run (start 1)
    (jsonCalls.map .call ++ .handlerReturns :: serveInTime anyOrder jsonCalls)

theorem json_kept_without_outer_header : Transparent (fun _ => []) jsonServed := by
  obtain ⟨hin, hmain, htaken, hmade⟩ :=
    run_serveInTime anyOrder 1 (by decide) finalCodes_jsonCalls
  refine (timeout_transparent_iff anyOrder 1 (by decide) (fun _ => []) (jsonCalls.map .call)
    (serveInTime anyOrder jsonCalls) jsonServed hin rfl ?_ ?_).mpr (.inl ⟨htaken, ?_⟩)
  · rw [jsonServed, hmain]
    trivial
  · rw [jsonServed, hmade]
    exact finalCodes_jsonCalls
  · rw [jsonServed, hmade]
    exact headersKept_jsonCalls

/-- An outer type stays beside the one that the handler sets. -/
theorem outer_content_type_stays :
    let outer : Header := Function.update (fun _ => []) headerContentType ["text/plain".toList]
    jsonServed.main = .returned ∧ jsonServed.taken = some .done ∧ jsonServed.made = jsonCalls ∧
      (direct outer jsonServed.made).map (fun seen => seen.header headerContentType) =
        some ["application/json".toList] ∧
      (buffered outer jsonServed).map (fun seen => seen.header headerContentType) =
        some ["text/plain".toList, "application/json".toList] := by
  intro outer
  obtain ⟨-, hmain, htaken, hmade⟩ :
      _ ∧ jsonServed.main = .returned ∧ jsonServed.taken = some .done ∧
        jsonServed.made = jsonCalls :=
    run_serveInTime anyOrder 1 (by decide) finalCodes_jsonCalls
  have hinv : Inv anyOrder jsonServed := (inv_start (by decide)).run _
  have hphase := hinv.phase
  simp only [InPhase, hmain, htaken, hmade, reduceCtorEq, Option.some.injEq, false_and, or_false,
    true_and] at hphase
  refine ⟨hmain, htaken, hmade, ?_, ?_⟩
  · rw [hmade, direct_eq outer finalCodes_jsonCalls]
    rfl
  · rw [buffered, hphase.2.2,
      (complete_response anyOrder jsonCalls).received outer finalCodes_jsonCalls]
    rfl

end Photon.Middleware.Timeout
