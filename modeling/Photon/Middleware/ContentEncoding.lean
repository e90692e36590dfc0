import Photon.Middleware.AcceptEncoding

/-!
The label of a response and the writer of its body. The label is fixed at the first
`WriteHeader`, from the name that was selected. The body is written by the encoder that was
selected with it, or by the handler itself if the registered function gave nil. So labels are
truthful just if the selected function gives an encoder, or the response is not labelled.
-/

namespace Photon.Middleware

def HandlerCall.writes : HandlerCall → List Bytes
  | .write p => [p]
  | _ => []

def writesOf (calls : List HandlerCall) : List Bytes := calls.flatMap HandlerCall.writes

def HandlerCall.KeepsEncoding : HandlerCall → Prop
  | .assign key _ => key ≠ headerContentEncoding
  | _ => True

def firstHeader (h : Header) : List HandlerCall → Option Header
  | [] => none
  | .assign key values :: calls => firstHeader (Function.update h key values) calls
  | _ :: _ => some h

/-! ### The response below -/

namespace ResponseWriter

def Labelled (rw : ResponseWriter) (label : List Text) : Prop :=
  rw.header headerContentEncoding = label ∧
    ∀ sent ∈ rw.sent, sent.2 headerContentEncoding = label

variable {rw : ResponseWriter} {label : List Text}

theorem Labelled.writeHeader (h : rw.Labelled label) (code : StatusCode) :
    (rw.writeHeader code).Labelled label := by
  rw [ResponseWriter.writeHeader]
  split_ifs
  · exact h
  · refine ⟨h.1, fun sent hsent => ?_⟩
    cases hsent
    exact h.1

theorem Labelled.write (h : rw.Labelled label) (chunk : Chunk) :
    (rw.write chunk).Labelled label := h.writeHeader statusOK

theorem Labelled.writeAll (h : rw.Labelled label) (chunks : List Chunk) :
    (rw.writeAll chunks).Labelled label := by
  induction chunks generalizing rw with
  | nil => exact h
  | cons chunk chunks ih => exact ih (h.write chunk)

theorem body_writeAll (rw : ResponseWriter) (chunks : List Chunk) :
    (rw.writeAll chunks).body = rw.body ++ chunks := by
  induction chunks generalizing rw with
  | nil => exact (List.append_nil _).symm
  | cons chunk chunks ih =>
    refine (ih (rw.write chunk)).trans ?_
    rw [body_write, List.append_assoc, List.singleton_append]

theorem Labelled.finish (h : rw.Labelled label) :
    rw.finish.header headerContentEncoding = label := by
  rw [ResponseWriter.finish]
  cases hsent : rw.sent with
  | none => exact h.1
  | some sent => exact h.2 sent hsent

theorem body_finish (rw : ResponseWriter) : rw.finish.body = rw.body := by
  rw [ResponseWriter.finish]
  cases rw.sent <;> rfl

end ResponseWriter

/-! ### After the first header -/

namespace CompressResponseWriter

variable {cw : CompressResponseWriter} {label : List Text}

def Decided (cw : CompressResponseWriter) (label : List Text) : Prop :=
  cw.wroteHeader = true ∧ cw.responseWriter.Labelled label

def rest (cw : CompressResponseWriter) (writes : List Bytes) : List Chunk :=
  match cw.writer with
  | some encoder =>
    cw.chunksOf (encoder.emitAll cw.written writes ++ encoder.close (cw.written ++ writes))
  | none => writes.map (Chunk.mk none)

theorem close_response (h : cw.Decided label) :
    cw.close.responseWriter.Labelled label ∧
      cw.close.responseWriter.body = cw.responseWriter.body ++ cw.rest [] := by
  cases hwriter : cw.writer with
  | none => simpa [close, rest, hwriter] using h.2
  | some encoder =>
    simp only [close, rest, hwriter, Encoder.emitAll, List.nil_append, List.append_nil]
    exact ⟨h.2.writeAll _, ResponseWriter.body_writeAll _ _⟩

theorem write_of_writer (hwrote : cw.wroteHeader = true) {encoder : Encoder}
    (hwriter : cw.writer = some encoder) (p : Bytes) :
    cw.write p = { cw with
      written := cw.written ++ [p]
      responseWriter := cw.responseWriter.writeAll (cw.chunksOf (encoder.emit cw.written p)) } := by
  rw [write, if_pos hwrote]
  simp [hwriter]

/-- One call after the header: the label stays, and the body gets its part. -/
theorem Decided.call (h : cw.Decided label) {call : HandlerCall} (hcall : call.KeepsEncoding)
    (writes : List Bytes) :
    (cw.call call).Decided label ∧
      (cw.call call).responseWriter.body ++ (cw.call call).rest writes =
        cw.responseWriter.body ++ cw.rest (call.writes ++ writes) := by
  obtain ⟨hwrote, hlabel⟩ := h
  cases call with
  | assign key values =>
    refine ⟨⟨hwrote, ?_, hlabel.2⟩, rfl⟩
    rw [← hlabel.1]
    exact Function.update_of_ne (Ne.symm hcall) _ _
  | writeHeader code =>
    simp only [CompressResponseWriter.call, writeHeader, hwrote, if_true]
    refine ⟨⟨rfl, hlabel.writeHeader code⟩, ?_⟩
    rw [ResponseWriter.body_writeHeader]
    simp [rest, writer, chunksOf, HandlerCall.writes]
  | write p =>
    rw [CompressResponseWriter.call]
    cases hwriter : cw.writer with
    | some encoder =>
      rw [write_of_writer hwrote hwriter]
      refine ⟨⟨hwrote, hlabel.writeAll _⟩, ?_⟩
      have hnext : writer { cw with
          written := cw.written ++ [p]
          responseWriter := cw.responseWriter.writeAll
            (cw.chunksOf (encoder.emit cw.written p)) } = some encoder := hwriter
      rw [ResponseWriter.body_writeAll, List.append_assoc, rest, rest, hnext, hwriter]
      simp [chunksOf, HandlerCall.writes, Encoder.emitAll]
    | none =>
      rw [write, if_pos hwrote]
      simp only [hwriter]
      refine ⟨⟨hwrote, hlabel.write _⟩, ?_⟩
      have hnext : writer { cw with
          responseWriter := cw.responseWriter.write ⟨none, p⟩ } = none := hwriter
      rw [ResponseWriter.body_write, List.append_assoc, rest, rest, hnext, hwriter]
      simp [HandlerCall.writes]

/-- The whole response once the header is written. -/
theorem Decided.run (h : cw.Decided label) {calls : List HandlerCall}
    (hcalls : ∀ call ∈ calls, call.KeepsEncoding) :
    let response := (calls.foldl CompressResponseWriter.call cw).close.responseWriter.finish
    response.header headerContentEncoding = label ∧
      response.body = cw.responseWriter.body ++ cw.rest (writesOf calls) := by
  induction calls generalizing cw with
  | nil =>
    obtain ⟨hlabel, hbody⟩ := close_response h
    exact ⟨hlabel.finish, (ResponseWriter.body_finish _).trans hbody⟩
  | cons call calls ih =>
    obtain ⟨hcall, hrest⟩ := List.forall_mem_cons.mp hcalls
    obtain ⟨hdecided, hbody⟩ := h.call hcall (writesOf calls)
    obtain ⟨hlabel, hafter⟩ := ih hdecided hrest
    exact ⟨hlabel, hafter.trans hbody⟩

/-! ### Before the first header -/

structure Untouched (cw : CompressResponseWriter) : Prop where
  wroteHeader : cw.wroteHeader = false
  compressable : cw.compressable = false
  written : cw.written = []
  sent : cw.responseWriter.sent = none
  body : cw.responseWriter.body = []
  unlabelled : cw.responseWriter.header headerContentEncoding = []

/-- The response is labelled if the header is compressable and a name was selected. -/
def labels (cw : CompressResponseWriter) (h : Header) : Bool :=
  compressableHeader cw.contentTypes cw.contentWildcards h && cw.encoding ≠ []

def bodyFor (cw : CompressResponseWriter) (labelled : Bool) (writes : List Bytes) : List Chunk :=
  match (if labelled then cw.w else none) with
  | some encoder => cw.chunksOf (encoder.encode writes)
  | none => writes.map (Chunk.mk none)

def labelFor (cw : CompressResponseWriter) (labelled : Bool) : List Text :=
  if labelled then [cw.encoding] else []

theorem labelHeader_contentEncoding (h : Header) (encoding : Text) :
    labelHeader h encoding headerContentEncoding = [encoding] := by
  have hlength : headerContentEncoding ≠ headerContentLength := by decide
  have hliteral : headerContentEncoding ≠ "Content-Length" := by decide
  have hvary : headerContentEncoding ≠ "Vary" := by decide
  rw [labelHeader, Header.del, Function.update_of_ne hlength, Header.del,
    Function.update_of_ne hliteral, Header.add, Function.update_of_ne hvary, Header.set,
    Function.update_self]

theorem Untouched.label_eq (h : cw.Untouched) :
    cw.label.1 headerContentEncoding = cw.labelFor (cw.labels cw.responseWriter.header) ∧
      cw.label.2 = cw.labels cw.responseWriter.header := by
  have hget : cw.responseWriter.header.get headerContentEncoding = [] := by
    rw [Header.get, h.unlabelled, List.headD_nil]
  rw [label, if_neg (not_not.mpr hget), labels, ← isCompressable]
  by_cases hcompressable : cw.isCompressable = true
  · by_cases hencoding : cw.encoding = []
    · simp [hcompressable, hencoding, labelFor, h.unlabelled, h.compressable]
    · simp [hcompressable, hencoding, labelFor, labelHeader_contentEncoding]
  · simp [hcompressable, labelFor, h.unlabelled]

/-- The first header decides about the label and the writer of the body. -/
theorem Untouched.writeHeader (h : cw.Untouched) (code : StatusCode) :
    (cw.writeHeader code).Decided (cw.labelFor (cw.labels cw.responseWriter.header)) ∧
      ∀ writes, (cw.writeHeader code).responseWriter.body ++ (cw.writeHeader code).rest writes =
        cw.bodyFor (cw.labels cw.responseWriter.header) writes := by
  obtain ⟨hlabel, hcompressable⟩ := h.label_eq
  have hwrite : cw.writeHeader code = { cw with
      wroteHeader := true
      compressable := cw.label.2
      responseWriter := ResponseWriter.writeHeader
        { cw.responseWriter with header := cw.label.1 } code } := by
    rw [CompressResponseWriter.writeHeader, if_neg (Bool.eq_false_iff.mp h.wroteHeader)]
  rw [hwrite]
  refine ⟨⟨rfl, ResponseWriter.Labelled.writeHeader ⟨hlabel, ?_⟩ code⟩, fun writes => ?_⟩
  · rw [h.sent]
    intro sent hsent
    cases hsent
  · rw [ResponseWriter.body_writeHeader]
    simp [h.body, rest, writer, bodyFor, hcompressable, h.written, Encoder.encode, chunksOf]

theorem write_of_untouched (h : cw.wroteHeader = false) (p : Bytes) :
    cw.write p = (cw.writeHeader statusOK).write p := by
  have hnot := Bool.eq_false_iff.mp h
  have hwrote : (cw.writeHeader statusOK).wroteHeader = true := by
    rw [CompressResponseWriter.writeHeader, if_neg hnot]
  rw [write, write, if_neg hnot, if_pos hwrote]

/-- The whole response of a handler. -/
theorem Untouched.run (h : cw.Untouched) {calls : List HandlerCall}
    (hcalls : ∀ call ∈ calls, call.KeepsEncoding) :
    let response := (calls.foldl CompressResponseWriter.call cw).close.responseWriter.finish
    let labelled := (firstHeader cw.responseWriter.header calls).any cw.labels
    response.header headerContentEncoding = cw.labelFor labelled ∧
      response.body = cw.bodyFor labelled (writesOf calls) := by
  induction calls generalizing cw with
  | nil =>
    have hclose : cw.close = cw := by
      rw [close, writer, h.compressable]
      rfl
    simp only [List.foldl_nil, hclose, ResponseWriter.body_finish, h.body]
    refine ⟨?_, rfl⟩
    rw [ResponseWriter.finish, h.sent]
    exact h.unlabelled
  | cons call calls ih =>
    obtain ⟨hcall, hrest⟩ := List.forall_mem_cons.mp hcalls
    cases call with
    | assign key values =>
      have hnext : (cw.call (.assign key values)).Untouched :=
        { h with
          unlabelled := (Function.update_of_ne (Ne.symm hcall) _ _).trans h.unlabelled }
      exact ih hnext hrest
    | writeHeader code =>
      obtain ⟨hdecided, hbody⟩ := h.writeHeader code
      obtain ⟨hlabel, hafter⟩ := hdecided.run hrest
      exact ⟨hlabel, hafter.trans (hbody _)⟩
    | write p =>
      obtain ⟨hdecided, hbody⟩ := h.writeHeader statusOK
      obtain ⟨hlabel, hafter⟩ := hdecided.run hcalls
      have hfirst : cw.call (.write p) =
          (cw.writeHeader statusOK).call (.write p) := write_of_untouched h.wroteHeader p
      rw [List.foldl_cons, hfirst]
      exact ⟨hlabel, hafter.trans (hbody _)⟩

end CompressResponseWriter

/-! ### Truthful responses -/

/-- The function gives an encoder that can be reset; or it gives none for the pool, and then it
gives one for the response or none is needed. -/
def EncoderFunc.Fits (fn : EncoderFunc) (level : Int) (unneeded : Prop) : Prop :=
  (∃ encoder, fn .discard level = some encoder ∧ encoder.resets = true) ∨
    fn .discard level = none ∧ ((fn .response level).isSome = true ∨ unneeded)

namespace Compressor

variable {c : Compressor}

/-- The label names the encoding whose encoder wrote the body, or there is no label and the body
is the handler's. -/
def Truthful (c : Compressor) (calls : List HandlerCall) (response : Response) : Prop :=
  (∃ encoding fn w encoder, response.header headerContentEncoding = [encoding] ∧
      c.registered encoding = some fn ∧ fn w c.level = some encoder ∧
      response.body = (encoder.encode (writesOf calls)).map (Chunk.mk (some encoding))) ∨
    response.header headerContentEncoding = [] ∧
      response.body = (writesOf calls).map (Chunk.mk none)

/-- The function of the first name that matches fits, where a response that is not compressable
at its first header needs no encoder. -/
def Serves (table : Char → Char) (c : Compressor) (acceptEncoding : Text) (h : Header)
    (calls : List HandlerCall) : Prop :=
  ∀ name fn, c.encodingPrecedence.find?
      (matchAcceptEncoding (acceptedNames table acceptEncoding)) = some name →
    c.registered name = some fn →
    fn.Fits c.level (∀ header ∈ firstHeader h calls,
      compressableHeader c.allowedTypes c.allowedWildcards header = false)

theorem not_labelled_iff (c : Compressor) (encoder : Option Encoder) {name : Text}
    (hname : name ≠ []) (h : Header) (calls : List HandlerCall) :
    (firstHeader h calls).any (c.newWriter encoder name h).labels = false ↔
      ∀ header ∈ firstHeader h calls,
        compressableHeader c.allowedTypes c.allowedWildcards header = false := by
  cases firstHeader h calls with
  | none => simp
  | some header => simp [CompressResponseWriter.labels, newWriter, hname]

section Handler

variable {table : Char → Char} {acceptEncoding : Text} {h : Header} {calls : List HandlerCall}
  (hh : h headerContentEncoding = []) (hcalls : ∀ call ∈ calls, call.KeepsEncoding)
include hh hcalls

theorem handler_eq_ok {encoder : Option Encoder} {encoding : Text}
    (hselect : c.selectEncoder table acceptEncoding = .ok (encoder, encoding)) :
    ∃ response, c.handler table acceptEncoding h calls = .ok response ∧
      response.header headerContentEncoding = (c.newWriter encoder encoding h).labelFor
        ((firstHeader h calls).any (c.newWriter encoder encoding h).labels) ∧
      response.body = (c.newWriter encoder encoding h).bodyFor
        ((firstHeader h calls).any (c.newWriter encoder encoding h).labels) (writesOf calls) := by
  refine ⟨_, ?_, CompressResponseWriter.Untouched.run ⟨rfl, rfl, rfl, rfl, rfl, hh⟩ hcalls⟩
  simp [handler, hselect]

theorem truthful_of_encoder {encoder : Encoder} {name : Text} {fn : EncoderFunc} {w : Writer}
    (hselect : c.selectEncoder table acceptEncoding = .ok (some encoder, name))
    (hregistered : c.registered name = some fn) (hfn : fn w c.level = some encoder) :
    ∃ response, c.handler table acceptEncoding h calls = .ok response ∧
      c.Truthful calls response := by
  obtain ⟨response, hresponse, hlabel, hbody⟩ := handler_eq_ok hh hcalls hselect
  refine ⟨response, hresponse, ?_⟩
  cases hlabelled : (firstHeader h calls).any (c.newWriter (some encoder) name h).labels with
  | true =>
    rw [hlabelled] at hlabel hbody
    exact Or.inl ⟨name, fn, w, encoder, hlabel, hregistered, hfn, hbody⟩
  | false =>
    rw [hlabelled] at hlabel hbody
    exact Or.inr ⟨hlabel, hbody⟩

/-- Without an encoder, only an unlabelled response is truthful. -/
theorem truthful_iff_of_no_encoder {name : Text}
    (hselect : c.selectEncoder table acceptEncoding = .ok (none, name))
    (hregistered : ∀ fn w, c.registered name = some fn → fn w c.level = none) :
    (∃ response, c.handler table acceptEncoding h calls = .ok response ∧
        c.Truthful calls response) ↔
      (firstHeader h calls).any (c.newWriter none name h).labels = false := by
  obtain ⟨response, hresponse, hlabel, hbody⟩ := handler_eq_ok hh hcalls hselect
  cases hlabelled : (firstHeader h calls).any (c.newWriter none name h).labels with
  | true =>
    rw [hlabelled] at hlabel
    refine iff_of_false ?_ Bool.noConfusion
    rintro ⟨other, hother, htruthful⟩
    cases hresponse.symm.trans hother
    obtain ⟨encoding, fn, w, encoder, hencoding, hfn, hencoder, -⟩ | ⟨hnone, -⟩ := htruthful
    · obtain rfl : name = encoding := List.singleton_inj.mp (hlabel.symm.trans hencoding)
      exact absurd ((hregistered fn w hfn).symm.trans hencoder) (Option.some_ne_none _).symm
    · exact absurd (hlabel.symm.trans hnone) (List.cons_ne_nil _ _)
  | false =>
    rw [hlabelled] at hlabel hbody
    exact iff_of_true ⟨response, hresponse, Or.inr ⟨hlabel, hbody⟩⟩ rfl

/-- The response where `name` is the first name that matches. -/
theorem WellFormed.truthful_iff_fits (hc : c.WellFormed) {name : Text} {fn : EncoderFunc}
    (hfind : c.encodingPrecedence.find?
      (matchAcceptEncoding (acceptedNames table acceptEncoding)) = some name)
    (hfn : c.registered name = some fn) :
    (∃ response, c.handler table acceptEncoding h calls = .ok response ∧
        c.Truthful calls response) ↔
      fn.Fits c.level (∀ header ∈ firstHeader h calls,
        compressableHeader c.allowedTypes c.allowedWildcards header = false) := by
  have hselect : c.selectEncoder table acceptEncoding = _ :=
    hc.selectLoop_eq (acceptedNames table acceptEncoding) hc.listed
  simp only [hfind, hfn] at hselect
  rw [EncoderFunc.Fits]
  cases hdiscard : fn .discard c.level with
  | some encoder =>
    simp only [EncoderFunc.take, hdiscard] at hselect
    by_cases hresets : encoder.resets = true
    · rw [if_pos hresets] at hselect
      exact iff_of_true (truthful_of_encoder hh hcalls hselect hfn hdiscard)
        (Or.inl ⟨encoder, rfl, hresets⟩)
    · rw [if_neg hresets] at hselect
      have hpanic : c.handler table acceptEncoding h calls = .error .missingReset := by
        rw [handler, hselect]
        rfl
      simp [hpanic, hresets]
  | none =>
    simp only [EncoderFunc.take, hdiscard] at hselect
    cases hresponse : fn .response c.level with
    | some encoder =>
      rw [hresponse] at hselect
      exact iff_of_true (truthful_of_encoder hh hcalls hselect hfn hresponse)
        (Or.inr ⟨rfl, Or.inl rfl⟩)
    | none =>
      rw [hresponse] at hselect
      have hnone : ∀ new w, c.registered name = some new → new w c.level = none := by
        intro new w hnew
        cases hfn.symm.trans hnew
        cases w
        · exact hdiscard
        · exact hresponse
      have hname := hc.named name (List.mem_of_find?_eq_some hfind)
      rw [truthful_iff_of_no_encoder hh hcalls hselect hnone, not_labelled_iff c none hname]
      simp

theorem WellFormed.truthful_iff (hc : c.WellFormed) :
    (∃ response, c.handler table acceptEncoding h calls = .ok response ∧
        c.Truthful calls response) ↔ c.Serves table acceptEncoding h calls := by
  cases hfind : c.encodingPrecedence.find?
      (matchAcceptEncoding (acceptedNames table acceptEncoding)) with
  | none =>
    have hselect : c.selectEncoder table acceptEncoding = .ok (none, []) := by
      rw [selectEncoder, hc.selectLoop_eq _ hc.listed, hfind]
    obtain ⟨response, hresponse, hlabel, hbody⟩ := handler_eq_ok hh hcalls hselect
    have hlabelled : (firstHeader h calls).any (c.newWriter none [] h).labels = false := by
      cases firstHeader h calls <;> simp [CompressResponseWriter.labels, newWriter]
    rw [hlabelled] at hlabel hbody
    refine iff_of_true ⟨response, hresponse, Or.inr ⟨hlabel, hbody⟩⟩ fun name fn hname => ?_
    rw [hfind] at hname
    cases hname
  | some name =>
    obtain ⟨fn, hfn⟩ := hc.listed name (List.mem_of_find?_eq_some hfind)
    rw [hc.truthful_iff_fits hh hcalls hfind hfn]
    constructor
    · intro hfits other new hother hnew
      cases hfind.symm.trans hother
      cases hfn.symm.trans hnew
      exact hfits
    · exact fun hserves => hserves name fn hfind hfn

end Handler

/-- The default encoders fit at every level that they accept. -/
theorem serves_of_validLevel {table : Char → Char} {codecs : Codecs} {level : Int}
    {types : List Text} (hbase : newCompressor table codecs level types = .ok c)
    (hlevel : ValidLevel level) (acceptEncoding : Text) (h : Header) (calls : List HandlerCall) :
    c.Serves table acceptEncoding h calls := by
  obtain ⟨hformed, rfl⟩ := wellFormed_newCompressor hbase
  intro name fn hfind hfn
  have hname := hformed.named name (List.mem_of_find?_eq_some hfind)
  rcases registered_newCompressor hbase hname hfn with rfl | rfl
  · exact Or.inl ⟨codecs.gzip c.level, if_pos hlevel, codecs.gzip_resets _⟩
  · exact Or.inl ⟨codecs.flate c.level, if_pos hlevel, codecs.flate_resets _⟩

end Compressor

/-- Responses are truthful just if the function of the selected encoding fits. -/
theorem response_truthful_iff {table : Char → Char} {codecs : Codecs} {level : Int}
    {types : List Text} {base : Compressor}
    (hbase : newCompressor table codecs level types = .ok base)
    (encoders : List (Text × Option EncoderFunc)) (acceptEncoding : Text) {h : Header}
    (hh : h headerContentEncoding = []) {calls : List HandlerCall}
    (hcalls : ∀ call ∈ calls, call.KeepsEncoding) :
    (∃ response,
        (base.setEncoders table encoders).handler table acceptEncoding h calls = .ok response ∧
        (base.setEncoders table encoders).Truthful calls response) ↔
      (base.setEncoders table encoders).Serves table acceptEncoding h calls := by
  have hformed := (Compressor.wellFormed_newCompressor hbase).1.setEncoders table encoders
  exact hformed.1.truthful_iff hh hcalls

def plainText : List HandlerCall :=
  [.assign headerContentType ["text/plain".toList], .write [104, 105]]

theorem keepsEncoding_plainText : ∀ call ∈ plainText, call.KeepsEncoding := by
  intro call hcall
  rcases List.mem_pair.mp hcall with rfl | rfl
  · exact (by decide : headerContentType ≠ headerContentEncoding)
  · trivial

theorem plainText_truthful :
    ∃ base, newCompressor id .stored 5 [] = .ok base ∧ ∃ response,
      (base.setEncoders id []).handler id "gzip".toList (fun _ => []) plainText = .ok response ∧
        (base.setEncoders id []).Truthful plainText response ∧
        response.body.flatMap Chunk.bytes = [31, 2, 104, 105, 31, 0] := by
  have hbase : newCompressor id .stored 5 [] = .ok _ := rfl
  obtain ⟨response, hresponse, htruthful⟩ :=
    (response_truthful_iff hbase [] "gzip".toList (h := fun _ => []) rfl
      keepsEncoding_plainText).mpr (Compressor.serves_of_validLevel hbase (by decide) _ _ _)
  refine ⟨_, hbase, response, hresponse, htruthful, ?_⟩
  cases hresponse
  rfl

def unresettable : EncoderFunc := fun _ _ => some ⟨false, fun _ p => [p], fun _ => []⟩

/-- At level ten there is no encoder, but the plain body is labelled. An encoder that cannot be
reset ends the request with a panic. -/
theorem plain_body_labelled :
    (∃ base response, newCompressor id .stored 10 [] = .ok base ∧
      base.handler id "gzip".toList (fun _ => []) plainText = .ok response ∧
      response.header headerContentEncoding = ["gzip".toList] ∧
      response.body = [⟨none, [104, 105]⟩] ∧ ¬ base.Truthful plainText response) ∧
    ∃ base, newCompressor id .stored 5 [] = .ok base ∧
      (base.setEncoders id [("br".toList, some unresettable)]).handler id "br".toList
        (fun _ => []) plainText = .error .missingReset := by
  refine ⟨⟨_, _, rfl, rfl, rfl, rfl, ?_⟩, _, rfl, rfl⟩
  rintro (⟨encoding, fn, w, encoder, hlabel, hfn, hencoder, -⟩ | ⟨hnone, -⟩)
  · obtain rfl := List.singleton_inj.mp hlabel
    cases hfn
    cases hencoder
  · cases hnone

end Photon.Middleware
