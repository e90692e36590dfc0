import Mathlib.Tactic
import Photon.Lib.Fallible

/-!
The compression middleware of `middleware/compressor.go`: the registered encoders, the choice of
one of them for a request, and the writer that a handler is given in place of the response.

An encoder is a function of what has been written to it since it was reset. The response is what
reaches the writer below, whose calls succeed; what the server then drops (the body of a status
that allows none) is not part of it.
-/

namespace Photon.Middleware

abbrev Text := List Char

abbrev Bytes := List UInt8

inductive Panic where
  | message (text : Text)
  /-- The type assertion in `selectEncoder` fails. -/
  | missingReset

/-! ### Encoders -/

/-- A streaming encoder. `emit` gives the writes that a write of `p` causes below, after the
writes it is given; `close` gives those of the end of the stream. -/
structure Encoder where
  resets : Bool
  emit : List Bytes → Bytes → List Bytes
  close : List Bytes → List Bytes

inductive Writer where
  | discard
  | response

/-- `none` stands for the nil that reports a failure. -/
abbrev EncoderFunc := Writer → Int → Option Encoder

/-- The writes below for the writes `more` after `written`. -/
def Encoder.emitAll (encoder : Encoder) (written : List Bytes) : List Bytes → List Bytes
  | [] => []
  | p :: more => encoder.emit written p ++ encoder.emitAll (written ++ [p]) more

def Encoder.encode (encoder : Encoder) (writes : List Bytes) : List Bytes :=
  encoder.emitAll [] writes ++ encoder.close writes

/-- The encoders of `compress/gzip` and `compress/flate` at the levels they accept. -/
structure Codecs where
  gzip : Int → Encoder
  flate : Int → Encoder
  gzip_resets : ∀ level, (gzip level).resets = true
  flate_resets : ∀ level, (flate level).resets = true

/-- From `flate.HuffmanOnly` to `flate.BestCompression`. -/
def ValidLevel (level : Int) : Prop := -2 ≤ level ∧ level ≤ 9

instance (level : Int) : Decidable (ValidLevel level) := inferInstanceAs (Decidable (_ ∧ _))

variable (cw : CompressResponseWriter) (rw : ResponseWriter) (table : Char → Char) (codecs : Codecs)

def encoderGzip : EncoderFunc := fun _ level =>
  if ValidLevel level then some (codecs.gzip level) else none

def encoderDeflate : EncoderFunc := fun _ level =>
  if ValidLevel level then some (codecs.flate level) else none

/-! ### Registration -/

structure Compressor where
  encoders : Text → Option EncoderFunc
  pooledEncoders : Text → Option EncoderFunc
  allowedTypes : List Text
  allowedWildcards : List Text
  encodingPrecedence : List Text
  level : Int

/-- `unicode.ToLower`, with a table for the characters outside ASCII. -/
def runeToLower (r : Char) : Char :=
  if r.toNat < 128 then r.toLower else table r

def toLower (s : Text) : Text := s.map (runeToLower table)

def emptyEncoding : Panic := .message "the encoding can not be empty".toList

def nilEncoder : Panic := .message "attempted to set a nil encoder function".toList

variable (c : Compressor)

/-- What `SetEncoder` does after its checks. The entries of the precedence are pairwise
different, so the loop over it, which shifts the slice that it ranges over, removes one entry. -/
def Compressor.register (encoding : Text) (fn : EncoderFunc) : Compressor :=
  let pooled := (fn .discard c.level).isSome
  { c with
    pooledEncoders := Function.update c.pooledEncoders encoding (if pooled then some fn else none)
    encoders := Function.update c.encoders encoding (if pooled then none else some fn)
    encodingPrecedence := encoding :: c.encodingPrecedence.erase encoding }

def Compressor.setEncoder (encoding : Text) (fn : Option EncoderFunc) : Except Panic Compressor :=
  let encoding := toLower table encoding
  if encoding = [] then .error emptyEncoding
  else
    match fn with
    | none => .error nilEncoder
    | some fn => .ok (c.register encoding fn)

/-- A call that panics leaves the compressor as it was. -/
def Compressor.setEncoders (calls : List (Text × Option EncoderFunc)) : Compressor :=
  calls.foldl (fun c call => (c.setEncoder table call.1 call.2).toOption.getD c) c

def wildcard : Text := "/*".toList

def trimWildcard (t : Text) : Text := if wildcard.isSuffixOf t then t.take (t.length - 2) else t

def unsupportedWildcard (t : Text) : Panic :=
  .message ("middleware/compress: Unsupported content-type wildcard pattern '".toList ++ t ++
    "'. Only '/*' supported".toList)

def allowTypes : List Text → Except Panic (List Text × List Text)
  | [] => .ok ([], [])
  | t :: types =>
    if '*' ∈ trimWildcard t then .error (unsupportedWildcard t)
    else do
      let (allowed, wildcards) ← allowTypes types
      if wildcard.isSuffixOf t then .ok (allowed, trimWildcard t :: wildcards)
      else .ok (t :: allowed, wildcards)

def defaultCompressibleContentTypes : List Text :=
  ["text/html", "text/css", "text/plain", "application/javascript", "application/json",
    "text/javascript", "application/x-javascript", "application/atom+xml", "application/rss+xml",
    "image/svg+xml"].map String.toList

def defaultEncoders : List (Text × Option EncoderFunc) :=
  [("deflate".toList, some (encoderDeflate codecs)), ("gzip".toList, some (encoderGzip codecs))]

def allowedTypesOf (types : List Text) : Except Panic (List Text × List Text) :=
  if types = [] then .ok (defaultCompressibleContentTypes, []) else allowTypes types

def newCompressor (level : Int) (types : List Text) :
    Except Panic Compressor := do
  let (allowed, wildcards) ← allowedTypesOf types
  let c : Compressor := ⟨fun _ => none, fun _ => none, allowed, wildcards, [], level⟩
  .ok (c.setEncoders table (defaultEncoders codecs))

/-! ### Choice -/

def matchAcceptEncoding (accepted : List Text) (encoding : Text) : Bool :=
  accepted.any fun v => decide (encoding <:+: v)

def Compressor.selectLoop (c : Compressor) (accepted : List Text) :
    List Text → Except Panic (Option Encoder × Text)
  | [] => .ok (none, [])
  | name :: rest =>
    if matchAcceptEncoding accepted name then
      match c.pooledEncoders name with
      | some new =>
        match new .discard c.level with
        | some encoder =>
          if encoder.resets then .ok (some encoder, name) else .error .missingReset
        | none => .error .missingReset
      | none =>
        match c.encoders name with
        | some fn => .ok (fn .response c.level, name)
        | none => c.selectLoop accepted rest
    else c.selectLoop accepted rest

def acceptedNames (header : Text) : List Text :=
  (toLower table header).splitOn ','

def Compressor.selectEncoder (header : Text) : Except Panic (Option Encoder × Text) :=
  c.selectLoop (acceptedNames table header) c.encodingPrecedence

/-! ### The response -/

abbrev Header := String → List Text

namespace Header

def get (h : Header) (key : String) : Text := (h key).headD []

def set (h : Header) (key : String) (value : Text) : Header := Function.update h key [value]

def add (h : Header) (key : String) (value : Text) : Header :=
  Function.update h key (h key ++ [value])

def del (h : Header) (key : String) : Header := Function.update h key []

end Header

def headerContentType : String := "Content-Type"

def headerContentLength : String := "Content-Length"

def headerContentEncoding : String := "Content-Encoding"

/-- Other codes are refused by `net/http` with a panic. -/
structure StatusCode where
  code : ℕ
  valid : 100 ≤ code ∧ code ≤ 999

def StatusCode.informational (status : StatusCode) : Bool :=
  status.code ≤ 199 && status.code != 101

theorem ok_valid : 100 ≤ 200 ∧ 200 ≤ 999 := by decide

def statusOK : StatusCode := ⟨200, ok_valid⟩

/-- Bytes of a body with the encoding whose encoder wrote them; the handler's own bytes have
none. -/
structure Chunk where
  encoding : Option Text
  bytes : Bytes
deriving DecidableEq

/-- The `http.ResponseWriter` of the server: the header that handlers change, the one that was
sent, and the body. -/
structure ResponseWriter where
  header : Header
  sent : Option (StatusCode × Header)
  body : List Chunk

namespace ResponseWriter

def writeHeader (code : StatusCode) : ResponseWriter :=
  if rw.sent.isSome || code.informational then rw else { rw with sent := some (code, rw.header) }

def write (chunk : Chunk) : ResponseWriter :=
  let rw := rw.writeHeader statusOK
  { rw with body := rw.body ++ [chunk] }

def writeAll (chunks : List Chunk) : ResponseWriter :=
  chunks.foldl write rw

theorem header_writeHeader (code : StatusCode) : (rw.writeHeader code).header = rw.header := by
  rw [writeHeader]
  split_ifs <;> rfl

theorem body_writeHeader (code : StatusCode) : (rw.writeHeader code).body = rw.body := by
  rw [writeHeader]
  split_ifs <;> rfl

theorem header_write (chunk : Chunk) :
    (rw.write chunk).header = rw.header := header_writeHeader rw statusOK

theorem body_write (chunk : Chunk) : (rw.write chunk).body = rw.body ++ [chunk] := by
  rw [write, body_writeHeader]

end ResponseWriter

/-- `w` is the encoder, if there is one, and `written` what was written to it. -/
structure CompressResponseWriter where
  responseWriter : ResponseWriter
  w : Option Encoder
  written : List Bytes
  contentTypes : List Text
  contentWildcards : List Text
  encoding : Text
  wroteHeader : Bool
  compressable : Bool

def compressableHeader (contentTypes contentWildcards : List Text) (h : Header) : Bool :=
  let contentType := (h.get headerContentType).takeWhile (· ≠ ';')
  let major := contentType.takeWhile (· ≠ '/')
  contentTypes.contains contentType ||
    (contentType.contains '/' && major ≠ [] && contentWildcards.contains major)

def labelHeader (h : Header) (encoding : Text) : Header :=
  (((h.set headerContentEncoding encoding).add "Vary" headerContentEncoding.toList).del
    "Content-Length").del headerContentLength

namespace CompressResponseWriter

def isCompressable : Bool :=
  compressableHeader cw.contentTypes cw.contentWildcards cw.responseWriter.header

/-- The decision at the first `WriteHeader`: the header and whether the body is compressed. -/
def label : Header × Bool :=
  let header := cw.responseWriter.header
  if header.get headerContentEncoding ≠ [] then (header, cw.compressable)
  else if !cw.isCompressable then (header, false)
  else if cw.encoding ≠ [] then (labelHeader header cw.encoding, true)
  else (header, cw.compressable)

def writeHeader (cw : CompressResponseWriter) (code : StatusCode) : CompressResponseWriter :=
  if cw.wroteHeader then { cw with responseWriter := cw.responseWriter.writeHeader code }
  else
    let labelled : ResponseWriter := { cw.responseWriter with header := cw.label.1 }
    { cw with
      wroteHeader := true
      compressable := cw.label.2
      responseWriter := labelled.writeHeader code }

/-- The encoder behind `writer`, or none for the response itself. -/
def writer : Option Encoder :=
  if cw.compressable then cw.w else none

def chunksOf (writes : List Bytes) : List Chunk :=
  writes.map (Chunk.mk (some cw.encoding))

def write (cw : CompressResponseWriter) (p : Bytes) : CompressResponseWriter :=
  let cw := if cw.wroteHeader then cw else cw.writeHeader statusOK
  match cw.writer with
  | some encoder =>
    { cw with
      written := cw.written ++ [p]
      responseWriter := cw.responseWriter.writeAll (cw.chunksOf (encoder.emit cw.written p)) }
  | none => { cw with responseWriter := cw.responseWriter.write ⟨none, p⟩ }

/-- The response itself is no `io.WriteCloser`. -/
def close (cw : CompressResponseWriter) : CompressResponseWriter :=
  match cw.writer with
  | some encoder =>
    { cw with
      responseWriter := cw.responseWriter.writeAll (cw.chunksOf (encoder.close cw.written)) }
  | none => cw

end CompressResponseWriter

/-- What a handler does with its response. An assignment without values deletes the key. -/
inductive HandlerCall where
  | assign (key : String) (values : List Text)
  | writeHeader (code : StatusCode)
  | write (p : Bytes)

def CompressResponseWriter.call :
    HandlerCall → CompressResponseWriter
  | .assign key values =>
    { cw with
      responseWriter :=
        { cw.responseWriter with
          header := Function.update cw.responseWriter.header key values } }
  | .writeHeader code => cw.writeHeader code
  | .write p => cw.write p

structure Response where
  status : StatusCode
  header : Header
  body : List Chunk

/-- The server sends the header at last when the handler is done. -/
def ResponseWriter.finish : Response :=
  match rw.sent with
  | some (status, header) => ⟨status, header, rw.body⟩
  | none => ⟨statusOK, rw.header, rw.body⟩

def Compressor.newWriter (encoder : Option Encoder) (encoding : Text) (h : Header) :
    CompressResponseWriter :=
  ⟨⟨h, none, []⟩, encoder, [], c.allowedTypes, c.allowedWildcards, encoding, false, false⟩

/-- `Handler` around a handler that makes the calls. -/
def Compressor.handler (acceptEncoding : Text) (h : Header) (calls : List HandlerCall) :
    Except Panic Response :=
  match c.selectEncoder table acceptEncoding with
  | .error e => .error e
  | .ok (encoder, encoding) =>
    .ok ((calls.foldl CompressResponseWriter.call
      (c.newWriter encoder encoding h)).close.responseWriter.finish)

/-! ### What a compressor knows -/

def Compressor.registered (name : Text) : Option EncoderFunc :=
  (c.pooledEncoders name).or (c.encoders name)

/-- What a registered function gives for a request: an encoder of the pool that is reset, or a
new one if there is no pool. -/
def EncoderFunc.take (fn : EncoderFunc) (level : Int) : Except Panic (Option Encoder) :=
  match fn .discard level with
  | some encoder => if encoder.resets then .ok (some encoder) else .error .missingReset
  | none => .ok (fn .response level)

structure Compressor.WellFormed (c : Compressor) : Prop where
  nodup : c.encodingPrecedence.Nodup
  named : ∀ name ∈ c.encodingPrecedence, name ≠ []
  listed : ∀ name ∈ c.encodingPrecedence, ∃ fn, c.registered name = some fn
  pooled : ∀ name fn, c.pooledEncoders name = some fn → (fn .discard c.level).isSome = true
  plain : ∀ name fn, c.encoders name = some fn →
    fn .discard c.level = none ∧ c.pooledEncoders name = none

namespace Compressor

variable {c : Compressor} {name : Text} {fn : EncoderFunc}

theorem registered_register (c : Compressor) (name : Text) (fn : EncoderFunc) :
    (c.register name fn).registered = Function.update c.registered name (some fn) := by
  funext other
  by_cases hother : other = name
  · subst hother
    by_cases hpooled : (fn .discard c.level).isSome = true <;>
      simp [registered, register, hpooled]
  · simp [registered, register, Function.update_of_ne hother]

theorem WellFormed.register (h : c.WellFormed) (hname : name ≠ []) (fn : EncoderFunc) :
    (c.register name fn).WellFormed where
  nodup := List.nodup_cons.mpr ⟨h.nodup.not_mem_erase, h.nodup.erase name⟩
  named other hother := by
    rcases List.mem_cons.mp hother with rfl | hrest
    · exact hname
    · exact h.named other (List.mem_of_mem_erase hrest)
  listed other hother := by
    rw [registered_register]
    by_cases heq : other = name
    · exact ⟨fn, heq ▸ Function.update_self ..⟩
    · rw [Function.update_of_ne heq]
      exact h.listed other (List.mem_of_mem_erase ((List.mem_cons.mp hother).resolve_left heq))
  pooled other new hnew := by
    by_cases heq : other = name
    · subst heq
      simp only [Compressor.register, Function.update_self] at hnew
      split_ifs at hnew with hpooled
      exact Option.some.inj hnew ▸ hpooled
    · simp only [Compressor.register, Function.update_of_ne heq] at hnew
      exact h.pooled other new hnew
  plain other new hnew := by
    by_cases heq : other = name
    · subst heq
      simp only [Compressor.register, Function.update_self] at hnew ⊢
      split_ifs at hnew with hpooled
      rw [if_neg hpooled]
      exact ⟨Option.some.inj hnew ▸ Option.not_isSome_iff_eq_none.mp hpooled, rfl⟩
    · simp only [Compressor.register, Function.update_of_ne heq] at hnew ⊢
      exact h.plain other new hnew

/-- A call registers a function or changes nothing. -/
theorem setEncoder_cases (c : Compressor) (encoding : Text) (fn : Option EncoderFunc) :
    (∃ new, fn = some new ∧ toLower table encoding ≠ [] ∧
        c.setEncoder table encoding fn = .ok (c.register (toLower table encoding) new)) ∨
      (fn = none ∨ toLower table encoding = []) ∧
        ∃ e, c.setEncoder table encoding fn = .error e := by
  by_cases hname : toLower table encoding = []
  · exact Or.inr ⟨Or.inr hname, emptyEncoding, if_pos hname⟩
  cases fn with
  | none => exact Or.inr ⟨Or.inl rfl, nilEncoder, if_neg hname⟩
  | some new => exact Or.inl ⟨new, rfl, hname, if_neg hname⟩

theorem WellFormed.setEncoders (h : c.WellFormed) (table : Char → Char)
    (calls : List (Text × Option EncoderFunc)) :
    (c.setEncoders table calls).WellFormed ∧ (c.setEncoders table calls).level = c.level := by
  induction calls generalizing c with
  | nil => exact ⟨h, rfl⟩
  | cons call calls ih =>
    rw [Compressor.setEncoders, List.foldl_cons]
    obtain ⟨new, -, hname, hcall⟩ | ⟨-, e, hcall⟩ :=
      c.setEncoder_cases table call.1 call.2
    · rw [hcall]
      exact ih (h.register hname new)
    · rw [hcall]
      exact ih h

/-- The last call for a name counts. -/
theorem registered_setEncoders (c : Compressor) (calls : List (Text × Option EncoderFunc))
    (hname : name ≠ []) :
    (c.setEncoders table calls).registered name =
      (calls.reverse.findSome? fun call => if toLower table call.1 = name then call.2 else none).or
        (c.registered name) := by
  induction calls generalizing c with
  | nil => rfl
  | cons call calls ih =>
    rw [setEncoders, List.foldl_cons]
    refine (ih _).trans ?_
    rw [List.reverse_cons, List.findSome?_append, Option.or_assoc]
    congr 1
    obtain ⟨new, hfn, -, hcall⟩ | ⟨hnone, e, hcall⟩ :=
      c.setEncoder_cases table call.1 call.2
    · rw [hcall, Except.toOption, Option.getD_some, registered_register]
      by_cases heq : toLower table call.1 = name
      · simp [heq, hfn]
      · simp [heq, Function.update_of_ne (Ne.symm heq)]
    · rw [hcall, Except.toOption, Option.getD_none]
      have hskip : (if toLower table call.1 = name then call.2 else none) = none := by
        rcases hnone with hfn | hempty
        · rw [hfn, ite_self]
        · rw [if_neg fun h : toLower table call.1 = name => hname (h ▸ hempty)]
      simp [hskip]

theorem wellFormed_newCompressor {table : Char → Char} {codecs : Codecs} {level : Int}
    {types : List Text} (h : newCompressor table codecs level types = .ok c) :
    c.WellFormed ∧ c.level = level := by
  rw [newCompressor] at h
  obtain ⟨⟨allowed, wildcards⟩, -, hc⟩ := Photon.Lib.bind_eq_ok_iff.mp h
  cases hc
  refine WellFormed.setEncoders ⟨List.nodup_nil, ?_, ?_, ?_, ?_⟩ table _
  all_goals intros; simp_all

theorem registered_newCompressor {table : Char → Char} {codecs : Codecs} {level : Int}
    {types : List Text} (h : newCompressor table codecs level types = .ok c) (hname : name ≠ [])
    (hfn : c.registered name = some fn) : fn = encoderGzip codecs ∨ fn = encoderDeflate codecs := by
  rw [newCompressor] at h
  obtain ⟨⟨allowed, wildcards⟩, -, hc⟩ := Photon.Lib.bind_eq_ok_iff.mp h
  cases hc
  have hempty : registered ⟨fun _ => none, fun _ => none, allowed, wildcards, [], level⟩ name =
      none := rfl
  rw [registered_setEncoders _ _ _ hname, hempty, Option.or_none] at hfn
  obtain ⟨call, hcall, hchosen⟩ := List.exists_of_findSome?_eq_some hfn
  split_ifs at hchosen
  rcases List.mem_pair.mp (List.mem_reverse.mp hcall) with rfl | rfl
  · exact Or.inr (Option.some.inj hchosen).symm
  · exact Or.inl (Option.some.inj hchosen).symm

/-- The loop takes the first name of the precedence that matches. -/
theorem WellFormed.selectLoop_eq (h : c.WellFormed) (accepted : List Text) {names : List Text}
    (hnames : ∀ name ∈ names, ∃ fn, c.registered name = some fn) :
    c.selectLoop accepted names =
      match names.find? (matchAcceptEncoding accepted) with
      | none => .ok (none, [])
      | some name =>
        match c.registered name with
        | none => .ok (none, [])
        | some fn => (fn.take c.level).map (·, name) := by
  induction names with
  | nil => rfl
  | cons name names ih =>
    obtain ⟨⟨fn, hfn⟩, hrest⟩ := List.forall_mem_cons.mp hnames
    rw [selectLoop]
    by_cases hmatch : matchAcceptEncoding accepted name = true
    · rw [if_pos hmatch, List.find?_cons_of_pos hmatch]
      simp only [hfn]
      rw [registered] at hfn
      cases hpooled : c.pooledEncoders name with
      | some new =>
        have hsome := h.pooled name new hpooled
        obtain rfl : new = fn := by simpa [hpooled] using hfn
        obtain ⟨encoder, hencoder⟩ := Option.isSome_iff_exists.mp hsome
        simp only [hencoder, EncoderFunc.take]
        split_ifs <;> rfl
      | none =>
        have hplain : c.encoders name = some fn := by simpa [hpooled] using hfn
        simp only [hplain, EncoderFunc.take, (h.plain name fn hplain).1]
        rfl
    · rw [if_neg hmatch, List.find?_cons_of_neg hmatch]
      exact ih hrest

end Compressor

end Photon.Middleware
