/-
# Relayed responses

`ProxyManner::send` of `adapter/tcp/http.cpp`.  The response to a relayed request comes in
pieces.  Until its header is complete the pieces are given to a parser, and what the parser did
not consume is held back; then the header is rewritten and written with the bytes behind it,
and all later pieces pass through.

The parser and the writer of Beast are parameters.  What is relied on of the parser is
`Parses`: it consumes a part of what it is given, asks for more until the header is complete,
and stops at its end.  The writer is the one for complete messages: behind the header of a
message whose transfer encoding is chunked it writes the last chunk of its empty body.

* `sendAll_spec`: what is written depends only on the bytes that were sent, not on the pieces;
* `relaysReply_iff`: it is the rewritten header and the bytes behind the header if and only if
  the response is not chunked.
-/
import Pichi.HttpStream

namespace Pichi

namespace Http

/-! ## Beast -/

/-- `http::error::need_more`. -/
def needMore : ErrorCode := .http 3

/-- `http::response_parser`.  `put` returns how many bytes it consumed, and the error code. -/
structure ResponseParser (σ : Type) where
  init : σ
  put : σ → Bytes → ℕ × Option ErrorCode × σ
  isHeaderDone : σ → Bool
  release : σ → Response
  upgrade : σ → Bool

/-- The field `Transfer-Encoding`, in any case. -/
def Field.isTransferEncoding : Field → Bool
  | .other name => toLowerStr name = lit "transfer-encoding"
  | .host => false
  | .connection => false
  | .proxyConnection => false
  | .proxyAuthorization => false

/-- What a serializer does with a message: the text of the header, and whether the last coding
in a value of `Transfer-Encoding` is chunked. -/
structure Writer where
  header : Response → Bytes
  isChunked : Bytes → Bool

/-- `message::chunked`. -/
def Writer.chunked (w : Writer) (rep : Response) : Bool :=
  match rep.fields.find? fun x => x.1.isTransferEncoding with
  | some x => w.isChunked x.2
  | none => false

/-- The chunk that ends a body. -/
def lastChunk : Bytes := lit "0\r\n\r\n"

/-- `http::async_write` of a message with an empty body. -/
def Writer.asyncWrite (w : Writer) (rep : Response) : Bytes :=
  w.header rep ++ if w.chunked rep then lastChunk else []

/-! ## Sending -/

/-- `fields::set`. -/
def Response.set (f : Field) (value : Bytes) (rep : Response) : Response :=
  { rep with fields := setField f value rep.fields }

/-- The response that is handed on. -/
def rewritten (upgrade : Bool) (rep : Response) : Response :=
  if upgrade then rep
  else (rep.set .connection (lit "close")).set .proxyConnection (lit "close")

/-- `ProxyManner`, as far as bytes are sent. -/
structure ProxyManner (σ : Type) where
  out : FlatBuffer UInt8
  parser : σ

variable {σ : Type}

def ProxyManner.init (P : ResponseParser σ) : ProxyManner σ := ⟨{}, P.init⟩

/-- `ProxyManner::send`, with the bytes that are written to the layer below. -/
def ProxyManner.send (P : ResponseParser σ) (w : Writer) (buf : Bytes) (m : ProxyManner σ) :
    Result (Bytes × ProxyManner σ) :=
  if P.isHeaderDone m.parser then .ok (buf, m)
  else
    let out := if 0 < m.out.readable.length then (m.out.prepare buf.length).commit buf else m.out
    let buf := if 0 < m.out.readable.length then out.readable else buf
    let (n, ec, parser) := P.put m.parser buf
    if ec ≠ none ∧ ec ≠ some needMore then
      .error (.thrown (.systemError ⟨ec.getD needMore, ""⟩))
    else
      let out := if 0 < out.readable.length then out.consume n
        else (out.prepare (buf.length - n)).commit (buf.drop n)
      if P.isHeaderDone parser then
        let rep := rewritten (P.upgrade parser) (P.release parser)
        .ok (w.asyncWrite rep ++ out.readable, ⟨out.consume out.readable.length, parser⟩)
      else .ok ([], ⟨out, parser⟩)

/-- One call after another. -/
def ProxyManner.sendAll (P : ResponseParser σ) (w : Writer) :
    List Bytes → ProxyManner σ → Result (Bytes × ProxyManner σ)
  | [], m => .ok ([], m)
  | piece :: pieces, m => do
    let (written, m) ← m.send P w piece
    let (rest, m) ← ProxyManner.sendAll P w pieces m
    return (written ++ rest, m)

/-! ## What the parser does -/

/-- The parser accepts a header: `At c s` says that it is in the state `s` when it has consumed
the bytes `c`, a part of the header. -/
structure Parses (P : ResponseParser σ) (header : Bytes) (rep : Response) (upgrade : Bool)
    (At : Bytes → σ → Prop) : Prop where
  ne_nil : header ≠ []
  init : At [] P.init
  pending : ∀ {c s}, At c s → c.length < header.length → P.isHeaderDone s = false
  more : ∀ {c s x}, At c s → c ++ x <+: header → (c ++ x).length < header.length →
    ∃ n s', P.put s x = (n, some needMore, s') ∧ At (c ++ x.take n) s'
  complete : ∀ {c s x t}, At c s → c.length < header.length → c ++ x = header ++ t →
    ∃ s', P.put s x = (header.length - c.length, none, s') ∧ P.isHeaderDone s' = true
      ∧ P.release s' = rep ∧ P.upgrade s' = upgrade

section Send

variable {P : ResponseParser σ} {w : Writer} {header tail : Bytes} {rep : Response}
  {upgrade : Bool} {At : Bytes → σ → Prop}

/-- Whether or not bytes were held back, the parser is given these bytes and the new ones, and
what it does not consume is held back. -/
theorem send_of_pending {m : ProxyManner σ} {buf : Bytes} {n : ℕ} {ec : Option ErrorCode}
    {parser : σ} (hpending : P.isHeaderDone m.parser = false)
    (hput : P.put m.parser (m.out.readable ++ buf) = (n, ec, parser))
    (hec : ec = none ∨ ec = some needMore) :
    ∃ out : FlatBuffer UInt8, out.readable = (m.out.readable ++ buf).drop n
      ∧ m.send P w buf = if P.isHeaderDone parser then
        .ok (w.asyncWrite (rewritten (P.upgrade parser) (P.release parser)) ++ out.readable,
          ⟨out.consume out.readable.length, parser⟩)
        else .ok ([], ⟨out, parser⟩) := by
  have hec' : ¬(ec ≠ none ∧ ec ≠ some needMore) := by
    rcases hec with rfl | rfl
    · simp
    · simp
  have hnot : ¬P.isHeaderDone m.parser = true := by
    rw [hpending]
    decide
  rw [ProxyManner.send, if_neg hnot]
  by_cases hout : 0 < m.out.readable.length
  · have hheld : ((m.out.prepare buf.length).commit buf).readable = m.out.readable ++ buf := by
      rw [FlatBuffer.readable_commit, FlatBuffer.readable_prepare]
    have hcommit : 0 < ((m.out.prepare buf.length).commit buf).readable.length := by
      rw [hheld, List.length_append]
      omega
    have hput' : P.put m.parser ((m.out.prepare buf.length).commit buf).readable
        = (n, ec, parser) := by rw [hheld, hput]
    refine ⟨((m.out.prepare buf.length).commit buf).consume n, ?_, ?_⟩
    · rw [FlatBuffer.readable_consume, hheld]
    · simp only [if_pos hout, if_pos hcommit, hput']
      rw [if_neg hec']
  · have hnil : m.out.readable = [] := List.eq_nil_of_length_eq_zero (by omega)
    rw [hnil, List.nil_append] at hput
    refine ⟨(m.out.prepare (buf.length - n)).commit (buf.drop n), ?_, ?_⟩
    · rw [FlatBuffer.readable_commit, FlatBuffer.readable_prepare, hnil, List.nil_append,
        List.nil_append]
    · simp only [if_neg hout, hput]
      rw [if_neg hec']

/-- What has been written, and what is held back, when the bytes `all` have been sent. -/
structure Relayed (P : ResponseParser σ) (w : Writer) (header : Bytes) (rep : Response)
    (upgrade : Bool) (At : Bytes → σ → Prop) (all written : Bytes) (m : ProxyManner σ) :
    Prop where
  before : all.length < header.length →
    written = [] ∧ ∃ c, At c m.parser ∧ c ++ m.out.readable = all
  behind : header.length ≤ all.length →
    written = w.asyncWrite (rewritten upgrade rep) ++ all.drop header.length
      ∧ P.isHeaderDone m.parser = true

theorem Relayed.init (h : Parses P header rep upgrade At) :
    Relayed P w header rep upgrade At [] [] (ProxyManner.init P) where
  before _ := ⟨rfl, [], h.init, rfl⟩
  behind hle := by
    have hpos := List.length_pos_of_ne_nil h.ne_nil
    rw [List.length_nil] at hle
    omega

/-- One call of `send`. -/
theorem Relayed.send (h : Parses P header rep upgrade At) {all written buf : Bytes}
    {m : ProxyManner σ} (hm : Relayed P w header rep upgrade At all written m)
    (hall : all ++ buf <+: header ++ tail) :
    ∃ more m', m.send P w buf = .ok (more, m')
      ∧ Relayed P w header rep upgrade At (all ++ buf) (written ++ more) m' := by
  by_cases hbehind : header.length ≤ all.length
  · obtain ⟨hwritten, hdone⟩ := hm.behind hbehind
    refine ⟨buf, m, by rw [ProxyManner.send, if_pos hdone], fun hlt => ?_, fun _ => ⟨?_, hdone⟩⟩
    · rw [List.length_append] at hlt
      omega
    · rw [hwritten, List.append_assoc, List.drop_append_of_le_length hbehind]
  · obtain ⟨rfl, c, hc, hheld⟩ := hm.before (by omega)
    have hclt : c.length < header.length := by
      have hlength := congrArg List.length hheld
      rw [List.length_append] at hlength
      omega
    have hinput : c ++ (m.out.readable ++ buf) = all ++ buf := by
      rw [← List.append_assoc, hheld]
    by_cases hlt : (all ++ buf).length < header.length
    · -- the header is not complete: all that was sent is consumed or held back
      have hpre : c ++ (m.out.readable ++ buf) <+: header := by
        rw [hinput]
        exact List.prefix_of_prefix_length_le hall (List.prefix_append header tail) hlt.le
      obtain ⟨n, s', hput, hs'⟩ := h.more hc hpre (by rwa [hinput])
      obtain ⟨out, hout, hsend⟩ := send_of_pending (w := w) (h.pending hc hclt) hput (Or.inr rfl)
      have hsplit : (c ++ (m.out.readable ++ buf).take n) ++ out.readable = all ++ buf := by
        rw [hout, List.append_assoc, List.take_append_drop, hinput]
      have hpending : P.isHeaderDone s' = false := by
        refine h.pending hs' ?_
        have hlength := congrArg List.length hsplit
        rw [List.length_append] at hlength
        omega
      refine ⟨[], ⟨out, s'⟩, ?_, fun _ => ⟨rfl, _, hs', hsplit⟩, fun hle => ?_⟩
      · rw [hsend, if_neg (by rw [hpending]; decide)]
      · omega
    · -- this call completes the header
      have hheader : all ++ buf = header ++ (all ++ buf).drop header.length := by
        have hpre : header <+: all ++ buf :=
          List.prefix_of_prefix_length_le (List.prefix_append header tail) hall (by omega)
        exact (List.prefix_iff_eq_append.mp hpre).symm
      obtain ⟨s', hput, hdone, hrelease, hupgrade⟩ :=
        h.complete hc hclt (hinput.trans hheader)
      obtain ⟨out, hout, hsend⟩ := send_of_pending (w := w) (h.pending hc hclt) hput (Or.inl rfl)
      have hrest : out.readable = (all ++ buf).drop header.length := by
        rw [hout, ← hinput]
        conv_rhs => rw [List.drop_append, List.drop_of_length_le hclt.le, List.nil_append]
      refine ⟨_, _, hsend.trans (if_pos hdone), fun hlt' => absurd hlt' hlt, fun _ => ⟨?_, hdone⟩⟩
      rw [List.nil_append, hrest, hrelease, hupgrade]

/-- **What is written depends only on the bytes that were sent.**  Nothing, until they are a
complete header; then the message with the rewritten header, and what is behind the header. -/
theorem Relayed.sendAll (h : Parses P header rep upgrade At) (pieces : List Bytes) :
    ∀ {all written : Bytes} {m : ProxyManner σ},
      Relayed P w header rep upgrade At all written m →
      all ++ pieces.flatten <+: header ++ tail →
      ∃ more m', ProxyManner.sendAll P w pieces m = .ok (more, m')
        ∧ Relayed P w header rep upgrade At (all ++ pieces.flatten) (written ++ more) m' := by
  induction pieces with
  | nil =>
      intro all written m hm _
      refine ⟨[], m, rfl, ?_⟩
      rwa [List.flatten_nil, List.append_nil, List.append_nil]
  | cons piece pieces ih =>
      intro all written m hm hall
      rw [List.flatten_cons, ← List.append_assoc] at hall ⊢
      obtain ⟨more, m', hsend, hm'⟩ :=
        hm.send h ((List.prefix_append (all ++ piece) pieces.flatten).trans hall)
      obtain ⟨rest, m'', hrest, hm''⟩ := ih hm' hall
      refine ⟨more ++ rest, m'', ?_, ?_⟩
      · rw [ProxyManner.sendAll, hsend]
        show (ProxyManner.sendAll P w pieces m' >>= _) = _
        rw [hrest]
        rfl
      · rwa [← List.append_assoc]

theorem sendAll_spec (h : Parses P header rep upgrade At) {pieces : List Bytes}
    (hpieces : pieces.flatten <+: header ++ tail) :
    ∃ m, ProxyManner.sendAll P w pieces (ProxyManner.init P)
      = .ok (if pieces.flatten.length < header.length then []
        else w.asyncWrite (rewritten upgrade rep) ++ pieces.flatten.drop header.length, m) := by
  obtain ⟨written, m, hsend, hm⟩ := (Relayed.init (w := w) h).sendAll h pieces hpieces
  rw [List.nil_append, List.nil_append] at hm
  refine ⟨m, hsend.trans ?_⟩
  split
  · rename_i hlt
    rw [(hm.before hlt).1]
  · rename_i hlt
    rw [(hm.behind (by omega)).1]

end Send

/-! ## What is to be written -/

/-- The connection is closed behind a response, unless it is an upgrade. -/
structure Closing (upgrade : Bool) (rep rep' : Response) : Prop where
  status_eq : rep'.status = rep.status
  reason_eq : rep'.reason = rep.reason
  version_eq : rep'.version = rep.version
  kept : upgrade = true → rep'.fields = rep.fields
  others : rep'.fields.filter (fun x => ¬x.1.IsConnection)
    = rep.fields.filter (fun x => ¬x.1.IsConnection)
  closed : upgrade = false → ∀ f : Field, f.IsConnection →
    valuesOf f rep'.fields = [lit "close"]

theorem closing_rewritten (upgrade : Bool) (rep : Response) :
    Closing upgrade rep (rewritten upgrade rep) := by
  cases upgrade with
  | true =>
      refine ⟨rfl, rfl, rfl, fun _ => rfl, rfl, ?_⟩
      intro h
      cases h
  | false =>
      refine ⟨rfl, rfl, rfl, ?_, others_closed rep.fields, fun _ => closed_setField rep.fields⟩
      intro h
      cases h

/-- Whether a response is chunked does not depend on the fields of the connection. -/
theorem chunked_eq (w : Writer) (rep : Response) :
    w.chunked rep = match (rep.fields.filter fun x => ¬x.1.IsConnection).find?
        (fun x => x.1.isTransferEncoding) with
      | some x => w.isChunked x.2
      | none => false := by
  have hfind : (rep.fields.filter fun x => ¬x.1.IsConnection).find?
      (fun x => x.1.isTransferEncoding) = rep.fields.find? fun x => x.1.isTransferEncoding := by
    rw [List.find?_filter]
    congr 1
    funext x
    by_cases hx : x.1.IsConnection
    · rcases hx with hx | hx
      · simp [hx, Field.isTransferEncoding]
      · simp [hx, Field.isTransferEncoding]
    · simp [hx]
  rw [hfind, Writer.chunked]

theorem chunked_rewritten (w : Writer) (upgrade : Bool) (rep : Response) :
    w.chunked (rewritten upgrade rep) = w.chunked rep := by
  rw [chunked_eq, chunked_eq, (closing_rewritten upgrade rep).others]

/-- The response is handed on: however the bytes are cut into pieces, nothing is written until
the header is complete, then the rewritten header, and then the bytes behind the header. -/
def RelaysReply (P : ResponseParser σ) (w : Writer) (header : Bytes) (rep : Response)
    (upgrade : Bool) : Prop :=
  Closing upgrade rep (rewritten upgrade rep)
    ∧ ∀ (tail : Bytes) (pieces : List Bytes), pieces.flatten <+: header ++ tail →
      ∃ m, ProxyManner.sendAll P w pieces (ProxyManner.init P)
        = .ok (if pieces.flatten.length < header.length then []
          else w.header (rewritten upgrade rep) ++ pieces.flatten.drop header.length, m)

/-- **When a response is handed on**: if and only if its transfer encoding is not chunked.
Otherwise the writer ends the body before it has begun. -/
theorem relaysReply_iff {P : ResponseParser σ} {header : Bytes} {rep : Response}
    {upgrade : Bool} {At : Bytes → σ → Prop} (w : Writer)
    (hparses : Parses P header rep upgrade At) :
    RelaysReply P w header rep upgrade ↔ w.chunked rep = false := by
  constructor
  · rintro ⟨-, hrelays⟩
    have hpieces : [header].flatten <+: header ++ [] := by
      rw [List.flatten_singleton, List.append_nil]
    obtain ⟨m, hm⟩ := hrelays [] [header] hpieces
    obtain ⟨m', hm'⟩ := sendAll_spec (w := w) hparses hpieces
    rw [hm, List.flatten_singleton, if_neg (lt_irrefl _), if_neg (lt_irrefl _)] at hm'
    have hwritten := congrArg Prod.fst (Except.ok.inj hm')
    have hlength := congrArg List.length hwritten
    simp only [Writer.asyncWrite, chunked_rewritten, List.length_append] at hlength
    by_contra hchunked
    rw [if_pos (Bool.eq_true_of_not_eq_false hchunked)] at hlength
    have hlast : lastChunk.length = 5 := rfl
    omega
  · intro hchunked
    refine ⟨closing_rewritten upgrade rep, fun tail pieces hpieces => ?_⟩
    obtain ⟨m, hm⟩ := sendAll_spec (w := w) hparses hpieces
    rw [Writer.asyncWrite, chunked_rewritten, hchunked] at hm
    simp only [Bool.false_eq_true, if_false, List.append_nil] at hm
    exact ⟨m, hm⟩

/-! ### A parser and a writer for examples -/

namespace Example

/-- The bytes up to the end of the last complete line. -/
def completeLines (x : Bytes) : ℕ := x.length - (x.reverse.takeWhile (· ≠ 10)).length

/-- A parser that recognises one header.  It consumes complete lines. -/
def responseParser (header : Bytes) (rep : Response) : ResponseParser Bytes where
  init := []
  put s x :=
    if header <+: s ++ x then (header.length - s.length, none, header)
    else (completeLines x, some needMore, s ++ x.take (completeLines x))
  isHeaderDone s := s = header
  release _ := rep
  upgrade _ := false

theorem parses_responseParser {header : Bytes} (rep : Response) (hne : header ≠ []) :
    Parses (responseParser header rep) header rep false (fun c s => s = c ∧ c <+: header) where
  ne_nil := hne
  init := ⟨rfl, List.nil_prefix⟩
  pending := by
    rintro c s ⟨rfl, -⟩ hlt
    refine decide_eq_false fun heq => ?_
    rw [heq] at hlt
    omega
  more := by
    rintro c s x ⟨rfl, -⟩ hpre hlt
    refine ⟨completeLines x, _, if_neg fun hheader => ?_, rfl, ?_⟩
    · have hle := hheader.length_le
      omega
    · exact ((List.prefix_append_right_inj s).mpr (List.take_prefix _ _)).trans hpre
  complete := by
    rintro c s x t ⟨rfl, -⟩ - heq
    refine ⟨header, if_pos ?_, decide_eq_true rfl, rfl, rfl⟩
    rw [heq]
    exact List.prefix_append header t

/-- The text of a header, and the only value of `Transfer-Encoding` that the examples have. -/
def writer : Writer where
  header rep := lit "HTTP/1.1 " ++ decimal rep.status ++ 32 :: rep.reason ++ crlf
    ++ (rep.fields.flatMap fun x => fieldText x.1 ++ lit ": " ++ x.2 ++ crlf) ++ crlf
  isChunked value := toLowerStr value = lit "chunked"

def plain : Response := ⟨200, lit "OK", [(.other (lit "Content-Length"), lit "2")], 11⟩

def plainHeader : Bytes := lit "HTTP/1.1 200 OK\r\nContent-Length: 2\r\n\r\n"

def chunked : Response := ⟨200, lit "OK", [(.other (lit "Transfer-Encoding"), lit "chunked")], 11⟩

def chunkedHeader : Bytes := lit "HTTP/1.1 200 OK\r\nTransfer-Encoding: chunked\r\n\r\n"

end Example

/-- A response of known length. -/
theorem relaysReply_iff_example :
    RelaysReply (Example.responseParser Example.plainHeader Example.plain) Example.writer
      Example.plainHeader Example.plain false :=
  (relaysReply_iff Example.writer (Example.parses_responseParser Example.plain (by decide))).mpr
    (by decide)

/-- A chunked response: the last chunk stands between the header and the first chunk. -/
theorem relaysReply_counterexample :
    Example.writer.asyncWrite (rewritten false Example.chunked)
        = Example.writer.header (rewritten false Example.chunked) ++ lit "0\r\n\r\n"
      ∧ ¬RelaysReply (Example.responseParser Example.chunkedHeader Example.chunked)
        Example.writer Example.chunkedHeader Example.chunked false := by
  have hwrite : Example.writer.asyncWrite (rewritten false Example.chunked)
      = Example.writer.header (rewritten false Example.chunked) ++ lit "0\r\n\r\n" := by
    rw [Writer.asyncWrite, if_pos (by decide)]
    rfl
  refine ⟨hwrite, ?_⟩
  rintro ⟨-, hrelays⟩
  have hpieces : [Example.chunkedHeader].flatten <+: Example.chunkedHeader ++ [] := by
    rw [List.flatten_singleton, List.append_nil]
  obtain ⟨m, hm⟩ := hrelays [] _ hpieces
  obtain ⟨m', hm'⟩ := sendAll_spec (w := Example.writer)
    (Example.parses_responseParser Example.chunked (by decide : Example.chunkedHeader ≠ []))
    hpieces
  rw [hm, hwrite, List.flatten_singleton, if_neg (lt_irrefl _), if_neg (lt_irrefl _)] at hm'
  have hwritten := congrArg Prod.fst (Except.ok.inj hm')
  have hlength := congrArg List.length hwritten
  simp only [List.length_append] at hlength
  have hlast : (lit "0\r\n\r\n").length = 5 := rfl
  omega

end Http

end Pichi
