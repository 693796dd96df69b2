/-
# HTTP streams

`adapter/tcp/http.cpp`, as far as the bytes behind a header are concerned.  When
`async_read_header` has found the end of a header, a part of what follows is in the cache
already.  A tunnel hands out these bytes first and then reads from the layer below.  A relayed
request is handed out with its header rewritten: the new header is appended to the cache, and
the bytes in front of it are copied behind it, within the same buffer.

Beast is a parameter, apart from its `flat_buffer`.

* `tunnels_exact`: a tunnel is byte exact at both ends;
* `relays_iff`: a relayed request arrives as its rewritten header and its body if and only if the
  compiler evaluates the arguments of `buffer_copy(in_.prepare(sticked), in_.data())` from left to
  right, or `prepare` leaves these bytes where they were: there is room for them behind the header.
-/
import Pichi.Http
import Pichi.Reference
import Pichi.Transfer

namespace Pichi

open Transfer

namespace Http

/-! ## Beast -/

/-- The order in which the arguments of a call are evaluated, which is up to the compiler. -/
inductive Order : Type where
  | leftToRight | rightToLeft
  deriving DecidableEq

/-- `http::response<empty_body>`. -/
structure Response where
  status : ℕ
  reason : Bytes
  fields : List (Field × Bytes)
  version : ℕ := 11
  deriving DecidableEq

/-- The functions of Beast: the buffers that a serializer hands out until the header of a
request is done, and `async_read_header`, which is given the cache and the layer below and returns
what is left of both. -/
structure Beast where
  serialized : Request → List Bytes
  readRequest : FlatBuffer UInt8 → Source UInt8 → Result (Parsed × Source UInt8)
  readResponse : Bytes → Source UInt8 → Result ((Response × Bytes) × Source UInt8)

/-- The text of the header of a request. -/
def Beast.header (beast : Beast) (req : Request) : Bytes := (beast.serialized req).flatten

/-! ## Receiving -/

def eof : Fault := .thrown (.systemError ⟨.asio .eof, ""⟩)

/-- The body of the three functions `recv`: what is cached is handed out first. -/
def recvCached (n : ℕ) (cache : Bytes) (underlying : Source UInt8) :
    Result Bytes × Bytes × Source UInt8 :=
  if cache.length = 0 then
    match underlying.readSome n with
    | none => (.error eof, cache, underlying)
    | some (got, underlying) => (.ok got, cache, underlying)
  else
    let copied := min n cache.length
    (.ok (cache.take copied), cache.drop copied, underlying)

/-- `manner_` of an ingress: `InvalidManner`, `ConnectManner` or `ProxyManner`. -/
inductive Carrier : Type where
  | invalid
  | connect (cache : Bytes)
  | proxy (input : Bytes)

/-- `HttpIngress`, as far as bytes are received. -/
structure HttpIngress where
  underlying : Source UInt8
  manner : Carrier

/-- `HttpIngress::recv` into a buffer of size `n`. -/
def HttpIngress.recv (n : ℕ) (s : HttpIngress) : Result Bytes × HttpIngress :=
  match s.manner with
  | .invalid => (.error (.thrown (.systemError ⟨.pichi .misc, "Unexpected invocation"⟩)), s)
  | .connect cache =>
    let r := recvCached n cache s.underlying
    (r.1, ⟨r.2.2, .connect r.2.1⟩)
  | .proxy input =>
    let r := recvCached n input s.underlying
    (r.1, ⟨r.2.2, .proxy r.2.1⟩)

/-- `HttpEgress`, as far as bytes are received. -/
structure HttpEgress where
  underlying : Source UInt8
  cache : Bytes

/-- `HttpEgress::recv` into a buffer of size `n`. -/
def HttpEgress.recv (n : ℕ) (s : HttpEgress) : Result Bytes × HttpEgress :=
  let r := recvCached n s.cache s.underlying
  (r.1, ⟨r.2.2, r.2.1⟩)

/-! ## Reading a header -/

/-- The second argument of `buffer_copy(in_.prepare(sticked), in_.data())`. -/
def rotated (order : Order) (sticked : ℕ) (b : FlatBuffer UInt8) : FlatBuffer.View :=
  match order with
  | .leftToRight => (b.prepare sticked).data
  -- the place is from before the call of `prepare`
  | .rightToLeft => b.data

/-- The last lines of the constructor of `ProxyManner`: the first `sticked` bytes are copied
behind the others. -/
def rotate (order : Order) (sticked : ℕ) (b : FlatBuffer UInt8) : Result (FlatBuffer UInt8) :=
  match (rotated order sticked b).copy sticked (b.prepare sticked) with
  | none => .error .undefinedBehaviour
  | some copied => .ok (((b.prepare sticked).commit copied).consume sticked)

/-- The constructor of `ProxyManner`, as far as `in_` is concerned. -/
def proxyManner (beast : Beast) (order : Order) (cache : FlatBuffer UInt8) (req : Request) :
    Result (FlatBuffer UInt8) :=
  rotate order cache.readable.length (cache.append (beast.serialized req))

/-- Construct `manner_`. -/
def carry (beast : Beast) (order : Order) : Manner → Result Carrier
  | .invalid => .ok .invalid
  | .connect cache => .ok (.connect cache)
  | .proxy cache req => do return .proxy (← proxyManner beast order cache req).readable

/-- The cache with the byte that `read_remote` has read. -/
def firstCache (byte : Bytes) : FlatBuffer UInt8 :=
  (({} : FlatBuffer UInt8).prepare byte.length).commit byte

/-- `HttpIngress::read_remote`, after the layer below has been accepted: one byte is read,
and the rest of the header by `continue_read_remote`. -/
def readRemote (beast : Beast) (order : Order) (p : Platform) (credentials : List Bytes)
    (src : Source UInt8) : Result (Endpoint × HttpIngress) := do
  let (some byte, src) := src.read 1 | .error eof
  let (parsed, src) ← beast.readRequest (firstCache byte) src
  let (remote, manner) := continueReadRemote p credentials parsed
  let manner ← carry beast order manner
  return (← remote.lift, ⟨src, manner⟩)

/-- `HttpEgress::connect`, after the request was written. -/
def HttpEgress.connect (beast : Beast) (s : HttpEgress) : Result HttpEgress := do
  let ((rep, cache), src) ← beast.readResponse s.cache s.underlying
  (Checked.assertTrue (200 ≤ rep.status && rep.status < 470) .connFailure "").lift
  return ⟨src, cache⟩

/-! ## What is handed out -/

theorem recvCached_zero (cache : Bytes) (underlying : Source UInt8) :
    recvCached 0 cache underlying = (.ok [], cache, underlying) := by
  rw [recvCached]
  split
  · rfl
  · simp

/-- One call of `recv`: an end of the stream, or the next bytes. -/
theorem recvCached_spec {n : ℕ} (hn : 0 < n) (cache : Bytes) (underlying : Source UInt8) :
    (cache ++ underlying.all = [] ∧ recvCached n cache underlying = (.error eof, cache, underlying))
      ∨ ∃ got cache' underlying', got ≠ []
        ∧ recvCached n cache underlying = (.ok got, cache', underlying')
        ∧ cache ++ underlying.all = got ++ (cache' ++ underlying'.all) := by
  by_cases hcache : cache.length = 0
  · obtain rfl := List.eq_nil_of_length_eq_zero hcache
    rcases hread : underlying.readSome n with _ | ⟨got, underlying'⟩
    · refine Or.inl ⟨(Source.readSome_eq_none_iff.mp hread).2, ?_⟩
      rw [recvCached, if_pos hcache, hread]
    · obtain ⟨hne, -, hall⟩ := Source.readSome_spec hn hread
      refine Or.inr ⟨got, [], underlying', hne, ?_, hall⟩
      rw [recvCached, if_pos hcache, hread]
  · refine Or.inr ⟨cache.take (min n cache.length), cache.drop (min n cache.length), underlying,
      ?_, by rw [recvCached, if_neg hcache], ?_⟩
    · apply List.ne_nil_of_length_pos
      rw [List.length_take]
      omega
    · rw [← List.append_assoc, List.take_append_drop]

/-- The bytes an ingress has to hand out. -/
def HttpIngress.pending (s : HttpIngress) : Bytes :=
  match s.manner with
  | .invalid => []
  | .connect cache => cache ++ s.underlying.all
  | .proxy input => input ++ s.underlying.all

/-- **An ingress hands out what is pending.** -/
theorem HttpIngress.drains :
    Drains HttpIngress.recv (fun s => s.manner ≠ .invalid) HttpIngress.pending where
  idle := by
    rintro ⟨underlying, manner⟩ hs
    cases manner with
    | invalid => exact absurd rfl hs
    | connect cache => simp only [HttpIngress.recv, recvCached_zero]
    | proxy input => simp only [HttpIngress.recv, recvCached_zero]
  step := by
    rintro ⟨underlying, manner⟩ n hs hn
    cases manner with
    | invalid => exact absurd rfl hs
    | connect cache =>
        rcases recvCached_spec hn cache underlying with
          ⟨hnil, hrecv⟩ | ⟨got, cache', underlying', hne, hrecv, hall⟩
        · exact Or.inl ⟨hnil, eof, by simp only [HttpIngress.recv, hrecv]⟩
        · refine Or.inr ⟨got, ⟨underlying', .connect cache'⟩, hne, ?_, by simp, hall⟩
          simp only [HttpIngress.recv, hrecv]
    | proxy input =>
        rcases recvCached_spec hn input underlying with
          ⟨hnil, hrecv⟩ | ⟨got, cache', underlying', hne, hrecv, hall⟩
        · exact Or.inl ⟨hnil, eof, by simp only [HttpIngress.recv, hrecv]⟩
        · refine Or.inr ⟨got, ⟨underlying', .proxy cache'⟩, hne, ?_, by simp, hall⟩
          simp only [HttpIngress.recv, hrecv]

/-- **An egress hands out what is pending.** -/
theorem HttpEgress.drains :
    Drains HttpEgress.recv (fun _ => True) fun s => s.cache ++ s.underlying.all where
  idle := by
    rintro ⟨underlying, cache⟩ -
    simp only [HttpEgress.recv, recvCached_zero]
  step := by
    rintro ⟨underlying, cache⟩ n - hn
    rcases recvCached_spec hn cache underlying with
      ⟨hnil, hrecv⟩ | ⟨got, cache', underlying', hne, hrecv, hall⟩
    · exact Or.inl ⟨hnil, eof, by simp only [HttpEgress.recv, hrecv]⟩
    · refine Or.inr ⟨got, ⟨underlying', cache'⟩, hne, ?_, trivial, hall⟩
      simp only [HttpEgress.recv, hrecv]

/-! ## Headers that are found -/

/-- `async_read_header` finds a header in front of a stream, of which one byte was read
before, and leaves in the cache what it received behind the header. -/
structure FindsRequest (beast : Beast) (src : Source UInt8) (header tail : Bytes) (m : Parsed) :
    Prop where
  all_eq : src.all = header ++ tail
  header_ne_nil : header ≠ []
  read : ∀ byte src', src.read 1 = (some byte, src') →
    ∃ rest, beast.readRequest (firstCache byte) src' = .ok (m, rest)
      ∧ m.cache.readable ++ rest.all = tail

section Ingress

variable {beast : Beast} {order : Order} {p : Platform} {credentials : List Bytes}
  {src : Source UInt8} {header tail : Bytes} {m : Parsed}

/-- What `read_remote` makes of a header that was found. -/
theorem FindsRequest.readRemote (order : Order) (p : Platform) (credentials : List Bytes)
    (h : FindsRequest beast src header tail m) :
    ∃ rest, m.cache.readable ++ rest.all = tail
      ∧ Http.readRemote beast order p credentials src = (do
        let manner ← carry beast order (continueReadRemote p credentials m).2
        return (← (continueReadRemote p credentials m).1.lift, ⟨rest, manner⟩)) := by
  have hpos : 1 ≤ src.all.length := by
    rw [h.all_eq, List.length_append]
    have hlength := List.length_pos_of_ne_nil h.header_ne_nil
    omega
  have hbyte : src.read 1 = (some (src.all.take 1), (src.read 1).2) :=
    Prod.ext (Source.read_of_le hpos).1 rfl
  obtain ⟨rest, hread, hrest⟩ := h.read _ _ hbyte
  refine ⟨rest, hrest, ?_⟩
  rw [Http.readRemote, hbyte]
  simp only
  rw [hread]
  rfl

/-- The manner of a `CONNECT` request, whatever becomes of its target. -/
theorem continueReadRemote_of_connect (hmethod : m.request.method = .connect) {remote : Endpoint}
    (h : (continueReadRemote p credentials m).1 = .ok remote) :
    (continueReadRemote p credentials m).2 = .connect m.cache.readable := by
  have hremote : (remoteOf p m).2 = .connect m.cache.readable := by
    rw [remoteOf, if_pos hmethod]
  rw [continueReadRemote] at h ⊢
  split
  · exact hremote
  · rename_i hsome
    rw [if_neg hsome] at h
    split
    · rename_i hauth
      rw [hauth] at h
      cases h
    · rename_i hauth
      rw [hauth] at h
      cases h
    · exact hremote

end Ingress

/-! ## Tunnels -/

namespace Example

def crlf : Bytes := [13, 10]

/-- The number of bytes up to the end of the first empty line. -/
def headerEnd : Bytes → Option ℕ
  | [] => none
  | x :: w => if (x :: w).take 4 = crlf ++ crlf then some 4 else (headerEnd w).map (· + 1)

/-- Read until the header is complete, and consume it.  There is always room for 512 bytes. -/
def readHeader : ℕ → FlatBuffer UInt8 → Source UInt8 → Result (FlatBuffer UInt8 × Source UInt8)
  | 0, _, _ => .error .divergence
  | fuel + 1, cache, src =>
    match headerEnd cache.readable with
    | some n => .ok (cache.consume n, src)
    | none =>
      let size := max 512 (cache.front.length + cache.back.length)
      match src.readSome size with
      | none => .error eof
      | some (got, src) => readHeader fuel ((cache.prepare size).commit got) src

def verbText : Verb → Bytes
  | .connect => lit "CONNECT"
  | .other name => name

def fieldText : Field → Bytes
  | .host => lit "Host"
  | .connection => lit "Connection"
  | .proxyConnection => lit "Proxy-Connection"
  | .proxyAuthorization => lit "Proxy-Authorization"
  | .other name => name

/-- A header is handed out at once: the first line, the fields, and the empty line. -/
def serialized (req : Request) : List Bytes :=
  [verbText req.method ++ 32 :: req.target ++ lit " HTTP/1.1" ++ crlf
    ++ (req.fields.flatMap fun x => fieldText x.1 ++ lit ": " ++ x.2 ++ crlf) ++ crlf]

/-- A library that recognises one request and one response. -/
def beast (req : Request) (rep : Response) : Beast where
  serialized := serialized
  readRequest cache src := do
    let (cache, src) ← readHeader (src.all.length + 1) cache src
    return (⟨req, false, cache⟩, src)
  readResponse cache src := do
    let (cache, src) ← readHeader (src.all.length + 1) { readable := cache } src
    return ((rep, cache.readable), src)

/-- The header that `readHeader` has found. -/
theorem finds_of_readHeader {req : Request} {rep : Response} {src : Source UInt8}
    {header tail : Bytes} {cache : FlatBuffer UInt8} (byte rest : Bytes)
    (hall : src.all = header ++ tail) (hne : header ≠ []) (hbyte : (src.read 1).1 = some byte)
    (htail : cache.readable ++ rest = tail)
    (h : (readHeader ((src.read 1).2.all.length + 1) (firstCache byte) (src.read 1).2).map
      (fun x => (x.1, x.2.all)) = .ok (cache, rest)) :
    FindsRequest (beast req rep) src header tail ⟨req, false, cache⟩ where
  all_eq := hall
  header_ne_nil := hne
  read byte' src' hread := by
    rw [hread] at h hbyte
    cases hbyte
    rcases hheader : readHeader (src'.all.length + 1) (firstCache byte) src' with f | ⟨_, left⟩
    · rw [hheader] at h
      cases h
    · rw [hheader] at h
      cases h
      exact ⟨left, bind_eq_ok_iff.mpr ⟨_, hheader, rfl⟩, htail⟩

end Example

/-- A field that the ingress sets. -/
def Field.IsConnection (f : Field) : Prop := f = .connection ∨ f = .proxyConnection

instance (f : Field) : Decidable f.IsConnection := inferInstanceAs (Decidable (_ ∨ _))

/-- The values of the fields of a name. -/
def valuesOf (f : Field) (fields : List (Field × Bytes)) : List Bytes :=
  (fields.filter fun x => x.1 = f).map Prod.snd

/-- What is changed in a request that was read: its target is made relative, and unless it is an
upgrade the connection is closed behind it. -/
structure Rewritten (m : Parsed) (req : Request) : Prop where
  method_eq : req.method = m.request.method
  version_eq : req.version = m.request.version
  relative : m.request.target.head? = some 47 → req.target = m.request.target
  absolute : m.request.target.head? ≠ some 47 →
    ∃ uri, Uri.make m.request.target = .ok uri ∧ req.target = uri.suffix
  kept : m.upgrade = true → req.fields = m.request.fields
  others : req.fields.filter (fun x => ¬x.1.IsConnection)
    = m.request.fields.filter (fun x => ¬x.1.IsConnection)
  closed : m.upgrade = false → ∀ f : Field, f.IsConnection →
    valuesOf f req.fields = [lit "close"]

/-- The target without the part that is only for proxies. -/
def relativeTarget (target : Bytes) : Bytes :=
  if target.head? = some 47 then target
  else
    match Uri.make target with
    | .ok uri => uri.suffix
    | .error _ => target

/-- The request that is handed on for one that is accepted. -/
def forwarded (m : Parsed) : Request :=
  let req := { m.request with target := relativeTarget m.request.target }
  if m.upgrade then req
  else (req.set .connection (lit "close")).set .proxyConnection (lit "close")

/-- `fields::set`, on the fields alone. -/
def setField (f : Field) (value : Bytes) (fields : List (Field × Bytes)) : List (Field × Bytes) :=
  fields.filter (fun x => x.1 ≠ f) ++ [(f, value)]

theorem fields_set (f : Field) (value : Bytes) (req : Request) :
    (req.set f value).fields = setField f value req.fields := rfl

/-- Setting one of the two fields leaves the others. -/
theorem others_setField {f : Field} (hf : f.IsConnection) (value : Bytes)
    (fields : List (Field × Bytes)) :
    (setField f value fields).filter (fun x => ¬x.1.IsConnection)
      = fields.filter (fun x => ¬x.1.IsConnection) := by
  rw [setField, List.filter_append, List.filter_filter,
    List.filter_cons_of_neg (by simpa using hf), List.filter_nil, List.append_nil]
  apply List.filter_congr
  intro x _
  by_cases hx : x.1 = f
  · simp [hx, hf]
  · simp [hx]

theorem valuesOf_setField_self (f : Field) (value : Bytes) (fields : List (Field × Bytes)) :
    valuesOf f (setField f value fields) = [value] := by
  rw [valuesOf, setField, List.filter_append, List.filter_filter]
  simp

theorem valuesOf_setField_of_ne {f g : Field} (h : f ≠ g) (value : Bytes)
    (fields : List (Field × Bytes)) :
    valuesOf f (setField g value fields) = valuesOf f fields := by
  rw [valuesOf, setField, List.filter_append, List.filter_filter,
    List.filter_cons_of_neg (by simpa using Ne.symm h), List.filter_nil, List.append_nil, valuesOf]
  congr 1
  apply List.filter_congr
  intro x _
  by_cases hx : x.1 = f
  · simp [hx, h]
  · simp [hx]

/-- The fields of a message behind which the connection is closed. -/
theorem closed_setField (fields : List (Field × Bytes)) (f : Field) (hf : f.IsConnection) :
    valuesOf f (setField .proxyConnection (lit "close")
      (setField .connection (lit "close") fields)) = [lit "close"] := by
  rcases hf with rfl | rfl
  · rw [valuesOf_setField_of_ne (by decide), valuesOf_setField_self]
  · exact valuesOf_setField_self _ _ _

theorem others_closed (fields : List (Field × Bytes)) :
    (setField .proxyConnection (lit "close") (setField .connection (lit "close") fields)).filter
        (fun x => ¬x.1.IsConnection)
      = fields.filter (fun x => ¬x.1.IsConnection) := by
  rw [others_setField (Or.inr rfl), others_setField (Or.inl rfl)]

section Relay

variable {beast : Beast} {order : Order} {p : Platform} {credentials : List Bytes}
  {src : Source UInt8} {header body : Bytes} {m : Parsed} {remote : Endpoint}

/-- What `get_remote` makes of the request: its target becomes relative. -/
theorem getRemote_spec {req : Request} (h : getRemote p m.request = .ok (remote, req)) :
    req = { m.request with target := relativeTarget m.request.target }
      ∧ (m.request.target.head? ≠ some 47 → ∃ uri, Uri.make m.request.target = .ok uri
        ∧ relativeTarget m.request.target = uri.suffix) := by
  obtain ⟨-, -, h⟩ := bind_eq_ok_iff.mp h
  split at h
  · rename_i hhead
    obtain ⟨uri, huri, h⟩ := bind_eq_ok_iff.mp h
    obtain ⟨e, -, h⟩ := bind_eq_ok_iff.mp h
    cases h
    have hsuffix : relativeTarget m.request.target = uri.suffix := by
      rw [relativeTarget, if_neg hhead, huri]
    exact ⟨by rw [hsuffix], fun _ => ⟨uri, huri, hsuffix⟩⟩
  · rename_i hhead
    have hsame : relativeTarget m.request.target = m.request.target :=
      if_pos (not_not.mp hhead)
    split at h
    · obtain ⟨hp, -, h⟩ := bind_eq_ok_iff.mp h
      obtain ⟨e, -, h⟩ := bind_eq_ok_iff.mp h
      cases h
      exact ⟨by rw [hsame], fun hslash => absurd hslash hhead⟩
    · cases h

/-- What is changed in the request that is handed on. -/
theorem rewritten_forwarded
    (habsolute : m.request.target.head? ≠ some 47 → ∃ uri, Uri.make m.request.target = .ok uri
      ∧ relativeTarget m.request.target = uri.suffix) : Rewritten m (forwarded m) := by
  have hrelative : m.request.target.head? = some 47 →
      relativeTarget m.request.target = m.request.target := fun hslash => if_pos hslash
  unfold forwarded
  cases hupgrade : m.upgrade with
  | true =>
      refine ⟨rfl, rfl, hrelative, habsolute, fun _ => rfl, rfl, ?_⟩
      intro hfalse
      rw [hupgrade] at hfalse
      cases hfalse
  | false =>
      refine ⟨rfl, rfl, hrelative, habsolute, ?_, ?_, ?_⟩
      · intro htrue
        rw [hupgrade] at htrue
        cases htrue
      · simp only [Bool.false_eq_true, if_false, fields_set]
        exact others_closed m.request.fields
      · intro _ f hf
        simp only [Bool.false_eq_true, if_false, fields_set]
        exact closed_setField m.request.fields f hf

/-- The manner of a relayed request. -/
theorem remoteOf_of_relay (hmethod : m.request.method ≠ .connect)
    (h : (remoteOf p m).1 = .ok remote) :
    Rewritten m (forwarded m) ∧ (remoteOf p m).2 = .proxy m.cache (forwarded m) := by
  rw [remoteOf, if_neg hmethod] at h ⊢
  split at h
  · cases h
  · rename_i e req hget
    obtain ⟨rfl, habsolute⟩ := getRemote_spec hget
    exact ⟨rewritten_forwarded habsolute, rfl⟩

theorem continueReadRemote_of_relay (hmethod : m.request.method ≠ .connect)
    (h : (continueReadRemote p credentials m).1 = .ok remote) :
    Rewritten m (forwarded m)
      ∧ (continueReadRemote p credentials m).2 = .proxy m.cache (forwarded m) := by
  rw [continueReadRemote] at h ⊢
  split
  · rename_i hnone
    rw [if_pos hnone] at h
    exact remoteOf_of_relay hmethod h
  · rename_i hsome
    rw [if_neg hsome] at h
    split
    · rename_i hauth
      rw [hauth] at h
      cases h
    · rename_i hauth
      rw [hauth] at h
      cases h
    · rename_i hauth
      rw [hauth] at h
      exact remoteOf_of_relay hmethod h

end Relay

/-! ### The buffer of a relayed request -/

section Rotate

variable {order : Order} {sticked : ℕ} {b b' : FlatBuffer UInt8}

/-- The first bytes are found at the place if it is from after `prepare`, or if they are still
there. -/
theorem copy_rotated_iff (hle : sticked ≤ b.readable.length) :
    (rotated order sticked b).copy sticked (b.prepare sticked) = some (b.readable.take sticked)
      ↔ order = .leftToRight ∨ b.Keeps sticked := by
  cases order with
  | leftToRight =>
      refine ⟨fun _ => Or.inl rfl, fun _ => ?_⟩
      rw [← FlatBuffer.readable_prepare sticked b]
      exact FlatBuffer.copy_data sticked (b.prepare sticked)
  | rightToLeft =>
      rw [rotated, FlatBuffer.copy_prepare_iff hle]
      simp

/-- Then they are copied behind the others. -/
theorem rotate_of_keeps (hle : sticked ≤ b.readable.length)
    (h : order = .leftToRight ∨ b.Keeps sticked) :
    ∃ b', rotate order sticked b = .ok b'
      ∧ b'.readable = b.readable.drop sticked ++ b.readable.take sticked := by
  have hcopy := (copy_rotated_iff hle).mpr h
  refine ⟨_, by rw [rotate, hcopy], ?_⟩
  simp [List.drop_append_of_le_length hle]

/-- Otherwise they are not. -/
theorem keeps_of_rotate (hle : sticked ≤ b.readable.length) (h : rotate order sticked b = .ok b')
    (hb' : b'.readable = b.readable.drop sticked ++ b.readable.take sticked) :
    order = .leftToRight ∨ b.Keeps sticked := by
  unfold rotate at h
  split at h
  · cases h
  · rename_i copied hcopy
    cases h
    have hcopied : copied = b.readable.take sticked := by
      simpa [List.drop_append_of_le_length hle] using hb'
    rwa [hcopied, copy_rotated_iff hle] at hcopy

end Rotate

/-- The bytes of the body that came with the header are copied as they are: the compiler evaluates
`in_.prepare` before `in_.data`, or the bytes are still found at their place after it.  The buffer
is the cache with the new header appended. -/
def Copies (beast : Beast) (order : Order) (m : Parsed) : Prop :=
  order = .leftToRight
    ∨ (m.cache.append (beast.serialized (forwarded m))).Keeps m.cache.readable.length

/-- No byte of the body came with the header. -/
theorem copies_of_nil {beast : Beast} {order : Order} {m : Parsed} (h : m.cache.readable = []) :
    Copies beast order m := Or.inr (Or.inl (by rw [h, List.length_nil]))

/-- The cache has room for the new header and for these bytes. -/
theorem copies_of_room {beast : Beast} {order : Order} {m : Parsed}
    (h : (beast.header (forwarded m)).length + m.cache.readable.length ≤ m.cache.back.length) :
    Copies beast order m := Or.inr (FlatBuffer.keeps_append h)

section Manner

variable {beast : Beast} {order : Order} {m : Parsed}

theorem readable_append_serialized (beast : Beast) (cache : FlatBuffer UInt8) (req : Request) :
    cache.readable.length ≤ (cache.append (beast.serialized req)).readable.length
      ∧ (cache.append (beast.serialized req)).readable.drop cache.readable.length
        ++ (cache.append (beast.serialized req)).readable.take cache.readable.length
        = beast.header req ++ cache.readable := by
  rw [FlatBuffer.readable_append, List.take_left, List.drop_left, List.length_append]
  exact ⟨by omega, rfl⟩

/-- **What the constructor of `ProxyManner` leaves**: the header, and behind it what was in the
cache. -/
theorem proxyManner_of_copies (h : Copies beast order m) :
    ∃ b, proxyManner beast order m.cache (forwarded m) = .ok b
      ∧ b.readable = beast.header (forwarded m) ++ m.cache.readable := by
  obtain ⟨hle, hrotated⟩ := readable_append_serialized beast m.cache (forwarded m)
  obtain ⟨b, hb, hreadable⟩ := rotate_of_keeps hle h
  exact ⟨b, hb, hreadable.trans hrotated⟩

theorem copies_of_proxyManner {b : FlatBuffer UInt8}
    (h : proxyManner beast order m.cache (forwarded m) = .ok b)
    (hb : b.readable = beast.header (forwarded m) ++ m.cache.readable) : Copies beast order m := by
  obtain ⟨hle, hrotated⟩ := readable_append_serialized beast m.cache (forwarded m)
  exact keeps_of_rotate hle h (hb.trans hrotated.symm)

end Manner

/-- The request arrives: `read_remote` returns, and what `recv` hands out is the rewritten
header followed by the body, from the first byte on, and all of it when there are as many calls
with a buffer as bytes. -/
def Relays (beast : Beast) (order : Order) (p : Platform) (credentials : List Bytes)
    (src : Source UInt8) (m : Parsed) (body : Bytes) : Prop :=
  Rewritten m (forwarded m)
    ∧ ∃ remote s, readRemote beast order p credentials src = .ok (remote, s)
      ∧ ∀ sizes : List ℕ,
        delivered (receiveAll HttpIngress.recv sizes s).1
            <+: beast.header (forwarded m) ++ body
          ∧ ((beast.header (forwarded m) ++ body).length ≤ (sizes.filter (0 < ·)).length →
            delivered (receiveAll HttpIngress.recv sizes s).1
              = beast.header (forwarded m) ++ body)

/-- **When a relayed request arrives.**  For every request other than `CONNECT` that the
ingress accepts, every body, in any segmentation, and any sizes of the buffers: if and only if
the bytes of the body that were received together with the header are copied as they are. -/
theorem relays_iff {beast : Beast} (order : Order) {p : Platform} {credentials : List Bytes}
    {src : Source UInt8} {header body : Bytes} {m : Parsed} {remote : Endpoint}
    (hfinds : FindsRequest beast src header body m) (hmethod : m.request.method ≠ .connect)
    (haccepts : (continueReadRemote p credentials m).1 = .ok remote) :
    Relays beast order p credentials src m body ↔ Copies beast order m := by
  obtain ⟨rest, hrest, hread⟩ := hfinds.readRemote order p credentials
  obtain ⟨hrewritten, hmanner⟩ := continueReadRemote_of_relay hmethod haccepts
  rw [hmanner, haccepts] at hread
  constructor
  · rintro ⟨-, remote', s, hok, hdelivered⟩
    rw [hread] at hok
    obtain ⟨manner, hcarry, hok⟩ := bind_eq_ok_iff.mp hok
    obtain ⟨b, hb, hcarry⟩ := bind_eq_ok_iff.mp hcarry
    cases hcarry
    cases hok
    refine copies_of_proxyManner hb ?_
    -- as many calls as there are bytes, either way
    let n := max (b.readable ++ rest.all).length (beast.header (forwarded m) ++ body).length
    have hcalls : ((List.replicate n 1).filter (0 < ·)).length = n := by simp
    have hpending := (HttpIngress.drains.delivered (List.replicate n 1)
      ⟨rest, .proxy b.readable⟩ (by simp)).2 (by rw [hcalls]; exact le_max_left _ _)
    have hsent := (hdelivered (List.replicate n 1)).2 (by rw [hcalls]; exact le_max_right _ _)
    rw [hpending, ← hrest, ← List.append_assoc] at hsent
    exact List.append_cancel_right hsent
  · intro h
    obtain ⟨b, hb, hreadable⟩ := proxyManner_of_copies h
    refine ⟨hrewritten, remote, ⟨rest, .proxy b.readable⟩, ?_, fun sizes => ?_⟩
    · rw [hread, carry, hb]
      rfl
    · have hpending : HttpIngress.pending ⟨rest, .proxy b.readable⟩
          = beast.header (forwarded m) ++ body := by
        show b.readable ++ rest.all = _
        rw [hreadable, List.append_assoc, hrest]
      rw [← hpending]
      exact HttpIngress.drains.delivered sizes _ (by simp)

/-- A request with an absolute target and no fields. -/
def Example.request : Request := ⟨.other (lit "PUT"), lit "http://a/x", [], 11⟩

/-- The request with a body of `n + 1` bytes, of which all but the last come with the header. -/
def Example.source (n : ℕ) : Source UInt8 :=
  ⟨[lit "PUT http://a/x HTTP/1.1\r\n\r\n" ++ List.replicate n 104, lit "i"], by simp [lit]⟩

/-- What is read: a block of 513 bytes, of which the header is consumed. -/
def Example.parsed (n : ℕ) : Parsed :=
  { request := Example.request
    upgrade := false
    cache := ⟨lit "PUT http://a/x HTTP/1.1\r\n\r\n", List.replicate n 104,
      List.replicate (486 - n) 0, 2⟩ }

/-- The header of the request is found. -/
theorem Example.finds {n : ℕ}
    (h : (readHeader (((source n).read 1).2.all.length + 1) (firstCache (lit "P"))
      ((source n).read 1).2).map (fun x => (x.1, x.2.all)) = .ok ((parsed n).cache, lit "i")) :
    FindsRequest (beast request ⟨200, [], [], 11⟩) (source n)
      (lit "PUT http://a/x HTTP/1.1\r\n\r\n") (List.replicate n 104 ++ lit "i") (parsed n) :=
  finds_of_readHeader (lit "P") (lit "i") (by simp [source, Source.all]) (by decide) rfl rfl h

/-- The request is accepted. -/
theorem Example.accepts (n : ℕ) :
    (continueReadRemote Reference.platform [] (Example.parsed n)).1
      = .ok ⟨.domainName, lit "a", 80⟩ := by
  have h : (continueReadRemote Reference.platform []
      ⟨Example.request, false, {}⟩).1 = .ok ⟨.domainName, lit "a", 80⟩ := by
    decide +kernel
  exact h

/-- From right to left: behind the new header of 63 bytes there is room for the two bytes. -/
theorem relays_iff_example :
    Relays (Example.beast Example.request ⟨200, [], [], 11⟩) .rightToLeft Reference.platform []
      (Example.source 2) (Example.parsed 2) (List.replicate 2 104 ++ lit "i") :=
  (relays_iff .rightToLeft (Example.finds (by decide +kernel)) (by decide)
    (Example.accepts 2)).mpr (Or.inr (by decide +kernel))

/-- From right to left: 470 bytes of the body came with the header, behind the new header there
is room for 407, and they are copied out of the block that `prepare` has freed. -/
theorem relays_counterexample :
    FindsRequest (Example.beast Example.request ⟨200, [], [], 11⟩) (Example.source 470)
        (lit "PUT http://a/x HTTP/1.1\r\n\r\n") (List.replicate 470 104 ++ lit "i")
        (Example.parsed 470)
      ∧ (continueReadRemote Reference.platform [] (Example.parsed 470)).1
        = .ok ⟨.domainName, lit "a", 80⟩
      ∧ ¬Relays (Example.beast Example.request ⟨200, [], [], 11⟩) .rightToLeft
        Reference.platform [] (Example.source 470) (Example.parsed 470)
        (List.replicate 470 104 ++ lit "i") := by
  refine ⟨Example.finds (by decide +kernel), Example.accepts 470, ?_⟩
  rintro ⟨-, remote, s, hread, -⟩
  have hok : (readRemote (Example.beast Example.request ⟨200, [], [], 11⟩) .rightToLeft
      Reference.platform [] (Example.source 470)).isOk = false := by
    decide +kernel
  rw [hread] at hok
  cases hok

end Http

end Pichi
