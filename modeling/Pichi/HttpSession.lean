/-
# Sessions over HTTP

Sessions whose ingress is an HTTP proxy, as `HttpIngress` or as the delegate of a `DualIngress`, in
front of any bytes.

`Asks` says what a client asks for: a `CONNECT` request and then the bytes of the tunnel, or another
request, which is handed on with its header rewritten and everything behind it as it is.

`relays_asked`: a session is routed to the destination of a complete header whose user is one of the
configuration, and gives to its egress the beginning of what the client asks for, if the bytes of
the body that come with the header of a relayed request are copied as they are (`Fits`).  A run in
which they are copied out of a block that was freed is not followed any further.
-/
import Pichi.HttpConnect
import Pichi.HttpStream
import Pichi.SessionStream
import Pichi.UriGrammar

namespace Pichi

namespace Http

open Backtrack
open Interleave
open Session (Receiver Node receivedFrom givenTo bufferSize)
open Transfer (Source)

/-! ## What a client asks for -/

/-- The request comes from a user of the configuration, if it has any. -/
def Authorized (p : Platform) (cred : Option UpIngressCredential) (req : Request) : Prop :=
  genCredentials p cred = [] ∨ ∃ c u pw scheme, cred = some c ∧ c.credential.lookup u = some pw
    ∧ toLowerStr scheme = lit "basic "
    ∧ req.find .proxyAuthorization = some (scheme ++ genAuth p u pw)

/-- The headers that a library accepts, with what it makes of them. -/
abbrev Headers := Bytes → Request → Bool → Prop

/-- `async_read_header` takes a header from the front of what it is given, and leaves the rest in
the cache and on the layer below. -/
def Beast.Reads (beast : Beast) (headers : Headers) : Prop :=
  ∀ cache src m rest, beast.readRequest cache src = .ok (m, rest) →
    ∃ header, cache.readable ++ src.all = header ++ (m.cache.readable ++ rest.all)
      ∧ headers header m.request m.upgrade

/-- What a client asks for: that `payload` is given to the destination `peer`. -/
inductive Asks (beast : Beast) (headers : Headers) (p : Platform)
    (cred : Option UpIngressCredential) (bytes : Bytes) (peer : Endpoint) : Bytes → Prop where
  /-- A tunnel, which begins behind the header. -/
  | connect (header tail : Bytes) (req : Request) (upgrade : Bool)
      (hbytes : bytes = header ++ tail) (hheader : headers header req upgrade)
      (hauth : Authorized p cred req) (hmethod : req.method = .connect)
      (hpeer : (do
        let hp ← HostAndPort.make req.target
        makeEndpointText p hp.host hp.port) = .ok peer) :
      Asks beast headers p cred bytes peer tail
  /-- A request for the destination itself. -/
  | relay (header body : Bytes) (m : Parsed) (req : Request)
      (hbytes : bytes = header ++ body) (hheader : headers header m.request m.upgrade)
      (hauth : Authorized p cred m.request) (hmethod : m.request.method ≠ .connect)
      (hpeer : getRemote p m.request = .ok (peer, req)) (hreq : Rewritten m (forwarded m)) :
      Asks beast headers p cred bytes peer (beast.header (forwarded m) ++ body)

section Accepted

variable {p : Platform} {cred : Option UpIngressCredential} {m : Parsed} {peer : Endpoint}

/-- The pattern takes the token behind the scheme. -/
theorem exists_of_basicAuthPattern {auth : Bytes} {r : Captures}
    (h : basicAuthPattern.regexMatch auth = some r) :
    ∃ scheme, toLowerStr scheme = lit "basic " ∧ auth = scheme ++ Captures.text r 1 := by
  obtain ⟨c, ⟨c₀, ⟨-, rfl⟩, c₁, hscheme, c₂, hbody, rfl⟩, hrest, rfl⟩ :=
    Pattern.exists_of_regexMatch_eq_some h
  obtain ⟨scheme, token, hauth, hlower, rfl⟩ := exists_of_matches_wordIcase hscheme
  obtain ⟨w, hw, hpos⟩ := Pattern.exists_append_of_matches _ hbody
  rw [Cursor.close_rest] at hrest
  rw [hrest, List.append_nil, Cursor.advance_rest] at hw
  refine ⟨scheme, hlower, hauth.trans ?_⟩
  have htext : Captures.text (Cursor.close 1 ((Cursor.start auth).advance scheme token) c₂).groups 1
      = token.take (c₂.pos - ((Cursor.start auth).advance scheme token).pos) := rfl
  rw [htext, hpos, Nat.add_sub_cancel_left, hw, List.take_length]

/-- Whoever is let in is a user of the configuration. -/
theorem authorized_of_authenticate {req : Request}
    (h : authenticate req (genCredentials p cred) = .ok true) : Authorized p cred req := by
  unfold authenticate at h
  split at h
  · rename_i auth hfind
    split at h
    · rename_i r hmatch
      obtain ⟨-, -, h⟩ := bind_eq_ok_iff.mp h
      have hmem : Captures.text r 1 ∈ genCredentials p cred :=
        List.contains_iff_mem.mp (Except.ok.inj h)
      obtain ⟨scheme, hlower, hauth⟩ := exists_of_basicAuthPattern hmatch
      cases cred with
      | none => cases hmem
      | some c =>
          obtain ⟨⟨u, pw⟩, hentry, htext⟩ := List.mem_map.mp hmem
          refine Or.inr ⟨c, u, pw, scheme, rfl, AList.mem_lookup_iff.mpr hentry, hlower, ?_⟩
          rw [hfind, hauth, ← htext]
    · cases h
  · cases h

/-- What was accepted is authorized, and its destination is read off its target. -/
theorem remoteOf_of_continueReadRemote
    (h : (continueReadRemote p (genCredentials p cred) m).1 = .ok peer) :
    Authorized p cred m.request ∧ (remoteOf p m).1 = .ok peer := by
  rw [continueReadRemote] at h
  split at h
  · rename_i hnone
    exact ⟨Or.inl hnone, h⟩
  · split at h
    · cases h
    · cases h
    · rename_i hauth
      exact ⟨authorized_of_authenticate hauth, h⟩

/-- The destination of a request that is handed on. -/
theorem exists_getRemote (hmethod : m.request.method ≠ .connect)
    (h : (remoteOf p m).1 = .ok peer) : ∃ req, getRemote p m.request = .ok (peer, req) := by
  rw [remoteOf, if_neg hmethod] at h
  split at h
  · cases h
  · rename_i e req hget
    cases h
    exact ⟨req, hget⟩

end Accepted

/-! ## The ingress in front of a socket -/

section Ingress

variable {beast : Beast} {order : Order} {p : Platform} {credentials : List Bytes}

/-- The receiving half of the ingress.  The first byte is read by `HttpIngress::read_remote`, or by
`DualIngress::read_remote`. -/
def receiver (beast : Beast) (order : Order) (p : Platform) (credentials : List Bytes) :
    Receiver Unit HttpIngress where
  read _ s :=
    match s.underlying.read 1 with
    | (none, src) => (⟨.error eof, .error eof, .error eof⟩, ⟨src, s.manner⟩)
    | (some byte, src) =>
      match beast.readRequest (firstCache byte) src with
      | .error f => (⟨.ok (byte.headD 0), .error f, .error f⟩, ⟨src, s.manner⟩)
      | .ok (parsed, src) =>
        match carry beast order (continueReadRemote p credentials parsed).2 with
        | .error f => (⟨.ok (byte.headD 0), .error f, .error f⟩, ⟨src, s.manner⟩)
        | .ok manner => (⟨.ok (byte.headD 0), .ok parsed, .error eof⟩, ⟨src, manner⟩)
  recv _ s := s.recv bufferSize

/-- `read_remote` returns if the first byte and the header are there, the header is accepted and the
manner can be made. -/
theorem readRemote_eq_ok_iff {src : Source UInt8} {peer : Endpoint} {s : HttpIngress} :
    Http.readRemote beast order p credentials src = .ok (peer, s) ↔
      ∃ byte src₁ m rest manner, src.read 1 = (some byte, src₁)
        ∧ beast.readRequest (firstCache byte) src₁ = .ok (m, rest)
        ∧ carry beast order (continueReadRemote p credentials m).2 = .ok manner
        ∧ (continueReadRemote p credentials m).1 = .ok peer ∧ s = ⟨rest, manner⟩ := by
  rw [Http.readRemote]
  constructor
  · intro h
    rcases hfirst : src.read 1 with ⟨_ | byte, src₁⟩
    · rw [hfirst] at h
      cases h
    · rw [hfirst] at h
      obtain ⟨⟨m, rest⟩, hread, h⟩ := bind_eq_ok_iff.mp h
      obtain ⟨manner, hmanner, h⟩ := bind_eq_ok_iff.mp h
      obtain ⟨peer', hpeer, h⟩ := bind_eq_ok_iff.mp h
      cases h
      exact ⟨byte, src₁, m, rest, manner, rfl, hread, hmanner, Checked.lift_eq_ok_iff.mp hpeer, rfl⟩
  · rintro ⟨byte, src₁, m, rest, manner, hfirst, hread, hmanner, hpeer, rfl⟩
    rw [hfirst]
    refine bind_eq_ok_iff.mpr ⟨⟨m, rest⟩, hread, bind_eq_ok_iff.mpr ⟨manner, hmanner, ?_⟩⟩
    exact bind_eq_ok_iff.mpr ⟨peer, Checked.lift_eq_ok_iff.mpr hpeer, rfl⟩

/-- The session takes what `read_remote` returns. -/
theorem readRemote_of_read {src : Source UInt8} {manner : Carrier} {peer : Endpoint}
    (h : (Session.continueHttp p credentials
      ((receiver beast order p credentials).read () ⟨src, manner⟩).1.header).1 = .ok peer) :
    Http.readRemote beast order p credentials src
      = .ok (peer, ((receiver beast order p credentials).read () ⟨src, manner⟩).2) := by
  rw [readRemote_eq_ok_iff]
  simp only [receiver] at h ⊢
  rcases hfirst : src.read 1 with ⟨_ | byte, src₁⟩
  · rw [hfirst] at h
    cases h
  · rw [hfirst] at h
    simp only at h ⊢
    rcases hread : beast.readRequest (firstCache byte) src₁ with f | ⟨m, rest⟩
    · rw [hread] at h
      cases h
    · rw [hread] at h
      simp only at h ⊢
      rcases hcarry : carry beast order (continueReadRemote p credentials m).2 with f | manner'
      · rw [hcarry] at h
        cases h
      · rw [hcarry] at h
        exact ⟨byte, src₁, m, rest, manner', rfl, hread, hcarry, Checked.lift_eq_ok_iff.mp h, rfl⟩

/-- If a relayed request comes, the bytes of its body that come with the header are copied as they
are. -/
def Fits (beast : Beast) (order : Order) (src : Source UInt8) : Prop :=
  ∀ byte src₁ m rest, src.read 1 = (some byte, src₁) →
    beast.readRequest (firstCache byte) src₁ = .ok (m, rest) → m.request.method ≠ .connect →
    Copies beast order m

/-- The client has asked for something behind a header that was accepted, and this is pending if it
was copied as it is. -/
theorem asks_of_carry {headers : Headers} {cred : Option UpIngressCredential} {m : Parsed}
    {bytes header : Bytes} {rest : Source UInt8} {peer : Endpoint} {manner : Carrier}
    (hbytes : bytes = header ++ (m.cache.readable ++ rest.all))
    (hheader : headers header m.request m.upgrade)
    (hok : (continueReadRemote p (genCredentials p cred) m).1 = .ok peer)
    (hmanner : carry beast order (continueReadRemote p (genCredentials p cred) m).2 = .ok manner) :
    manner ≠ .invalid ∧ ∃ payload, Asks beast headers p cred bytes peer payload
      ∧ ((m.request.method ≠ .connect → Copies beast order m) →
        HttpIngress.pending ⟨rest, manner⟩ = payload) := by
  obtain ⟨hauth, hpeer⟩ := remoteOf_of_continueReadRemote hok
  by_cases hmethod : m.request.method = .connect
  · rw [continueReadRemote_of_connect hmethod hok] at hmanner
    cases hmanner
    rw [remoteOf, if_pos hmethod] at hpeer
    exact ⟨by simp, _, .connect header _ m.request m.upgrade hbytes hheader hauth hmethod hpeer,
      fun _ => rfl⟩
  · obtain ⟨hreq, heq⟩ := continueReadRemote_of_relay hmethod hok
    rw [heq] at hmanner
    obtain ⟨b, hb, hmanner⟩ := bind_eq_ok_iff.mp hmanner
    cases hmanner
    obtain ⟨req, hget⟩ := exists_getRemote hmethod hpeer
    refine ⟨by simp, _, .relay header _ m req hbytes hheader hauth hmethod hget hreq,
      fun hcopies => ?_⟩
    obtain ⟨b', hb', hreadable⟩ := proxyManner_of_copies (hcopies hmethod)
    rw [hb] at hb'
    cases hb'
    show b.readable ++ rest.all = _
    rw [hreadable, List.append_assoc]

/-- What `read_remote` accepts, the client has asked for, and it is pending. -/
theorem asks_of_readRemote {headers : Headers} {cred : Option UpIngressCredential}
    {src : Source UInt8} {peer : Endpoint} {s : HttpIngress} (hbeast : beast.Reads headers)
    (h : Http.readRemote beast order p (genCredentials p cred) src = .ok (peer, s)) :
    s.manner ≠ .invalid ∧ ∃ payload, Asks beast headers p cred src.all peer payload
      ∧ (Fits beast order src → s.pending = payload) := by
  obtain ⟨byte, src₁, m, rest, manner, hfirst, hread, hmanner, hok, rfl⟩ :=
    readRemote_eq_ok_iff.mp h
  obtain ⟨header, hall, hheader⟩ := hbeast _ _ _ _ hread
  have hbytes : src.all = header ++ (m.cache.readable ++ rest.all) := by
    rw [← hall, Source.eq_append_of_read hfirst, firstCache, FlatBuffer.readable_commit,
      FlatBuffer.readable_prepare]
    rfl
  obtain ⟨hvalid, payload, hasks, hpending⟩ := asks_of_carry hbytes hheader hok hmanner
  exact ⟨hvalid, payload, hasks, fun hfits => hpending (hfits _ _ _ _ hfirst hread)⟩

end Ingress

/-! ## Sessions -/

section Relaying

variable {Context Socket : Type} {st : Session.Setting Context Socket} {n : Node HttpIngress}
  {beast : Beast} {order : Order} {headers : Headers} {cred : Option UpIngressCredential}
  {src : Source UInt8}

/-- The ingress of the session is `HttpIngress`, or a `DualIngress` in front of a client whose first
byte is not that of SOCKS5. -/
inductive Speaks (st : Session.Setting Context Socket) (cred : Option UpIngressCredential)
    (bytes : Bytes) : Prop where
  | http (underlying : Layer Context Socket)
      (h : createIngress st.platform st.library st.sha224 st.vo st.socket
        = .ok (.http (genCredentials st.platform cred) underlying)) : Speaks st cred bytes
  | dual (vo : Pichi.Ingress) (underlying : Layer Context Socket)
      (h : createIngress st.platform st.library st.sha224 st.vo st.socket
        = .ok (.dual vo underlying))
      (hcred : upCredential vo = .ok cred) (hfirst : bytes.head? ≠ some 0x05) : Speaks st cred bytes

/-- The first byte that the ingress finds. -/
theorem first_of_read {p : Platform} {credentials : List Bytes} {manner : Carrier} {first : UInt8}
    (h : ((receiver beast order p credentials).read () ⟨src, manner⟩).1.first = .ok first) :
    src.all.head? = some first := by
  have hbyte : ∀ {byte : Bytes} {src₁ : Source UInt8}, src.read 1 = (some byte, src₁) →
      byte.headD 0 = first → src.all.head? = some first := by
    intro byte src₁ hread hfirst
    obtain ⟨b, rfl⟩ := List.length_eq_one_iff.mp (Source.length_of_read hread)
    obtain rfl : b = first := hfirst
    rw [Source.eq_append_of_read hread]
    rfl
  simp only [receiver] at h
  split at h
  · cases h
  · rename_i byte src₁ hread
    split at h
    · exact hbyte hread (Except.ok.inj h)
    · split at h
      · exact hbyte hread (Except.ok.inj h)
      · exact hbyte hread (Except.ok.inj h)

/-- The session takes what `HttpIngress` makes of the header. -/
theorem remote_of_readRemote {peer : Endpoint} (hst : Speaks st cred src.all)
    (h : ((Session.start st).inlet.readRemote st.platform
      ((receiver beast order st.platform (genCredentials st.platform cred)).read ()
        ⟨src, .invalid⟩).1).1 = .ok peer) :
    (Session.continueHttp st.platform (genCredentials st.platform cred)
      ((receiver beast order st.platform (genCredentials st.platform cred)).read ()
        ⟨src, .invalid⟩).1.header).1 = .ok peer := by
  generalize hr : ((receiver beast order st.platform (genCredentials st.platform cred)).read ()
    ⟨src, .invalid⟩).1 = r at h ⊢
  cases hst with
  | http underlying hingress =>
      rw [Session.start, hingress] at h
      change ((Session.Inlet.http (genCredentials st.platform cred) .invalid).readRemote
        st.platform r).1 = _ at h
      rw [Session.Inlet.readRemote] at h
      split at h
      · cases h
      · exact h
  | dual vo underlying hingress hcred hfirst =>
      rw [Session.start, hingress] at h
      change ((Session.Inlet.dual vo none).readRemote st.platform r).1 = _ at h
      rw [Session.Inlet.readRemote] at h
      split at h
      · cases h
      · rename_i first hr'
        have hne : first ≠ 0x05 := by
          rintro rfl
          rw [← hr] at hr'
          exact hfirst (first_of_read hr')
        simpa [Session.continueDual, hcred, Build.toResult, hne] using h

/-- **A session does what an HTTP client asks for, and nothing else.**  Whatever arrives on the
socket of a session with an HTTP ingress, in whatever segments, and wherever the socket breaks: in
every state of every run, the endpoint that is routed is the destination of a complete header, which
has the name and the password of one of the entries if there are any; and what the egress was given
is the beginning of the tunnel, or of the request with its header rewritten, unless bytes of the
body came with the header of this request and are not copied as they are. -/
theorem relays_asked (hbeast : beast.Reads headers) (hst : Speaks st cred src.all)
    (h : Reachable (Node.exec st (receiver beast order st.platform
        (genCredentials st.platform cred)).breakable) (Node.start st ⟨src, .invalid⟩) n) :
    (∀ peer, n.session.point = .routing peer →
        ∃ payload, Asks beast headers st.platform cred src.all peer payload)
      ∧ (Fits beast order src → givenTo .egress n.session.log = [] ∨ ∃ peer payload,
        Asks beast headers st.platform cred src.all peer payload
          ∧ (givenTo .egress n.session.log).flatten <+: payload) := by
  have hfound : ∀ env peer, ((Session.start st).inlet.readRemote st.platform
      ((receiver beast order st.platform (genCredentials st.platform cred)).read env
        ⟨src, .invalid⟩).1).1 = .ok peer →
      ∃ payload, Asks beast headers st.platform cred src.all peer payload := by
    intro env peer hpeer
    obtain ⟨-, payload, hasks, -⟩ :=
      asks_of_readRemote hbeast (readRemote_of_read (remote_of_readRemote hst hpeer))
    exact ⟨payload, hasks⟩
  refine ⟨fun peer hpoint => Node.routes hfound h hpoint, fun hfits => ?_⟩
  refine (Node.relays (fun env peer hpeer => ?_) h).2
  obtain ⟨hvalid, payload, hasks, hpending⟩ :=
    asks_of_readRemote hbeast (readRemote_of_read (remote_of_readRemote hst hpeer))
  refine ⟨payload, hasks, fun bufs t hdelivers => ?_⟩
  rw [← hpending hfits, (hdelivers.of_drains HttpIngress.drains (fun _ _ => rfl) hvalid).2]
  exact List.prefix_append _ _

end Relaying

/-! ### A client of an HTTP ingress -/

namespace Example

/-- What `readHeader` leaves is the end of what it was given. -/
theorem exists_of_readHeader {fuel : ℕ} :
    ∀ {cache cache' : FlatBuffer UInt8} {src src' : Source UInt8},
      readHeader fuel cache src = .ok (cache', src') →
        ∃ header, cache.readable ++ src.all = header ++ (cache'.readable ++ src'.all) := by
  induction fuel with
  | zero =>
      intro cache cache' src src' h
      cases h
  | succ fuel ih =>
      intro cache cache' src src' h
      rw [readHeader] at h
      split at h
      · rename_i n hend
        cases h
        refine ⟨cache.readable.take n, ?_⟩
        rw [FlatBuffer.readable_consume, ← List.append_assoc, List.take_append_drop]
      · dsimp only at h
        split at h
        · cases h
        · rename_i got src₁ hread
          obtain ⟨header, hheader⟩ := ih h
          refine ⟨header, ?_⟩
          rw [← hheader, (Source.readSome_spec (by omega) hread).2.2, FlatBuffer.readable_commit,
            FlatBuffer.readable_prepare, List.append_assoc]

/-- The library of the examples reads its one request. -/
theorem reads_beast (req : Request) (rep : Response) :
    (beast req rep).Reads fun _ req' upgrade => req' = req ∧ upgrade = false := by
  intro cache src m rest h
  obtain ⟨⟨cache', src'⟩, hread, h⟩ := bind_eq_ok_iff.mp h
  cases h
  obtain ⟨header, hheader⟩ := exists_of_readHeader hread
  exact ⟨header, hheader, rfl, rfl⟩

/-- An HTTP ingress with one user `u`, whose password is `p`. -/
def setting : Session.Setting Unit Unit :=
  { Session.Example.setting with
    vo := { type := .http, credential := some (.up ⟨AList.insert [117] [112] ∅⟩) } }

/-- A request of this user. -/
def authorized : Request :=
  ⟨.other (lit "PUT"), lit "http://a/x",
    [(.proxyAuthorization, lit "basic " ++ genAuth Reference.platform [117] [112])], 11⟩

/-- The request and `hi`, in segments, with the first byte of the body behind the header. -/
def client : Source UInt8 :=
  ⟨[lit "PUT http://a/x HTTP/1.1\r\nProxy-Author",
    lit "ization: basic dTpw\r\n\r\nh", lit "i"], by decide⟩

/-- What is handed on for the first two segments. -/
def relayed : Bytes :=
  lit "PUT /x HTTP/1.1\r\nProxy-Authorization: basic dTpw\r\n"
    ++ lit "Connection: close\r\nProxy-Connection: close\r\n\r\nh"

def events : List (Session.NodeEvent (Unit ⊕ Fault × HttpIngress)) :=
  [.read (.inl ()), .other (.route (.ok [])), .other (.finish (.ok ())), .other (.finish (.ok ())),
    .receive (.inl ())]

end Example

/-- From right to left: behind the new header there is room for the first byte of the body. -/
theorem Example.fits : Fits (Example.beast Example.authorized ⟨200, [], [], 11⟩) .rightToLeft
    Example.client := by
  have hkeeps : ((Example.beast Example.authorized ⟨200, [], [], 11⟩).readRequest
      (firstCache (lit "P")) (Example.client.read 1).2).toOption.all (fun x =>
        decide ((x.1.cache.append (Example.serialized (forwarded x.1))).Keeps
          x.1.cache.readable.length)) = true := by
    decide +kernel
  intro byte src₁ m rest hread hrequest _
  have hbyte : (Example.client.read 1).1 = some (lit "P") := rfl
  rw [hread] at hkeeps hbyte
  cases hbyte
  rw [hrequest] at hkeeps
  exact Or.inr (of_decide_eq_true hkeeps)

theorem relays_asked_example :
    ∃ n, Reachable (Node.exec Example.setting (receiver
          (Example.beast Example.authorized ⟨200, [], [], 11⟩) .rightToLeft Reference.platform
          (genCredentials Reference.platform (some ⟨AList.insert [117] [112] ∅⟩))).breakable)
        (Node.start Example.setting ⟨Example.client, .invalid⟩) n
      ∧ givenTo .egress n.session.log = [Example.relayed]
      ∧ ∃ peer payload, Asks (Example.beast Example.authorized ⟨200, [], [], 11⟩)
          (fun _ req upgrade => req = Example.authorized ∧ upgrade = false) Reference.platform
          (some ⟨AList.insert [117] [112] ∅⟩) Example.client.all peer payload
        ∧ (givenTo .egress n.session.log).flatten <+: payload := by
  have hrun : (run (Node.exec Example.setting (receiver
      (Example.beast Example.authorized ⟨200, [], [], 11⟩) .rightToLeft Reference.platform
      (genCredentials Reference.platform (some ⟨AList.insert [117] [112] ∅⟩))).breakable)
      (Node.start Example.setting ⟨Example.client, .invalid⟩) Example.events).any
        (fun n => decide (givenTo .egress n.session.log = [Example.relayed])) = true := by
    decide +kernel
  obtain ⟨n, hreach, hgiven⟩ := exists_reachable_of_run hrun
  refine ⟨n, hreach, hgiven, ?_⟩
  have hst : Speaks Example.setting (some ⟨AList.insert [117] [112] ∅⟩) Example.client.all :=
    .http _ rfl
  rcases (relays_asked (Example.reads_beast _ _) hst hreach).2 Example.fits with hnil | h
  · rw [hgiven] at hnil
    cases hnil
  · exact h

end Http

end Pichi
