/-
# Sessions over Shadowsocks

Sessions whose ingress speaks Shadowsocks, in front of any bytes: those of a client, or of a client
and somebody on the way who cuts off, changes, repeats or inserts what he likes.

`meaning` is what the bytes of a connection say: the destination and the payload.  A session does
what they say and nothing else (`relays_meaning`): where it is routed and what its egress is given
do not depend on the segmentation of the socket, on the calls, or on the order of events.  In
particular the block that a torn call of `do_read` leaves in the cache is never handed out, because
a session makes no call after one that has failed.

Two sessions with the Shadowsocks protocol between them (`relays_unforged`): as long as nobody
forges a block, the second one is routed to where the first one was told to connect, and gives to
its egress the beginning of what the first one has received.
-/
import Pichi.SessionStream
import Pichi.ShadowsocksOpen

namespace Pichi

namespace Shadowsocks

open Transfer (Source Sink Answers readAll pop chunks)
open Session (Receiver Node receivedFrom givenTo bufferSize)
open Interleave

/-! ## The meaning of a connection -/

/-- The destination and the payload. -/
def meaning (c : Crypto) (p : Platform) (m : CryptoMethod) (pw bytes : Bytes) :
    Option (Endpoint × Bytes) :=
  match splitOff m.keySize bytes with
  | none => none
  | some (salt, bytes) =>
    match (parse_endpoint p).run (readAll (pop eof)) (openFrames c m (Cryptor.deriveKey c pw salt)
      (List.replicate m.nonceSize 0) bytes) with
    | (.ok e, q) => some (e, q.flatten)
    | (.error _, _) => none

/-! ## The ingress -/

/-- What `Completer` makes of an exception. -/
def complete : Fault → Fault
  | .thrown .invalidAuthenticationTag => .thrown (.systemError ⟨.pichi .cryptoError, ""⟩)
  | f => f

/-- The receiving half of the ingress. -/
def receiver (c : Crypto) (p : Platform) : Receiver (Shadowsocks → ReadEnv) Shadowsocks where
  read env s :=
    let (r, s) := readRemote c p env s
    -- the other protocols do not matter here
    (⟨.error eof, .error eof, r.mapError complete⟩, s)
  recv env s :=
    let (r, s) := doRead c (env s) bufferSize s
    (r.mapError complete, s)

section Relaying

variable {c : Crypto} {p : Platform} {m : CryptoMethod} {key pw own : Bytes}
  {src : Source UInt8} {output : Sink UInt8}

theorem eq_ok_of_mapError {α : Type} {r : Result α} {a : α} {g : Fault → Fault}
    (h : r.mapError g = .ok a) : r = .ok a := by
  cases r with
  | ok b => exact h
  | error f => cases h

/-- A chain of successful calls hands out the beginning of the queue. -/
theorem flatten_of_delivers (hc : c.InPlace) {s t : Shadowsocks} {q bufs : List Bytes}
    (hs : Carrying c m key s q) (h : (receiver c p).Delivers s bufs t) :
    ∃ q', Carrying c m key t q' ∧ q.flatten = bufs.flatten ++ q'.flatten := by
  induction h with
  | nil => exact ⟨q, hs, rfl⟩
  | concat h hrecv ih =>
      rename_i bufs buf env t u
      obtain ⟨q₁, hq₁, hflat⟩ := ih
      have hdo : doRead c (env t) bufferSize t = (.ok buf, u) := by
        have hfst := congrArg Prod.fst hrecv
        have hsnd := congrArg Prod.snd hrecv
        exact Prod.ext (eq_ok_of_mapError hfst) hsnd
      obtain ⟨q₂, hpop, hq₂⟩ := doRead_answers hc env t q₁ bufferSize buf u hq₁ hdo
      refine ⟨q₂, hq₂, ?_⟩
      rw [hflat, Transfer.flatten_of_pop hpop, List.flatten_append, List.flatten_singleton,
        List.append_assoc]

/-- What `read_remote` finds is in the meaning of the connection, and the rest of it is what the
reader carries then. -/
theorem meaning_of_readRemote (hc : c.InPlace) {env : Shadowsocks → ReadEnv} {e : Endpoint}
    {s : Shadowsocks} (h : readRemote c p env (make c m pw own true src output) = (.ok e, s)) :
    ∃ key q, meaning c p m pw src.all = some (e, q.flatten) ∧ Carrying c m key s q := by
  obtain ⟨salt, bytes, q, hall, hlen, hrun, hcarrying⟩ := readRemote_answers hc p env h
  refine ⟨_, q, ?_, hcarrying⟩
  rw [meaning, splitOff_eq_some_iff.mpr ⟨hall, hlen⟩]
  simp only [hrun]

section Node

variable {Context Socket : Type} {st : Session.Setting Context Socket} {socket : Socket}
  {n : Node Shadowsocks}

/-- The handshake of the ingress is the one of the stream. -/
theorem inlet_of_shadowsocks
    (h : createIngress st.platform st.library st.sha224 st.vo st.socket
      = .ok (.shadowsocks m pw socket)) : (Session.start st).inlet = .other := by
  rw [Session.start, h]
  rfl

/-- What the session finds, and what it receives after it, is in the meaning of the connection. -/
theorem meaning_of_read (hc : c.InPlace)
    (hingress : createIngress st.platform st.library st.sha224 st.vo st.socket
      = .ok (.shadowsocks m pw socket)) {env : Shadowsocks → ReadEnv} {peer : Endpoint}
    (hpeer : ((Session.start st).inlet.readRemote st.platform
      ((receiver c st.platform).read env (make c m pw own true src output)).1).1 = .ok peer) :
    ∃ payload, meaning c st.platform m pw src.all = some (peer, payload)
      ∧ ∀ bufs t, (receiver c st.platform).Delivers
          ((receiver c st.platform).read env (make c m pw own true src output)).2 bufs t →
        bufs.flatten <+: payload := by
  rw [inlet_of_shadowsocks hingress] at hpeer
  have hread : readRemote c st.platform env (make c m pw own true src output)
      = (.ok peer, ((receiver c st.platform).read env (make c m pw own true src output)).2) :=
    Prod.ext (eq_ok_of_mapError hpeer) rfl
  obtain ⟨key, q, hmeaning, hcarrying⟩ := meaning_of_readRemote hc hread
  refine ⟨q.flatten, hmeaning, fun bufs t hdelivers => ?_⟩
  obtain ⟨q', -, hflat⟩ := flatten_of_delivers hc hcarrying hdelivers
  rw [hflat]
  exact List.prefix_append _ _

/-- **A session does what the bytes say, and nothing else.**  For every configuration with a
Shadowsocks ingress, whatever arrives on its socket, in whatever segments, and wherever the socket
breaks: in every state of every run, the endpoint that is routed is the destination in the bytes,
and what the egress was given is the beginning of the payload in them. -/
theorem relays_meaning (hc : c.InPlace)
    (hingress : createIngress st.platform st.library st.sha224 st.vo st.socket
      = .ok (.shadowsocks m pw socket))
    (h : Reachable (Node.exec st (receiver c st.platform).breakable)
      (Node.start st (make c m pw own true src output)) n) :
    (∀ peer, n.session.point = .routing peer →
        ∃ payload, meaning c st.platform m pw src.all = some (peer, payload))
      ∧ (givenTo .egress n.session.log = [] ∨ ∃ peer payload,
        meaning c st.platform m pw src.all = some (peer, payload)
          ∧ (givenTo .egress n.session.log).flatten <+: payload) :=
  Node.relays (fun _ _ hpeer => meaning_of_read hc hingress hpeer) h

end Node

/-! ## The egress -/

/-- A `send` for every buffer. -/
def sendAll (c : Crypto) : List Bytes → Shadowsocks → Result Unit × Shadowsocks
  | [], s => (.ok (), s)
  | buf :: bufs, s =>
    match write c buf s with
    | (.error f, s) => (.error f, s)
    | (.ok (), s) => sendAll c bufs s

/-- `connect`, over a socket that is connected, and a `send` for every buffer. -/
def relay (c : Crypto) (p : Platform) (peer : Endpoint) (bufs : List Bytes) (s : Shadowsocks) :
    Result Unit × Shadowsocks :=
  match (serializeEndpoint p peer frameSize).lift with
  | .error f => (.error f, s)
  | .ok plain =>
    match doWrite c plain s with
    | (.error f, s) => (.error f, s)
    | (.ok _, s) => sendAll c bufs s

variable {salt ep : Bytes} {frames : List Bytes} {s : Shadowsocks}

/-- A buffer of a session is written in one call. -/
theorem write_of_le (hc : c.Sound) (h : Written c m key salt frames s) (hframes : frames ≠ [])
    {buf : Bytes} (hle : buf.length ≤ bufferSize) :
    (write c buf s).1 = .ok ()
      ∧ Written c m key salt (frames ++ chunks frameSize buf) (write c buf s).2 := by
  have hle' : buf.length ≤ 65536 := hle.trans (by decide)
  by_cases hbuf : buf = []
  · subst hbuf
    rw [Transfer.chunks_nil, List.append_nil]
    rcases h.stage with ⟨-, -, hnil⟩ | ⟨hsalt, -⟩
    · exact absurd hnil hframes
    · have hdo : doWrite c [] s = (.ok 0, s) := by
        simp [doWrite, hsalt, writeFrames]
      rw [writeAll_doWrite (by simpa using hdo)]
      exact ⟨rfl, h⟩
  · obtain ⟨s', hnext, hwrite⟩ := write_first hc h hbuf
    rw [List.take_of_length_le hle'] at hnext hwrite
    rw [if_pos (by omega)] at hwrite
    rw [hwrite]
    exact ⟨rfl, hnext⟩

theorem sendAll_spec (hc : c.Sound) (bufs : List Bytes) :
    ∀ {frames : List Bytes} {s : Shadowsocks}, Written c m key salt frames s → frames ≠ [] →
      (∀ buf ∈ bufs, buf.length ≤ bufferSize) →
      (sendAll c bufs s).1 = .ok ()
        ∧ Written c m key salt (frames ++ framesOf bufs) (sendAll c bufs s).2 := by
  induction bufs with
  | nil =>
      intro frames s h _ _
      exact ⟨rfl, by simpa [framesOf, sendAll] using h⟩
  | cons buf bufs ih =>
      intro frames s h hframes hle
      obtain ⟨hok, hnext⟩ := write_of_le hc h hframes (hle buf (by simp))
      have hrest := ih hnext (by simp [hframes]) fun x hx => hle x (by simp [hx])
      rw [sendAll]
      rcases hdo : write c buf s with ⟨r, s'⟩
      rw [hdo] at hok hrest
      simp only at hok hrest
      subst hok
      refine ⟨hrest.1, ?_⟩
      rw [framesOf, List.flatMap_cons, ← List.append_assoc]
      exact hrest.2

/-- What an egress has put on its socket. -/
theorem relay_spec (hc : c.Sound) {peer : Endpoint} {bufs : List Bytes} {input : Source UInt8}
    (hep : serializeEndpoint p peer frameSize = .ok ep)
    (hle : ∀ buf ∈ bufs, buf.length ≤ bufferSize) :
    (relay c p peer bufs (make c m pw salt false input Sink.healthy)).1 = .ok ()
      ∧ (relay c p peer bufs (make c m pw salt false input Sink.healthy)).2.output.sent
        = salt ++ (blocksOf c m (Cryptor.deriveKey c pw salt) (nonceOf m 0)
          (framesOf (ep :: bufs))).flatten := by
  have hne : ep ≠ [] := by
    have := length_of_serializeEndpoint hep
    rintro rfl
    rw [List.length_nil] at this
    split at this <;> omega
  obtain ⟨hok, hnext⟩ := doWrite_step hc (written_make (c := c) (m := m) pw salt false input) hne
  have hframes : chunks frameSize ep ≠ [] := by
    rw [Transfer.chunks_of_ne_nil (by decide) hne]
    simp
  rw [List.nil_append] at hnext
  have hrest := sendAll_spec hc bufs hnext hframes hle
  rw [relay, hep]
  simp only [Checked.lift]
  rcases hdo : doWrite c ep (make c m pw salt false input Sink.healthy) with ⟨r, s'⟩
  rw [hdo] at hok hrest
  simp only at hok hrest ⊢
  subst hok
  refine ⟨hrest.1, ?_⟩
  rw [flatten_blocksOf]
  rcases hrest.2.stage with ⟨-, -, hnil⟩ | ⟨-, hsent⟩
  · exact absurd hnil (by simp [hframes])
  · rw [hsent]
    rfl

/-! ## Two sessions -/

/-- What the bytes say when nobody has forged a block. -/
theorem meaning_of_unforged (hc : c.Sound) (hp : p.AddressText) {peer e : Endpoint}
    {bufs : List Bytes} {bytes payload : Bytes}
    (hep : serializeEndpoint p e frameSize = .ok ep)
    (hunforged : Unforged c m pw salt (framesOf (ep :: bufs)) bytes)
    (h : meaning c p m pw bytes = some (peer, payload)) :
    SameEndpoint p e peer ∧ payload <+: bufs.flatten := by
  unfold meaning at h
  split at h
  · cases h
  · rename_i salt' bytes' hsplit
    obtain ⟨rfl, hlen⟩ := splitOff_eq_some_iff.mp hsplit
    have hprefix := openFrames_of_unforged hc (fun x hx => (of_mem_framesOf x hx).2) hlen hunforged
    split at h
    · rename_i e' q hrun
      cases h
      have hflat : (framesOf (ep :: bufs)).flatten = ep ++ bufs.flatten := by
        rw [flatten_framesOf, List.flatten_cons]
      have hsolid : Transfer.Solid ep.length (framesOf (ep :: bufs)) := by
        intro before x after heq _
        exact (of_mem_framesOf x (by rw [heq]; simp)).1
      obtain ⟨e', q', hrun', hrest, hsame⟩ := parse_of_solid hp hep hflat hsolid
      -- the decoder does on the frames of the writer what it does on the first ones of them
      obtain ⟨q'', hrun'', hq⟩ := (Transfer.answers_pop.readAll).run (parse_endpoint p)
        _ _ _ _ hprefix hrun
      rw [hrun'] at hrun''
      cases hrun''
      refine ⟨hsame, ?_⟩
      rw [← hrest]
      exact hq.flatten
    · cases h

section TwoSessions

variable {Context Socket : Type} {stA stB : Session.Setting Context Socket} {socket : Socket}
  {a : Session.State} {n : Node Shadowsocks} {e : Endpoint}

/-- **Two sessions with the Shadowsocks protocol between them.**  The first session is in any
state of any run, and its egress was told to connect to `e`; the second one has any bytes in front
of it in which nobody else has forged a block.  Then it is routed to `e`, and its egress was given
the beginning of what the ingress of the first session has received. -/
theorem relays_unforged (hc : c.Sound) (hc' : c.InPlace) (hp : stB.platform.AddressText)
    (hclient : Reachable (Session.exec stA) (Session.start stA) a)
    (hep : serializeEndpoint stB.platform e frameSize = .ok ep)
    (hingress : createIngress stB.platform stB.library stB.sha224 stB.vo stB.socket
      = .ok (.shadowsocks m pw socket))
    (hserver : Reachable (Node.exec stB (receiver c stB.platform).breakable)
      (Node.start stB (make c m pw own true src output)) n)
    (hunforged : Unforged c m pw salt (framesOf (ep :: givenTo .egress a.log)) src.all) :
    (relay c stB.platform e (givenTo .egress a.log)
        (make c m pw salt false Source.ended Sink.healthy)).2.output.sent
      = salt ++ (blocksOf c m (Cryptor.deriveKey c pw salt) (nonceOf m 0)
        (framesOf (ep :: givenTo .egress a.log))).flatten
      ∧ (∀ peer, n.session.point = .routing peer → SameEndpoint stB.platform e peer)
      ∧ (givenTo .egress n.session.log).flatten <+: (receivedFrom .ingress a.log).flatten := by
  obtain ⟨b, hcarried, -⟩ := Session.exists_carried hclient .up
  have hgiven : givenTo .egress a.log <+: receivedFrom .ingress a.log := hcarried.given
  have hle : ∀ buf ∈ givenTo .egress a.log, buf.length ≤ bufferSize :=
    fun buf hbuf => hcarried.bounded buf (hgiven.subset hbuf)
  refine ⟨(relay_spec hc hep hle).2, ?_⟩
  have hrelays : (∀ peer, n.session.point = .routing peer →
        ∃ payload, meaning c stB.platform m pw src.all = some (peer, payload))
      ∧ (givenTo .egress n.session.log = [] ∨ ∃ peer payload,
        meaning c stB.platform m pw src.all = some (peer, payload)
          ∧ (givenTo .egress n.session.log).flatten <+: payload) :=
    Node.relays (fun _ _ hpeer => meaning_of_read hc' hingress hpeer) hserver
  obtain ⟨hrouting, hgivenB⟩ := hrelays
  constructor
  · intro peer hpoint
    obtain ⟨payload, hmeaning⟩ := hrouting peer hpoint
    exact (meaning_of_unforged hc hp hep hunforged hmeaning).1
  · rcases hgivenB with hnil | ⟨peer, payload, hmeaning, hpayload⟩
    · rw [hnil]
      exact List.nil_prefix
    · calc (givenTo .egress n.session.log).flatten
          <+: payload := hpayload
        _ <+: (givenTo .egress a.log).flatten :=
          (meaning_of_unforged hc hp hep hunforged hmeaning).2
        _ <+: (receivedFrom .ingress a.log).flatten := hgiven.flatten

end TwoSessions

end Relaying

/-! ## A client and a server -/

namespace Example

def salt : Bytes := lit "0123456789abcdef"

/-- The key of this salt and the password `pw`. -/
def key : Bytes := [124, 155, 186, 217, 248, 23, 54, 85, 116, 147, 178, 209, 240, 15, 46, 77]

/-- `127.0.0.1:80`. -/
def destination : Bytes := [1, 127, 0, 0, 1, 0, 80]

/-- What a client sends that wants to say `hi` there. -/
def sent : Bytes :=
  [48, 49, 50, 51, 52, 53, 54, 55, 56, 57, 97, 98, 99, 100, 101, 102, 248, 126, 126, 191, 0, 65,
    130, 195, 4, 69, 134, 199, 8, 73, 138, 203, 12, 77, 86, 167, 89, 218, 90, 220, 13, 162, 1, 96,
    191, 30, 125, 220, 59, 154, 249, 88, 183, 22, 117, 212, 51, 182, 53, 117, 182, 247, 56, 121,
    186, 251, 60, 125, 190, 255, 64, 129, 194, 3, 68, 125, 255, 247, 56, 121, 186, 251, 60, 125,
    190, 255, 64, 129, 194, 3, 68, 133, 198]

theorem sent_eq :
    sent = salt ++ wire Reference.crypto .aes128Gcm key (List.replicate 12 0)
      [destination, lit "hi"] := by
  decide +kernel

theorem sent_ne_nil : sent ≠ [] := by simp [sent]

/-- All of it in one segment. -/
def source : Source UInt8 := ⟨[sent], by simp [sent_ne_nil]⟩

theorem deriveKey_eq : Cryptor.deriveKey Reference.crypto (lit "pw") salt = key := by
  decide +kernel

/-- A Shadowsocks ingress, and a router that sends everything to a direct egress. -/
def server : Session.Setting Unit Unit where
  platform := Reference.platform
  library := bareLibrary
  sha224 := Session.Example.setting.sha224
  mmdb := none
  router := ⟨[], (lit "*", lit "direct", { type := .direct })⟩
  vo := { type := .ss, opt := some (.ss { password := lit "pw", method := .aes128Gcm }) }
  socket := ()

theorem createIngress_server :
    createIngress server.platform server.library server.sha224 server.vo server.socket
      = .ok (.shadowsocks .aes128Gcm (lit "pw") ()) := rfl

/-- The stream below its ingress. -/
def stream : Shadowsocks :=
  make Reference.crypto .aes128Gcm (lit "pw") [] true source Sink.healthy

theorem parse_destination : (parse_endpoint Reference.platform).run (readAll (pop eof))
    [destination, lit "hi"] = (.ok ⟨.ipv4, lit "127.0.0.1", 80⟩, [lit "hi"]) := by
  have htag : readAll (pop eof) [destination, lit "hi"] 1
      = (.ok [1], [[127, 0, 0, 1, 0, 80], lit "hi"]) :=
    Transfer.readAll_of_end rfl (Or.inr (by decide))
  have haddress : readAll (pop eof) [[127, 0, 0, 1, 0, 80], lit "hi"] 6
      = (.ok [127, 0, 0, 1, 0, 80], [lit "hi"]) :=
    Transfer.readAll_of_end rfl (Or.inr (by decide))
  rw [parse_endpoint, Transfer.Reader.run_read_of_ok htag]
  refine (Transfer.Reader.run_read_of_ok haddress).trans ?_
  rfl

/-- The server reads the destination. -/
theorem read_stream :
    ∃ s, (receiver Reference.crypto server.platform).breakable.read (.inl fun _ => {}) stream
        = (⟨.error eof, .error eof, .ok ⟨.ipv4, lit "127.0.0.1", 80⟩⟩, s)
      ∧ Framing Reference.crypto .aes128Gcm
        (Cryptor.deriveKey Reference.crypto (lit "pw") salt) s [lit "hi"] := by
  have hall : source.all = salt ++ wire Reference.crypto .aes128Gcm
      (Cryptor.deriveKey Reference.crypto (lit "pw") salt)
      (List.replicate CryptoMethod.aes128Gcm.nonceSize 0) [destination, lit "hi"] := by
    rw [deriveKey_eq]
    exact List.flatten_singleton.trans sent_eq
  have henv : ∀ s, ((fun _ => {} : Shadowsocks → ReadEnv) s).replayed = false := fun _ => rfl
  obtain ⟨r, s, q, hremote, hrun, hframing⟩ := readRemote_eq Reference.platform [] true
    Sink.healthy Reference.crypto_sound rfl (by decide) hall henv
  rw [parse_destination] at hrun
  cases hrun
  refine ⟨s, ?_, hframing⟩
  show (receiver Reference.crypto Reference.platform).read (fun _ => {}) stream = _
  simp only [receiver, stream, hremote, Except.mapError]

/-- The server relays the payload. -/
theorem reachable_server :
    ∃ n, Reachable (Node.exec server (receiver Reference.crypto server.platform).breakable)
        (Node.start server stream) n
      ∧ givenTo .egress n.session.log = [lit "hi"] := by
  obtain ⟨s₁, hfirst, hframing⟩ := read_stream
  obtain ⟨s₂, hread, -⟩ := doRead_pop Reference.crypto_sound hframing {} bufferSize
  have hsecond : (receiver Reference.crypto server.platform).breakable.recv (.inl fun _ => {}) s₁
      = (.ok (lit "hi"), s₂) := by
    show (receiver Reference.crypto Reference.platform).recv (fun _ => {}) s₁ = _
    simp only [receiver, hread]
    rfl
  have hstart : Reachable (Node.exec server (receiver Reference.crypto server.platform).breakable)
      (Node.start server stream) (Node.start server stream) := .refl
  have helse : ∀ e ∈ [Session.Event.route (.ok []), .finish (.ok ()), .finish (.ok ())],
      e.elsewhere = true := by simp [Session.Event.elsewhere]
  have hothers := Node.reachable_others (Node.reachable_read hstart hfirst rfl) helse rfl
  exact ⟨_, Node.reachable_receive hothers hsecond rfl, rfl⟩

theorem framesOf_sent : framesOf [destination, lit "hi"] = [destination, lit "hi"] := by
  have hone : ∀ {x : Bytes}, x ≠ [] → x.length ≤ frameSize → chunks frameSize x = [x] := by
    intro x hx hle
    rw [Transfer.chunks_of_ne_nil (by decide) hx, List.take_of_length_le hle,
      List.drop_of_length_le hle, Transfer.chunks_nil]
  have hdestination : chunks frameSize destination = [destination] := hone (by decide) (by decide)
  have hpayload : chunks frameSize (lit "hi") = [lit "hi"] := hone (by decide) (by decide)
  rw [framesOf, List.flatMap_cons, List.flatMap_cons, hdestination, hpayload]
  rfl

/-- The client has sealed all that verifies. -/
theorem unforged_sent :
    Unforged Reference.crypto .aes128Gcm (lit "pw") salt [destination, lit "hi"] sent := by
  have hsalt : sent.take CryptoMethod.aes128Gcm.keySize = salt := rfl
  -- a block that has its length begins at one of the first 76 places
  have hcheck : ∀ j < 5, ∀ i < 76,
      (openBlock Reference.crypto .aes128Gcm key (nonceOf .aes128Gcm j)
        ((sent.drop i).take (blockLength [destination, lit "hi"] j))).isSome →
      (blocksOf Reference.crypto .aes128Gcm key (nonceOf .aes128Gcm 0) [destination, lit "hi"])[j]?
        = some ((sent.drop i).take (blockLength [destination, lit "hi"] j)) := by
    decide +kernel
  rintro j block hj ⟨before, after, hblock⟩ hlen hsome
  rw [hsalt, deriveKey_eq] at hsome
  rw [hsalt, deriveKey_eq]
  refine ⟨rfl, ?_⟩
  have htake : (sent.drop before.length).take (blockLength [destination, lit "hi"] j) = block := by
    rw [← hblock, List.append_assoc, List.drop_left, ← hlen, List.take_left]
  have hplace : before.length < 76 := by
    have hle : 18 ≤ block.length := by
      rw [hlen, blockLength]
      split
      · decide
      · have : j = 1 ∨ j = 3 := by
          simp only [List.length_cons, List.length_nil] at hj
          omega
        rcases this with rfl | rfl <;> decide
    have htotal := congrArg List.length hblock
    rw [List.length_append, List.length_append, show sent.length = 93 from rfl] at htotal
    omega
  have hnext := hcheck j (by simp only [List.length_cons, List.length_nil] at hj; omega)
    before.length hplace
  rw [htake] at hnext
  exact hnext hsome

end Example

theorem relays_meaning_example :
    ∃ n, Reachable (Node.exec Example.server
          (receiver Reference.crypto Example.server.platform).breakable)
        (Node.start Example.server Example.stream) n
      ∧ givenTo .egress n.session.log = [lit "hi"]
      ∧ ∃ peer payload, meaning Reference.crypto Reference.platform .aes128Gcm (lit "pw")
          Example.source.all = some (peer, payload)
        ∧ (givenTo .egress n.session.log).flatten <+: payload := by
  obtain ⟨n, hn, hgiven⟩ := Example.reachable_server
  refine ⟨n, hn, hgiven, ?_⟩
  rcases (relays_meaning reference_inPlace Example.createIngress_server hn).2 with hnil | h
  · rw [hgiven] at hnil
    cases hnil
  · exact h

theorem relays_unforged_example :
    ∃ a n,
      Reachable (Session.exec Session.Example.setting) (Session.start Session.Example.setting) a
      ∧ Reachable (Node.exec Example.server
          (receiver Reference.crypto Example.server.platform).breakable)
        (Node.start Example.server Example.stream) n
      ∧ Example.source.all = (relay Reference.crypto Reference.platform
          ⟨.ipv4, lit "127.0.0.1", 80⟩ (givenTo .egress a.log) (make Reference.crypto .aes128Gcm
            (lit "pw") Example.salt false Source.ended Sink.healthy)).2.output.sent
      ∧ givenTo .egress n.session.log = [lit "hi"]
      ∧ (givenTo .egress n.session.log).flatten <+: (receivedFrom .ingress a.log).flatten := by
  obtain ⟨n, hn, hgiven⟩ := Example.reachable_server
  have hexec : run (Session.exec Session.Example.setting) (Session.start Session.Example.setting)
      Session.Example.relay = some _ := rfl
  have hclient := Reaches.of_run .refl hexec
  have hep : serializeEndpoint Example.server.platform ⟨.ipv4, lit "127.0.0.1", 80⟩ frameSize
      = .ok Example.destination := by decide
  obtain ⟨hsent, -, hrelayed⟩ := relays_unforged Reference.crypto_sound reference_inPlace
    Reference.platform_addressText hclient hep Example.createIngress_server hn
    (by
      show Unforged _ _ _ _ (framesOf [Example.destination, lit "hi"]) Example.source.all
      rw [Example.framesOf_sent, show Example.source.all = Example.sent from List.flatten_singleton]
      exact Example.unforged_sent)
  refine ⟨_, n, hclient, hn, ?_, hgiven, hrelayed⟩
  refine Eq.trans ?_ hsent.symm
  show Example.source.all
    = _ ++ (blocksOf _ _ _ _ (framesOf [Example.destination, lit "hi"])).flatten
  rw [Example.framesOf_sent, flatten_blocksOf, Example.deriveKey_eq]
  exact List.flatten_singleton.trans Example.sent_eq

end Shadowsocks

end Pichi
