/-
# Sessions over Trojan

Sessions whose ingress is `TrojanIngress`, in front of any bytes.

A client that does not begin with the hash of a password is sent to the fallback, with everything it
has sent: it sees what it would see if there were no proxy.  Such a client is found out by the first
read, which goes to the place of the cache where it is committed, so that none of the reads that go
astray is made.

`relays_by_password`: in every run, a client that does not greet is routed to the fallback or not at
all, and the egress is given the beginning of what the client has sent; and a client whose request
is covered by the first two reads, and whose hash and CRLF by the first, is routed to where it asks
for, and the egress is given the beginning of its payload.  A socket that breaks during
`read_remote` is a stream that ends there.
-/
import Pichi.SessionStream
import Pichi.TrojanThirdRead

namespace Pichi

namespace Trojan

open Interleave
open Session (Receiver Node receivedFrom givenTo bufferSize)
open Transfer

namespace Ingress

/-! ## Clients that do not greet -/

section Strangers

variable {p : Platform} {s s' : Ingress} {memory : Memory} {e : Endpoint}

/-- A client that begins with a piece that greets, greets. -/
theorem greets_append {passwords : List Bytes} {piece rest : Bytes} (h : Greets passwords piece) :
    Greets passwords (piece ++ rest) := by
  have hlen := h.1
  refine greets_of_take ?_ ?_ h
  · rw [List.length_append]
    omega
  · rw [List.take_append_of_le_length hlen]

/-- A request is accepted only from a client that greets. -/
theorem greets_of_parseRequest (hcache : s.cache = Cache.make memory)
    (h : parseRequest p s = (.ok e, s')) : Greets s.passwords s.underlying.all := by
  rcases hpieces : s.underlying.pieces with _ | ⟨piece, rest⟩
  · -- nothing can be read
    have hempty : s.cache.size = 0 := by
      rw [hcache]
      rfl
    have hroom : 0 < s.cache.available.size := by
      rw [hcache]
      exact Nat.zero_lt_succ _
    have heof := readFrom_of_eof (n := 1) (by omega) hroom
      (Source.readSome_eq_none_iff.mpr ⟨hroom, (Source.all_eq_nil_iff _).mpr hpieces⟩)
    rw [parseRequest_of_error p heof] at h
    cases h
  · have hall : s.underlying.all = [] ++ s.underlying.all := rfl
    obtain ⟨s₁, hread, hup, htaken, -, hpasswords⟩ :=
      upcoming_of_first_read hcache hall hpieces (Nat.zero_le _) (Nat.zero_le _)
    have hcontent := hup.ahead.content
    rw [List.nil_append] at hcontent
    rw [← hcontent, ← hpasswords]
    apply greets_append
    by_contra hnot
    obtain ⟨x, n, -, herror⟩ :=
      (parseRequest_of_readFrom p hread hup.ahead.first_eq htaken).2 hnot
    rw [herror] at h
    cases h

theorem giveUp_eq_ok {f : Fault} (h : giveUp f s = (.ok e, s')) :
    s.fallback = true ∧ e = s.remote := by
  unfold giveUp at h
  split at h
  · rename_i hfallback
    cases h
    exact ⟨hfallback, rfl⟩
  · cases h

/-- **A client that does not greet** is sent to the fallback, with everything it has sent. -/
theorem readRemote_of_stranger (hcache : s.cache = Cache.make memory)
    (hstranger : ¬Greets s.passwords s.underlying.all) {accepted : Result Unit}
    (h : readRemote p accepted s = (.ok e, s')) :
    (s.fallback = true ∧ e = s.remote) ∧ s'.cache.taken = 0 ∧ pending s' = s.underlying.all := by
  have hfirst : s.cache.first = 0 := by rw [hcache]; rfl
  have htaken : s.cache.taken = 0 := by rw [hcache]; rfl
  have hlast : s.cache.last = 0 := by rw [hcache]; rfl
  rcases accepted with f | ⟨⟩
  · -- the layer below was not accepted, and nothing was read
    have hgive : giveUp f s = (.ok e, s') := by
      rw [← h]
      exact (tryCatch_of_error (bind_of_error rfl)).symm
    obtain ⟨htaken', hpending⟩ := pending_giveUp hfirst hgive
    refine ⟨giveUp_eq_ok hgive, htaken', ?_⟩
    rw [hpending, hlast]
    rfl
  · rcases hparse : parseRequest p s with ⟨f | e', s₁⟩
    · have hgive : giveUp f s₁ = (.ok e, s') := by rw [← h, readRemote_of_error hparse]
      have hsettled : Settled p s.passwords s.underlying.pieces := by
        unfold Settled
        split
        · rename_i piece second third rest hpieces
          intro hgreets
          refine absurd ?_ hstranger
          rw [Source.all, hpieces, List.flatten_cons]
          exact greets_append hgreets
        · trivial
      have hintact := intact_of_settled (p := p) hcache hsettled
      rw [hparse] at hintact
      have hconfig := (lasting_config s.remote s.fallback).parseRequest p ⟨rfl, rfl⟩ hfirst htaken
      rw [hparse] at hconfig
      obtain ⟨hremote, hfallback⟩ : s₁.remote = s.remote ∧ s₁.fallback = s.fallback := hconfig
      obtain ⟨hback, he⟩ := giveUp_eq_ok hgive
      obtain ⟨htaken', hpending⟩ := pending_giveUp hintact.1 hgive
      refine ⟨⟨hfallback ▸ hback, he.trans hremote⟩, htaken', ?_⟩
      rw [hpending]
      exact hintact.2
    · exact absurd (greets_of_parseRequest hcache hparse) hstranger

end Strangers

/-- **A covered request** is sent to where it asks for, with its payload. -/
theorem readRemote_of_covered {p : Platform} (hp : p.AddressText) {s s' : Ingress} {memory : Memory}
    {e e' : Endpoint} {size : ℕ} {hash ep payload piece : Bytes} {rest : List Bytes}
    (hep : serializeEndpoint p e size = .ok ep) (hcache : s.cache = Cache.make memory)
    (hall : s.underlying.all = request hash ep ++ payload)
    (hpieces : s.underlying.pieces = piece :: rest) (hpiece : 58 ≤ piece.length)
    (hcover : (request hash ep).length ≤ (s.underlying.pieces.take 2).flatten.length)
    (hhash : hash.length = 56) (hknown : hash ∈ s.passwords)
    (h : readRemote p (.ok ()) s = (.ok e', s')) :
    SameEndpoint p e e' ∧ s'.cache.taken = 0 ∧ pending s' = payload := by
  have hr : (request hash ep).length ≤ capacity := by
    have hle := length_serializeEndpoint_le hep
    rw [length_request hhash]
    show 61 + ep.length ≤ 512
    omega
  obtain ⟨e₁, s₁, hparse, hsame, hpending⟩ :=
    parseRequest_of_covered hp hep hcache hall hpieces hpiece hr hcover hhash hknown
  rw [readRemote_of_ok hparse] at h
  cases h
  exact ⟨hsame, rfl, hpending⟩

end Ingress

/-! ## Sessions -/

section Relaying

variable {Context Socket : Type}

/-- The layers for which a failure is answered by the fallback. -/
def fallsBack : Layer Context Socket → Bool
  | .tls _ _ => true
  | _ => false

/-- The receiving half of the ingress; `accepted` is what accepting the layer below answers. -/
def receiver (p : Platform) (accepted : Result Unit) : Receiver Unit Ingress where
  read _ s :=
    let (r, s) := Ingress.readRemote p accepted s
    -- the other protocols do not matter here
    (⟨.error Ingress.eof, .error Ingress.eof, r⟩, s)
  recv _ s := Ingress.recv bufferSize s

/-- The client sends a request for `ep` and then `payload`; the first read has at least the 58 bytes
of the hash and CRLF, and the first two reads cover the request.  A first read that is shorter ends
in `BAD_PROTO`, whatever the second one has. -/
def Covers (src : Source UInt8) (hash ep payload : Bytes) : Prop :=
  src.all = Ingress.request hash ep ++ payload
    ∧ (∃ piece rest, src.pieces = piece :: rest ∧ 58 ≤ piece.length)
    ∧ (Ingress.request hash ep).length ≤ (src.pieces.take 2).flatten.length

variable {st : Session.Setting Context Socket} {n : Node Ingress}
  {underlying : Layer Context Socket} {cred : TrojanIngressCredential} {opt : TrojanOption}
  {memory : Memory} {src : Source UInt8} {accepted : Result Unit}

/-- The session takes what `read_remote` returns. -/
theorem readRemote_of_read {s : Ingress} {peer : Endpoint} {passwords : List Bytes}
    {remote : Endpoint}
    (hingress : createIngress st.platform st.library st.sha224 st.vo st.socket
      = .ok (.trojan passwords remote underlying))
    (h : ((Session.start st).inlet.readRemote st.platform
      ((receiver st.platform accepted).read () s).1).1 = .ok peer) :
    Ingress.readRemote st.platform accepted s
      = (.ok peer, ((receiver st.platform accepted).read () s).2) := by
  rw [Session.start, hingress] at h
  exact Prod.ext h rfl

/-- A session of which `Says` is known when `read_remote` has succeeded. -/
theorem relays_of_readRemote {s : Ingress} {passwords : List Bytes} {remote : Endpoint}
    (hingress : createIngress st.platform st.library st.sha224 st.vo st.socket
      = .ok (.trojan passwords remote underlying)) {Says : Endpoint → Prop} {payload : Bytes}
    (hfound : ∀ peer s', Ingress.readRemote st.platform accepted s = (.ok peer, s') →
      Says peer ∧ s'.cache.taken = 0 ∧ Ingress.pending s' = payload)
    (h : Reachable (Node.exec st (receiver st.platform accepted).breakable) (Node.start st s) n) :
    (∀ peer, n.session.point = .routing peer → Says peer)
      ∧ (givenTo .egress n.session.log).flatten <+: payload := by
  have hrelays : (∀ peer, n.session.point = .routing peer → ∃ w, Says peer ∧ w = payload)
      ∧ (givenTo .egress n.session.log = [] ∨ ∃ peer w, (Says peer ∧ w = payload)
        ∧ (givenTo .egress n.session.log).flatten <+: w) := by
    refine Node.relays (fun env peer hpeer => ?_) h
    obtain ⟨hpeer', htaken, hpending⟩ := hfound _ _ (readRemote_of_read hingress hpeer)
    refine ⟨payload, ⟨hpeer', rfl⟩, fun bufs t hdelivers => ?_⟩
    rw [← hpending, (hdelivers.of_drains Ingress.drains (fun _ _ => rfl) htaken).2]
    exact List.prefix_append _ _
  refine ⟨fun peer hpoint => ?_, ?_⟩
  · obtain ⟨-, hpeer, -⟩ := hrelays.1 peer hpoint
    exact hpeer
  · rcases hrelays.2 with hnil | ⟨-, w, ⟨-, rfl⟩, hgiven⟩
    · rw [hnil]
      exact List.nil_prefix
    · exact hgiven

/-- **Passwords decide.**  Whatever arrives at a session with a Trojan ingress, in whatever
segments, and in every state of every run: if the client does not begin with the hash of a password,
then it is routed to the fallback or not at all, and the egress was given the beginning of what the
client has sent; and if it sends a request that the first two reads cover, of which the first has at
least 58 bytes, then it is routed to the endpoint of the request, and the egress was given the
beginning of the payload. -/
theorem relays_by_password (hp : st.platform.AddressText)
    (hingress : createIngress st.platform st.library st.sha224 st.vo st.socket
      = .ok (.trojan (cred.credential.keys.map fun pw => (st.sha224 pw).1) opt.remote underlying))
    (h : Reachable (Node.exec st (receiver st.platform accepted).breakable)
      (Node.start st (Ingress.make st.sha224 cred opt (fallsBack underlying) memory src)) n) :
    (¬Ingress.Greets (cred.credential.keys.map fun pw => (st.sha224 pw).1) src.all →
        (∀ peer, n.session.point = .routing peer →
          fallsBack underlying = true ∧ peer = opt.remote)
        ∧ (givenTo .egress n.session.log).flatten <+: src.all)
      ∧ ∀ pw ∈ cred.credential.keys, ∀ e size ep payload,
        serializeEndpoint st.platform e size = .ok ep →
        Covers src (st.sha224 pw).1 ep payload → accepted = .ok () →
        (∀ peer, n.session.point = .routing peer → SameEndpoint st.platform e peer)
          ∧ (givenTo .egress n.session.log).flatten <+: payload := by
  constructor
  · intro hstranger
    refine relays_of_readRemote hingress (fun peer s' hread => ?_) h
    exact Ingress.readRemote_of_stranger rfl hstranger hread
  · rintro pw hpw e size ep payload hep ⟨hall, ⟨piece, rest, hpieces, hpiece⟩, hcover⟩ rfl
    refine relays_of_readRemote hingress (fun peer s' hread => ?_) h
    exact Ingress.readRemote_of_covered hp hep rfl hall hpieces hpiece hcover (st.sha224 pw).2
      (List.mem_map.mpr ⟨pw, hpw, rfl⟩) hread

end Relaying

/-! ### A stranger and a client -/

namespace Example

/-- The password `pw`. -/
def cred : TrojanIngressCredential := ⟨[⟨lit "pw", ()⟩].toAList⟩

def opt : TrojanOption := ⟨⟨.ipv4, lit "127.0.0.1", 80⟩⟩

/-- A Trojan ingress over TLS. -/
def setting : Session.Setting Unit Unit :=
  { Session.Example.setting with
    library := { bareLibrary with serverContext := fun _ _ => .ok () }
    sha224 := fun _ => ⟨Ingress.Example.hash, Ingress.Example.length_hash⟩
    vo := {
      type := .trojan
      credential := some (.trojan cred)
      opt := some (.trojan opt)
      tls := some ⟨[], []⟩ } }

theorem createIngress_setting :
    createIngress setting.platform setting.library setting.sha224 setting.vo setting.socket
      = .ok (.trojan (cred.credential.keys.map fun pw => (setting.sha224 pw).1) opt.remote
        (.tls () ())) := rfl

/-- A client that is no Trojan client. -/
def stranger : Source UInt8 :=
  ⟨[lit "GET / ", lit "HTTP/1.1", Ingress.crlf, Ingress.crlf], by decide⟩

/-- A request in two pieces. -/
def client : Source UInt8 :=
  ⟨[Ingress.Example.stream.take 58, Ingress.Example.stream.drop 58], by decide⟩

def events : List (Session.NodeEvent (Unit ⊕ Fault × Ingress)) :=
  [.read (.inl ()), .other (.route (.ok [])), .other (.finish (.ok ())), .other (.finish (.ok ())),
    .receive (.inl ())]

/-- The session in front of a stream, with a cache that holds zeroes. -/
def start (src : Source UInt8) : Node Ingress :=
  Node.start setting (Ingress.make setting.sha224 cred opt true (fun _ => 0) src)

end Example

theorem relays_by_password_example :
    (∃ n, Reachable (Node.exec Example.setting (receiver Reference.platform (.ok ())).breakable)
          (Example.start Example.stranger) n
        ∧ givenTo .egress n.session.log = [lit "GET / "]
        ∧ (givenTo .egress n.session.log).flatten <+: Example.stranger.all)
      ∧ ∃ n, Reachable (Node.exec Example.setting (receiver Reference.platform (.ok ())).breakable)
          (Example.start Example.client) n
        ∧ givenTo .egress n.session.log = [lit "hello"]
        ∧ (givenTo .egress n.session.log).flatten <+: lit "hello" := by
  have hp : Example.setting.platform.AddressText := Reference.platform_addressText
  constructor
  · have hrun : (run (Node.exec Example.setting (receiver Reference.platform (.ok ())).breakable)
        (Example.start Example.stranger) Example.events).any
          (fun n => decide (givenTo .egress n.session.log = [lit "GET / "])) = true := by
      decide +kernel
    obtain ⟨n, hn, hgiven⟩ := exists_reachable_of_run hrun
    refine ⟨n, hn, hgiven, ?_⟩
    refine ((relays_by_password hp Example.createIngress_setting hn).1 ?_).2
    exact fun hgreets => absurd hgreets.1 (by decide)
  · have hrun : (run (Node.exec Example.setting (receiver Reference.platform (.ok ())).breakable)
        (Example.start Example.client) Example.events).any
          (fun n => decide (givenTo .egress n.session.log = [lit "hello"])) = true := by
      decide +kernel
    obtain ⟨n, hn, hgiven⟩ := exists_reachable_of_run hrun
    have hep : serializeEndpoint Reference.platform Ingress.Example.endpoint 259
        = .ok (3 :: 11 :: (lit "example.com" ++ [1, 187])) := by decide
    refine ⟨n, hn, hgiven, ?_⟩
    refine ((relays_by_password hp Example.createIngress_setting hn).2 (lit "pw") (by decide) _ _ _
      _ hep ?_ rfl).2
    exact ⟨by decide +kernel, ⟨_, _, rfl, by decide⟩, by decide⟩

end Trojan

end Pichi
