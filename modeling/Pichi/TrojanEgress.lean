/-
# The Trojan egress and the ingress at its other end

`TrojanEgress::connect` puts the request together in an array of 512 bytes: the hash of the
password, the command, the endpoint, which is given a window of 259 bytes, and the end of the
line.  The model keeps the array and the iterator into it; a write beyond the end of the array,
or a window that reaches beyond it, is undefined behaviour.

`Ingress.make` has a flag for the layers over which a failure is answered by the fallback: these
are TLS and the socket of the tests.  Over a websocket `read_remote` passes the failure on.

**Main result** (`egress_agrees`): `connect` stays inside of its array; an ingress that gets the
request of an endpoint in its first read returns that endpoint and hands out the payload, if it
knows the password; if it does not know the hash, it returns the fallback endpoint where the
layer has one, and fails otherwise.
-/
import Pichi.TrojanThirdRead

namespace Pichi

open Transfer (Source bind_of_ok bind_of_error bind_get)

namespace Trojan

/-! ## The egress -/

/-- `std::array<uint8_t, 512>` and the iterator `it` into it. -/
structure Scratch where
  bytes : Bytes
  it : ℕ

namespace Scratch

/-- The array is zero at first. -/
def fresh : Scratch := ⟨List.replicate 512 0, 0⟩

/-- `it = rngs::copy(w, it).out`. -/
def copy (w : Bytes) (b : Scratch) : Result Scratch :=
  if b.it + w.length ≤ b.bytes.length then
    .ok ⟨b.bytes.take b.it ++ (w ++ b.bytes.drop (b.it + w.length)), b.it + w.length⟩
  else .error .undefinedBehaviour

/-- `it += serializeEndpoint(remote, {it, n})`. -/
def serialize (p : Platform) (remote : Endpoint) (n : ℕ) (b : Scratch) : Result Scratch :=
  if b.it + n ≤ b.bytes.length then do
    b.copy (← (serializeEndpoint p remote n).lift)
  else .error .undefinedBehaviour

end Scratch

/-- `TrojanEgress<NextLayer>`, without the layer. -/
structure Egress where
  cred : Bytes
  peer : Endpoint

namespace Egress

/-- The constructor. -/
def make (sha224 : Bytes → Digest) (cred : TrojanEgressCredential) (server : Endpoint) : Egress :=
  ⟨(sha224 cred.credential).1, server⟩

/-- `connect`: what is written to the layer below, after it was connected to `peer_`. -/
def connect (p : Platform) (connected : Checked Unit) (remote : Endpoint) (s : Egress) :
    Result Bytes := do
  connected.lift
  let b ← Scratch.fresh.copy s.cred
  let b ← b.copy (Ingress.crlf ++ [1])
  let b ← b.serialize p remote 259
  let b ← b.copy Ingress.crlf
  return b.bytes.take b.it

end Egress

/-! ## What the egress writes -/

namespace Scratch

/-- What has been written so far. -/
structure Wrote (v : Bytes) (b : Scratch) : Prop where
  length_bytes : b.bytes.length = 512
  it_eq : b.it = v.length
  take_it : b.bytes.take b.it = v

variable {b : Scratch} {v w : Bytes}

theorem wrote_fresh : Wrote [] fresh := ⟨List.length_replicate, rfl, rfl⟩

theorem Wrote.copy (h : Wrote v b) (hw : v.length + w.length ≤ 512) :
    ∃ b', b.copy w = .ok b' ∧ Wrote (v ++ w) b' := by
  obtain ⟨hlength, hit, htake⟩ := h
  rw [hit] at htake
  refine ⟨_, by rw [Scratch.copy, if_pos (by omega)], ?_, ?_, ?_⟩
  · simp only [List.length_append, List.length_take, List.length_drop]
    omega
  · simp only [List.length_append, hit]
  · simp only [hit, htake]
    rw [← List.append_assoc, ← List.length_append, List.take_left]

theorem Wrote.serialize (h : Wrote v b) {p : Platform} {remote : Endpoint} {n : ℕ} {ep : Bytes}
    (hn : v.length + n ≤ 512) (hep : serializeEndpoint p remote n = .ok ep)
    (hle : v.length + ep.length ≤ 512) :
    ∃ b', b.serialize p remote n = .ok b' ∧ Wrote (v ++ ep) b' := by
  have hwindow : b.it + n ≤ b.bytes.length := by
    rw [h.it_eq, h.length_bytes]
    exact hn
  obtain ⟨b', hcopy, hwrote⟩ := h.copy hle
  refine ⟨b', ?_, hwrote⟩
  rw [Scratch.serialize, if_pos hwindow, hep]
  exact hcopy

end Scratch

namespace Egress

variable {p : Platform} {s : Egress} {remote : Endpoint} {ep : Bytes}

/-- The hash and the command are in the array when the endpoint is serialized. -/
theorem connect_eq (hcred : s.cred.length = 56) (p : Platform) (remote : Endpoint) :
    ∃ b, Scratch.Wrote (s.cred ++ (Ingress.crlf ++ [1])) b
      ∧ s.connect p (.ok ()) remote = do
        let b ← b.serialize p remote 259
        let b ← b.copy Ingress.crlf
        return b.bytes.take b.it := by
  obtain ⟨b₁, hcopy₁, h₁⟩ := Scratch.wrote_fresh.copy (show 0 + s.cred.length ≤ 512 by omega)
  rw [List.nil_append] at h₁
  have hcommand : s.cred.length + (Ingress.crlf ++ [1]).length ≤ 512 := by
    rw [hcred]
    decide
  obtain ⟨b₂, hcopy₂, h₂⟩ := h₁.copy hcommand
  refine ⟨b₂, h₂, ?_⟩
  unfold connect
  simp only [Checked.lift_ok, bind, Except.bind, hcopy₁, hcopy₂]

theorem length_command (hcred : s.cred.length = 56) :
    (s.cred ++ (Ingress.crlf ++ [1])).length = 59 := by
  rw [List.length_append, hcred]
  rfl

/-- **The request of an endpoint** is what `connect` writes. -/
theorem connect_of_ok (hcred : s.cred.length = 56)
    (hep : serializeEndpoint p remote 259 = .ok ep) :
    s.connect p (.ok ()) remote = .ok (Ingress.request s.cred ep) := by
  have hle := length_serializeEndpoint_le hep
  have hlength := length_command hcred
  obtain ⟨b, hwrote, hconnect⟩ := connect_eq hcred p remote
  obtain ⟨b₁, hserialize, h₁⟩ := hwrote.serialize (by omega) hep (by omega)
  have hend : (s.cred ++ (Ingress.crlf ++ [1]) ++ ep).length + Ingress.crlf.length ≤ 512 := by
    rw [List.length_append, hlength]
    show 59 + ep.length + 2 ≤ 512
    omega
  obtain ⟨b₂, hcopy, h₂⟩ := h₁.copy hend
  rw [hconnect]
  simp only [bind, Except.bind, hserialize, hcopy, pure, Except.pure]
  rw [h₂.take_it, Ingress.request]
  simp

/-- An endpoint that is not accepted makes `connect` throw what `serializeEndpoint` threw. -/
theorem connect_of_error (hcred : s.cred.length = 56) {e : SystemError}
    (hep : serializeEndpoint p remote 259 = .error e) :
    s.connect p (.ok ()) remote = .error (.thrown (.systemError e)) := by
  have hlength := length_command hcred
  obtain ⟨b, hwrote, hconnect⟩ := connect_eq hcred p remote
  have hwindow : b.it + 259 ≤ b.bytes.length := by
    rw [hwrote.it_eq, hwrote.length_bytes]
    omega
  have hserialize : b.serialize p remote 259 = .error (.thrown (.systemError e)) := by
    rw [Scratch.serialize, if_pos hwindow, hep]
    rfl
  rw [hconnect]
  simp only [bind, Except.bind, hserialize]

/-- **`connect` stays inside of its array.** -/
theorem connect_in_bounds (hcred : s.cred.length = 56) (p : Platform) (connected : Checked Unit)
    (remote : Endpoint) : s.connect p connected remote ≠ .error .undefinedBehaviour := by
  intro h
  cases connected with
  | error e => cases h
  | ok u =>
      cases hep : serializeEndpoint p remote 259 with
      | ok ep =>
          rw [connect_of_ok hcred hep] at h
          cases h
      | error e =>
          rw [connect_of_error hcred hep] at h
          cases h

end Egress

/-! ## What the ingress makes of it -/

namespace Ingress

/-- The failure of an unknown hash. -/
def unauthenticated : Fault := .thrown (.systemError ⟨.pichi .unauthenticated, ""⟩)

section Unknown

variable {p : Platform} {s : Ingress} {memory : Memory} {piece : Bytes} {rest : List Bytes}

/-- A request with an unknown hash is not parsed any further. -/
theorem parseRequest_of_unknown {hash ep payload : Bytes} (hcache : s.cache = Cache.make memory)
    (hall : s.underlying.all = request hash ep ++ payload)
    (hpieces : s.underlying.pieces = piece :: rest)
    (hpiece : (request hash ep).length ≤ piece.length)
    (hr : (request hash ep).length ≤ capacity) (hhash : hash.length = 56)
    (hunknown : hash ∉ s.passwords) :
    ∃ s', parseRequest p s = (.error unauthenticated, s') := by
  have hlength := length_request hhash ep
  have hcover : (request hash ep).length ≤ (s.underlying.pieces.take 2).flatten.length := by
    rw [hpieces, List.take_succ_cons, List.flatten_cons, List.length_append]
    omega
  obtain ⟨s₁, hread, h₁, htaken, hlast, hpasswords⟩ :=
    upcoming_of_first_read hcache hall hpieces hr hcover
  have hcap : capacity = 512 := rfl
  have hsize : 58 ≤ s₁.cache.size := by
    rw [Cache.size, h₁.ahead.first_eq, htaken]
    omega
  have htake : take 56 s₁ = (.ok hash, s₁.mark 56) := by
    have h : Upcoming (request hash ep) payload s₁ (hash ++ (crlf ++ ([1] ++ (ep ++ crlf)))) := h₁
    have htake := h.take (by omega)
    rwa [hhash] at htake
  have hauth : assertTrue ((s₁.mark 56).authenticate hash) .unauthenticated (s₁.mark 56)
      = (.error unauthenticated, s₁.mark 56) := by
    have hnot : (s₁.mark 56).authenticate hash = false := by
      rw [authenticate_mark, authenticate, hpasswords]
      simpa using hunknown
    rw [hnot]
    rfl
  refine ⟨s₁.mark 56, ?_⟩
  rw [parseRequest]
  apply bind_of_error
  rw [readHeader, bind_of_ok hread, bind_get,
    bind_of_ok (assertTrue_of_true _ (decide_eq_true hsize)), bind_of_ok htake, bind_get]
  exact bind_of_error hauth

/-- What `read_remote` answers to a request that fails. -/
theorem readRemote_of_thrown {s₁ : Ingress} {x : Exception} (hcache : s.cache = Cache.make memory)
    (hparse : parseRequest p s = (.error (.thrown x), s₁)) :
    (readRemote p (.ok ()) s).1 = if s.fallback then .ok s.remote else .error (.thrown x) := by
  have hconfig := (lasting_config s.remote s.fallback).parseRequest p ⟨rfl, rfl⟩
    (show s.cache.first = 0 by rw [hcache]; rfl) (show s.cache.taken = 0 by rw [hcache]; rfl)
  rw [hparse] at hconfig
  obtain ⟨hremote, hfallback⟩ : s₁.remote = s.remote ∧ s₁.fallback = s.fallback := hconfig
  rw [readRemote_of_error hparse]
  cases hflag : s.fallback with
  | true => simp [giveUp, hfallback, hflag, hremote]
  | false => simp [giveUp, hfallback, hflag]

end Unknown

/-- **The egress and the ingress agree.**  For every password of the client, every server it
is configured with, every endpoint that can be serialized, and every payload that follows: the
egress stays inside of its array and writes a request; if the first read of the ingress gets the
whole request, an ingress that has the password in its set returns the endpoint and hands out
the payload, and one that does not have its hash returns the fallback, or fails over a layer
without one. -/
theorem egress_agrees {p : Platform} (hp : p.AddressText) (sha224 : Bytes → Digest)
    (cred : TrojanIngressCredential) (opt : TrojanOption) (fallback : Bool) (memory : Memory)
    (pw : Bytes) (server : Endpoint) :
    (∀ connected remote,
        (Egress.make sha224 ⟨pw⟩ server).connect p connected remote ≠ .error .undefinedBehaviour)
      ∧ ∀ e size ep, serializeEndpoint p e size = .ok ep →
        ∃ message, (Egress.make sha224 ⟨pw⟩ server).connect p (.ok ()) e = .ok message
          ∧ ∀ payload (src : Source UInt8) piece rest, src.all = message ++ payload →
            src.pieces = piece :: rest → message.length ≤ piece.length →
            (pw ∈ cred.credential.keys →
                Parses p e payload (make sha224 cred opt fallback memory src))
            ∧ ((∀ pw' ∈ cred.credential.keys, sha224 pw' ≠ sha224 pw) →
                (readRemote p (.ok ()) (make sha224 cred opt fallback memory src)).1
                  = if fallback then .ok opt.remote else .error unauthenticated) := by
  have hcred : (Egress.make sha224 ⟨pw⟩ server).cred.length = 56 := (sha224 pw).2
  refine ⟨fun connected remote => Egress.connect_in_bounds hcred p connected remote, ?_⟩
  intro e size ep hep
  obtain ⟨ep', hep'⟩ := exists_serializeEndpoint hp (hasWireForm_of_serialize hep) (Nat.le_refl 259)
  refine ⟨_, Egress.connect_of_ok hcred hep', ?_⟩
  intro payload src piece rest hall hpieces hpiece
  have hlength : (request (sha224 pw).1 ep').length = 61 + ep'.length :=
    length_request (sha224 pw).2 ep'
  have hle := length_serializeEndpoint_le hep'
  replace hpiece : (request (sha224 pw).1 ep').length ≤ piece.length := hpiece
  constructor
  · intro hpw
    refine parses_of_covered hp hpw hep' hall hpieces (by omega) memory ?_
    rw [hpieces, List.take_succ_cons, List.flatten_cons, List.length_append]
    omega
  · intro hunknown
    have hnot : (sha224 pw).1 ∉ (make sha224 cred opt fallback memory src).passwords := by
      intro hmem
      obtain ⟨pw', hpw', heq⟩ := List.mem_map.mp hmem
      exact hunknown pw' hpw' (Subtype.ext heq)
    have hr : (request (sha224 pw).1 ep').length ≤ capacity := by
      rw [hlength]
      show 61 + ep'.length ≤ 512
      omega
    obtain ⟨s', hparse⟩ := parseRequest_of_unknown
      (s := make sha224 cred opt fallback memory src) rfl hall hpieces hpiece hr (sha224 pw).2 hnot
    exact readRemote_of_thrown rfl hparse

/-- A hash that tells two passwords apart. -/
def Example.sha224 (pw : Bytes) : Digest :=
  if pw = lit "pw" then ⟨Example.hash, Example.length_hash⟩
  else ⟨List.replicate 56 48, List.length_replicate⟩

/-- The configuration of an ingress with one password. -/
def Example.cred : TrojanIngressCredential := ⟨[⟨lit "pw", ()⟩].toAList⟩

def Example.option : TrojanOption := ⟨⟨.ipv4, lit "127.0.0.1", 80⟩⟩

def Example.server : Endpoint := ⟨.domainName, lit "proxy.example.com", 443⟩

/-- The request and the payload arrive together. -/
def Example.together (message : Bytes) (h : message ++ lit "hello" ≠ []) : Source UInt8 :=
  ⟨[message ++ lit "hello"], by simpa using h⟩

theorem egress_agrees_example :
    ∃ message h, (Egress.make Example.sha224 ⟨lit "pw"⟩ Example.server).connect Reference.platform
        (.ok ()) Example.endpoint = .ok message
      ∧ Parses Reference.platform Example.endpoint (lit "hello") (make Example.sha224 Example.cred
          Example.option false (fun _ => 0) (Example.together message h)) := by
  have hep : serializeEndpoint Reference.platform Example.endpoint 259
      = .ok (3 :: 11 :: (lit "example.com" ++ [1, 187])) := by decide
  obtain ⟨message, hmessage, hagrees⟩ := (egress_agrees Reference.platform_addressText
    Example.sha224 Example.cred Example.option false (fun _ => 0) (lit "pw") Example.server).2
    Example.endpoint 259 _ hep
  have h : message ++ lit "hello" ≠ [] := List.append_ne_nil_of_right_ne_nil _ (by decide)
  have hall : (Example.together message h).all = message ++ lit "hello" := List.flatten_singleton
  refine ⟨message, h, hmessage, (hagrees (lit "hello") (Example.together message h) _ [] hall rfl
    ?_).1 (by decide)⟩
  rw [List.length_append]
  omega

/-- Over a websocket a client with another password is not directed to the fallback. -/
theorem egress_agrees_counterexample :
    ∃ message h, (Egress.make Example.sha224 ⟨lit "other"⟩ Example.server).connect
        Reference.platform (.ok ()) Example.endpoint = .ok message
      ∧ (∀ pw ∈ Example.cred.credential.keys, Example.sha224 pw ≠ Example.sha224 (lit "other"))
      ∧ (readRemote Reference.platform (.ok ()) (make Example.sha224 Example.cred Example.option
          false (fun _ => 0) (Example.together message h))).1 ≠ .ok Example.option.remote := by
  refine ⟨request (Example.sha224 (lit "other")).1 (3 :: 11 :: (lit "example.com" ++ [1, 187])),
    by decide, by decide +kernel, by decide +kernel, by decide +kernel⟩

end Ingress

end Trojan

end Pichi
