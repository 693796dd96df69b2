/-
# Sessions over SOCKS5

Sessions whose ingress speaks SOCKS5, as `Socks5Ingress` or as the delegate of a `DualIngress`, in
front of any bytes.

`Says` is the language of the handshake: a greeting that offers the method the ingress requires, the
user name and the password of one of its entries if it has any, and a request to connect.
The ingress accepts this language and nothing else, whatever the segments
(`yields_continueReadRemote_iff`).

`relays_request`: a session is routed to the destination of the request and gives to its egress the
beginning of what follows the handshake.  So nobody gets through who does not know an entry of the
configuration, whatever he sends.
-/
import Pichi.SessionStream
import Pichi.Socks5Handshake

namespace Pichi

namespace Socks5

open Duplex (Proc)
open Duplex.Proc (yields_ret_iff yields_write_iff yields_read_iff yields_bind_iff)
open Transfer (Reader Source)
open Session (Receiver Node receivedFrom givenTo bufferSize)
open Interleave

/-! ## The language of the handshake -/

/-- What the client says in the sub-negotiation, if there is one. -/
def Authenticates (credential : ValueMap Bytes) (sub : Bytes) : Prop :=
  if needAuth credential = true then
    ∃ u pw, credential.lookup u = some pw ∧ u ≠ [] ∧ u.length ≤ 255 ∧ pw ≠ [] ∧ pw.length ≤ 255
      ∧ sub = 0x01 :: UInt8.ofNat u.length :: (u ++ UInt8.ofNat pw.length :: pw)
  else sub = []

/-- What the client says: a handshake for the destination `peer`, and then `payload`. -/
def Says (p : Platform) (credential : ValueMap Bytes) (bytes : Bytes) (peer : Endpoint)
    (payload : Bytes) : Prop :=
  ∃ methods sub ep,
    bytes = 0x05 :: UInt8.ofNat methods.length :: (methods ++ (sub ++ ([0x05, 0x01, 0x00]
      ++ (ep ++ payload))))
    ∧ methods.length ≤ 255 ∧ required credential ∈ methods ∧ Authenticates credential sub
    ∧ (parse_endpoint p).run fromBytes (ep ++ payload) = (.ok peer, payload)

section Language

variable {α β : Type} {p : Platform} {credential : ValueMap Bytes} {u r : Bytes}

/-- A check that has not failed. -/
theorem yields_check_iff {b : Bool} {e : PichiError} {msg : String} {f : Unit → Proc UInt8 Fault α}
    {a : α} :
    (check (Checked.assertTrue b e msg) >>= f).Yields u a r ↔ b = true ∧ (f ()).Yields u a r := by
  cases b with
  | true => simp [check_assertTrue_of_true]
  | false =>
      rw [check_assertTrue_of_false rfl, Duplex.Proc.fail_bind]
      simp [Proc.Yields]

/-- A program that only reads. -/
theorem yields_ofReader_iff {x : Reader UInt8 Fault α} {a : α} :
    (Proc.ofReader x).Yields u a r ↔ x.run fromBytes u = (.ok a, r) := by
  induction x generalizing u with
  | ret b => simp [Proc.ofReader, Proc.Yields, Reader.run]
  | fail e => simp [Proc.ofReader, Proc.Yields, Reader.run]
  | read n k ih =>
      rw [Proc.ofReader, yields_read_iff]
      constructor
      · rintro ⟨w, t, rfl, rfl, h⟩
        rw [Reader.run_read_of_ok (fromBytes_append w t)]
        exact (ih w).mp h
      · intro h
        obtain ⟨w, t, hu, hn, h⟩ := exists_of_run_read_fromBytes h
        exact ⟨w, t, hu, hn, (ih w).mpr h⟩

theorem toNat_ofNat_length {w : Bytes} (h : w.length ≤ 255) :
    (UInt8.ofNat w.length).toNat = w.length := by
  rw [UInt8.toNat_ofNat']
  omega

/-- A string with its length in front of it. -/
theorem run_readString_iff {k : Bytes → Reader UInt8 Fault α} {a : α} :
    (readString k).run fromBytes u = (.ok a, r) ↔
      ∃ x t, x ≠ [] ∧ x.length ≤ 255 ∧ u = UInt8.ofNat x.length :: (x ++ t)
        ∧ (k x).run fromBytes t = (.ok a, r) := by
  constructor
  · intro h
    rw [readString] at h
    obtain ⟨w, s₁, rfl, hw, h⟩ := exists_of_run_read_fromBytes h
    obtain ⟨len, rfl⟩ := List.length_eq_one_iff.mp hw
    simp only [headD_overwrite_singleton] at h
    by_cases hzero : len = 0
    · simp only [hzero, if_true] at h
      cases h
    · simp only [hzero, if_false] at h
      obtain ⟨x, t, rfl, hx, h⟩ := exists_of_run_read_fromBytes h
      rw [take_overwrite (le_of_eq hx.symm), ← hx, List.take_length] at h
      have hlt := len.toNat_lt
      have hpos : len.toNat ≠ 0 := fun hnat => hzero (UInt8.toNat_inj.mp hnat)
      refine ⟨x, t, ?_, by omega, ?_, h⟩
      · rintro rfl
        exact hpos hx.symm
      · rw [hx, UInt8.ofNat_toNat]
        rfl
  · rintro ⟨x, t, hne, hle, rfl, h⟩
    rw [run_readString k hne hle]
    exact h

/-- The request of the sub-negotiation. -/
theorem run_readCredential_iff {name pw : Bytes} :
    readCredential.run fromBytes u = (.ok (name, pw), r) ↔
      (name ≠ [] ∧ name.length ≤ 255 ∧ pw ≠ [] ∧ pw.length ≤ 255)
        ∧ u = 0x01 :: UInt8.ofNat name.length :: (name ++ UInt8.ofNat pw.length :: pw) ++ r := by
  constructor
  · intro h
    rw [readCredential] at h
    obtain ⟨w, s₁, rfl, hw, h⟩ := exists_of_run_read_fromBytes h
    obtain ⟨ver, rfl⟩ := List.length_eq_one_iff.mp hw
    simp only [headD_overwrite_singleton] at h
    by_cases hver : ver = 0x01
    · simp only [hver, if_true] at h
      obtain ⟨x, s₂, hx, hx', rfl, hpw⟩ := run_readString_iff.mp h
      obtain ⟨y, s₃, hy, hy', rfl, hret⟩ := run_readString_iff.mp hpw
      cases hret
      exact ⟨⟨hx, hx', hy, hy'⟩, by simp [hver]⟩
    · simp only [hver, if_false] at h
      cases h
  · rintro ⟨⟨hname, hname', hpw, hpw'⟩, rfl⟩
    exact run_readCredential hname hname' hpw hpw' r

/-- What `authenticate` accepts. -/
theorem yields_authenticate_iff (h : needAuth credential = true) {a : Unit} :
    (authenticate credential).Yields u a r
      ↔ ∃ sub, u = sub ++ r ∧ Authenticates credential sub := by
  rw [authenticate, yields_bind_iff]
  simp only [Authenticates, h, if_true]
  constructor
  · rintro ⟨⟨name, pw⟩, t, hread, hrest⟩
    obtain ⟨⟨h₁, h₂, h₃, h₄⟩, hu⟩ := run_readCredential_iff.mp (yields_ofReader_iff.mp hread)
    obtain ⟨hlookup, -, rfl⟩ := yields_check_iff.mp hrest
    exact ⟨_, hu, name, pw, of_decide_eq_true hlookup, h₁, h₂, h₃, h₄, rfl⟩
  · rintro ⟨sub, hu, name, pw, hlookup, h₁, h₂, h₃, h₄, rfl⟩
    refine ⟨(name, pw), r, yields_ofReader_iff.mpr
      (run_readCredential_iff.mpr ⟨⟨h₁, h₂, h₃, h₄⟩, hu⟩), ?_⟩
    exact yields_check_iff.mpr ⟨decide_eq_true hlookup, rfl, rfl⟩

/-- What the request has to be. -/
theorem yields_readRequest_iff {buf : Bytes} {peer : Endpoint} :
    (readRequest p buf).Yields u peer r ↔
      ∃ t, u = [0x05, 0x01, 0x00] ++ t ∧ (parse_endpoint p).run fromBytes t = (.ok peer, r) := by
  simp only [readRequest, Duplex.Proc.receive_bind, yields_read_iff, yields_check_iff,
    yields_ofReader_iff, decide_eq_true_eq]
  constructor
  · rintro ⟨w, t, rfl, hw, h₀, h₁, h₂, h⟩
    refine ⟨t, ?_, h⟩
    obtain ⟨a, b, c, rfl⟩ := List.length_eq_three.mp hw
    rw [getD_overwrite (by simp)] at h₀ h₁ h₂
    simp only [List.getD_cons_zero, List.getD_cons_succ] at h₀ h₁ h₂
    rw [h₀, h₁, h₂]
  · rintro ⟨t, rfl, h⟩
    exact ⟨[0x05, 0x01, 0x00], t, rfl, rfl, rfl, rfl, rfl, h⟩

/-- What the methods have to be, and what follows them. -/
theorem yields_readMethod_iff {len : ℕ} {buf : Bytes} {peer : Endpoint} :
    (readMethod p credential len buf).Yields u peer r ↔
      required credential ∈ buf.take len ∧ ∃ sub t, u = sub ++ t ∧ Authenticates credential sub
        ∧ ∃ ep, t = [0x05, 0x01, 0x00] ++ ep
          ∧ (parse_endpoint p).run fromBytes ep = (.ok peer, r) := by
  rw [readMethod, yields_check_iff, List.any_eq_true]
  refine and_congr (by simp) ?_
  by_cases hauth : needAuth credential = true
  · simp only [hauth, if_true, Duplex.Proc.send_bind, yields_write_iff, yields_bind_iff,
      yields_readRequest_iff, yields_authenticate_iff hauth]
    constructor
    · rintro ⟨-, t, ⟨sub, hu, hsub⟩, hep⟩
      exact ⟨sub, t, hu, hsub, hep⟩
    · rintro ⟨sub, t, hu, hsub, hep⟩
      exact ⟨(), t, ⟨sub, hu, hsub⟩, hep⟩
  · have hsub : ∀ sub, Authenticates credential sub ↔ sub = [] := fun sub => by
      rw [Authenticates, if_neg hauth]
    simp only [hsub, hauth, Bool.false_eq_true, if_false, Duplex.Proc.send_bind, yields_write_iff,
      yields_readRequest_iff]
    constructor
    · intro hep
      exact ⟨[], u, rfl, rfl, hep⟩
    · rintro ⟨sub, t, rfl, rfl, hep⟩
      exact hep

theorem continueReadRemote_eq (p : Platform) (credential : ValueMap Bytes) (b : Bytes) :
    continueReadRemote p credential b = (do
      check (Checked.assertTrue (b.length = 1) .misc "")
      check (Checked.assertTrue (b.headD 0 = 0x05) .badProto "")
      let buf := overwrite readBuffer (← Proc.receive 1)
      check (Checked.assertTrue (buf.headD 0 > 0) .badProto "")
      let len := (buf.headD 0).toNat
      readMethod p credential len (overwrite buf (← Proc.receive len))) := rfl

/-- **What the ingress accepts** is the language of the handshake. -/
theorem yields_continueReadRemote_iff {b : UInt8} {peer : Endpoint} :
    (continueReadRemote p credential [b]).Yields u peer r ↔ Says p credential (b :: u) peer r := by
  simp only [continueReadRemote_eq, yields_read_iff, yields_check_iff, Duplex.Proc.receive_bind,
    yields_readMethod_iff, decide_eq_true_eq, List.headD_cons]
  constructor
  · rintro ⟨-, hb, w, t, rfl, hw, -, methods, t', rfl, hlen, hmem, sub, t'', rfl, hsub, ep, rfl,
      hep⟩
    obtain rfl : b = 0x05 := of_decide_eq_true hb
    obtain ⟨n, rfl⟩ := List.length_eq_one_iff.mp hw
    simp only [headD_overwrite_singleton] at hlen hmem
    rw [take_overwrite (le_of_eq hlen.symm), ← hlen, List.take_length] at hmem
    obtain ⟨used, rfl⟩ := Duplex.Proc.exists_append_of_yields (yields_ofReader_iff.mpr hep)
    have hlt := n.toNat_lt
    refine ⟨methods, sub, used, ?_, by omega, hmem, hsub, hep⟩
    rw [hlen, UInt8.ofNat_toNat]
    simp
  · rintro ⟨methods, sub, ep, hu, hle, hmem, hsub, hep⟩
    have hnat := toNat_ofNat_length hle
    have hpos : 0 < methods.length := List.length_pos_of_mem hmem
    rw [List.cons.injEq] at hu
    obtain ⟨rfl, rfl⟩ := hu
    refine ⟨rfl, decide_eq_true rfl, [UInt8.ofNat methods.length], _, rfl, rfl, ?_, methods, _, rfl,
      ?_, ?_, sub, _, rfl, hsub, _, rfl, hep⟩
    · rw [headD_overwrite_singleton, gt_iff_lt, UInt8.lt_iff_toNat_lt, hnat]
      exact hpos
    · rw [headD_overwrite_singleton, hnat]
    · rw [headD_overwrite_singleton, hnat, take_overwrite le_rfl, List.take_length]
      exact hmem

end Language

/-! ## The ingress in front of a socket -/

def eof : Fault := .thrown (.systemError ⟨.asio .eof, ""⟩)

/-- `stream::read`. -/
def read (src : Source UInt8) (n : ℕ) : Result Bytes × Source UInt8 :=
  match src.read n with
  | (some w, src) => (.ok w, src)
  | (none, src) => (.error eof, src)

/-- `stream::read_some`. -/
def readSome (src : Source UInt8) (n : ℕ) : Result Bytes × Source UInt8 :=
  match src.readSome n with
  | some (got, src) => (.ok got, src)
  | none => (.error eof, src)

/-- The receiving half of the ingress.  The first byte is read by `Socks5Ingress::read_remote`, or
by `DualIngress::read_remote`. -/
def receiver (p : Platform) (credential : ValueMap Bytes) : Receiver Unit (Source UInt8) where
  read _ src :=
    match read src 1 with
    | (.error f, src) => (⟨.error f, .error f, .error f⟩, src)
    | (.ok b, src) =>
      let (r, src) := (continueReadRemote p credential b).run read src
      -- an HTTP request does not begin with this byte
      (⟨.ok (b.headD 0), .error eof, r⟩, src)
  recv _ src := readSome src bufferSize

theorem read_eq_ok {src src' : Source UInt8} {n : ℕ} {w : Bytes} (h : read src n = (.ok w, src')) :
    w.length = n ∧ src.all = w ++ src'.all := by
  unfold read at h
  split at h
  · rename_i hread
    cases h
    exact ⟨Source.length_of_read hread, Source.eq_append_of_read hread⟩
  · cases h

/-- The socket hands out what is on it. -/
theorem drains : Transfer.Drains (fun n src => readSome src n) (fun _ => True) Source.all where
  idle := fun _ _ => rfl
  step := by
    intro src n _ hn
    rcases hread : src.readSome n with _ | ⟨got, src'⟩
    · exact Or.inl ⟨(Source.readSome_eq_none_iff.mp hread).2, eof, by rw [readSome, hread]⟩
    · obtain ⟨hne, -, hall⟩ := Source.readSome_spec hn hread
      exact Or.inr ⟨got, src', hne, by rw [readSome, hread], trivial, hall⟩

section Relaying

variable {p : Platform} {credential : ValueMap Bytes} {src src' : Source UInt8}

/-- What `read_remote` finds, the client has said. -/
theorem says_of_read {peer : Endpoint}
    (h : ((receiver p credential).read () src).1.remote = .ok peer) :
    Says p credential src.all peer ((receiver p credential).read () src).2.all := by
  simp only [receiver] at h ⊢
  rcases hfirst : read src 1 with ⟨f | b, src₁⟩
  · rw [hfirst] at h
    cases h
  · rw [hfirst] at h
    obtain ⟨hlen, hall⟩ := read_eq_ok hfirst
    obtain ⟨b, rfl⟩ := List.length_eq_one_iff.mp hlen
    have hrun : (continueReadRemote p credential [b]).run read src₁
        = (.ok peer, ((continueReadRemote p credential [b]).run read src₁).2) := Prod.ext h rfl
    have hyields := Duplex.Proc.yields_of_run (fun _ _ _ _ hread => read_eq_ok hread) _ hrun
    rw [hall]
    exact yields_continueReadRemote_iff.mp hyields

variable {Context Socket : Type} {st : Session.Setting Context Socket} {n : Node (Source UInt8)}

/-- The ingress of the session is `Socks5Ingress`, or a `DualIngress` in front of a client whose
first byte is that of SOCKS5. -/
inductive Speaks (st : Session.Setting Context Socket) (credential : ValueMap Bytes)
    (bytes : Bytes) : Prop where
  | socks5 (underlying : Layer Context Socket)
      (h : createIngress st.platform st.library st.sha224 st.vo st.socket
        = .ok (.socks5 credential underlying)) : Speaks st credential bytes
  | dual (vo : Ingress) (underlying : Layer Context Socket) (c : Option UpIngressCredential)
      (h : createIngress st.platform st.library st.sha224 st.vo st.socket
        = .ok (.dual vo underlying))
      (hc : upCredential vo = .ok c) (hcredential : credential = (c.map (·.credential)).getD ∅)
      (hfirst : bytes.head? = some 0x05) : Speaks st credential bytes

/-- The session takes what the SOCKS5 handshake comes to. -/
theorem remote_of_readRemote {peer : Endpoint} (hst : Speaks st credential src.all)
    (h : ((Session.start st).inlet.readRemote st.platform
      ((receiver st.platform credential).read () src).1).1 = .ok peer) :
    ((receiver st.platform credential).read () src).1.remote = .ok peer := by
  cases hst with
  | socks5 underlying hingress =>
      rw [Session.start, hingress] at h
      exact h
  | dual vo underlying c hingress hc hcredential hfirst =>
      rw [Session.start, hingress] at h
      change ((Session.Inlet.dual vo none).readRemote st.platform _).1 = _ at h
      simp only [receiver] at h ⊢
      rcases hread : read src 1 with ⟨f | b, src₁⟩
      · rw [hread] at h
        cases h
      · obtain ⟨hlen, hall⟩ := read_eq_ok hread
        obtain ⟨b, rfl⟩ := List.length_eq_one_iff.mp hlen
        rw [hall] at hfirst
        obtain rfl : b = 0x05 := Option.some.inj hfirst
        rw [hread] at h
        simpa [Session.Inlet.readRemote, Session.continueDual, hc, Build.toResult] using h

/-- **A session does what a SOCKS5 client says, and nothing else.**  Whatever arrives on the socket
of a session with a SOCKS5 ingress, in whatever segments, and wherever the socket breaks: in every
state of every run, the endpoint that is routed is the destination of a complete handshake, with the
name and the password of one of the entries if there are any, and what the egress was given is the
beginning of what follows it. -/
theorem relays_request (hst : Speaks st credential src.all)
    (h : Reachable (Node.exec st (receiver st.platform credential).breakable)
      (Node.start st src) n) :
    (∀ peer, n.session.point = .routing peer →
        ∃ payload, Says st.platform credential src.all peer payload)
      ∧ (givenTo .egress n.session.log = [] ∨ ∃ peer payload,
        Says st.platform credential src.all peer payload
          ∧ (givenTo .egress n.session.log).flatten <+: payload) := by
  refine Node.relays (fun env peer hpeer => ?_) h
  refine ⟨_, says_of_read (remote_of_readRemote hst hpeer),
    fun bufs t hdelivers => ?_⟩
  rw [(hdelivers.of_drains drains (fun _ _ => rfl) trivial).2]
  exact List.prefix_append _ _

end Relaying

/-! ### A client of a `DualIngress` -/

/-- A dual ingress with one user `u`, whose password is `p`. -/
def Example.setting : Session.Setting Unit Unit where
  platform := Reference.platform
  library := bareLibrary
  sha224 := Session.Example.setting.sha224
  mmdb := none
  router := ⟨[], (lit "*", lit "direct", { type := .direct })⟩
  vo := { type := .dual, credential := some (.up ⟨AList.insert [117] [112] ∅⟩) }
  socket := ()

/-- The handshake for `127.0.0.1:80`, and `hi`, in segments. -/
def Example.client : Source UInt8 :=
  ⟨[[5], [1, 2, 1], [1, 117, 1, 112, 5], [1, 0, 1, 127, 0, 0, 1, 0, 80, 104], [105]], by decide⟩

def Example.events : List (Session.NodeEvent (Unit ⊕ Fault × Source UInt8)) :=
  [.read (.inl ()), .other (.route (.ok [])), .other (.finish (.ok ())), .other (.finish (.ok ())),
    .receive (.inl ())]

theorem relays_request_example :
    ∃ n, Reachable (Node.exec Example.setting
          (receiver Reference.platform (AList.insert [117] [112] ∅)).breakable)
        (Node.start Example.setting Example.client) n
      ∧ givenTo .egress n.session.log = [[104]]
      ∧ ∃ peer payload, Says Reference.platform (AList.insert [117] [112] ∅) Example.client.all peer
          payload ∧ (givenTo .egress n.session.log).flatten <+: payload := by
  have hrun : (run (Node.exec Example.setting
      (receiver Reference.platform (AList.insert [117] [112] ∅)).breakable)
      (Node.start Example.setting Example.client) Example.events).any
        (fun n => decide (givenTo .egress n.session.log = [[104]])) = true := by decide +kernel
  obtain ⟨n, hreach, hgiven⟩ := exists_reachable_of_run hrun
  have hst : Speaks Example.setting (AList.insert [117] [112] ∅) Example.client.all :=
    .dual _ _ _ rfl rfl rfl rfl
  refine ⟨n, hreach, hgiven, ?_⟩
  rcases (relays_request hst hreach).2 with hnil | h
  · rw [hgiven] at hnil
    cases hnil
  · exact h

end Socks5

end Pichi
