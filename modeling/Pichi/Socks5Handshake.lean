/-
# The SOCKS5 handshake

The egress of one process talks to the ingress of another.  The egress runs `connect`; the
ingress runs `read_remote` and then `confirm`, or `disconnect` with what went wrong, as
`Session::start` does (`actor/session.cpp`).

**Main result** (`handshake_agrees`): for all credentials on both sides, all destinations and
all schedules and segmentations, both sides end with matching outcomes.

The two programs are run against each other stage by stage: the method, the sub-negotiation,
the request.  A stage leaves the arrays of both sides with arbitrary contents behind what it
wrote, so every stage is stated for all contents.
-/
import Pichi.Socks5

namespace Pichi

namespace Socks5

open Duplex (Proc Config Reaches Settles)
open Transfer (Reader)

/-! ## The two sides -/

/-- How the session of the ingress goes on after `read_remote`: an endpoint is confirmed, or
refused with the error that connecting to it gave, and a failed handshake is answered with
its own error. -/
def conclude (outcome : Endpoint → Option ErrorCode) :
    Result Endpoint → Proc UInt8 Fault (Result Endpoint)
  | .ok e =>
    match outcome e with
    | none => do
      confirm
      return .ok e
    | some ec => do
      disconnect ec
      return .ok e
  | .error (.thrown (.systemError err)) => do
    disconnect err.code
    return .error (.thrown (.systemError err))
  -- `redirect` lets every other exception pass
  | .error f => .fail f

/-- The session of the ingress; `outcome` says which destinations can be reached. -/
def ingressSession (p : Platform) (credential : ValueMap Bytes)
    (outcome : Endpoint → Option ErrorCode) : Proc UInt8 Fault (Result Endpoint) := do
  conclude outcome (← (readRemote p credential).attempt)

/-- The egress in front of the ingress, before the first byte. -/
def handshake (p : Platform) (credential : ValueMap Bytes)
    (outcome : Endpoint → Option ErrorCode) (data : Bytes) (remote : Endpoint) :
    Config UInt8 Fault (Result Unit) (Result Endpoint) where
  left := (connect p data remote).attempt
  right := ingressSession p credential outcome

/-- A failure with an error code of the project. -/
def failed {α : Type} (e : PichiError) (msg : String) : Result α :=
  .error (.thrown (.systemError ⟨.pichi e, msg⟩))

/-- The errors of a connection that `err_to_buf` names. -/
def connectErrors : List ErrorCode :=
  [.asio .addressFamilyNotSupported, .asio .connectionRefused, .asio .connectionReset,
    .asio .hostNotFound, .asio .hostUnreachable, .asio .networkDown, .asio .networkUnreachable,
    .asio .timedOut, .pichi .connFailure]

/-- The message of a connection that could not be established. -/
def connectMessage (remote : Endpoint) : String :=
  "Failed to establish connection with " ++ text remote.host ++ ":" ++ toString remote.port

/-- The ingress takes the egress in: neither has credentials, or the pair of the egress is in
the map of the ingress. -/
def Accepts (credential : ValueMap Bytes) : Option (Bytes × Bytes) → Prop
  | none => needAuth credential = false
  | some (u, pw) => credential.lookup u = some pw

theorem needAuth_of_lookup {credential : ValueMap Bytes} {u pw : Bytes}
    (h : credential.lookup u = some pw) : needAuth credential = true := by
  rw [needAuth, Bool.not_eq_true', List.isEmpty_eq_false_iff]
  intro hnil
  have hmem := AList.mem_lookup_iff.mp (Option.mem_def.mpr h)
  rw [hnil] at hmem
  exact absurd hmem List.not_mem_nil

/-! ## Checks -/

@[simp] theorem check_ok {α : Type} (a : α) : check (.ok a) = .ret a := rfl

@[simp] theorem check_assertTrue_of_true {b : Bool} (hb : b = true) (e : PichiError)
    (msg : String) : check (Checked.assertTrue b e msg) = .ret () := by
  rw [hb]
  rfl

@[simp] theorem check_assertTrue_of_false {b : Bool} (hb : b = false) (e : PichiError)
    (msg : String) : check (Checked.assertTrue b e msg)
      = .fail (.thrown (.systemError ⟨.pichi e, msg⟩)) := by
  rw [hb]
  rfl

theorem getD_overwrite {buf w : Bytes} {i : ℕ} (h : i < w.length) :
    (overwrite buf w).getD i 0 = w.getD i 0 := by
  rw [List.getD_eq_getElem?_getD, List.getD_eq_getElem?_getD, overwrite,
    List.getElem?_append_left h]

theorem any_take_overwrite_singleton (buf : Bytes) (x m : UInt8) :
    ((overwrite buf [x]).take 1).any (· = m) = decide (x = m) := by
  simp [overwrite]

/-! ## The request -/

/-- `connect` from the reply on. -/
def connectReply (p : Platform) (remote : Endpoint) (buf : Bytes) : Proc UInt8 Fault Unit := do
  check (Checked.assertTrue (buf.getD 0 0 = 0x05) .badProto "")
  check (Checked.assertTrue (buf.getD 1 0 = 0x00) .connFailure (connectMessage remote))
  check (Checked.assertTrue (buf.getD 2 0 = 0x00) .badProto "")
  let _ ← Proc.ofReader (parse_endpoint p)
  return ()

/-- `connect` from the request on. -/
def connectRequest (p : Platform) (remote : Endpoint) (buf : Bytes) : Proc UInt8 Fault Unit := do
  let request := 0x05 :: 0x01 :: 0x00 :: (← check (serializeEndpoint p remote 509))
  let buf := overwrite buf request
  Proc.send (buf.take request.length)
  connectReply p remote (overwrite buf (← Proc.receive 3))

/-- `continue_read_remote` from the request on. -/
def readRequest (p : Platform) (buf : Bytes) : Proc UInt8 Fault Endpoint := do
  let buf := overwrite buf (← Proc.receive 3)
  check (Checked.assertTrue (buf.getD 0 0 = 0x05) .badProto "")
  check (Checked.assertTrue (buf.getD 1 0 = 0x01) .badProto "")
  check (Checked.assertTrue (buf.getD 2 0 = 0x00) .badProto "")
  Proc.ofReader (parse_endpoint p)

section Request

variable {p : Platform} {remote : Endpoint} {ep : Bytes} {outcome : Endpoint → Option ErrorCode}

/-- **The request arrives.**  The ingress reads the destination of the egress and answers, and
the egress waits for the answer. -/
theorem exists_reaches_request (outcome : Endpoint → Option ErrorCode) (hp : p.AddressText)
    (hremote : serializeEndpoint p remote 509 = .ok ep) :
    ∃ e, SameEndpoint p remote e ∧ ∀ {c : Config UInt8 Fault (Result Unit) (Result Endpoint)},
      (∀ buf, Reaches ⟨.read 3 fun w => (connectReply p remote (overwrite buf w)).attempt,
        conclude outcome (.ok e), [], []⟩ c) →
      ∀ buf buf', Reaches ⟨(connectRequest p remote buf).attempt,
        (readRequest p buf').attempt >>= conclude outcome, [], []⟩ c := by
  obtain ⟨e, s', hrun, rfl, hsame⟩ := parse_endpoint_of_serialize hp
    fromBytes_supplies.suppliesSome hremote (R := Eq) (t := []) rfl
  refine ⟨e, hsame, fun {c} h buf buf' => ?_⟩
  simp only [connectRequest, hremote, check_ok, Proc.ret_bind, Proc.send_bind, Proc.attempt_write,
    take_overwrite (le_refl _), List.take_length]
  refine .write_left ?_
  simp only [readRequest, Proc.receive_bind, Proc.attempt_read, Proc.read_bind]
  refine .read_right [0x05, 0x01, 0x00] ep rfl ?_
  simp only [getD_overwrite, List.length_cons, List.length_nil, Nat.reduceAdd, Nat.reduceLT,
    List.getD_cons_zero, List.getD_cons_succ, decide_true, check_assertTrue_of_true,
    Proc.ret_bind]
  rw [List.append_nil] at hrun
  refine .reader_right (fun _ _ _ _ => of_fromBytes_eq_ok) hrun ?_
  exact h _

/-- A confirmed destination: the egress reads the whole reply. -/
theorem reaches_confirmed {e : Endpoint} (he : outcome e = none) (buf : Bytes) :
    Reaches ⟨.read 3 fun w => (connectReply p remote (overwrite buf w)).attempt,
        conclude outcome (.ok e), [], []⟩
      ⟨.ret (.ok ()), .ret (.ok e), [], []⟩ := by
  have hrun : (parse_endpoint p).run fromBytes [0x01, 0x00, 0x00, 0x00, 0x00, 0x00, 0x00]
      = (.ok ⟨.ipv4, p.toStringV4 ⟨[0x00, 0x00, 0x00, 0x00], rfl⟩, 0⟩, []) := by
    obtain ⟨s', rfl, hrun⟩ := parse_endpoint_ipv4 (p := p) (R := Eq) (t := [])
      fromBytes_supplies.suppliesSome ⟨[0x00, 0x00, 0x00, 0x00], rfl⟩ 0 rfl
    exact hrun
  simp only [conclude, he, confirm, Proc.send_bind]
  refine .write_right ?_
  refine .read_left [0x05, 0x00, 0x00] _ rfl ?_
  simp only [connectReply, getD_overwrite, List.length_cons, List.length_nil, Nat.reduceAdd,
    Nat.reduceLT, List.getD_cons_zero, List.getD_cons_succ, decide_true, check_assertTrue_of_true,
    Proc.ret_bind, Proc.attempt_bind]
  refine .reader_left (fun _ _ _ _ => of_fromBytes_eq_ok) hrun ?_
  exact .refl _

theorem exists_errToBuf_eq {ec : ErrorCode} (hec : ec ∈ connectErrors) :
    ∃ code, code ≠ 0x00 ∧ errToBuf ec = reply code := by
  simp only [connectErrors, List.mem_cons, List.not_mem_nil, or_false] at hec
  rcases hec with rfl | rfl | rfl | rfl | rfl | rfl | rfl | rfl | rfl <;>
    exact ⟨_, by decide, rfl⟩

/-- A refused destination: the egress reads no further than the code. -/
theorem reaches_refused {e : Endpoint} {ec : ErrorCode} (he : outcome e = some ec)
    (hec : ec ∈ connectErrors) (buf : Bytes) :
    Reaches ⟨.read 3 fun w => (connectReply p remote (overwrite buf w)).attempt,
        conclude outcome (.ok e), [], []⟩
      ⟨.ret (failed .connFailure (connectMessage remote)), .ret (.ok e), [],
        [0x01, 0x00, 0x00, 0x00, 0x00, 0x00, 0x00]⟩ := by
  obtain ⟨code, hcode, hbuf⟩ := exists_errToBuf_eq hec
  simp only [conclude, he, disconnect, hbuf, Proc.send_bind]
  refine .write_right ?_
  refine .read_left [0x05, code, 0x00] _ rfl ?_
  simp only [connectReply, getD_overwrite, List.length_cons, List.length_nil, Nat.reduceAdd,
    Nat.reduceLT, List.getD_cons_zero, List.getD_cons_succ, decide_true, check_assertTrue_of_true,
    Proc.ret_bind, hcode, decide_false, check_assertTrue_of_false, Proc.fail_bind,
    Proc.attempt_fail]
  exact .refl _

end Request

/-! ## The method -/

/-- The method of the egress. -/
def offered (data : Bytes) : UInt8 := if data.length > 0 then 0x02 else 0x00

/-- The method of the ingress. -/
def required (credential : ValueMap Bytes) : UInt8 := if needAuth credential then 0x02 else 0x00

/-- `connect` from the status of the sub-negotiation on. -/
def connectStatus (p : Platform) (remote : Endpoint) (buf : Bytes) : Proc UInt8 Fault Unit := do
  check (Checked.assertTrue (buf.getD 0 0 = 0x01) .badProto "")
  check (Checked.assertTrue (buf.getD 1 0 = 0x00) .unauthenticated "")
  connectRequest p remote buf

/-- `connect` from the method of the ingress on. -/
def connectMethod (p : Platform) (data : Bytes) (remote : Endpoint) (buf : Bytes) :
    Proc UInt8 Fault Unit := do
  check (Checked.assertTrue (buf.getD 0 0 = 0x05) .badProto "")
  check (Checked.assertTrue (buf.getD 1 0 = offered data) .badAuthMethod "")
  if data.length > 0 then do
    Proc.send data
    connectStatus p remote (overwrite buf (← Proc.receive 2))
  else connectRequest p remote buf

/-- `continue_read_remote` from the methods of the egress on. -/
def readMethod (p : Platform) (credential : ValueMap Bytes) (len : ℕ) (buf : Bytes) :
    Proc UInt8 Fault Endpoint := do
  check (Checked.assertTrue ((buf.take len).any (· = required credential)) .badAuthMethod "")
  let buf := overwrite buf [0x05, required credential]
  Proc.send (buf.take 2)
  if needAuth credential then authenticate credential
  readRequest p buf

theorem connect_eq (p : Platform) (data : Bytes) (remote : Endpoint) :
    connect p data remote = .write [0x05, 0x01, offered data] (.read 2 fun w =>
      connectMethod p data remote
        (overwrite (overwrite readBuffer [0x05, 0x01, offered data]) w)) := by
  rw [connect]
  by_cases hdata : data.length > 0
  · have hm : offered data = 0x02 := if_pos hdata
    simp only [connectMethod, hm, if_pos hdata, Proc.bind_assoc]
    rfl
  · have hm : offered data = 0x00 := if_neg hdata
    simp only [connectMethod, hm, if_neg hdata, Proc.pure_bind]
    rfl

theorem readRemote_eq (p : Platform) (credential : ValueMap Bytes) :
    readRemote p credential = .read 1 fun w =>
      continueReadRemote p credential (overwrite [0] w) := rfl

section Method

variable {p : Platform} {credential : ValueMap Bytes} {data : Bytes} {remote : Endpoint}
  {outcome : Endpoint → Option ErrorCode}
  {c : Config UInt8 Fault (Result Unit) (Result Endpoint)}

/-- **The offer arrives.**  The ingress knows the method of the egress, and the egress waits
for the answer. -/
theorem reaches_offer
    (h : ∀ buf buf', Reaches
      ⟨.read 2 fun w => (connectMethod p data remote (overwrite buf w)).attempt,
        (readMethod p credential 1 (overwrite buf' [offered data])).attempt >>= conclude outcome,
        [], []⟩ c) :
    Reaches (handshake p credential outcome data remote) c := by
  rw [handshake, connect_eq]
  refine .write_left ?_
  simp only [ingressSession, readRemote_eq, Proc.attempt_read, Proc.read_bind]
  refine .read_right [0x05] _ rfl ?_
  simp only [continueReadRemote, headD_overwrite_singleton, decide_true, check_assertTrue_of_true,
    Proc.ret_bind, Proc.receive_bind]
  refine .read_right [0x01] _ rfl ?_
  refine .read_right [offered data] [] rfl ?_
  exact h _ _

/-- Different methods: the ingress refuses the one the egress offers. -/
theorem reaches_badAuthMethod (h : offered data ≠ required credential) :
    Reaches (handshake p credential outcome data remote)
      ⟨.ret (failed .badAuthMethod ""), .ret (failed .badAuthMethod ""), [], []⟩ := by
  have hff : 0xff ≠ offered data := by
    rw [offered]
    split <;> decide
  apply reaches_offer
  intro buf buf'
  simp only [readMethod, any_take_overwrite_singleton, h, decide_false, check_assertTrue_of_false,
    Proc.fail_bind, Proc.attempt_fail, Proc.ret_bind, conclude, disconnect, errToBuf,
    Proc.send_bind]
  refine .write_right ?_
  refine .read_left [0x05, 0xff] [] rfl ?_
  simp only [connectMethod, getD_overwrite, List.length_cons, List.length_nil, Nat.reduceAdd,
    Nat.reduceLT, List.getD_cons_zero, List.getD_cons_succ, decide_true, check_assertTrue_of_true,
    Proc.ret_bind, hff, decide_false, check_assertTrue_of_false, Proc.fail_bind,
    Proc.attempt_fail]
  exact .refl _

/-- No credentials on either side: the request is next. -/
theorem reaches_noAuth (hcredential : needAuth credential = false) (hdata : data = [])
    (h : ∀ buf buf', Reaches ⟨(connectRequest p remote buf).attempt,
      (readRequest p buf').attempt >>= conclude outcome, [], []⟩ c) :
    Reaches (handshake p credential outcome data remote) c := by
  have hoffered : offered data = 0x00 := by rw [hdata]; rfl
  have hrequired : required credential = 0x00 := by rw [required, hcredential]; rfl
  apply reaches_offer
  intro buf buf'
  simp only [readMethod, any_take_overwrite_singleton, hoffered, hrequired, decide_true,
    check_assertTrue_of_true, Proc.ret_bind, hcredential, Bool.false_eq_true, if_false,
    Proc.send_bind, Proc.attempt_write, Proc.write_bind]
  refine .write_right ?_
  refine .read_left [0x05, 0x00] [] rfl ?_
  simp only [connectMethod, getD_overwrite, List.length_cons, List.length_nil, Nat.reduceAdd,
    Nat.reduceLT, List.getD_cons_zero, List.getD_cons_succ, decide_true, check_assertTrue_of_true,
    Proc.ret_bind, hdata, gt_iff_lt, lt_irrefl, if_false]
  exact h _ _

/-- **The credential arrives.**  The ingress knows the name and the password of the egress, and
the egress waits for the status. -/
theorem reaches_credential {u pw : Bytes} (hcredential : needAuth credential = true)
    (hdata : data.length > 0) (hread : readCredential.run fromBytes data = (.ok (u, pw), []))
    (h : ∀ buf buf', Reaches
      ⟨.read 2 fun w => (connectStatus p remote (overwrite buf w)).attempt,
        (do
          check (Checked.assertTrue (credential.lookup u = some pw) .unauthenticated "")
          Proc.send [0x01, 0x00]
          readRequest p buf').attempt >>= conclude outcome, [], []⟩ c) :
    Reaches (handshake p credential outcome data remote) c := by
  have hoffered : offered data = 0x02 := if_pos hdata
  have hrequired : required credential = 0x02 := by rw [required, hcredential]; rfl
  apply reaches_offer
  intro buf buf'
  simp only [readMethod, any_take_overwrite_singleton, hoffered, hrequired, decide_true,
    check_assertTrue_of_true, Proc.ret_bind, hcredential, if_true,
    Proc.send_bind, Proc.attempt_write, Proc.write_bind]
  refine .write_right ?_
  refine .read_left [0x05, 0x02] [] rfl ?_
  simp only [connectMethod, getD_overwrite, List.length_cons, List.length_nil, Nat.reduceAdd,
    Nat.reduceLT, List.getD_cons_zero, List.getD_cons_succ, decide_true, check_assertTrue_of_true,
    Proc.ret_bind, hoffered, if_pos hdata, Proc.send_bind, Proc.attempt_write, Proc.receive_bind,
    Proc.attempt_read]
  refine .write_left ?_
  rw [authenticate, Proc.bind_assoc, Proc.attempt_bind, Proc.bind_assoc]
  refine .reader_right (fun _ _ _ _ => of_fromBytes_eq_ok) hread ?_
  simp only [Proc.bind_assoc]
  exact h _ _

/-- The pair is in the map: the request is next. -/
theorem reaches_authenticated {u pw : Bytes} (hlookup : credential.lookup u = some pw)
    (hdata : data.length > 0) (hread : readCredential.run fromBytes data = (.ok (u, pw), []))
    (h : ∀ buf buf', Reaches ⟨(connectRequest p remote buf).attempt,
      (readRequest p buf').attempt >>= conclude outcome, [], []⟩ c) :
    Reaches (handshake p credential outcome data remote) c := by
  apply reaches_credential (needAuth_of_lookup hlookup) hdata hread
  intro buf buf'
  simp only [hlookup, decide_true, check_assertTrue_of_true, Proc.ret_bind, Proc.send_bind,
    Proc.attempt_write, Proc.write_bind]
  refine .write_right ?_
  refine .read_left [0x01, 0x00] [] rfl ?_
  simp only [connectStatus, getD_overwrite, List.length_cons, List.length_nil, Nat.reduceAdd,
    Nat.reduceLT, List.getD_cons_zero, List.getD_cons_succ, decide_true, check_assertTrue_of_true,
    Proc.ret_bind]
  exact h _ _

/-- The pair is not in the map: both sides fail. -/
theorem reaches_unauthenticated {u pw : Bytes} (hcredential : needAuth credential = true)
    (hlookup : credential.lookup u ≠ some pw)
    (hdata : data.length > 0) (hread : readCredential.run fromBytes data = (.ok (u, pw), [])) :
    Reaches (handshake p credential outcome data remote)
      ⟨.ret (failed .unauthenticated ""), .ret (failed .unauthenticated ""), [], []⟩ := by
  apply reaches_credential hcredential hdata hread
  intro buf buf'
  simp only [hlookup, decide_false, check_assertTrue_of_false, Proc.fail_bind, Proc.attempt_fail,
    Proc.ret_bind, conclude, disconnect, errToBuf, Proc.send_bind]
  refine .write_right ?_
  refine .read_left [0x01, 0xff] [] rfl ?_
  have hff : (0xff : UInt8) ≠ 0x00 := by decide
  simp only [connectStatus, getD_overwrite, List.length_cons, List.length_nil, Nat.reduceAdd,
    Nat.reduceLT, List.getD_cons_zero, List.getD_cons_succ, decide_true, check_assertTrue_of_true,
    Proc.ret_bind, hff, decide_false, check_assertTrue_of_false, Proc.fail_bind,
    Proc.attempt_fail]
  exact .refl _

end Method

/-! ## Agreement -/

/-- `data` is what an egress with the credential `pair` sends in the sub-negotiation. -/
def Carries (data : Bytes) : Option (Bytes × Bytes) → Prop
  | none => data = []
  | some c => data.length > 0 ∧ readCredential.run fromBytes data = (.ok c, [])

theorem exists_carries {vo : Egress} {pair : Option (Bytes × Bytes)}
    (hvo : vo.credential = pair.map fun c => .up ⟨c⟩)
    (hpair : ∀ u pw, pair = some (u, pw) →
      (1 ≤ u.length ∧ u.length ≤ 255) ∧ 1 ≤ pw.length ∧ pw.length ≤ 255) :
    ∃ data, genData vo = .ok data ∧ Carries data pair := by
  cases pair with
  | none =>
      refine ⟨[], ?_, rfl⟩
      rw [genData, hvo]
      rfl
  | some c =>
      obtain ⟨u, pw⟩ := c
      obtain ⟨⟨hu, hu'⟩, hpw, hpw'⟩ := hpair u pw rfl
      have hcap : 3 + u.length + pw.length ≤ credentialCapacity := by
        rw [credentialCapacity]
        omega
      have hrun := run_readCredential (List.ne_nil_of_length_pos hu) hu'
        (List.ne_nil_of_length_pos hpw) hpw' []
      rw [List.append_nil] at hrun
      exact ⟨_, by rw [genData_eq hvo, if_pos hcap], by simp, hrun⟩

theorem offered_of_carries {data : Bytes} {pair : Option (Bytes × Bytes)}
    (hdata : Carries data pair) : offered data = if pair.isSome then 0x02 else 0x00 := by
  cases pair with
  | none =>
      have hnil : data = [] := hdata
      rw [hnil]
      rfl
  | some c => exact if_pos hdata.1

section Agreement

variable {p : Platform} {credential : ValueMap Bytes} {pair : Option (Bytes × Bytes)}
  {data : Bytes} {remote : Endpoint} {outcome : Endpoint → Option ErrorCode}

/-- The request is next if the ingress takes the egress in. -/
theorem reaches_accepted {c : Config UInt8 Fault (Result Unit) (Result Endpoint)}
    (haccepts : Accepts credential pair) (hdata : Carries data pair)
    (h : ∀ buf buf', Reaches ⟨(connectRequest p remote buf).attempt,
      (readRequest p buf').attempt >>= conclude outcome, [], []⟩ c) :
    Reaches (handshake p credential outcome data remote) c := by
  cases pair with
  | none => exact reaches_noAuth haccepts hdata h
  | some c => exact reaches_authenticated haccepts hdata.1 hdata.2 h

/-- One side only has credentials. -/
theorem reaches_mismatch (hdata : Carries data pair) (h : needAuth credential ≠ pair.isSome) :
    Reaches (handshake p credential outcome data remote)
      ⟨.ret (failed .badAuthMethod ""), .ret (failed .badAuthMethod ""), [], []⟩ := by
  apply reaches_badAuthMethod
  rw [offered_of_carries hdata, required]
  cases hcredential : needAuth credential with
  | false =>
      cases hpair : pair.isSome with
      | false => exact absurd (hcredential.trans hpair.symm) h
      | true => decide
  | true =>
      cases hpair : pair.isSome with
      | false => decide
      | true => exact absurd (hcredential.trans hpair.symm) h

end Agreement

/-- **The SOCKS5 handshake agrees.**  For all credentials of the ingress, all credentials of the
egress with parts of 1 to 255 bytes, and all destinations with a wire form, however the
transfers are scheduled and segmented:

* if neither side has credentials or the pair of the egress is in the map, the ingress learns
  the destination of the egress; a confirmed one lets the egress succeed with every byte read,
  and the errors `err_to_buf` names for a connection reach the egress as `CONN_FAILURE`;
* if one side only has credentials, both fail with `BAD_AUTH_METHOD`;
* if the pair is not in the map, both fail with `UNAUTHENTICATED`. -/
theorem handshake_agrees {p : Platform} (hp : p.AddressText) (credential : ValueMap Bytes)
    {vo : Egress} {pair : Option (Bytes × Bytes)}
    (hvo : vo.credential = pair.map fun c => .up ⟨c⟩)
    (hpair : ∀ u pw, pair = some (u, pw) →
      (1 ≤ u.length ∧ u.length ≤ 255) ∧ 1 ≤ pw.length ∧ pw.length ≤ 255)
    {remote : Endpoint} {capacity : ℕ} {ep : Bytes}
    (hremote : serializeEndpoint p remote capacity = .ok ep)
    (outcome : Endpoint → Option ErrorCode) :
    ∃ data, genData vo = .ok data
      ∧ (Accepts credential pair → ∃ e, SameEndpoint p remote e
        ∧ (outcome e = none → Settles (handshake p credential outcome data remote)
          ⟨.ret (.ok ()), .ret (.ok e), [], []⟩)
        ∧ ∀ ec ∈ connectErrors, outcome e = some ec →
          Settles (handshake p credential outcome data remote)
            ⟨.ret (failed .connFailure (connectMessage remote)), .ret (.ok e), [],
              [0x01, 0x00, 0x00, 0x00, 0x00, 0x00, 0x00]⟩)
      ∧ (needAuth credential ≠ pair.isSome →
        Settles (handshake p credential outcome data remote)
          ⟨.ret (failed .badAuthMethod ""), .ret (failed .badAuthMethod ""), [], []⟩)
      ∧ (needAuth credential = true → ∀ u pw, pair = some (u, pw) →
        credential.lookup u ≠ some pw → Settles (handshake p credential outcome data remote)
          ⟨.ret (failed .unauthenticated ""), .ret (failed .unauthenticated ""), [], []⟩) := by
  obtain ⟨data, hgen, hdata⟩ := exists_carries hvo hpair
  obtain ⟨out, hout⟩ : ∃ out, serializeEndpoint p remote 509 = .ok out :=
    exists_serializeEndpoint hp (hasWireForm_of_serialize hremote) (by omega)
  refine ⟨data, hgen, fun haccepts => ?_, fun h => ?_, fun hcredential u pw hpair' hlookup => ?_⟩
  · obtain ⟨e, hsame, hrequest⟩ := exists_reaches_request outcome hp hout
    refine ⟨e, hsame, fun he => ?_, fun ec hec he => ?_⟩
    · have hreach := reaches_accepted haccepts hdata (hrequest (reaches_confirmed he))
      exact Duplex.settles_of_reaches hreach rfl rfl
    · have hreach := reaches_accepted haccepts hdata (hrequest (reaches_refused he hec))
      exact Duplex.settles_of_reaches hreach rfl rfl
  · exact Duplex.settles_of_reaches (reaches_mismatch hdata h) rfl rfl
  · subst hpair'
    refine Duplex.settles_of_reaches ?_ rfl rfl
    exact reaches_unauthenticated hcredential hlookup hdata.1 hdata.2

/-- One credential on both sides, and `example.com:443`. -/
theorem handshake_agrees_example :
    ∃ data e, genData { type := .socks5, credential := some (.up ⟨(lit "user", lit "pw")⟩) }
        = .ok data
      ∧ SameEndpoint Reference.platform ⟨.domainName, lit "example.com", 443⟩ e
      ∧ Settles (handshake Reference.platform ((∅ : ValueMap Bytes).insert (lit "user") (lit "pw"))
          (fun _ => none) data ⟨.domainName, lit "example.com", 443⟩)
        ⟨.ret (.ok ()), .ret (.ok e), [], []⟩ := by
  have hvo : Egress.credential
        { type := .socks5, credential := some (.up ⟨(lit "user", lit "pw")⟩) }
      = (some (lit "user", lit "pw")).map fun c => .up ⟨c⟩ := rfl
  have hpair : ∀ u pw, some (lit "user", lit "pw") = some (u, pw) →
      (1 ≤ u.length ∧ u.length ≤ 255) ∧ 1 ≤ pw.length ∧ pw.length ≤ 255 := by
    rintro u pw ⟨⟩
    decide
  have hremote : serializeEndpoint Reference.platform ⟨.domainName, lit "example.com", 443⟩ 509
      = .ok (0x03 :: 11 :: (lit "example.com" ++ [1, 187])) := by decide
  obtain ⟨data, hdata, haccepted, -⟩ := handshake_agrees Reference.platform_addressText
    ((∅ : ValueMap Bytes).insert (lit "user") (lit "pw")) hvo hpair hremote fun _ => none
  obtain ⟨e, hsame, hconfirmed, -⟩ := haccepted rfl
  exact ⟨data, e, hdata, hsame, hconfirmed rfl⟩

end Socks5

end Pichi
