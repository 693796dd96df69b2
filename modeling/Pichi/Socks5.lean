/-
# The SOCKS5 adapters

`adapter/tcp/socks5.cpp`: the handshake of the ingress and of the egress as programs over a
channel, with the table of error replies and the username/password sub-negotiation.

The request of the sub-negotiation is written into an array of 1024 bytes with lengths of one
byte, while the configuration accepts names and passwords of any length.

**Main result** (`genData_iff`): a credential the configuration accepts fits into the array
and is read back by the ingress if and only if its name and its password have at most 255
bytes.
-/
import Pichi.Duplex
import Pichi.EndpointCodec
import Pichi.VoAdapters

namespace Pichi

namespace Socks5

open Duplex (Proc)
open Transfer (Reader)

/-- A failed assertion in a program over a channel. -/
def check {α : Type} : Checked α → Proc UInt8 Fault α
  | .ok a => .ret a
  | .error e => .fail (.thrown (.systemError e))

/-! ## Replies -/

/-- A reply of the ingress to the request of a connection. -/
def reply (code : UInt8) : Bytes := [0x05, code, 0x00, 0x01, 0x00, 0x00, 0x00, 0x00, 0x00, 0x00]

/-- `err_to_buf`. -/
def errToBuf : ErrorCode → Bytes
  | .asio .addressFamilyNotSupported => reply 0x08
  | .asio .connectionRefused => reply 0x05
  | .asio .connectionReset => reply 0x05
  | .asio .hostNotFound => reply 0x04
  | .asio .hostUnreachable => reply 0x04
  | .asio .networkDown => reply 0x03
  | .asio .networkUnreachable => reply 0x03
  | .asio .timedOut => reply 0x04
  | .pichi .connFailure => reply 0x04
  | .pichi .badAuthMethod => [0x05, 0xff]
  | .pichi .unauthenticated => [0x01, 0xff]
  | _ => []

/-! ## Credentials -/

/-- `read_string`, and how it goes on. -/
def readString {α : Type} (k : Bytes → Reader UInt8 Fault α) : Reader UInt8 Fault α :=
  .read 1 fun w =>
    let buf := overwrite (List.replicate 256 0) w
    if buf.headD 0 = 0 then .fail badProto
    else
      let len := (buf.headD 0).toNat
      .read len fun w => k ((overwrite buf w).take len)

/-- The request of the sub-negotiation, as `authenticate` reads it. -/
def readCredential : Reader UInt8 Fault (Bytes × Bytes) :=
  .read 1 fun w =>
    if (overwrite [0] w).headD 0 = 0x01 then
      readString fun u => readString fun pw => .ret (u, pw)
    else .fail badProto

/-- The bytes of the array of an `EgressCredential`. -/
def credentialCapacity : ℕ := 1024

/-- `gen_data`: what it writes at the start of the array.  A write behind its end is undefined. -/
def genData (vo : Egress) : Result Bytes :=
  match vo.credential with
  | none => .ok []
  | some credential => do
    let c := (← credential.getUp).credential
    let data := 0x01 :: UInt8.ofNat c.1.length :: (c.1 ++ UInt8.ofNat c.2.length :: c.2)
    if data.length ≤ credentialCapacity then return data else .error .undefinedBehaviour

/-- `IngressCredential::need_auth`. -/
def needAuth (credential : ValueMap Bytes) : Bool := !credential.entries.isEmpty

/-! ## The ingress -/

section Ingress

variable (p : Platform) (credential : ValueMap Bytes)

/-- `authenticate`. -/
def authenticate : Proc UInt8 Fault Unit := do
  let (u, pw) ← Proc.ofReader readCredential
  check (Checked.assertTrue (credential.lookup u = some pw) .unauthenticated "")
  Proc.send [0x01, 0x00]

/-- `continue_read_remote`. -/
def continueReadRemote (b : Bytes) : Proc UInt8 Fault Endpoint := do
  check (Checked.assertTrue (b.length = 1) .misc "")
  check (Checked.assertTrue (b.headD 0 = 0x05) .badProto "")
  let buf := overwrite readBuffer (← Proc.receive 1)
  check (Checked.assertTrue (buf.headD 0 > 0) .badProto "")
  let len := (buf.headD 0).toNat
  let buf := overwrite buf (← Proc.receive len)
  let m := if needAuth credential then 0x02 else 0x00
  check (Checked.assertTrue ((buf.take len).any (· = m)) .badAuthMethod "")
  let buf := overwrite buf [0x05, m]
  Proc.send (buf.take 2)
  if needAuth credential then authenticate credential
  let buf := overwrite buf (← Proc.receive 3)
  check (Checked.assertTrue (buf.getD 0 0 = 0x05) .badProto "")
  check (Checked.assertTrue (buf.getD 1 0 = 0x01) .badProto "")
  check (Checked.assertTrue (buf.getD 2 0 = 0x00) .badProto "")
  Proc.ofReader (parse_endpoint p)

/-- `read_remote`, over a layer whose `accept` is done. -/
def readRemote : Proc UInt8 Fault Endpoint := do
  continueReadRemote p credential (overwrite [0] (← Proc.receive 1))

/-- `confirm`. -/
def confirm : Proc UInt8 Fault Unit := Proc.send (reply 0x00)

/-- `disconnect`. -/
def disconnect (ec : ErrorCode) : Proc UInt8 Fault Unit := Proc.send (errToBuf ec)

end Ingress

/-! ## The egress -/

/-- The text of a byte string in a message. -/
def text (b : Bytes) : String := String.ofList (b.map fun x => Char.ofNat x.toNat)

/-- `connect`, over a layer that is connected; `data` is the request of the credential, empty if
there is none. -/
def connect (p : Platform) (data : Bytes) (remote : Endpoint) : Proc UInt8 Fault Unit := do
  let m := if data.length > 0 then 0x02 else 0x00
  let buf := overwrite readBuffer [0x05, 0x01, m]
  Proc.send (buf.take 3)
  let buf := overwrite buf (← Proc.receive 2)
  check (Checked.assertTrue (buf.getD 0 0 = 0x05) .badProto "")
  check (Checked.assertTrue (buf.getD 1 0 = m) .badAuthMethod "")
  let buf ← (if data.length > 0 then do
      Proc.send data
      let buf := overwrite buf (← Proc.receive 2)
      check (Checked.assertTrue (buf.getD 0 0 = 0x01) .badProto "")
      check (Checked.assertTrue (buf.getD 1 0 = 0x00) .unauthenticated "")
      return buf
    else return buf)
  -- the request and the destination share the array of 512 bytes
  let request := 0x05 :: 0x01 :: 0x00 :: (← check (serializeEndpoint p remote 509))
  let buf := overwrite buf request
  Proc.send (buf.take request.length)
  let buf := overwrite buf (← Proc.receive 3)
  check (Checked.assertTrue (buf.getD 0 0 = 0x05) .badProto "")
  check (Checked.assertTrue (buf.getD 1 0 = 0x00) .connFailure
    ("Failed to establish connection with " ++ text remote.host ++ ":" ++ toString remote.port))
  check (Checked.assertTrue (buf.getD 2 0 = 0x00) .badProto "")
  let _ ← Proc.ofReader (parse_endpoint p)
  return ()

/-! ## Credentials on the wire -/

/-- Reading a string that was written with its length in front. -/
theorem run_readString {α : Type} (k : Bytes → Reader UInt8 Fault α) {s t : Bytes} (hne : s ≠ [])
    (hle : s.length ≤ 255) :
    (readString k).run fromBytes (UInt8.ofNat s.length :: (s ++ t)) = (k s).run fromBytes t := by
  have hpos := List.length_pos_of_ne_nil hne
  have hlen : (UInt8.ofNat s.length).toNat = s.length := by
    rw [UInt8.toNat_ofNat']
    omega
  have hzero : UInt8.ofNat s.length ≠ 0 := by
    intro h
    rw [h] at hlen
    simp at hlen
    omega
  have hfirst : fromBytes (UInt8.ofNat s.length :: (s ++ t)) 1
      = (.ok [UInt8.ofNat s.length], s ++ t) :=
    fromBytes_append [UInt8.ofNat s.length] (s ++ t)
  rw [readString, Reader.run_read_of_ok hfirst]
  simp only [headD_overwrite_singleton, hzero, if_false, hlen]
  rw [Reader.run_read_of_ok (fromBytes_append s t), take_overwrite (le_refl _), List.take_length]

/-- A string that was read has at most 255 bytes. -/
theorem exists_of_run_readString {α : Type} {k : Bytes → Reader UInt8 Fault α} {s t : Bytes} {v : α}
    (h : (readString k).run fromBytes s = (.ok v, t)) :
    ∃ x s', x.length ≤ 255 ∧ (k x).run fromBytes s' = (.ok v, t) := by
  rw [readString] at h
  obtain ⟨w, s₁, -, -, h⟩ := exists_of_run_read_fromBytes h
  simp only at h
  split at h
  · cases h
  · obtain ⟨w', s₂, -, -, h⟩ := exists_of_run_read_fromBytes h
    refine ⟨_, s₂, ?_, h⟩
    have hlt := UInt8.toNat_lt ((overwrite (List.replicate 256 0) w).headD 0)
    rw [List.length_take]
    omega

/-- The request of a credential whose parts have 1 to 255 bytes is read back. -/
theorem run_readCredential {u pw : Bytes} (hu : u ≠ []) (hu' : u.length ≤ 255) (hpw : pw ≠ [])
    (hpw' : pw.length ≤ 255) (t : Bytes) :
    readCredential.run fromBytes
        (0x01 :: UInt8.ofNat u.length :: (u ++ UInt8.ofNat pw.length :: pw) ++ t)
      = (.ok (u, pw), t) := by
  have hver : fromBytes (0x01 :: UInt8.ofNat u.length :: (u ++ UInt8.ofNat pw.length :: pw) ++ t) 1
      = (.ok [0x01], UInt8.ofNat u.length :: (u ++ (UInt8.ofNat pw.length :: (pw ++ t)))) := by
    rw [List.cons_append, List.cons_append, List.append_assoc, List.cons_append]
    exact fromBytes_append [0x01] _
  rw [readCredential, Reader.run_read_of_ok hver]
  simp only [headD_overwrite_singleton, if_true]
  rw [run_readString _ hu hu', run_readString _ hpw hpw']
  rfl

/-- What `gen_data` writes, if it fits. -/
theorem genData_eq {vo : Egress} {u pw : Bytes} (hvo : vo.credential = some (.up ⟨(u, pw)⟩)) :
    genData vo = if 3 + u.length + pw.length ≤ credentialCapacity
      then .ok (0x01 :: UInt8.ofNat u.length :: (u ++ UInt8.ofNat pw.length :: pw))
      else .error .undefinedBehaviour := by
  have hlen : (0x01 :: UInt8.ofNat u.length :: (u ++ UInt8.ofNat pw.length :: pw)).length
      = 3 + u.length + pw.length := by
    simp only [List.length_cons, List.length_append]
    omega
  rw [genData, hvo, ← hlen]
  rfl

/-- Names and passwords that were read have at most 255 bytes. -/
theorem length_le_of_readCredential {data u pw : Bytes}
    (h : (readCredential.run fromBytes data).1 = .ok (u, pw)) :
    u.length ≤ 255 ∧ pw.length ≤ 255 := by
  have hrun : readCredential.run fromBytes data
      = (.ok (u, pw), (readCredential.run fromBytes data).2) := Prod.ext h rfl
  rw [readCredential] at hrun
  obtain ⟨w, s₁, -, -, hrun⟩ := exists_of_run_read_fromBytes hrun
  split at hrun
  · obtain ⟨x, s₂, hx, hrun⟩ := exists_of_run_readString hrun
    obtain ⟨y, s₃, hy, hrun⟩ := exists_of_run_readString hrun
    cases hrun
    exact ⟨hx, hy⟩
  · cases hrun

/-- **Which credentials are encodable.**  For every credential the configuration accepts: its
request fits into the array and is read back as the same name and password, if and only if
both have at most 255 bytes. -/
theorem genData_iff {v : Json} {cred : UpEgressCredential}
    (h : UpEgressCredential.parse v = .ok cred) {vo : Egress}
    (hvo : vo.credential = some (.up cred)) :
    (∃ data, genData vo = .ok data
        ∧ (readCredential.run fromBytes data).1 = .ok cred.credential)
      ↔ cred.credential.1.length ≤ 255 ∧ cred.credential.2.length ≤ 255 := by
  obtain ⟨⟨u, pw⟩⟩ := cred
  have hne : u ≠ [] ∧ pw ≠ [] := by
    simp only [UpEgressCredential.parse, bind_eq_ok_iff, pure, Except.pure, Except.ok.injEq,
      UpEgressCredential.mk.injEq, Prod.mk.injEq] at h
    obtain ⟨_, -, _, -, _, -, _, hu, _, hpw, rfl, rfl⟩ := h
    obtain ⟨-, -, -, hu⟩ := parseString_eq_ok_iff.mp hu
    obtain ⟨-, -, -, hpw⟩ := parseString_eq_ok_iff.mp hpw
    exact ⟨hu, hpw⟩
  constructor
  · rintro ⟨data, -, hread⟩
    exact length_le_of_readCredential hread
  · rintro ⟨hu, hpw⟩
    simp only at hu hpw
    have hlen : 3 + u.length + pw.length ≤ credentialCapacity := by
      rw [credentialCapacity]
      omega
    refine ⟨_, by rw [genData_eq hvo, if_pos hlen], ?_⟩
    have hrun := run_readCredential hne.1 hu hne.2 hpw []
    rw [List.append_nil] at hrun
    rw [hrun]

/-- A credential in JSON. -/
def credentialJson (u pw : Bytes) : Json :=
  .obj [field "username" (.str u), field "password" (.str pw)]

/-- A short name and a short password. -/
theorem genData_iff_example :
    ∃ data, genData { type := .socks5, credential := some (.up ⟨(lit "user", lit "pw")⟩) }
        = .ok data
      ∧ (readCredential.run fromBytes data).1 = .ok (lit "user", lit "pw") :=
  (genData_iff (v := credentialJson (lit "user") (lit "pw")) rfl rfl).mpr (by decide)

theorem parse_credentialJson {u pw : Bytes} (hu : u ≠ []) (hu' : 0 ∉ u) (hpw : pw ≠ [])
    (hpw' : 0 ∉ pw) : UpEgressCredential.parse (credentialJson u pw) = .ok ⟨(u, pw)⟩ := by
  have hstring : ∀ {s : Bytes}, s ≠ [] → 0 ∉ s → parseString (.str s) = .ok s := fun hs hs' =>
    parseString_eq_ok_iff.mpr ⟨_, rfl, (cString_eq_self_iff.mpr hs').symm, hs⟩
  have hmembers : (credentialJson u pw).member? "username" = some (.str u)
      ∧ (credentialJson u pw).member? "password" = some (.str pw) := ⟨rfl, rfl⟩
  simp only [UpEgressCredential.parse, bind_eq_ok_iff, Json.assertObject_eq_ok_iff,
    Json.require_eq_ok_iff]
  exact ⟨(), rfl, _, hmembers.1, _, hmembers.2, _, hstring hu hu', _, hstring hpw hpw', rfl⟩

/-- A name of 300 letters is announced with a length of 44, so that the ingress takes its first
44 letters for the name.  Of 1100 letters the last ones are written behind the array. -/
theorem genData_counterexample :
    (∃ cred, UpEgressCredential.parse (credentialJson (List.replicate 300 97) (lit "pw")) = .ok cred
      ∧ ¬∃ data, genData { type := .socks5, credential := some (.up cred) } = .ok data
        ∧ (readCredential.run fromBytes data).1 = .ok cred.credential)
      ∧ ∃ cred, UpEgressCredential.parse (credentialJson (List.replicate 1100 97) (lit "pw"))
          = .ok cred
        ∧ genData { type := .socks5, credential := some (.up cred) }
          = .error .undefinedBehaviour := by
  have hletters : ∀ n, (0 : UInt8) ∉ List.replicate n 97 := by
    intro n h
    exact absurd (List.eq_of_mem_replicate h) (by decide)
  have hparse : ∀ n, n ≠ 0 → UpEgressCredential.parse
      (credentialJson (List.replicate n 97) (lit "pw")) = .ok ⟨(List.replicate n 97, lit "pw")⟩ :=
    fun n hn => parse_credentialJson (by simpa using hn) (hletters n) (by decide) (by decide)
  refine ⟨⟨_, hparse 300 (by omega), ?_⟩, ⟨_, hparse 1100 (by omega), ?_⟩⟩
  · rintro ⟨data, -, hread⟩
    have hle := (length_le_of_readCredential hread).1
    rw [List.length_replicate] at hle
    omega
  · rw [genData_eq rfl, if_neg]
    rw [List.length_replicate, credentialCapacity]
    omega

end Socks5

end Pichi
