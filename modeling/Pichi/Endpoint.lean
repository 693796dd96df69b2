/-
# Endpoints and their wire form

`common/endpoint.hpp` and `common/endpoint.cpp`: the endpoint type, the tagged
layouts in which SOCKS5, Shadowsocks and Trojan put an endpoint on the wire, the two
decoders, and the construction of endpoints from text.

The decoders ask for the parts of a layout one after another and read them into one
512-byte array.  `parse_endpoint` is a coroutine, modelled as a `Transfer.Reader`;
`parseEndpoint` takes a callback, modelled as a function of the supplier.  What a
request delivers is written over the front of the array, so that a short answer
leaves older bytes behind it.
-/
import Mathlib.Data.Nat.Digits.Lemmas
import Mathlib.Tactic.Ring
import Pichi.Platform
import Pichi.Transfer

namespace Pichi

open Transfer (Reader)

/-- `pichi::Endpoint`. -/
structure Endpoint where
  type : EndpointType
  host : Bytes
  port : UInt16
  deriving DecidableEq

/-! ## Network byte order -/

/-- `hton<uint16_t>`. -/
def hton (n : UInt16) : Bytes := [UInt8.ofNat (n.toNat / 256), UInt8.ofNat (n.toNat % 256)]

/-- `ntoh<uint16_t>` on the first two bytes of a buffer. -/
def ntoh (b : Bytes) : UInt16 := UInt16.ofNat ((b.getD 0 0).toNat * 256 + (b.getD 1 0).toNat)

@[simp] theorem length_hton (n : UInt16) : (hton n).length = 2 := rfl

/-- Decoding undoes encoding, whatever follows the two bytes. -/
theorem ntoh_hton_append (n : UInt16) (t : Bytes) : ntoh (hton n ++ t) = n := by
  apply UInt16.toNat_inj.mp
  have hn := n.toNat_lt
  simp only [ntoh, hton, List.cons_append, List.getD_cons_zero, List.getD_cons_succ,
    UInt8.toNat_ofNat', UInt16.toNat_ofNat']
  omega

/-- Encoding undoes decoding. -/
theorem hton_ntoh (a b : UInt8) (t : Bytes) : hton (ntoh (a :: b :: t)) = [a, b] := by
  have ha := a.toNat_lt
  have hb := b.toNat_lt
  simp only [ntoh, hton, List.getD_cons_zero, List.getD_cons_succ, UInt16.toNat_ofNat']
  have h1 : (a.toNat * 256 + b.toNat) % 2 ^ 16 / 256 = a.toNat := by omega
  have h2 : (a.toNat * 256 + b.toNat) % 2 ^ 16 % 256 = b.toNat := by omega
  rw [h1, h2, UInt8.ofNat_toNat, UInt8.ofNat_toNat]

/-! ## Encoding -/

section Codec

variable (p : Platform)

/-- `IPv4::ip2Bytes`; the throwing `ip::make_address_v4` reports bad text. -/
def ipv4ToBytes (text : Bytes) : Checked Bytes :=
  match p.makeAddressV4 text with
  | some a => .ok a.1
  | none => .error ⟨.asio .invalidArgument, ""⟩

/-- `IPv6::ip2Bytes`. -/
def ipv6ToBytes (text : Bytes) : Checked Bytes :=
  match p.makeAddressV6 text with
  | some a => .ok a.1
  | none => .error ⟨.asio .invalidArgument, ""⟩

/-- `serializeEndpoint` into a buffer of the given capacity.  The result is what it
writes at the start of the buffer; the number it returns is the length of that. -/
def serializeEndpoint (e : Endpoint) (capacity : ℕ) : Checked Bytes := do
  Checked.assertFalse e.host.isEmpty .misc ""
  let head ← (match e.type with
    | .domainName => do
        Checked.assertTrue (e.host.length ≤ 0xff) .misc ""
        -- the tag, the length and the port take four bytes
        Checked.assertTrue (4 + e.host.length ≤ capacity) .misc ""
        pure ((0x03 : UInt8) :: UInt8.ofNat e.host.length :: e.host)
    | .ipv4 => do
        Checked.assertTrue (7 ≤ capacity) .misc ""
        return (0x01 : UInt8) :: (← ipv4ToBytes p e.host)
    | .ipv6 => do
        Checked.assertTrue (19 ≤ capacity) .misc ""
        return (0x04 : UInt8) :: (← ipv6ToBytes p e.host))
  return head ++ hton e.port

/-! ## Decoding -/

/-- The decoders' `std::array<uint8_t, 512>`, zero at first. -/
def readBuffer : Bytes := List.replicate 512 0

/-- What a request delivered, written over the front of the array. -/
def overwrite (buf w : Bytes) : Bytes := w ++ buf.drop w.length

/-- `bytes2Ip`'s copy of the first `n` bytes into a zeroed address. -/
def toAddress (n : ℕ) (buf : Bytes) : AddressBytes n :=
  ⟨(buf ++ List.replicate n 0).take n, by simp⟩

/-- The failure of `fail(PichiError::BAD_PROTO)`. -/
def badProto : Fault := .thrown (.systemError ⟨.pichi .badProto, ""⟩)

/-- `parse_endpoint`, the coroutine. -/
def parse_endpoint : Reader UInt8 Fault Endpoint :=
  .read 1 fun w =>
    let buf := overwrite readBuffer w
    if buf.headD 0 = 0x01 then
      -- the reads share one array, and each overwrites its front
      .read 6 fun w =>
        let buf := overwrite buf w
        .ret ⟨.ipv4, p.toStringV4 (toAddress 4 buf), ntoh (buf.drop 4)⟩
    else if buf.headD 0 = 0x03 then
      .read 1 fun w =>
        let buf := overwrite buf w
        let len := (buf.headD 0).toNat
        if 0 < len then
          .read (len + 2) fun w =>
            let buf := overwrite buf w
            .ret ⟨.domainName, buf.take len, ntoh (buf.drop len)⟩
        else .fail badProto
    else if buf.headD 0 = 0x04 then
      .read 18 fun w =>
        let buf := overwrite buf w
        .ret ⟨.ipv6, p.toStringV6 (toAddress 16 buf), ntoh (buf.drop 16)⟩
    else .fail badProto

/-- `parseEndpoint`, with the callback `read` and the state it works on. -/
def parseEndpoint {S : Type} (read : S → ℕ → Result Bytes × S) (s : S) : Result Endpoint × S :=
  match read s 1 with
  | (.error f, s) => (.error f, s)
  | (.ok w, s) =>
    let buf := overwrite readBuffer w
    if buf.headD 0 = 0x01 then
      match read s 6 with
      | (.error f, s) => (.error f, s)
      | (.ok w, s) =>
        let buf := overwrite buf w
        (.ok ⟨.ipv4, p.toStringV4 (toAddress 4 buf), ntoh (buf.drop 4)⟩, s)
    else if buf.headD 0 = 0x03 then
      match read s 1 with
      | (.error f, s) => (.error f, s)
      | (.ok w, s) =>
        let buf := overwrite buf w
        let len := (buf.headD 0).toNat
        if 0 < len then
          match read s (len + 2) with
          | (.error f, s) => (.error f, s)
          | (.ok w, s) =>
            let buf := overwrite buf w
            (.ok ⟨.domainName, buf.take len, ntoh (buf.drop len)⟩, s)
        else (.error badProto, s)
    else if buf.headD 0 = 0x04 then
      match read s 18 with
      | (.error f, s) => (.error f, s)
      | (.ok w, s) =>
        let buf := overwrite buf w
        (.ok ⟨.ipv6, p.toStringV6 (toAddress 16 buf), ntoh (buf.drop 16)⟩, s)
    else (.error badProto, s)

/-- The supplier over a byte string: exactly the bytes asked for, or the end of the
stream. -/
def fromBytes (s : Bytes) (n : ℕ) : Result Bytes × Bytes :=
  if n ≤ s.length then (.ok (s.take n), s.drop n)
  else (.error (.thrown (.systemError ⟨.asio .eof, ""⟩)), [])

/-! ## Endpoints from text -/

/-- `detectHostType`. -/
def detectHostType (host : Bytes) : Checked EndpointType := do
  Checked.assertFalse host.isEmpty .misc ""
  match p.makeAddress host with
  | none => return .domainName
  | some (.v4 _) => return .ipv4
  | some (.v6 _) => return .ipv6

/-- `makeEndpoint(string_view, uint16_t)`. -/
def makeEndpoint (host : Bytes) (port : UInt16) : Checked Endpoint := do
  return ⟨← detectHostType p host, host, port⟩

end Codec

/-- The decimal text of a number, as `std::format` writes it. -/
def decimal (n : ℕ) : Bytes :=
  if n = 0 then [48] else (Nat.digits 10 n).reverse.map fun d => UInt8.ofNat (48 + d)

/-- The value of a decimal digit. -/
def digit? (b : UInt8) : Option ℕ :=
  if 48 ≤ b.toNat ∧ b.toNat ≤ 57 then some (b.toNat - 48) else none

/-- The decimal digits at the front of a text, as `std::from_chars` accumulates them,
and what follows them. -/
def takeDigits : ℕ → Bytes → ℕ × Bytes
  | acc, [] => (acc, [])
  | acc, b :: t =>
    match digit? b with
    | some d => takeDigits (acc * 10 + d) t
    | none => (acc, b :: t)

/-- `std::from_chars` into an `int`, followed by the check that it used the whole
text: `none` when it finds no digit, stops early or overflows. -/
def fromChars (s : Bytes) : Option ℤ :=
  let (negative, digits) :=
    match s with
    -- a minus sign is accepted, a plus sign is not
    | 45 :: t => (true, t)
    | s => (false, s)
  match digits with
  | [] => none
  | b :: _ =>
    if (digit? b).isNone then none
    else
      let (n, rest) := takeDigits 0 digits
      let value : ℤ := if negative then -(n : ℤ) else n
      if rest = [] ∧ -2 ^ 31 ≤ value ∧ value < 2 ^ 31 then some value else none

/-- `makeEndpoint(string_view, string_view)`. -/
def makeEndpointText (p : Platform) (host port : Bytes) : Checked Endpoint := do
  let some value := fromChars port | Checked.fail .misc ""
  Checked.assertTrue (0 ≤ value) .misc ""
  Checked.assertTrue (value ≤ 65535) .misc ""
  return ⟨← detectHostType p host, host, UInt16.ofNat value.toNat⟩

/-- The kind of address a text is. -/
theorem makeEndpoint_eq_ok_iff {p : Platform} {host : Bytes} {port : UInt16} {e : Endpoint} :
    makeEndpoint p host port = .ok e ↔ host ≠ [] ∧ e.host = host ∧ e.port = port ∧
      match p.makeAddress host with
      | none => e.type = .domainName
      | some (.v4 _) => e.type = .ipv4
      | some (.v6 _) => e.type = .ipv6 := by
  obtain ⟨type, host', port'⟩ := e
  simp only [makeEndpoint, detectHostType, bind_eq_ok_iff, Checked.assertFalse_eq_ok_iff, pure,
    Except.pure, Except.ok.injEq, Endpoint.mk.injEq]
  rcases p.makeAddress host with _ | ⟨a | a⟩ <;>
  · simp only [Except.ok.injEq]
    constructor
    · rintro ⟨t, ⟨-, hne, rfl⟩, rfl, rfl, rfl⟩
      exact ⟨by simpa using hne, rfl, rfl, rfl⟩
    · rintro ⟨hne, rfl, rfl, rfl⟩
      exact ⟨_, ⟨(), by simpa using hne, rfl⟩, rfl, rfl, rfl⟩

/-- A text has the IPv6 type exactly when it is an IPv6 address. -/
theorem type_eq_ipv6_iff {p : Platform} {host : Bytes} {port : UInt16} {e : Endpoint}
    (h : makeEndpoint p host port = .ok e) :
    e.type = .ipv6 ↔ ∃ a, p.makeAddressV6 host = some a := by
  obtain ⟨-, -, -, htype⟩ := makeEndpoint_eq_ok_iff.mp h
  rw [Platform.makeAddress] at htype
  cases hv6 : p.makeAddressV6 host with
  | some a =>
      rw [hv6] at htype
      simpa using htype
  | none =>
      rw [hv6] at htype
      cases hv4 : p.makeAddressV4 host with
      | some a =>
          rw [hv4] at htype
          simp only [Option.map_some] at htype
          simp [htype]
      | none =>
          rw [hv4] at htype
          simp only [Option.map_none] at htype
          simp [htype]

/-! ## Decimal text -/

/-- The text of a digit below ten is that digit. -/
theorem digit?_ofNat {d : ℕ} (h : d < 10) : digit? (UInt8.ofNat (48 + d)) = some d := by
  have hval : (UInt8.ofNat (48 + d)).toNat = 48 + d := by
    rw [UInt8.toNat_ofNat']
    omega
  rw [digit?, hval, if_pos (by omega)]
  congr 1
  omega

/-- Accumulating a list of digits, most significant first. -/
theorem takeDigits_map (l : List ℕ) (hl : ∀ d ∈ l, d < 10) :
    ∀ acc, takeDigits acc (l.map fun d => UInt8.ofNat (48 + d))
      = (l.foldl (fun a d => a * 10 + d) acc, []) := by
  induction l with
  | nil => intro acc; rfl
  | cons d l ih =>
      intro acc
      rw [List.map_cons, takeDigits, digit?_ofNat (hl d (by simp))]
      exact ih (fun e he => hl e (by simp [he])) _

/-- Reading the decimal text of a number gives the number back. -/
theorem takeDigits_decimal (n : ℕ) : takeDigits 0 (decimal n) = (n, []) := by
  unfold decimal
  split
  · rename_i hn
    subst hn
    decide
  · rw [takeDigits_map _ (fun d hd => Nat.digits_lt_base (by omega) (List.mem_reverse.mp hd))]
    -- the digits come least significant first, so the fold is taken from the other end
    have hofDigits := Nat.ofDigits_digits 10 n
    rw [Nat.ofDigits_eq_foldr] at hofDigits
    have hfun : (fun d a : ℕ => a * 10 + d) = fun d a => d + 10 * a := by
      funext d a
      ring
    rw [List.foldl_reverse, hfun]
    exact congrArg (·, []) hofDigits

theorem decimal_ne_nil (n : ℕ) : decimal n ≠ [] := by
  unfold decimal
  split
  · simp
  · rename_i hn
    simp [Nat.digits_ne_nil_iff_ne_zero, hn]

/-- Decimal text is made of digits. -/
theorem digit_of_mem_decimal {n : ℕ} {b : UInt8} (h : b ∈ decimal n) :
    48 ≤ b.toNat ∧ b.toNat ≤ 57 := by
  unfold decimal at h
  split at h
  · rw [List.mem_singleton] at h
    subst h
    decide
  · obtain ⟨d, hd, rfl⟩ := List.mem_map.mp h
    have hlt := Nat.digits_lt_base (by omega) (List.mem_reverse.mp hd)
    rw [UInt8.toNat_ofNat']
    omega

/-- Decimal text is read as the number it was written for. -/
theorem fromChars_decimal {n : ℕ} (hn : n < 2 ^ 31) : fromChars (decimal n) = some (n : ℤ) := by
  have htake := takeDigits_decimal n
  cases hd : decimal n with
  | nil => exact absurd hd (decimal_ne_nil n)
  | cons b t =>
      have hb := digit_of_mem_decimal (n := n) (b := b) (by simp [hd])
      have hminus : b ≠ 45 := by
        rintro rfl
        simp at hb
      have hdigit : (digit? b).isNone = false := by
        rw [digit?, if_pos hb]
        rfl
      rw [hd] at htake
      unfold fromChars
      split
      rename_i negative digits heq
      split at heq
      · rename_i u hu
        exact absurd (List.cons.inj hu).1 hminus
      · cases heq
        simp only [hdigit, htake]
        simp
        omega

/-- The two ways to make an endpoint agree on the text of a port. -/
theorem makeEndpointText_decimal (p : Platform) (host : Bytes) (port : UInt16) :
    makeEndpointText p host (decimal port.toNat) = makeEndpoint p host port := by
  have hlt := port.toNat_lt
  have hport : UInt16.ofNat port.toNat = port := UInt16.ofNat_toNat
  rw [makeEndpointText, fromChars_decimal (by omega), makeEndpoint]
  have hpos : (0 : ℤ) ≤ port.toNat := by omega
  have hle : (port.toNat : ℤ) ≤ 65535 := by omega
  simp only [Checked.assertTrue, hpos, hle, decide_true, if_true, Int.toNat_natCast, hport]
  rfl

end Pichi
