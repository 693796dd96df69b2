/-
# What the program takes from outside

JSON documents as the value type the program sees, IP addresses and networks, and
`Platform`: the functions of third-party code (Boost.Asio's address parsing and
formatting, RapidJSON's document parser, `std::regex` on patterns that come from
the configuration, libmaxminddb's lookup, Botan's base64) as parameters of the
model.  What the development relies on about them is stated where it is used, as a
hypothesis on the platform.
-/
import Mathlib.Algebra.Group.Nat.Defs
import Pichi.Basic

namespace Pichi

/-! ## JSON documents -/

/-- A `rapidjson::Value`.  A number that is not an integer is a `double`; no modelled
function looks at its value.  Members of an object keep their order and may repeat. -/
inductive Json : Type where
  | null : Json
  | bool (b : Bool) : Json
  | int (i : ℤ) : Json
  | double : Json
  | str (s : Bytes) : Json
  | arr (items : List Json) : Json
  | obj (members : List (Bytes × Json)) : Json

namespace Json

/-- `FindMember`: the first member with that name. -/
def member? (key : String) : Json → Option Json
  | obj members => members.lookup (lit key)
  | _ => none

/-- `IsObject`. -/
def isObject : Json → Bool
  | obj _ => true
  | _ => false

end Json

/-! ## Addresses and networks -/

/-- The bytes of an address, in network order. -/
abbrev AddressBytes (n : ℕ) := { b : Bytes // b.length = n }

/-- `ip::address_v4`. -/
abbrev AddressV4 := AddressBytes 4

/-- `ip::address_v6`; the scope identifier is read by no modelled function. -/
abbrev AddressV6 := AddressBytes 16

/-- `ip::address`. -/
inductive Address : Type where
  | v4 (a : AddressV4)
  | v6 (a : AddressV6)
  deriving DecidableEq

/-- The unsigned value of an address, most significant byte first. -/
def AddressBytes.toNat {n : ℕ} (a : AddressBytes n) : ℕ :=
  a.1.foldl (fun acc b => acc * 256 + b.toNat) 0

/-- `ip::network_v4` and `ip::network_v6`: an address of `n` bytes and a prefix length. -/
structure Network (n : ℕ) where
  address : AddressBytes n
  prefixLength : ℕ
  prefixLength_le : prefixLength ≤ 8 * n

/-- The number of addresses that share the network's prefix. -/
def Network.size {n : ℕ} (net : Network n) : ℕ := 2 ^ (8 * n - net.prefixLength)

/-- `network().to_uint()`: the lowest address of the block. -/
def Network.lowest {n : ℕ} (net : Network n) : ℕ :=
  net.address.toNat / net.size * net.size

/-- The half-open range of `network_v4::hosts()`: the address itself for a host
network, otherwise the block without its network and broadcast addresses.  The end
of a host range is computed in 32-bit arithmetic. -/
def hostsV4 (net : Network 4) : ℕ × ℕ :=
  if net.prefixLength = 32 then (net.address.toNat, (net.address.toNat + 1) % 2 ^ 32)
  else (net.lowest + 1, net.lowest + net.size - 1)

/-- The half-open range of `network_v6::hosts()`: from the lowest address of the block
to the one after its highest, in 128-bit arithmetic. -/
def hostsV6 (net : Network 16) : ℕ × ℕ :=
  (net.lowest, (net.lowest + net.size) % 2 ^ 128)

/-- `hosts.find(addr) != hosts.end()`. -/
def inHosts (hosts : ℕ × ℕ) (a : ℕ) : Bool := hosts.1 ≤ a && a < hosts.2

/-! ## Third-party functions -/

/-- What a MaxMind database stores under `country.iso_code` for an address. -/
inductive MmdbData : Type where
  | utf8 (s : Bytes)
  | other

/-- The third-party functions the modelled code calls. -/
structure Platform where
  /-- `ip::make_address_v4`, `none` when it reports an error. -/
  makeAddressV4 : Bytes → Option AddressV4
  /-- `ip::make_address_v6`. -/
  makeAddressV6 : Bytes → Option AddressV6
  /-- `address_v4::to_string`. -/
  toStringV4 : AddressV4 → Bytes
  /-- `address_v6::to_string`. -/
  toStringV6 : AddressV6 → Bytes
  /-- `ip::make_network_v4`. -/
  makeNetworkV4 : Bytes → Option (Network 4)
  /-- `ip::make_network_v6`. -/
  makeNetworkV6 : Bytes → Option (Network 16)
  /-- `rapidjson::Document::Parse`, `none` on a syntax error. -/
  parseDocument : Bytes → Option Json
  /-- Whether the constructor of `std::regex` accepts the pattern; it throws
  `std::regex_error` on any other. -/
  regexValid : Bytes → Bool
  /-- `std::regex_search(subject, std::regex{pattern})`. -/
  regexSearch : Bytes → Bytes → Bool
  /-- `Botan::base64_encode`. -/
  base64Encode : Bytes → Bytes
  /-- `error_code::message` outside the program's own category. -/
  systemMessage : ErrorCode → String

namespace Platform

variable (p : Platform)

/-- `ip::make_address`, which tries the IPv6 form first. -/
def makeAddress (text : Bytes) : Option Address :=
  match p.makeAddressV6 text with
  | some a => some (.v6 a)
  | none => (p.makeAddressV4 text).map .v4

/-- `rapidjson::Document::Parse` as `vo::parse` uses it. -/
def document (src : Bytes) : Checked Json :=
  match p.parseDocument src with
  | some doc => .ok doc
  | none => Checked.fail .badJson "JSON syntax error"

/-- What the endpoint codec relies on in Asio: the text of an address is read back as
the same address, and the empty text is not an address. -/
structure AddressText : Prop where
  v4 : ∀ a, p.makeAddressV4 (p.toStringV4 a) = some a
  v6 : ∀ a, p.makeAddressV6 (p.toStringV6 a) = some a
  v4_nil : p.makeAddressV4 [] = none
  v6_nil : p.makeAddressV6 [] = none

/-- What the HTTP adapters meet in Asio: an IPv6 text without a scope, with one more group
behind it, is not the text of the same address. -/
def GroupText : Prop :=
  ∀ text a, 37 ∉ text → p.makeAddressV6 text = some a →
    p.makeAddressV6 (text ++ lit ":80") ≠ some a

/-- One of the 64 characters of base64. -/
def isBase64Char (c : UInt8) : Bool :=
  65 ≤ c && c ≤ 90 || 97 ≤ c && c ≤ 122 || 48 ≤ c && c ≤ 57 || c = 43 || c = 47

/-- What HTTP authentication relies on in Botan: base64 text is a run of the 64 characters,
followed by at most two `=`. -/
def Base64Text : Prop :=
  ∀ b, b ≠ [] → ∃ body k, p.base64Encode b = body ++ List.replicate k 61 ∧ body ≠ []
    ∧ (∀ c ∈ body, isBase64Char c = true) ∧ k ≤ 2

variable {p}

theorem AddressText.toStringV4_ne_nil (h : p.AddressText) (a : AddressV4) :
    p.toStringV4 a ≠ [] := by
  intro hnil
  have hsome := h.v4 a
  rw [hnil, h.v4_nil] at hsome
  cases hsome

theorem AddressText.toStringV6_ne_nil (h : p.AddressText) (a : AddressV6) :
    p.toStringV6 a ≠ [] := by
  intro hnil
  have hsome := h.v6 a
  rw [hnil, h.v6_nil] at hsome
  cases hsome

end Platform

end Pichi
