/-
# Configuration values: scalars, options and credentials

`vo/parse.cpp`, `vo/to_json.cpp`, `vo/options.cpp` and `vo/credential.cpp`: how the
parts of a configuration are read from JSON and written back.  Reading fails by
`system_error` only, so the parsers are `Checked`.
-/
import Pichi.Endpoint

namespace Pichi

/-! ## Messages (`vo/messages.hpp`) -/

namespace Msg

/-- A value that is no object. -/
def objTypeError := "JSON object required"
/-- A value that is no array, and the credential of an egress that is no object. -/
def aryTypeError := "JSON array required"
/-- A value that is no integer of 32 bits. -/
def intTypeError := "Integer required"
/-- A value that is no string, also where a name is expected. -/
def strTypeError := "String required"
/-- A value that is neither `true` nor `false`. -/
def boolTypeError := "Boolean required"
/-- An array without items, and a rule of a route with fewer than two. -/
def arySizeError := "Array size error"
/-- A `type` that is not one of the nine names. -/
def atInvalid := "Invalid adapter type string"
/-- A `method` that is not one of the five names. -/
def cmInvalid := "Invalid crypto method string"
/-- An integer that does not fit into 16 bits. -/
def uint16Invalid := "Exceed the range of uint16_t [0, 65536)"
/-- A `mode` that is neither `random` nor `fixed`. -/
def dmInvalid := "Invalid delay mode type string"
/-- A fixed `delay` of more than five minutes. -/
def dlInvalid := "Delay time must be in range [0, 300]"
/-- A `balance` that is not one of the three names. -/
def baInvalid := "Invalid balance string"
/-- A string without characters, or with a NUL in front. -/
def strEmpty := "Empty string"
/-- The kind of an ingress or egress. -/
def missingTypeField := "Missing type field"
/-- The first half of an endpoint. -/
def missingHostField := "Missing host field"
/-- The addresses an ingress listens on. -/
def missingBindField := "Missing bind field"
/-- The second half of an endpoint. -/
def missingPortField := "Missing port field"
/-- The cipher of Shadowsocks. -/
def missingMethodField := "Missing method field"
/-- The name of an entry of a credential. -/
def missingUnField := "Missing username field"
/-- The password of a credential or of Shadowsocks. -/
def missingPwField := "Missing password field"
/-- How the delay of a rejecting egress is drawn. -/
def missingModeField := "Missing mode field"
/-- The certificate of a TLS ingress. -/
def missingCertFileField := "Missing cert_file field"
/-- The private key of a TLS ingress. -/
def missingKeyFileField := "Missing key_file field"
/-- The fallback of a Trojan ingress. -/
def missingRemoteField := "Missing remote field"
/-- The path of a websocket; the source has the text of the field above. -/
def missingPathField := "Missing remote field"
/-- The destinations of a tunnel; the text is misspelt in the source. -/
def missingDestinationsField := "Missiong destinations field"
/-- How a tunnel chooses; the text is misspelt in the source. -/
def missingBalanceField := "Missiong balance field"
/-- The options of a kind that cannot do without. -/
def missingOptionField := "Missing option field"
/-- The certificates of a Trojan adapter. -/
def missingTlsField := "Missing tls field"
/-- The passwords of a Trojan adapter. -/
def missingCredField := "Missing credential field"
/-- The server behind an egress. -/
def missingServerField := "Missing server field"
/-- A name or password that is there already. -/
def duplicatedItems := "Duplicated items"

end Msg

/-! ## Access to JSON values -/

namespace Json

/-- `assertTrue(v.IsObject(), BAD_JSON, msg)`. -/
def assertObject (v : Json) (msg : String) : Checked Unit :=
  Checked.assertTrue v.isObject .badJson msg

/-- `assertTrue(v.HasMember(key), BAD_JSON, msg)`, and then `v[key]`. -/
def require (v : Json) (key msg : String) : Checked Json :=
  match v.member? key with
  | some m => .ok m
  | none => Checked.fail .badJson msg

/-- Parse a member if it is there. -/
def optional {α : Type} (v : Json) (key : String) (parse : Json → Checked α) :
    Checked (Option α) :=
  match v.member? key with
  | some m => do return some (← parse m)
  | none => .ok none

/-- `GetArray` after `assertTrue(v.IsArray(), BAD_JSON, ARY_TYPE_ERROR)`. -/
def items : Json → Checked (List Json)
  | arr items => .ok items
  | _ => Checked.fail .badJson Msg.aryTypeError

variable {v m : Json} {key msg : String}

@[simp] theorem assertObject_eq_ok_iff {u : Unit} :
    v.assertObject msg = .ok u ↔ v.isObject = true :=
  Checked.assertTrue_eq_ok_iff

@[simp] theorem require_eq_ok_iff : v.require key msg = .ok m ↔ v.member? key = some m := by
  unfold require
  cases v.member? key <;> simp [Checked.fail]

@[simp] theorem items_eq_ok_iff {l : List Json} : v.items = .ok l ↔ v = .arr l := by
  cases v <;> simp [items, Checked.fail]

/-- An optional member is absent, or there and parsed. -/
theorem optional_eq_ok_iff {α : Type} {parse : Json → Checked α} {o : Option α} :
    v.optional key parse = .ok o ↔
      v.member? key = none ∧ o = none
        ∨ ∃ m a, v.member? key = some m ∧ parse m = .ok a ∧ o = some a := by
  unfold optional
  cases v.member? key with
  | none => simp [eq_comm]
  | some m =>
      rw [bind_eq_ok_iff]
      constructor
      · rintro ⟨a, ha, h⟩
        cases h
        exact Or.inr ⟨m, a, rfl, ha, rfl⟩
      · rintro (⟨h, -⟩ | ⟨m', a, h, ha, rfl⟩)
        · cases h
        · cases h
          exact ⟨a, ha, rfl⟩

end Json

/-- `AddMember`. -/
def field (key : String) (v : Json) : Bytes × Json := (lit key, v)

/-! ## Scalars -/

/-- `parse<std::string>`; the string is read through a `char const*`. -/
def parseString : Json → Checked Bytes
  | .str s => do
    Checked.assertFalse (cString s).isEmpty .badJson Msg.strEmpty
    return cString s
  | _ => Checked.fail .badJson Msg.strTypeError

/-- A string is read up to its first NUL, and that part must not be empty. -/
theorem parseString_eq_ok_iff {v : Json} {s : Bytes} :
    parseString v = .ok s ↔ ∃ raw, v = .str raw ∧ s = cString raw ∧ s ≠ [] := by
  unfold parseString
  split
  · rename_i raw
    rw [bind_eq_ok_iff]
    constructor
    · rintro ⟨u, hne, h⟩
      cases h
      rw [Checked.assertFalse_eq_ok_iff] at hne
      exact ⟨raw, rfl, rfl, by simpa using hne⟩
    · rintro ⟨raw', hraw, rfl, hne⟩
      cases hraw
      exact ⟨(), Checked.assertFalse_eq_ok_iff.mpr (by simpa using hne), rfl⟩
  · rename_i hne
    constructor
    · intro h
      cases h
    · rintro ⟨raw, rfl, -⟩
      exact absurd rfl (hne raw)

/-- `parse<bool>`. -/
def parseBool : Json → Checked Bool
  | .bool b => .ok b
  | _ => Checked.fail .badJson Msg.boolTypeError

/-- `parse<uint16_t>`; `IsInt` holds of the integers of 32 bits. -/
def parseUInt16 : Json → Checked UInt16
  | .int i => do
    Checked.assertTrue (-2 ^ 31 ≤ i && i < 2 ^ 31) .badJson Msg.intTypeError
    Checked.assertTrue (0 ≤ i) .badJson Msg.uint16Invalid
    Checked.assertTrue (i ≤ 65535) .badJson Msg.uint16Invalid
    return UInt16.ofNat i.toNat
  | _ => Checked.fail .badJson Msg.intTypeError

/-- The parsers of the enumerations: the string is compared with each name in turn. -/
def parseName {α : Type} (names : List (String × α)) (msg : String) : Json → Checked α
  | .str s =>
    match names.find? fun entry => cString s = lit entry.1 with
    | some entry => .ok entry.2
    | none => Checked.fail .badJson msg
  | _ => Checked.fail .badJson Msg.strTypeError

/-- The texts of `vo::type`. -/
def AdapterType.name : AdapterType → String
  | .direct => "direct"
  | .reject => "reject"
  | .socks5 => "socks5"
  | .http => "http"
  | .ss => "ss"
  | .tunnel => "tunnel"
  | .trojan => "trojan"
  | .transp => "transparent"
  | .dual => "dual"

/-- The texts of `vo::method`. -/
def CryptoMethod.name : CryptoMethod → String
  | .aes128Gcm => "aes-128-gcm"
  | .aes192Gcm => "aes-192-gcm"
  | .aes256Gcm => "aes-256-gcm"
  | .chacha20IetfPoly1305 => "chacha20-ietf-poly1305"
  | .xchacha20IetfPoly1305 => "xchacha20-ietf-poly1305"

/-- The texts of `vo::delay`. -/
def DelayMode.name : DelayMode → String
  | .random => "random"
  | .fixed => "fixed"

/-- The texts of `vo::balance`. -/
def BalanceType.name : BalanceType → String
  | .random => "random"
  | .roundRobin => "round_robin"
  | .leastConn => "least_conn"

/-- `parse<AdapterType>`. -/
def parseAdapterType : Json → Checked AdapterType :=
  parseName ([.direct, .reject, .socks5, .http, .ss, .tunnel, .trojan, .transp, .dual].map
    fun t => (t.name, t)) Msg.atInvalid

/-- `parse<CryptoMethod>`. -/
def parseCryptoMethod : Json → Checked CryptoMethod :=
  parseName ([.aes128Gcm, .aes192Gcm, .aes256Gcm, .chacha20IetfPoly1305,
    .xchacha20IetfPoly1305].map fun m => (m.name, m)) Msg.cmInvalid

/-- `parse<DelayMode>`. -/
def parseDelayMode : Json → Checked DelayMode :=
  parseName ([.random, .fixed].map fun m => (m.name, m)) Msg.dmInvalid

/-- `parse<BalanceType>`. -/
def parseBalanceType : Json → Checked BalanceType :=
  parseName ([.random, .roundRobin, .leastConn].map fun b => (b.name, b)) Msg.baInvalid

/-- `toJson(std::string_view)`. -/
def stringToJson (s : Bytes) : Json := .str s

/-- `toJson` of an enumerator. -/
def nameToJson (name : String) : Json := .str (lit name)

/-! ## Endpoints -/

/-- `parse<Endpoint>`. -/
def Endpoint.parse (p : Platform) (v : Json) : Checked Endpoint := do
  v.assertObject Msg.objTypeError
  let host ← v.require "host" Msg.missingHostField
  let port ← v.require "port" Msg.missingPortField
  makeEndpoint p (← parseString host) (← parseUInt16 port)

/-- `toJson(Endpoint)`. -/
def Endpoint.toJson (e : Endpoint) : Json :=
  .obj [field "host" (stringToJson e.host), field "port" (.int e.port.toNat)]

/-! ## Options (`vo/options.cpp`) -/

structure ShadowsocksOption where
  password : Bytes
  method : CryptoMethod

structure TunnelOption where
  destinations : List Endpoint
  balance : BalanceType

/-- `vo::RejectOption`; only a fixed delay has a number of seconds. -/
structure RejectOption where
  mode : DelayMode
  delay : Option UInt16

/-- `vo::TrojanOption`: where a client without a password is sent. -/
structure TrojanOption where
  remote : Endpoint

structure TlsIngressOption where
  certFile : Bytes
  keyFile : Bytes

structure TlsEgressOption where
  insecure : Bool
  caFile : Option Bytes
  serverName : Option Bytes
  sni : Option Bytes

structure WebsocketOption where
  path : Bytes
  host : Option Bytes

/-- Both members are looked for before one of them is parsed. -/
def ShadowsocksOption.parse (v : Json) : Checked ShadowsocksOption := do
  v.assertObject Msg.objTypeError
  let password ← v.require "password" Msg.missingPwField
  let method ← v.require "method" Msg.missingMethodField
  return ⟨← parseString password, ← parseCryptoMethod method⟩

/-- A parsed password is not empty. -/
theorem ShadowsocksOption.password_ne_nil {v : Json} {opt : ShadowsocksOption}
    (h : ShadowsocksOption.parse v = .ok opt) : opt.password ≠ [] := by
  simp only [ShadowsocksOption.parse, bind_eq_ok_iff, pure, Except.pure, Except.ok.injEq] at h
  obtain ⟨-, -, password, -, method, -, s, hpassword, m, -, rfl⟩ := h
  obtain ⟨-, -, -, hne⟩ := parseString_eq_ok_iff.mp hpassword
  exact hne

/-- The password is written in plain text. -/
def ShadowsocksOption.toJson (opt : ShadowsocksOption) : Json :=
  .obj [field "password" (stringToJson opt.password), field "method" (nameToJson opt.method.name)]

/-- An array without destinations is reported before `balance` is looked for. -/
def TunnelOption.parse (p : Platform) (v : Json) : Checked TunnelOption := do
  v.assertObject Msg.objTypeError
  let destinations ← (← v.require "destinations" Msg.missingDestinationsField).items
  Checked.assertFalse destinations.isEmpty .badJson Msg.arySizeError
  let balance ← v.require "balance" Msg.missingBalanceField
  return ⟨← destinations.mapM (Endpoint.parse p), ← parseBalanceType balance⟩

/-- A parsed tunnel has a destination. -/
theorem TunnelOption.destinations_ne_nil {p : Platform} {v : Json} {opt : TunnelOption}
    (h : TunnelOption.parse p v = .ok opt) : opt.destinations ≠ [] := by
  simp only [TunnelOption.parse, bind_eq_ok_iff, Checked.assertFalse_eq_ok_iff, pure,
    Except.pure, Except.ok.injEq] at h
  obtain ⟨-, -, -, -, items, -, -, hne, -, -, destinations, hmap, -, -, rfl⟩ := h
  have hlen := (mapM_eq_ok_iff.mp hmap).length_eq
  intro hnil
  rw [show destinations = [] from hnil, List.length_nil, List.length_eq_zero_iff] at hlen
  simp [hlen] at hne

/-- What cannot be parsed cannot be written: there is a destination. -/
def TunnelOption.toJson (opt : TunnelOption) : Checked Json := do
  Checked.assertFalse opt.destinations.isEmpty .misc ""
  return .obj [field "destinations" (.arr (opt.destinations.map Endpoint.toJson)),
    field "balance" (nameToJson opt.balance.name)]

/-- A random delay ignores the member `delay`, and a fixed one is 0 without it. -/
def RejectOption.parse (v : Json) : Checked RejectOption := do
  v.assertObject Msg.objTypeError
  let mode ← parseDelayMode (← v.require "mode" Msg.missingModeField)
  match mode with
  | .random => return ⟨mode, none⟩
  | .fixed =>
    let delay := (← v.optional "delay" parseUInt16).getD 0
    Checked.assertTrue (delay ≤ 300) .badJson Msg.dlInvalid
    return ⟨mode, some delay⟩

/-- `delay` is written for the fixed mode only. -/
def RejectOption.toJson (opt : RejectOption) : Checked Json := do
  match opt.mode with
  | .random => return .obj [field "mode" (nameToJson opt.mode.name)]
  | .fixed =>
    -- an empty optional compares less than every value, so only the first assertion can
    -- see it
    let some delay := opt.delay | Checked.fail .misc ""
    Checked.assertTrue (delay ≤ 300) .misc ""
    return .obj [field "mode" (nameToJson opt.mode.name), field "delay" (.int delay.toNat)]

/-- The remote endpoint is the only member. -/
def TrojanOption.parse (p : Platform) (v : Json) : Checked TrojanOption := do
  v.assertObject Msg.objTypeError
  return ⟨← Endpoint.parse p (← v.require "remote" Msg.missingRemoteField)⟩

def TrojanOption.toJson (opt : TrojanOption) : Json :=
  .obj [field "remote" opt.remote.toJson]

/-- The files are not looked at here. -/
def TlsIngressOption.parse (v : Json) : Checked TlsIngressOption := do
  v.assertObject Msg.objTypeError
  let certFile ← v.require "cert_file" Msg.missingCertFileField
  let keyFile ← v.require "key_file" Msg.missingKeyFileField
  return ⟨← parseString certFile, ← parseString keyFile⟩

def TlsIngressOption.toJson (opt : TlsIngressOption) : Json :=
  .obj [field "cert_file" (stringToJson opt.certFile), field "key_file" (stringToJson opt.keyFile)]

/-- `insecure` is false if it is absent. -/
def TlsEgressOption.parse (v : Json) : Checked TlsEgressOption := do
  v.assertObject Msg.objTypeError
  let insecure := (← v.optional "insecure" parseBool).getD false
  let sni ← v.optional "sni" parseString
  -- without verification the other members are not looked at
  if insecure then return ⟨insecure, none, none, sni⟩
  let caFile ← v.optional "ca_file" parseString
  let serverName ← v.optional "server_name" parseString
  return ⟨insecure, caFile, serverName, sni⟩

/-- The member of an optional string, if there is one. -/
def optionalField (key : String) (s : Option Bytes) : List (Bytes × Json) :=
  s.toList.map fun s => field key (stringToJson s)

/-- The members that are looked at, in the order in which they are added. -/
def TlsEgressOption.toJson (opt : TlsEgressOption) : Json :=
  .obj (field "insecure" (.bool opt.insecure) :: optionalField "sni" opt.sni ++
    if opt.insecure then []
    else optionalField "ca_file" opt.caFile ++ optionalField "server_name" opt.serverName)

def WebsocketOption.parse (v : Json) : Checked WebsocketOption := do
  v.assertObject Msg.objTypeError
  let path ← parseString (← v.require "path" Msg.missingPathField)
  return ⟨path, ← v.optional "host" parseString⟩

/-- The host is written if there is one. -/
def WebsocketOption.toJson (opt : WebsocketOption) : Json :=
  .obj (field "path" (stringToJson opt.path) :: optionalField "host" opt.host)

/-! ## Credentials (`vo/credential.cpp`) -/

/-- The names and passwords of an ingress. -/
structure UpIngressCredential where
  credential : ValueMap Bytes

/-- The name and the password of an egress. -/
structure UpEgressCredential where
  credential : Bytes × Bytes

/-- The passwords of a Trojan ingress, a `std::unordered_set<std::string>`. -/
structure TrojanIngressCredential where
  credential : ValueMap Unit

structure TrojanEgressCredential where
  credential : Bytes

/-- `parseArray<R>` of `vo/credential.cpp`: an accumulation over a non-empty array. -/
def accumulateArray {α : Type} (v : Json) (init : α) (f : α → Json → Checked α) :
    Checked α := do
  let all ← v.items
  Checked.assertFalse all.isEmpty .badJson Msg.arySizeError
  all.foldlM f init

/-- The insertion that refuses a key that is already there. -/
def insertNew {Value : Type} (sum : ValueMap Value) (key : Bytes) (value : Value) :
    Checked (ValueMap Value) := do
  Checked.assertFalse (sum.lookup key).isSome .semanticError Msg.duplicatedItems
  return sum.insert key value

/-- An array of objects, whose names are distinct. -/
def UpIngressCredential.parse (v : Json) : Checked UpIngressCredential := do
  return ⟨← accumulateArray v ∅ fun sum item => do
    item.assertObject Msg.objTypeError
    let username ← item.require "username" Msg.missingUnField
    let password ← item.require "password" Msg.missingPwField
    insertNew sum (← parseString username) (← parseString password)⟩

def upToJson (pair : Bytes × Bytes) : Json :=
  .obj [field "username" (stringToJson pair.1), field "password" (stringToJson pair.2)]

/-- A set of credentials that is written is not empty. -/
def UpIngressCredential.toJson (cred : UpIngressCredential) : Checked Json := do
  Checked.assertFalse cred.credential.entries.isEmpty .misc ""
  return .arr (cred.credential.entries.map fun item => upToJson (item.1, item.2))

/-- The first check reports the message of an array. -/
def UpEgressCredential.parse (v : Json) : Checked UpEgressCredential := do
  v.assertObject Msg.aryTypeError
  let username ← v.require "username" Msg.missingUnField
  let password ← v.require "password" Msg.missingPwField
  return ⟨(← parseString username, ← parseString password)⟩

/-- An object, where the ingress has an array of them. -/
def UpEgressCredential.toJson (cred : UpEgressCredential) : Json := upToJson cred.credential

/-- An array of objects, whose passwords are distinct. -/
def TrojanIngressCredential.parse (v : Json) : Checked TrojanIngressCredential := do
  return ⟨← accumulateArray v ∅ fun sum item => do
    item.assertObject Msg.objTypeError
    let password ← item.require "password" Msg.missingPwField
    insertNew sum (← parseString password) ()⟩

def trojanToJson (password : Bytes) : Json := .obj [field "password" (stringToJson password)]

/-- A set of passwords that is written is not empty. -/
def TrojanIngressCredential.toJson (cred : TrojanIngressCredential) : Checked Json := do
  Checked.assertFalse cred.credential.entries.isEmpty .misc ""
  return .arr (cred.credential.entries.map fun item => trojanToJson item.1)

def TrojanEgressCredential.parse (v : Json) : Checked TrojanEgressCredential := do
  v.assertObject Msg.objTypeError
  return ⟨← parseString (← v.require "password" Msg.missingPwField)⟩

/-- The object that an ingress has in an array. -/
def TrojanEgressCredential.toJson (cred : TrojanEgressCredential) : Json :=
  trojanToJson cred.credential

end Pichi
