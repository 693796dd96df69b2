/-
# The HTTP adapters

`adapter/tcp/http.cpp`, as far as the destination is concerned: the `CONNECT` request that
`HttpEgress::connect` writes, and how `HttpIngress::continue_read_remote` authenticates a
request and reads the destination off it, for `CONNECT` and for the relayed methods.

Beast transports a request: what arrives is the request that was written.  Of the fields of
a request those are kept apart by name that the adapters look at or set.
-/
import Pichi.FlatBuffer
import Pichi.Uri
import Pichi.VoOptions

namespace Pichi

open Backtrack

namespace Http

/-! ## Requests -/

inductive Verb : Type where
  | connect
  | other (name : Bytes)
  deriving DecidableEq

inductive Field : Type where
  | host | connection | proxyConnection | proxyAuthorization
  | other (name : Bytes)
  deriving DecidableEq

/-- `http::request<empty_body>`. -/
structure Request where
  method : Verb
  target : Bytes
  fields : List (Field × Bytes)
  version : ℕ := 11
  deriving DecidableEq

/-- `fields::find`. -/
def Request.find (f : Field) (req : Request) : Option Bytes := req.fields.lookup f

/-- `fields::set`, which replaces the fields of that name. -/
def Request.set (f : Field) (value : Bytes) (req : Request) : Request :=
  { req with fields := req.fields.filter (fun x => x.1 ≠ f) ++ [(f, value)] }

/-! ## Authentication -/

/-- `gen_auth`. -/
def genAuth (p : Platform) (u pw : Bytes) : Bytes := p.base64Encode (u ++ 58 :: pw)

/-- `gen_credentials`, a set. -/
def genCredentials (p : Platform) : Option UpIngressCredential → List Bytes
  | none => []
  | some cred => cred.credential.entries.map fun item => genAuth p item.1 item.2

/-- `gen_credential`. -/
def genCredential (p : Platform) : Option UpEgressCredential → Bytes
  | none => []
  | some cred => lit "Basic " ++ genAuth p cred.credential.1 cred.credential.2

/-- `[a-z0-9+/]`. -/
def isBasicChar (c : UInt8) : Bool := 97 ≤ c && c ≤ 122 || isDigit c || c = 43 || c = 47

/-- `BASIC_AUTH_PATTERN`, `^basic ([a-z0-9+/]+={0,2})` in any case. -/
def basicAuthPattern : Pattern UInt8 :=
  .seq .startOfInput (.seq (wordIcase (lit "basic ")) (.group 1
    (.seq (.many1 fun c => isBasicChar (toLower c))
      (.opt (.seq (.sym 61) (.opt (.sym 61)))))))

/-- `authenticate`. -/
def authenticate (req : Request) (credentials : List Bytes) : Checked Bool := do
  let some auth := req.find .proxyAuthorization | Checked.fail .badAuthMethod ""
  let some r := basicAuthPattern.regexMatch auth | Checked.fail .badAuthMethod ""
  Checked.assertTrue (Captures.matched r 1) .badAuthMethod ""
  return credentials.contains (Captures.text r 1)

/-! ## The ingress -/

/-- What `async_read_header` leaves behind: the request, whether the parser took it for an
upgrade, and the cache with the bytes after the header. -/
structure Parsed where
  request : Request
  upgrade : Bool
  cache : FlatBuffer UInt8

/-- How the ingress goes on after the header. -/
inductive Manner : Type where
  | invalid
  | connect (cache : Bytes)
  | proxy (cache : FlatBuffer UInt8) (req : Request)
  deriving DecidableEq

/-- `get_remote`, with the request it rewrites. -/
def getRemote (p : Platform) (req : Request) : Checked (Endpoint × Request) := do
  Checked.assertFalse req.target.isEmpty .badProto "Empty path"
  if req.target.head? ≠ some 47 then
    let uri ← Uri.make req.target
    return (← makeEndpointText p uri.host uri.port, { req with target := uri.suffix })
  else
    let some host := req.find .host | Checked.fail .badProto "Lack of target information"
    let hp ← HostAndPort.make host
    return (← makeEndpointText p hp.host hp.port, req)

/-- The part of `continue_read_remote` behind authentication. -/
def remoteOf (p : Platform) (m : Parsed) : Checked Endpoint × Manner :=
  if m.request.method = .connect then
    (do
      let hp ← HostAndPort.make m.request.target
      makeEndpointText p hp.host hp.port, .connect m.cache.readable)
  else
    match getRemote p m.request with
    | .error e => (.error e, .invalid)
    | .ok (remote, req) =>
      (.ok remote, .proxy m.cache (if m.upgrade then req
        else (req.set .connection (lit "close")).set .proxyConnection (lit "close")))

/-- `continue_read_remote`, with the `manner_` it leaves. -/
def continueReadRemote (p : Platform) (credentials : List Bytes) (m : Parsed) :
    Checked Endpoint × Manner :=
  if credentials = [] then remoteOf p m
  else
    match authenticate m.request credentials with
    | .error e => (.error e, .invalid)
    | .ok false => (Checked.fail .unauthenticated "", .invalid)
    | .ok true => remoteOf p m

/-! ## The egress -/

/-- The target of the request. -/
def connectTarget (remote : Endpoint) : Bytes :=
  -- the format of an IPv6 target has the port inside the brackets
  if remote.type = .ipv6 then 91 :: (remote.host ++ 58 :: decimal remote.port.toNat) ++ [93]
  else remote.host ++ 58 :: decimal remote.port.toNat

/-- The request of `HttpEgress::connect`. -/
def connectRequest (credential : Bytes) (remote : Endpoint) : Request :=
  let req : Request := { method := .connect, target := connectTarget remote, fields := [] }
  let req := (req.set .host req.target).set .proxyConnection (lit "Keep-Alive")
  if credential = [] then req else req.set .proxyAuthorization credential

end Http

end Pichi
