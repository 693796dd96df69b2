/-
# The configuration server

`actor/server.cpp` and the construction of listeners in `actor/listener.cpp`.  The
server keeps four tables (listeners, egresses, rules, the route) and the router that was
last built from them.  `handle` answers one request; after the switch to the strand it
runs without suspending, so that requests are taken one after another and a run of the
server is a run of `handle`.

`handle` passes the state explicitly: the state next to a fault is what the tables hold
when the fault leaves the function.  Two things are left to the environment of a request:
what the operating system answers to opening the acceptors of a listener, and the
iteration order of the tables, on which nothing here depends.
-/
import Pichi.Backtrack
import Pichi.EventLog
import Pichi.Reference
import Pichi.Router

namespace Pichi

open Backtrack (Pattern)

/-! ## Requests and responses -/

/-- The methods of `http::verb` the server distinguishes. -/
inductive Verb : Type where
  | get | put | delete | options | other
  deriving DecidableEq, Repr

inductive Status : Type where
  | ok | noContent | badRequest | forbidden | notFound | unprocessableEntity | locked
  | internalServerError
  deriving DecidableEq, Repr

structure Request where
  method : Verb
  target : Bytes
  body : Bytes

/-- A response: its status, the methods of `Access-Control-Allow-Methods`, and the JSON
value its body is the text of. -/
structure Response where
  status : Status
  allow : List Verb := []
  body : Option Json := none

/-- `gen_resp(status)`. -/
def genResp (status : Status) : Response := { status := status }

/-- `gen_resp(status, body)`. -/
def genBody (status : Status) (body : Json) : Response := { status := status, body := some body }

/-- `gen_resp(verbs...)`. -/
def genAllow (verbs : List Verb) : Response := { status := .noContent, allow := verbs }

/-- `error_code::message`. -/
def ErrorCode.message (p : Platform) : ErrorCode → String
  | .pichi e => e.message
  | ec => p.systemMessage ec

/-- `gen_resp(error_code)`. -/
def genError (p : Platform) (ec : ErrorCode) : Response :=
  let status : Status :=
    if ec = .asio .addressInUse then .locked
    else if ec = .pichi .resInUse then .forbidden
    else if ec = .pichi .badJson then .badRequest
    else if ec = .pichi .semanticError then .unprocessableEntity
    else .internalServerError
  genBody status (.obj [field "message" (stringToJson (lit (ec.message p)))])

/-! ## Targets -/

/-- The resources of the API. -/
inductive Target : Type where
  | ingresses
  | ingress (name : Bytes)
  | egresses
  | egress (name : Bytes)
  | rules
  | rule (name : Bytes)
  | route
  | unknown
  deriving DecidableEq, Repr

namespace Target

/-- `([?#].*)?` as group `n`. -/
def query (n : ℕ) : Pattern UInt8 :=
  .opt (.group n (.seq (.one fun c => c = 63 || c = 35) (.many fun c => c != 10 && c != 13)))

/-- `^path/?([?#].*)?$`. -/
def collectionRegex (path : String) : Pattern UInt8 :=
  .seq .startOfInput (.seq (.word (lit path)) (.seq (.opt (.sym 47)) (.seq (query 1) .endOfInput)))

/-- `^path/([class]+)/?([?#].*)?$`. -/
def nameRegex (path : String) (cls : UInt8 → Bool) : Pattern UInt8 :=
  .seq .startOfInput (.seq (.word (lit path)) (.seq (.sym 47) (.seq (.group 1 (.many1 cls))
    (.seq (.opt (.sym 47)) (.seq (query 2) .endOfInput)))))

/-- `[^?#/]`. -/
def notSlash (c : UInt8) : Bool := c != 63 && c != 35 && c != 47

/-- `[^?#]`, which leaves a trailing slash in the name. -/
def notQuery (c : UInt8) : Bool := c != 63 && c != 35

def ingressRegex : Pattern UInt8 := collectionRegex "/ingresses"
def ingressNameRegex : Pattern UInt8 := nameRegex "/ingresses" notSlash
def egressRegex : Pattern UInt8 := collectionRegex "/egresses"
def egressNameRegex : Pattern UInt8 := nameRegex "/egresses" notQuery
def ruleRegex : Pattern UInt8 := collectionRegex "/rules"
def ruleNameRegex : Pattern UInt8 := nameRegex "/rules" notQuery

/-- `^/route$`. -/
def routeRegex : Pattern UInt8 :=
  .seq .startOfInput (.seq (.word (lit "/route")) .endOfInput)

/-- `match(target, re, mr)`, and then `mr[1].str()`; a group that took no part is empty. -/
def firstGroup (re : Pattern UInt8) (target : Bytes) : Option Bytes :=
  (re.regexMatch target).map fun groups => ((groups.lookup 1).map (·.text)).getD []

/-- The chain of matches of `Server::handle`. -/
def of (target : Bytes) : Target :=
  if (ingressRegex.regexMatch target).isSome then .ingresses
  else if let some name := firstGroup ingressNameRegex target then .ingress name
  else if (egressRegex.regexMatch target).isSome then .egresses
  else if let some name := firstGroup egressNameRegex target then .egress name
  else if (ruleRegex.regexMatch target).isSome then .rules
  else if let some name := firstGroup ruleNameRegex target then .rule name
  else if (routeRegex.regexMatch target).isSome then .route
  else .unknown

end Target

/-! ## Listeners -/

/-- `Listener`: the ingress it was made from, the router its sessions are given, and the
routers posted to its strand and not yet taken over, oldest first. -/
structure Listener where
  vo : Ingress
  router : Router
  posted : List Router := []

/-- What the operating system answers to opening, binding and listening on the `i`-th
address of a listener: an error code, or nothing. -/
abbrev Acceptors := ℕ → Option ErrorCode

/-- The constructor of one acceptor; `ip::make_address` reports a host that is not an
address. -/
def openAcceptor (p : Platform) (acceptors : Acceptors) (bind : Endpoint × ℕ) : Checked Unit :=
  match p.makeAddress bind.1.host with
  | none => .error ⟨.asio .invalidArgument, ""⟩
  | some _ =>
    match acceptors bind.2 with
    | some ec => .error ⟨ec, ""⟩
    | none => .ok ()

/-- The constructor. -/
def Listener.make (p : Platform) (acceptors : Acceptors) (router : Router) (vo : Ingress) :
    Checked Listener := do
  let _ ← vo.bind.zipIdx.mapM (openAcceptor p acceptors)
  return { vo := vo, router := router }

/-- `reroute`. -/
def Listener.reroute (router : Router) (l : Listener) : Listener :=
  { l with posted := l.posted ++ [router] }

/-- Apply a function to every value of a table. -/
def ValueMap.mapValues {V : Type} (f : V → V) (m : ValueMap V) : ValueMap V :=
  ⟨m.entries.map fun e => ⟨e.1, f e.2⟩, by
    have h : (m.entries.map fun e => (⟨e.1, f e.2⟩ : Sigma fun _ : Bytes => V)).keys
        = m.entries.keys := by
      simp [List.keys, Function.comp_def]
    rw [List.NodupKeys, h]
    exact m.nodupKeys⟩

/-! ## The server -/

/-- `Server`; the executors are left out. -/
structure Server where
  listeners : ValueMap Listener
  egresses : ValueMap Egress
  rules : ValueMap Rule
  route : Route
  router : Router

/-- A request as it reaches `handle`, and what its environment answers. -/
structure Arrival where
  request : Request
  acceptors : Acceptors := fun _ => none

namespace Server

def defaultEgressName : Bytes := lit "direct"

/-- `vo::Egress{.type_ = AdapterType::DIRECT}`. -/
def directEgress : Egress := { type := .direct }

/-- The constructor. -/
def make (p : Platform) : Result Server := do
  let egresses : ValueMap Egress := AList.singleton defaultEgressName directEgress
  let route : Route := { default := some defaultEgressName }
  return ⟨∅, egresses, ∅, route, ← Router.make p egresses ∅ route⟩

/-- The state the constructor leaves. -/
def initial : Server where
  listeners := ∅
  egresses := AList.singleton defaultEgressName directEgress
  rules := ∅
  route := { default := some defaultEgressName }
  router := ⟨[], (lit "*", defaultEgressName, directEgress)⟩

theorem make_eq (p : Platform) : make p = .ok initial := rfl

/-- `to_json` of a table. -/
def toJson {V : Type} (pairs : ValueMap V) (itemToJson : V → Result Json) : Result Json := do
  let members ← pairs.entries.mapM fun pair => do
    (Checked.assertFalse pair.1.isEmpty .misc "").lift
    return (pair.1, ← itemToJson pair.2)
  return .obj members

/-- `vo::parse<T>(body)`. -/
def parseBody {T : Type} (p : Platform) (parse : Json → Checked T) (req : Request) : Checked T := do
  parse (← p.document req.body)

/-- `update_router`. -/
def updateRouter (p : Platform) (s : Server) : Result Unit × Server :=
  match Router.make p s.egresses s.rules s.route with
  | .error f => (.error f, s)
  | .ok router =>
    (.ok (), { s with
      router := router
      listeners := s.listeners.mapValues (Listener.reroute router) })

/-- The end of a handler that rebuilds the router. -/
def finish (p : Platform) (s : Server) : Result Response × Server :=
  match updateRouter p s with
  | (.error f, s) => (.error f, s)
  | (.ok (), s) => (.ok (genResp .noContent), s)

/-- `assertFalse(in_use(), RES_IN_USE)` with `in_use()` true. -/
def resInUse : Fault := .thrown (.systemError ⟨.pichi .resInUse, ""⟩)

/-- `GET`, `OPTIONS` and the other methods of a collection. -/
def handleCollection (s : Server) (req : Request) (body : Result Json) :
    Result Response × Server :=
  match req.method with
  | .get => (body.map (genBody .ok), s)
  | .options => (.ok (genAllow [.get, .options]), s)
  | _ => (.ok (genResp .notFound), s)

/-- The branch of `INGRESS_NAME_REGEX`. -/
def handleIngress (p : Platform) (s : Server) (i : Arrival) (name : Bytes) :
    Result Response × Server :=
  match i.request.method with
  | .delete => (.ok (genResp .noContent), { s with listeners := s.listeners.erase name })
  | .options => (.ok (genAllow [.delete, .options, .put]), s)
  | .put =>
    match parseBody p (Ingress.parse p) i.request with
    | .error e => (.error (.thrown (.systemError e)), s)
    | .ok vo =>
      -- the listener is constructed before the table is touched
      match Listener.make p i.acceptors s.router { vo with name := name } with
      | .error e => (.error (.thrown (.systemError e)), s)
      | .ok listener =>
        (.ok (genResp .noContent), { s with listeners := s.listeners.insert name listener })
  | _ => (.ok (genResp .notFound), s)

/-- `in_use` of the egress branch. -/
def egressInUse (route : Route) (ename : Bytes) : Result Bool := do
  let default ← deref route.default
  return default = ename || route.rules.any fun item => item.2 = ename

/-- The branch of `EGRESS_NAME_REGEX`. -/
def handleEgress (p : Platform) (s : Server) (req : Request) (ename : Bytes) :
    Result Response × Server :=
  match req.method with
  | .delete =>
    match egressInUse s.route ename with
    | .error f => (.error f, s)
    | .ok true => (.error resInUse, s)
    | .ok false => (.ok (genResp .noContent), { s with egresses := s.egresses.erase ename })
  | .options => (.ok (genAllow [.delete, .options, .put]), s)
  | .put =>
    match parseBody p (Egress.parse p) req with
    | .error e => (.error (.thrown (.systemError e)), s)
    | .ok egress =>
      -- the table is written before the use of the name is looked at
      let s := { s with egresses := s.egresses.insert ename egress }
      match egressInUse s.route ename with
      | .error f => (.error f, s)
      | .ok true => finish p s
      | .ok false => (.ok (genResp .noContent), s)
  | _ => (.ok (genResp .notFound), s)

/-- `in_use` of the rule branch. -/
def ruleInUse (route : Route) (rname : Bytes) : Bool :=
  route.rules.any fun item => item.1.any fun rn => rn = rname

/-- The branch of `RULE_NAME_REGEX`. -/
def handleRule (p : Platform) (s : Server) (req : Request) (rname : Bytes) :
    Result Response × Server :=
  match req.method with
  | .delete =>
    if ruleInUse s.route rname then (.error resInUse, s)
    else (.ok (genResp .noContent), { s with rules := s.rules.erase rname })
  | .options => (.ok (genAllow [.delete, .options, .put]), s)
  | .put =>
    match parseBody p Rule.parse req with
    | .error e => (.error (.thrown (.systemError e)), s)
    | .ok rule =>
      -- here too the table is written first
      let s := { s with rules := s.rules.insert rname rule }
      if ruleInUse s.route rname then finish p s else (.ok (genResp .noContent), s)
  | _ => (.ok (genResp .notFound), s)

/-- The checks of `PUT /route`: the names of the rules, the egresses of the rules, and the
default, if there is one. -/
def checkRoute (s : Server) (route : Route) : Checked Unit := do
  Checked.assertTrue (route.rules.all fun item => item.1.all fun rname =>
    (s.rules.lookup rname).isSome) .semanticError ""
  Checked.assertTrue (route.rules.all fun item => (s.egresses.lookup item.2).isSome)
    .semanticError ""
  match route.default with
  | some default => Checked.assertTrue (s.egresses.lookup default).isSome .semanticError ""
  -- a body without a default passes
  | none => return ()

/-- The branch of `ROUTE_REGEX`. -/
def handleRoute (p : Platform) (s : Server) (req : Request) : Result Response × Server :=
  match req.method with
  | .get => (s.route.toJson.lift.map (genBody .ok), s)
  | .options => (.ok (genAllow [.get, .options, .put]), s)
  | .put =>
    match parseBody p Route.parse req with
    | .error e => (.error (.thrown (.systemError e)), s)
    | .ok route =>
      match checkRoute s route with
      | .error e => (.error (.thrown (.systemError e)), s)
      -- the route is assigned before the router is built from it
      | .ok () => finish p { s with route := route }
  | _ => (.ok (genResp .notFound), s)

/-- `Server::handle`. -/
def handle (p : Platform) (s : Server) (i : Arrival) : Result Response × Server :=
  match Target.of i.request.target with
  | .ingresses =>
    handleCollection s i.request (toJson s.listeners fun listener => listener.vo.toJson)
  | .ingress name => handleIngress p s i name
  | .egresses => handleCollection s i.request (toJson s.egresses Egress.toJson)
  | .egress ename => handleEgress p s i.request ename
  | .rules => handleCollection s i.request (toJson s.rules fun rule => .ok rule.toJson)
  | .rule rname => handleRule p s i.request rname
  | .route => handleRoute p s i.request
  | .unknown => (.ok (genResp .notFound), s)

/-- What `do_session` does with the outcome: `redirect` turns a `system_error` into a
response, and nothing else. -/
def reply (p : Platform) : Result Response → Result Response
  | .ok r => .ok r
  | .error (.thrown (.systemError e)) => .ok (genError p e.code)
  | .error f => .error f

/-- The process does not survive an outcome that is neither a response nor a
`system_error`. -/
def fatal (out : Result Response) : Bool :=
  match out with
  | .ok _ => false
  | .error (.thrown (.systemError _)) => false
  | .error _ => true

/-- The client is answered exactly when the process survives. -/
theorem exists_reply_iff (p : Platform) (out : Result Response) :
    (∃ r, reply p out = .ok r) ↔ fatal out = false := by
  unfold reply fatal
  split
  · exact ⟨fun _ => rfl, fun _ => ⟨_, rfl⟩⟩
  · exact ⟨fun _ => rfl, fun _ => ⟨_, rfl⟩⟩
  · simp

/-- The log of the server on a sequence of requests, from the constructor's state. -/
def log (p : Platform) (is : List Arrival) :
    List (EventLog.Event Server Arrival (Result Response)) :=
  EventLog.events (handle p) fatal initial is

/-- The states of a run, the initial one first. -/
def states (p : Platform) (is : List Arrival) : List Server :=
  initial :: (log p is).map fun e => e.after

end Server

end Pichi
