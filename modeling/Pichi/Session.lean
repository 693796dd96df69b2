/-
# Sessions

`actor/session.cpp`: a session reads the remote endpoint from its ingress, asks the router for
an egress, connects it, confirms, and then runs two coroutines `bridge`, one for each direction,
until one of them ends and the other one is cancelled.

A session is a state machine whose states are the places at which a coroutine awaits something,
and whose events are the answers.  The adapters answer what they want, in any order: every
operation may fail with any fault.  Two things are kept of them, because their own code refuses
operations because of them: `manner_` of `HttpIngress` and `delegate_` of `DualIngress`, and the
timer of `RejectEgress`.

After its cancellation a coroutine throws at the next `co_await`; the operation that is under way
may end as it likes.

**Main result** (`orderly`): no run invokes an operation that the adapter refuses, relays anything
before `confirm` has returned, does anything after `disconnect`, confirms twice, or confirms or
uses the egress before `connect` has returned.
-/
import Pichi.Adapters
import Pichi.Interleave
import Pichi.Router

namespace Pichi

open Interleave

/-- How the fault of a constructor leaves the function that calls it. -/
def BuildFault.toFault : BuildFault → Fault
  | .misuse .emptyOptional => .undefinedBehaviour
  | .misuse .wrongAlternative => .thrown .badVariantAccess
  | .misuse .defaultBranch => .thrown (.systemError ⟨.pichi .misc, ""⟩)
  | .misuse .assertion => .thrown (.systemError ⟨.pichi .misc, ""⟩)
  | .outside f => f

/-- A constructor, called from a coroutine. -/
def Build.toResult {α : Type} : Build α → Result α
  | .ok a => .ok a
  | .error f => .error f.toFault

namespace Session

/-! ## Adapters, as far as they refuse operations -/

/-- The two adapters of a session. -/
inductive Side : Type where
  | ingress | egress
  deriving DecidableEq, Repr

/-- The operations a session invokes. -/
inductive Call : Type where
  | readRemote
  | connect
  | confirm
  | disconnect (ec : ErrorCode)
  | recv (side : Side)
  | send (side : Side) (buf : Bytes)
  | close (side : Side)
  deriving DecidableEq

/-- The delegate of a `DualIngress`. -/
inductive Delegate : Type where
  | socks5
  | http (manner : Http.Manner)

/-- What an ingress looks at before it starts an operation. -/
inductive Inlet : Type where
  | http (credentials : List Bytes) (manner : Http.Manner)
  | dual (vo : Ingress) (delegate : Option Delegate)
  | other

/-- What an egress looks at; `cancelled` says whether `timer_` was cancelled. -/
inductive Outlet : Type where
  | reject (cancelled : Bool)
  | other

/-- The ingress that was built. -/
def Inlet.ofIngress {Context Socket : Type} : TcpIngress Context Socket → Inlet
  | .http credentials _ => .http credentials .invalid
  | .dual vo _ => .dual vo none
  | _ => .other

/-- The egress that was built. -/
def Outlet.ofEgress {Context Socket : Type} : TcpEgress Context Socket → Outlet
  | .reject _ => .reject false
  | _ => .other

/-- What the stream below an ingress has for `read_remote`: the first byte, after `accept`; the
header of a request; and what the handshake of another protocol comes to. -/
structure Reading where
  first : Result UInt8
  header : Result Http.Parsed
  remote : Result Endpoint

/-- `HttpIngress::continue_read_remote`. -/
def continueHttp (p : Platform) (credentials : List Bytes) (header : Result Http.Parsed) :
    Result Endpoint × Http.Manner :=
  match header with
  | .error f => (.error f, .invalid)
  | .ok m =>
    let (remote, manner) := Http.continueReadRemote p credentials m
    (remote.lift, manner)

/-- `DualIngress::read_remote`, after the first byte. -/
def continueDual (p : Platform) (vo : Ingress) (first : UInt8) (r : Reading) :
    Result Endpoint × Option Delegate :=
  match (upCredential vo).toResult with
  -- the constructor of the delegate throws
  | .error f => (.error f, none)
  | .ok credential =>
    if first = 0x05 then (r.remote, some .socks5)
    else
      let (remote, manner) := continueHttp p (Http.genCredentials p credential) r.header
      (remote, some (.http manner))

/-- `read_remote`. -/
def Inlet.readRemote (p : Platform) (r : Reading) : Inlet → Result Endpoint × Inlet
  | .http credentials manner =>
    match r.first with
    | .error f => (.error f, .http credentials manner)
    | .ok _ =>
      let (remote, manner) := continueHttp p credentials r.header
      (remote, .http credentials manner)
  | .dual vo delegate =>
    match r.first with
    | .error f => (.error f, .dual vo delegate)
    | .ok first =>
      let (remote, delegate) := continueDual p vo first r
      (remote, .dual vo delegate)
  | .other => (r.remote, .other)

/-- `InvalidManner` fails in these operations. -/
def mannerAdmits (manner : Http.Manner) : Call → Bool
  | .recv _ | .send _ _ | .confirm => manner ≠ .invalid
  | _ => true

/-- The ingress does not fail an assertion of its own when the operation is invoked. -/
def Inlet.admits : Inlet → Call → Bool
  | .http _ manner, c => mannerAdmits manner c
  | .dual _ (some (.http manner)), c => mannerAdmits manner c
  | .dual _ (some .socks5), _ => true
  | .dual _ none, .recv _ | .dual _ none, .send _ _ | .dual _ none, .close _
  | .dual _ none, .confirm => false
  | .dual _ none, _ => true
  | .other, _ => true

/-- The egress does not fail at once when the operation is invoked. -/
def Outlet.admits : Outlet → Call → Bool
  | .reject _, .recv _ | .reject _, .send _ _ => false
  | _, _ => true

/-- `fail()` and the failing assertions of the adapters. -/
def refused : Fault := .thrown (.systemError ⟨.pichi .misc, ""⟩)

/-- `connect`, where `r` is what the streams below come to, or the timer of `RejectEgress`.  The
wait for a timer is only aborted when the timer is cancelled. -/
def Outlet.connect (r : Result Unit) : Outlet → Option (Result Unit)
  | .reject cancelled =>
    match r with
    | .error (.thrown (.systemError e)) =>
      if e.code = .asio .operationAborted then
        if cancelled then some (.ok ()) else none
      else some (.error refused)
    | .error f => some (.error f)
    | .ok () => some (.error refused)
  | .other => some r

/-- `close` of `RejectEgress` cancels its timer. -/
def Outlet.closed : Outlet → Outlet
  | .reject _ => .reject true
  | .other => .other

/-! ## Bridges -/

/-- `bridge(ingress, egress)` and `bridge(egress, ingress)`. -/
inductive Direction : Type where
  | up | down
  deriving DecidableEq, Repr

namespace Direction

/-- The other direction. -/
def other : Direction → Direction
  | up => down
  | down => up

/-- The parameter `from` of `bridge`. -/
def source : Direction → Side
  | up => .ingress
  | down => .egress

/-- The parameter `to` of `bridge`. -/
def target : Direction → Side
  | up => .egress
  | down => .ingress

end Direction

/-- The places at which `bridge` awaits, and its end: it only ends by an exception. -/
inductive Bridge : Type where
  | recv
  | send (buf : Bytes)
  | closeSource (ec : ErrorCode)
  | closeTarget (ec : ErrorCode)
  | done (f : Fault)

/-- `0xffff`, the size of `buf`. -/
def bufferSize : ℕ := 0xffff

def aborted : Fault := .thrown (.systemError ⟨.asio .operationAborted, ""⟩)

namespace Bridge

/-- The operation that is under way. -/
def call (d : Direction) : Bridge → Option Call
  | recv => some (.recv d.source)
  | send buf => some (.send d.target buf)
  | closeSource _ => some (.close d.source)
  | closeTarget _ => some (.close d.target)
  | done _ => none

/-- The next `co_await`, which throws in a cancelled coroutine. -/
def await (cancelled : Bool) (b : Bridge) : Bridge := if cancelled then .done aborted else b

/-- Out of the loop; `redirect` has caught a `system_error`, and nothing else. -/
def leave (cancelled : Bool) : Fault → Bridge
  | .thrown (.systemError e) => await cancelled (.closeSource e.code)
  | f => .done f

/-- `recv` has ended. -/
def received (cancelled : Bool) : Result Bytes → Bridge → Option Bridge
  | .ok buf, recv => if buf.length ≤ bufferSize then some (await cancelled (.send buf)) else none
  | .error f, recv => some (leave cancelled f)
  | _, _ => none

/-- `send` or `close` has ended. -/
def finished (cancelled : Bool) : Result Unit → Bridge → Option Bridge
  | .ok (), send _ => some (await cancelled .recv)
  | .error f, send _ => some (leave cancelled f)
  | .ok (), closeSource ec => some (await cancelled (.closeTarget ec))
  | .error f, closeSource _ => some (.done f)
  | .ok (), closeTarget ec => some (.done (.thrown (.systemError ⟨ec, ""⟩)))
  | .error f, closeTarget _ => some (.done f)
  | _, _ => none

end Bridge

/-! ## The session -/

/-- The adapter an operation belongs to. -/
def Call.side : Call → Side
  | .readRemote | .confirm | .disconnect _ => .ingress
  | .connect => .egress
  | .recv side | .send side _ | .close side => side

/-- What happened in a session. -/
inductive Entry : Type where
  | invoked (c : Call)
  | returned (c : Call)
  | received (side : Side) (buf : Bytes)
  | failed (c : Call) (f : Fault)

/-- Where `start` is. -/
inductive Point : Type where
  | reading
  | routing (peer : Endpoint)
  | connecting
  /-- In the `connect` of the egress that answers a duplicated salt. -/
  | rejecting
  | confirming
  | bridging
  | disconnecting (ec : ErrorCode)
  | ended (f : Fault)

/-- A session: where it is, its adapters and bridges, and what happened so far. -/
structure State where
  point : Point
  inlet : Inlet
  outlet : Outlet := .other
  bridges : Direction → Bridge := fun _ => .recv
  cancelled : Direction → Bool := fun _ => false
  log : List Entry := []

/-- What can happen. -/
inductive Event : Type where
  | read (r : Reading)
  /-- `route` goes on, with what the resolver answers. -/
  | route (resolve : Checked (List Address))
  /-- `connect`, `confirm` or `disconnect` has ended. -/
  | finish (r : Result Unit)
  | received (d : Direction) (r : Result Bytes)
  /-- `send` or `close` of a bridge has ended. -/
  | finished (d : Direction) (r : Result Unit)
  /-- The other bridge has ended, and this one is told to stop. -/
  | cancel (d : Direction)

/-- What a session is given: the configuration of its ingress and the router of its listener. -/
structure Setting (Context Socket : Type) where
  platform : Platform
  library : Library Context Socket
  sha224 : Bytes → Trojan.Digest
  mmdb : Mmdb
  router : Router
  vo : Ingress
  socket : Socket

/-- The adapter does not refuse the operation. -/
def State.admits (s : State) (c : Call) : Bool :=
  match c.side with
  | .ingress => s.inlet.admits c
  | .egress => s.outlet.admits c

/-- `recv` and `send` of `RejectEgress` are no coroutines: they throw where they are called, before
`redirect` is entered. -/
def State.throws (s : State) (c : Call) : Bool :=
  match c.side with
  | .ingress => false
  | .egress => !s.outlet.admits c

/-- The result of an operation: a coroutine that is refused fails when it is awaited. -/
def State.answer {α : Type} (s : State) (c : Call) (r : Result α) : Result α :=
  if s.admits c then r else .error refused

/-- Await an operation of the handshake. -/
def State.invoke (s : State) (c : Call) (point : Point) : State :=
  { s with point := point, log := s.log ++ [.invoked c] }

/-- `handshake` throws; `start` catches a `system_error`. -/
def State.throw (s : State) : Fault → State
  | .thrown (.systemError e) => s.invoke (.disconnect e.code) (.disconnecting e.code)
  | f => { s with point := .ended f }

/-- An operation of the handshake has failed. -/
def State.failed (s : State) (c : Call) (f : Fault) : State :=
  State.throw { s with log := s.log ++ [.failed c f] } f

/-- The two bridges are spawned. -/
def State.establish (s : State) : State :=
  { s with
    point := .bridging
    bridges := fun _ => .recv
    cancelled := fun _ => false
    log := s.log ++ [.invoked (.recv .ingress), .invoked (.recv .egress)] }

/-- A bridge goes on to its next operation, or ends.  The group waits for both, and `start`
throws what the first one has thrown. -/
def State.turn (s : State) (d : Direction) (entry : Entry) (b : Bridge) : State :=
  let bridges := Function.update s.bridges d b
  { s with
    point :=
      match bridges .up, bridges .down with
      | .done f, .done _ => .ended f
      | _, _ => .bridging
    bridges := bridges
    outlet := if b.call d = some (.close .egress) then s.outlet.closed else s.outlet
    log := s.log ++ entry :: (b.call d).toList.map .invoked }

/-- A bridge whose operation has the result `r`. -/
def State.resume {α : Type} (s : State) (d : Direction) (r : Result α)
    (entry : Call → α → Entry) (next : Result α → Bridge → Option Bridge) : Option State := do
  let c ← (s.bridges d).call d
  if s.throws c then some (s.turn d (.failed c refused) (.done refused))
  else
    let r := s.answer c r
    let b ← next r (s.bridges d)
    return s.turn d (match r with | .ok a => entry c a | .error f => .failed c f) b

section Exec

variable {Context Socket : Type} (st : Setting Context Socket)

/-- `create_egress`, in `handshake`, and the `connect` after it. -/
def connectTo (vo : Egress) (point : Point) (s : State) : State :=
  match (createEgress st.platform st.library st.sha224 vo).toResult with
  | .error f => s.throw f
  | .ok egress => { s with outlet := .ofEgress egress }.invoke .connect point

/-- The egress that answers a duplicated salt. -/
def rejectVo : Egress :=
  { type := .reject, opt := some (.reject { mode := .random, delay := none }) }

/-- `handshake` goes on after `read_remote`. -/
def afterRead (remote : Result Endpoint) (s : State) : State :=
  match remote with
  | .ok peer => { s with point := .routing peer, log := s.log ++ [.returned .readRemote] }
  | .error (.thrown (.systemError e)) =>
    if e.code = .pichi .badProto ∧ st.vo.type = .ss then
      connectTo st rejectVo .rejecting
        { s with log := s.log ++ [.failed .readRemote (.thrown (.systemError e))] }
    else s.failed .readRemote (.thrown (.systemError e))
  | .error f => s.failed .readRemote f

/-- `handshake` goes on after `route`. -/
def afterRoute (decision : Checked Decision) (s : State) : State :=
  match decision with
  | .ok (_, _, evo) => connectTo st evo .connecting s
  | .error e => s.throw (.thrown (.systemError e))

/-- What an event does. -/
def exec (s : State) (e : Event) : Option State :=
  match s.point, e with
  | .reading, .read r =>
    let (remote, inlet) := s.inlet.readRemote st.platform r
    some (afterRead st remote { s with inlet := inlet })
  | .routing peer, .route resolve =>
    let (decision, _) :=
      st.router.route st.platform st.mmdb peer st.vo.name st.vo.type resolve
    some (afterRoute st decision s)
  | .connecting, .finish r =>
    (s.outlet.connect r).map fun
      | .ok () =>
        State.invoke { s with log := s.log ++ [.returned .connect] } .confirm .confirming
      | .error f => s.failed .connect f
  | .rejecting, .finish r =>
    (s.outlet.connect r).map fun
      -- `handshake` returns the egress, without `confirm`
      | .ok () => State.establish { s with log := s.log ++ [.returned .connect] }
      | .error f => s.failed .connect f
  | .confirming, .finish r =>
    match s.answer .confirm r with
    | .ok () => some (State.establish { s with log := s.log ++ [.returned .confirm] })
    | .error f => some (s.failed .confirm f)
  | .disconnecting ec, .finish (.ok ()) =>
    some { s with point := .ended (.thrown (.systemError ⟨ec, ""⟩)) }
  | .disconnecting _, .finish (.error f) => some { s with point := .ended f }
  | .bridging, .received d r =>
    s.resume d r (fun _ buf => .received d.source buf) (Bridge.received (s.cancelled d))
  | .bridging, .finished d r =>
    s.resume d r (fun c _ => .returned c) (Bridge.finished (s.cancelled d))
  | .bridging, .cancel d =>
    match s.bridges d.other, s.bridges d with
    | _, .done _ => none
    | .done _, _ => some { s with cancelled := Function.update s.cancelled d true }
    | _, _ => none
  | _, _ => none

/-- `start`, as far as `read_remote`. -/
def start : State :=
  match (createIngress st.platform st.library st.sha224 st.vo st.socket).toResult with
  | .ok ingress =>
    { point := .reading, inlet := .ofIngress ingress, log := [.invoked .readRemote] }
  | .error f => { point := .ended f, inlet := .other }

end Exec

/-! ## What an event can do -/

/-- What one answer makes of a bridge, and how it is recorded. -/
inductive Turn (d : Direction) (cancelled : Bool) : Bridge → Entry → Bridge → Prop where
  | received {buf : Bytes} (hle : buf.length ≤ bufferSize) :
      Turn d cancelled .recv (.received d.source buf) (.await cancelled (.send buf))
  | recvFailed {f : Fault} :
      Turn d cancelled .recv (.failed (.recv d.source) f) (.leave cancelled f)
  | sent {buf : Bytes} :
      Turn d cancelled (.send buf) (.returned (.send d.target buf)) (.await cancelled .recv)
  | sendFailed {buf : Bytes} {f : Fault} :
      Turn d cancelled (.send buf) (.failed (.send d.target buf) f) (.leave cancelled f)
  | sourceClosed {ec : ErrorCode} :
      Turn d cancelled (.closeSource ec) (.returned (.close d.source))
        (.await cancelled (.closeTarget ec))
  | sourceFailed {ec : ErrorCode} {f : Fault} :
      Turn d cancelled (.closeSource ec) (.failed (.close d.source) f) (.done f)
  | targetClosed {ec : ErrorCode} :
      Turn d cancelled (.closeTarget ec) (.returned (.close d.target))
        (.done (.thrown (.systemError ⟨ec, ""⟩)))
  | targetFailed {ec : ErrorCode} {f : Fault} :
      Turn d cancelled (.closeTarget ec) (.failed (.close d.target) f) (.done f)

variable {Context Socket : Type} {st : Setting Context Socket} {s s' : State} {e : Event}
  {d : Direction}

/-- The transitions of a session. -/
inductive Step (st : Setting Context Socket) (s : State) : Event → State → Prop where
  | read {r : Reading} (h : s.point = .reading) :
      Step st s (.read r) (afterRead st (s.inlet.readRemote st.platform r).1
        { s with inlet := (s.inlet.readRemote st.platform r).2 })
  | route {peer : Endpoint} {resolve : Checked (List Address)} {decision : Checked Decision}
      (h : s.point = .routing peer) : Step st s (.route resolve) (afterRoute st decision s)
  | connected {r : Result Unit} (h : s.point = .connecting)
      (hr : s.outlet.connect r = some (.ok ())) :
      Step st s (.finish r)
        (State.invoke { s with log := s.log ++ [.returned .connect] } .confirm .confirming)
  | connectFailed {r : Result Unit} {f : Fault}
      (h : s.point = .connecting ∨ s.point = .rejecting) :
      Step st s (.finish r) (s.failed .connect f)
  | spared {r : Result Unit} (h : s.point = .rejecting)
      (hr : s.outlet.connect r = some (.ok ())) :
      Step st s (.finish r) (State.establish { s with log := s.log ++ [.returned .connect] })
  | confirmed {r : Result Unit} (h : s.point = .confirming) :
      Step st s (.finish r) (State.establish { s with log := s.log ++ [.returned .confirm] })
  | confirmFailed {r : Result Unit} {f : Fault} (h : s.point = .confirming) :
      Step st s (.finish r) (s.failed .confirm f)
  | disconnected {r : Result Unit} {ec : ErrorCode} {f : Fault} (h : s.point = .disconnecting ec) :
      Step st s (.finish r) { s with point := .ended f }
  | received {d : Direction} {r : Result Bytes} {entry : Entry} {b : Bridge}
      (h : s.point = .bridging) (hb : s.bridges d = .recv)
      (ht : Turn d (s.cancelled d) (s.bridges d) entry b)
      (hr : ∀ side buf, entry = .received side buf → r = .ok buf) :
      Step st s (.received d r) (s.turn d entry b)
  | finished {d : Direction} {r : Result Unit} {entry : Entry} {b : Bridge}
      (h : s.point = .bridging) (ht : Turn d (s.cancelled d) (s.bridges d) entry b)
      (hr : ∀ side buf, entry ≠ .received side buf) :
      Step st s (.finished d r) (s.turn d entry b)
  | cancelled {d : Direction} {f : Fault} (h : s.point = .bridging)
      (hother : s.bridges d.other = .done f) (hd : ∀ f, s.bridges d ≠ .done f) :
      Step st s (.cancel d) { s with cancelled := Function.update s.cancelled d true }

/-- An operation that succeeds was not refused. -/
theorem eq_ok_of_answer {α : Type} {c : Call} {r : Result α} {a : α}
    (h : s.answer c r = .ok a) : r = .ok a := by
  unfold State.answer at h
  split at h
  · exact h
  · cases h

/-- An operation that does not throw where it is called is awaited. -/
theorem resume_of_calm {α : Type} {r : Result α} {entry : Call → α → Entry}
    {next : Result α → Bridge → Option Bridge} (hcalm : ∀ c, s.throws c = false)
    (h : s.resume d r entry next = some s') :
    ∃ c b, (s.bridges d).call d = some c ∧ next (s.answer c r) (s.bridges d) = some b
      ∧ s.turn d (match s.answer c r with | .ok a => entry c a | .error f => .failed c f) b
        = s' := by
  simp only [State.resume, hcalm, Bool.false_eq_true, if_false, Option.bind_eq_bind,
    Option.bind_eq_some_iff, Option.pure_def, Option.some.injEq] at h
  obtain ⟨c, hc, b, hb, hturn⟩ := h
  exact ⟨c, b, hc, hb, hturn⟩

theorem step_of_received {r : Result Bytes} (h : s.point = .bridging)
    (hcalm : ∀ c, s.throws c = false)
    (hresume : s.resume d r (fun _ buf => .received d.source buf)
      (Bridge.received (s.cancelled d)) = some s') : Step st s (.received d r) s' := by
  obtain ⟨c, b, hc, hb, rfl⟩ := resume_of_calm hcalm hresume
  cases hbridge : s.bridges d with
  | recv =>
      rw [hbridge] at hc hb
      cases hc
      cases hr : s.answer (.recv d.source) r with
      | ok buf =>
          rw [hr, Bridge.received] at hb
          split at hb
          · rename_i hle
            cases hb
            refine .received h hbridge ?_ fun side buf' hentry => ?_
            · rw [hbridge]
              exact .received hle
            · cases hentry
              exact eq_ok_of_answer hr
          · cases hb
      | error f =>
          rw [hr] at hb
          cases hb
          refine .received h hbridge ?_ fun side buf' hentry => ?_
          · rw [hbridge]
            exact .recvFailed
          · cases hentry
  | send buf =>
      rw [hbridge] at hb
      cases hr : s.answer c r <;> rw [hr] at hb <;> cases hb
  | closeSource ec =>
      rw [hbridge] at hb
      cases hr : s.answer c r <;> rw [hr] at hb <;> cases hb
  | closeTarget ec =>
      rw [hbridge] at hb
      cases hr : s.answer c r <;> rw [hr] at hb <;> cases hb
  | done f =>
      rw [hbridge] at hc
      cases hc

theorem step_of_finished {r : Result Unit} (h : s.point = .bridging)
    (hcalm : ∀ c, s.throws c = false)
    (hresume : s.resume d r (fun c _ => .returned c)
      (Bridge.finished (s.cancelled d)) = some s') : Step st s (.finished d r) s' := by
  obtain ⟨c, b, hc, hb, rfl⟩ := resume_of_calm hcalm hresume
  refine .finished h ?_ ?_
  rotate_left
  · intro side buf hentry
    cases hr : s.answer c r <;> rw [hr] at hentry <;> cases hentry
  cases hbridge : s.bridges d with
  | recv =>
      rw [hbridge] at hb
      cases hr : s.answer c r <;> rw [hr] at hb <;> cases hb
  | send buf =>
      rw [hbridge] at hc hb
      cases hc
      cases hr : s.answer (.send d.target buf) r with
      | ok u =>
          rw [hr] at hb
          cases hb
          exact .sent
      | error f =>
          rw [hr] at hb
          cases hb
          exact .sendFailed
  | closeSource ec =>
      rw [hbridge] at hc hb
      cases hc
      cases hr : s.answer (.close d.source) r with
      | ok u =>
          rw [hr] at hb
          cases hb
          exact .sourceClosed
      | error f =>
          rw [hr] at hb
          cases hb
          exact .sourceFailed
  | closeTarget ec =>
      rw [hbridge] at hc hb
      cases hc
      cases hr : s.answer (.close d.target) r with
      | ok u =>
          rw [hr] at hb
          cases hb
          exact .targetClosed
      | error f =>
          rw [hr] at hb
          cases hb
          exact .targetFailed
  | done f =>
      rw [hbridge] at hc
      cases hc

/-- **What an event can do**, where no bridge uses an egress that rejects. -/
theorem step_of_exec (hcalm : s.point = .bridging → ∀ c, s.throws c = false)
    (h : exec st s e = some s') : Step st s e s' := by
  unfold exec at h
  split at h
  · rename_i hpoint
    cases h
    exact .read hpoint
  · rename_i hpoint
    cases h
    exact .route hpoint
  · rename_i hpoint
    obtain ⟨out, hout, rfl⟩ := Option.map_eq_some_iff.mp h
    cases out with
    | ok u => exact .connected hpoint hout
    | error f => exact .connectFailed (.inl hpoint)
  · rename_i hpoint
    obtain ⟨out, hout, rfl⟩ := Option.map_eq_some_iff.mp h
    cases out with
    | ok u => exact .spared hpoint hout
    | error f => exact .connectFailed (.inr hpoint)
  · rename_i hpoint
    split at h <;> cases h
    · exact .confirmed hpoint
    · exact .confirmFailed hpoint
  · rename_i hpoint
    cases h
    exact .disconnected hpoint
  · rename_i hpoint
    cases h
    exact .disconnected hpoint
  · rename_i hpoint
    exact step_of_received hpoint (hcalm hpoint) h
  · rename_i hpoint
    exact step_of_finished hpoint (hcalm hpoint) h
  · rename_i hpoint
    split at h
    · cases h
    · rename_i hdone hnot
      cases h
      exact .cancelled hpoint hdone hnot
    · cases h
  · cases h

/-! ## Order -/

/-- The operations of the two bridges. -/
def Call.relays : Call → Bool
  | .recv _ | .send _ _ | .close _ => true
  | _ => false

/-- The call an entry is about. -/
def Entry.call : Entry → Call
  | .invoked c | .returned c | .failed c _ => c
  | .received side _ => .recv side

/-- The operations under way. -/
def State.pending (s : State) : List Call :=
  match s.point with
  | .reading => [.readRemote]
  | .routing _ => []
  | .connecting | .rejecting => [.connect]
  | .confirming => [.confirm]
  | .bridging =>
    ((s.bridges .up).call .up).toList ++ ((s.bridges .down).call .down).toList
  | .disconnecting ec => [.disconnect ec]
  | .ended _ => []

/-- Nothing is relayed before `confirm` has returned; `disconnect` comes last, and only if
`confirm` has not returned. -/
structure Ordered (log : List Entry) : Prop where
  confirmed : ∀ pre c post, log = pre ++ .invoked c :: post → c.relays = true →
    .returned .confirm ∈ pre
  last : ∀ pre ec post, log = pre ++ .invoked (.disconnect ec) :: post →
    post = [] ∧ .returned .confirm ∉ pre

/-- An entry of the handshake, before it is known how it ends. -/
def Entry.early : Entry → Bool
  | .invoked .readRemote | .invoked .connect | .invoked .confirm => true
  | .returned .readRemote | .returned .connect => true
  | .failed .readRemote _ | .failed .connect _ | .failed .confirm _ => true
  | _ => false

def Early (log : List Entry) : Prop := ∀ e ∈ log, e.early = true

/-- Every operation may be invoked. -/
def Inlet.Ready (inlet : Inlet) : Prop := ∀ c, inlet.admits c = true

theorem early_append {log log' : List Entry} (h : Early log) (h' : Early log') :
    Early (log ++ log') := by
  intro e he
  rcases List.mem_append.mp he with he | he
  · exact h e he
  · exact h' e he

theorem early_singleton {entry : Entry} (h : entry.early = true) : Early [entry] := by
  intro e he
  rw [List.mem_singleton.mp he]
  exact h

/-- The record of a session whose handshake went well. -/
def Established (log : List Entry) : Prop :=
  ∃ pre post, log = pre ++ .returned .confirm :: post ∧ Early pre
    ∧ ∀ e ∈ post, e.call.relays = true

/-- The record of a session whose handshake failed. -/
def Refused (log : List Entry) : Prop :=
  ∃ pre ec, log = pre ++ [.invoked (.disconnect ec)] ∧ Early pre

/-- **The invariant**, for each place at which a session can be. -/
def Orderly (s : State) : Prop :=
  match s.point with
  | .reading => Early s.log
  | .routing _ => Early s.log ∧ s.inlet.Ready
  | .connecting => Early s.log ∧ s.inlet.Ready ∧ s.outlet ≠ .reject true
  | .rejecting => Early s.log ∧ s.outlet = .reject false
  | .confirming => Early s.log ∧ s.inlet.Ready ∧ s.outlet = .other
  | .bridging => Established s.log ∧ s.inlet.Ready ∧ s.outlet = .other
  | .disconnecting ec => ∃ pre, s.log = pre ++ [.invoked (.disconnect ec)] ∧ Early pre
  | .ended _ => Early s.log ∨ Established s.log ∨ Refused s.log

/-! ### Adapters -/

/-- A rejecting egress that was not cancelled does not connect. -/
theorem outlet_of_connect {o : Outlet} {r : Result Unit} (ho : o ≠ .reject true)
    (h : o.connect r = some (.ok ())) : o = .other := by
  cases o with
  | other => rfl
  | reject cancelled =>
      cases cancelled with
      | true => exact absurd rfl ho
      | false =>
          simp only [Outlet.connect] at h
          split at h
          · split at h
            · simp at h
            · simp at h
          · simp at h
          · simp at h

theorem mannerAdmits_of_ne {manner : Http.Manner} (h : manner ≠ .invalid) (c : Call) :
    mannerAdmits manner c = true := by
  cases c <;> simp [mannerAdmits, h]

theorem manner_of_remoteOf {p : Platform} {m : Http.Parsed} {remote : Endpoint}
    (h : (Http.remoteOf p m).1 = .ok remote) : (Http.remoteOf p m).2 ≠ .invalid := by
  unfold Http.remoteOf at h ⊢
  split
  · simp
  · rename_i hmethod
    rw [if_neg hmethod] at h
    split
    · rename_i hget
      simp [hget] at h
    · simp

/-- An `HttpIngress` that has read its remote endpoint has its manner. -/
theorem manner_of_continueHttp {p : Platform} {credentials : List Bytes}
    {header : Result Http.Parsed} {remote : Endpoint}
    (h : (continueHttp p credentials header).1 = .ok remote) :
    (continueHttp p credentials header).2 ≠ .invalid := by
  cases header with
  | error f => cases h
  | ok m =>
      simp only [continueHttp] at h ⊢
      have hok : (Http.continueReadRemote p credentials m).1 = .ok remote := by
        cases hout : (Http.continueReadRemote p credentials m).1 with
        | error e =>
            rw [hout] at h
            cases h
        | ok r =>
            rw [hout] at h
            cases h
            rfl
      unfold Http.continueReadRemote at hok ⊢
      split
      · rename_i hnil
        rw [if_pos hnil] at hok
        exact manner_of_remoteOf hok
      · rename_i hnil
        rw [if_neg hnil] at hok
        cases hauth : Http.authenticate m.request credentials with
        | error e =>
            rw [hauth] at hok
            cases hok
        | ok b =>
            rw [hauth] at hok
            cases b with
            | false => cases hok
            | true => exact manner_of_remoteOf hok

theorem ready_of_delegate {p : Platform} {vo : Ingress} {first : UInt8} {r : Reading}
    {remote : Endpoint} (h : (continueDual p vo first r).1 = .ok remote) :
    (Inlet.dual vo (continueDual p vo first r).2).Ready := by
  unfold continueDual at h ⊢
  split
  · rename_i hcred
    rw [hcred] at h
    cases h
  · rename_i credential hcred
    rw [hcred] at h
    dsimp only at h ⊢
    split
    · intro c
      rfl
    · rename_i hfirst
      rw [if_neg hfirst] at h
      intro c
      exact mannerAdmits_of_ne (manner_of_continueHttp h) c

/-- An ingress that has read its remote endpoint refuses nothing. -/
theorem ready_of_readRemote {p : Platform} {r : Reading} {inlet : Inlet} {remote : Endpoint}
    (h : (inlet.readRemote p r).1 = .ok remote) : (inlet.readRemote p r).2.Ready := by
  cases inlet with
  | other =>
      intro c
      rfl
  | http credentials manner =>
      unfold Inlet.readRemote at h ⊢
      cases hfirst : r.first with
      | error f =>
          rw [hfirst] at h
          cases h
      | ok first =>
          rw [hfirst] at h
          intro c
          exact mannerAdmits_of_ne (manner_of_continueHttp h) c
  | dual vo delegate =>
      unfold Inlet.readRemote at h ⊢
      cases hfirst : r.first with
      | error f =>
          rw [hfirst] at h
          cases h
      | ok first =>
          rw [hfirst] at h
          exact ready_of_delegate h

/-! ### Steps -/

theorem orderly_throw (hlog : Early s.log) (f : Fault) : Orderly (s.throw f) := by
  unfold State.throw
  split
  · exact ⟨s.log, rfl, hlog⟩
  · exact Or.inl hlog

theorem orderly_failed (hlog : Early s.log) {c : Call} {f : Fault}
    (hc : (Entry.failed c f).early = true) : Orderly (s.failed c f) :=
  orderly_throw (early_append hlog (early_singleton hc)) f

theorem orderly_establish (hlog : Early s.log) (hinlet : s.inlet.Ready)
    (houtlet : s.outlet = .other) :
    Orderly (State.establish { s with log := s.log ++ [.returned .confirm] }) := by
  refine ⟨⟨s.log, [.invoked (.recv .ingress), .invoked (.recv .egress)], ?_, hlog, ?_⟩, hinlet,
    houtlet⟩
  · simp [State.establish]
  · intro e he
    simp only [List.mem_cons, List.not_mem_nil, or_false] at he
    rcases he with rfl | rfl <;> rfl

/-- The egress of `connectTo` was not cancelled. -/
theorem outlet_ofEgress (egress : TcpEgress Context Socket) :
    Outlet.ofEgress egress ≠ .reject true := by
  cases egress <;> simp [Outlet.ofEgress]

theorem orderly_afterRoute (hlog : Early s.log) (hinlet : s.inlet.Ready)
    (decision : Checked Decision) : Orderly (afterRoute st decision s) := by
  cases decision with
  | error e => exact orderly_throw hlog (.thrown (.systemError e))
  | ok decision =>
      obtain ⟨rname, ename, evo⟩ := decision
      simp only [afterRoute, connectTo]
      split
      · exact orderly_throw hlog _
      · exact ⟨early_append hlog (early_singleton rfl), hinlet, outlet_ofEgress _⟩

/-- The egress for a duplicated salt is a rejecting one. -/
theorem outlet_rejectVo {egress : TcpEgress Context Socket}
    (h : (createEgress st.platform st.library st.sha224 rejectVo).toResult = .ok egress) :
    Outlet.ofEgress egress = .reject false := by
  have hbuilt : createEgress st.platform st.library st.sha224 rejectVo
      = .ok (.reject st.library.draw) := rfl
  rw [hbuilt] at h
  cases h
  rfl

theorem orderly_afterRead (hlog : Early s.log) {remote : Result Endpoint}
    (hinlet : ∀ peer, remote = .ok peer → s.inlet.Ready) : Orderly (afterRead st remote s) := by
  unfold afterRead
  split
  · rename_i peer
    exact ⟨early_append hlog (early_singleton rfl), hinlet peer rfl⟩
  · rename_i e
    have hfailed : Early (s.log ++ [.failed .readRemote (.thrown (.systemError e))]) :=
      early_append hlog (early_singleton rfl)
    split
    · unfold connectTo
      split
      · exact orderly_throw hfailed _
      · rename_i egress hegress
        exact ⟨early_append hfailed (early_singleton rfl), outlet_rejectVo hegress⟩
    · exact orderly_failed hlog rfl
  · exact orderly_failed hlog rfl

theorem relays_of_call {b : Bridge} {c : Call} (h : b.call d = some c) : c.relays = true := by
  cases b <;> cases h <;> rfl

/-- A bridge that goes on leaves the session where it was, or at its end. -/
theorem point_turn (s : State) (d : Direction) (entry : Entry) (b : Bridge) :
    (s.turn d entry b).point = .bridging ∨ ∃ f, (s.turn d entry b).point = .ended f := by
  simp only [State.turn]
  split
  · exact Or.inr ⟨_, rfl⟩
  · exact Or.inl rfl

theorem relays_of_turn {cancelled : Bool} {b b' : Bridge} {entry : Entry}
    (h : Turn d cancelled b entry b') : entry.call.relays = true := by
  cases h <;> rfl

theorem closed_other : Outlet.other.closed = .other := rfl

theorem orderly_turn (hlog : Established s.log) (hinlet : s.inlet.Ready)
    (houtlet : s.outlet = .other) {entry : Entry} {b : Bridge}
    (ht : Turn d (s.cancelled d) (s.bridges d) entry b) : Orderly (s.turn d entry b) := by
  have hlog' : Established (s.log ++ entry :: (b.call d).toList.map .invoked) := by
    obtain ⟨pre, post, hpre, hearly, hpost⟩ := hlog
    refine ⟨pre, post ++ entry :: (b.call d).toList.map .invoked, by simp [hpre], hearly, ?_⟩
    intro e he
    rcases List.mem_append.mp he with he | he
    · exact hpost e he
    · rcases List.mem_cons.mp he with rfl | he
      · exact relays_of_turn ht
      · obtain ⟨c, hc, rfl⟩ := List.mem_map.mp he
        exact relays_of_call (Option.mem_toList.mp hc)
  have houtlet' : (s.turn d entry b).outlet = .other := by
    simp only [State.turn, houtlet, closed_other, ite_self]
  rcases point_turn s d entry b with hpoint | ⟨f, hpoint⟩ <;> simp only [Orderly, hpoint]
  · exact ⟨hlog', hinlet, houtlet'⟩
  · exact Or.inr (Or.inl hlog')

/-- The bridges of an orderly session use no egress that rejects. -/
theorem Orderly.calm (h : Orderly s) (hpoint : s.point = .bridging) (c : Call) :
    s.throws c = false := by
  simp only [Orderly, hpoint] at h
  unfold State.throws
  split
  · rfl
  · rw [h.2.2]
    rfl

/-- What an event can do in an orderly session. -/
theorem Orderly.step_of_exec (h : Orderly s) (hexec : exec st s e = some s') : Step st s e s' :=
  Session.step_of_exec h.calm hexec

theorem Orderly.step (h : Orderly s) (hstep : Step st s e s') : Orderly s' := by
  cases hstep with
  | read hpoint =>
      simp only [Orderly, hpoint] at h
      refine orderly_afterRead ?_ fun _ hok => ready_of_readRemote hok
      exact h
  | route hpoint =>
      simp only [Orderly, hpoint] at h
      exact orderly_afterRoute h.1 h.2 _
  | connected hpoint hr =>
      simp only [Orderly, hpoint] at h
      obtain ⟨hlog, hinlet, houtlet⟩ := h
      refine ⟨?_, hinlet, outlet_of_connect houtlet hr⟩
      exact early_append (early_append hlog (early_singleton rfl)) (early_singleton rfl)
  | connectFailed hpoint =>
      rcases hpoint with hpoint | hpoint <;> simp only [Orderly, hpoint] at h
      · exact orderly_failed h.1 rfl
      · exact orderly_failed h.1 rfl
  | spared hpoint hr =>
      -- the timer of the rejecting egress was never cancelled
      simp only [Orderly, hpoint] at h
      have hother := outlet_of_connect (by rw [h.2]; simp) hr
      rw [h.2] at hother
      cases hother
  | confirmed hpoint =>
      simp only [Orderly, hpoint] at h
      exact orderly_establish h.1 h.2.1 h.2.2
  | confirmFailed hpoint =>
      simp only [Orderly, hpoint] at h
      exact orderly_failed h.1 rfl
  | disconnected hpoint =>
      simp only [Orderly, hpoint] at h
      obtain ⟨pre, hpre, hearly⟩ := h
      exact Or.inr (Or.inr ⟨pre, _, hpre, hearly⟩)
  | received hpoint _ ht _ =>
      simp only [Orderly, hpoint] at h
      exact orderly_turn h.1 h.2.1 h.2.2 ht
  | finished hpoint ht _ =>
      simp only [Orderly, hpoint] at h
      exact orderly_turn h.1 h.2.1 h.2.2 ht
  | cancelled hpoint hother hd =>
      simp only [Orderly, hpoint] at h ⊢
      exact h

theorem orderly_start : Orderly (start st) := by
  unfold start
  split
  · exact early_singleton rfl
  · exact Or.inl (by simp [Early])

theorem orderly_of_reachable (h : Reachable (exec st) (start st) s) : Orderly s :=
  Reaches.invariant Orderly orderly_start
    (fun _ _ _ hs _ hexec => hs.step (hs.step_of_exec hexec)) h

/-! ### What the invariant says -/

theorem not_early_invoked {log pre post : List Entry} {c : Call} (h : Early log)
    (hlog : log = pre ++ .invoked c :: post) : c.relays = false ∧ ∀ ec, c ≠ .disconnect ec := by
  have hearly := h (.invoked c) (by simp [hlog])
  cases c <;> simp [Entry.early, Call.relays] at hearly ⊢

theorem confirm_not_mem_of_early {log : List Entry} (h : Early log) : .returned .confirm ∉ log := by
  intro hmem
  cases h _ hmem

theorem ordered_of_early {log : List Entry} (h : Early log) : Ordered log where
  confirmed pre c post hlog hc := by
    rw [(not_early_invoked h hlog).1] at hc
    cases hc
  last pre ec post hlog := absurd rfl ((not_early_invoked h hlog).2 ec)

/-- An entry of a record that goes on is an older one or a new one. -/
theorem split_append {log new pre post : List Entry} {e : Entry}
    (h : log ++ new = pre ++ e :: post) :
    (∃ post', log = pre ++ e :: post') ∨ ∃ pre', pre = log ++ pre' ∧ new = pre' ++ e :: post := by
  rcases List.append_eq_append_iff.mp h with ⟨mid, rfl, hnew⟩ | ⟨mid, rfl, hpost⟩
  · exact Or.inr ⟨mid, rfl, hnew⟩
  · cases mid with
    | nil => exact Or.inr ⟨[], by simp, hpost.symm⟩
    | cons e' mid =>
        obtain ⟨rfl, -⟩ := List.cons.inj hpost
        exact Or.inl ⟨mid, rfl⟩

theorem ordered_of_refused {log : List Entry} (h : Refused log) : Ordered log := by
  obtain ⟨pre₀, ec₀, rfl, hearly⟩ := h
  -- an entry of the record is one of the handshake, or the last one
  have hsplit : ∀ pre c post, pre₀ ++ [.invoked (.disconnect ec₀)] = pre ++ .invoked c :: post →
      Early pre
        ∧ (c = .disconnect ec₀ ∧ post = [] ∨ c.relays = false ∧ ∀ ec, c ≠ .disconnect ec) := by
    intro pre c post hlog
    rcases split_append hlog with ⟨post', hpre₀⟩ | ⟨pre', rfl, hlast⟩
    · have hpre : Early pre := fun e he => hearly e (by simp [hpre₀, he])
      exact ⟨hpre, Or.inr (not_early_invoked hearly hpre₀)⟩
    · cases pre' with
      | nil =>
          obtain ⟨hc, hpost⟩ := List.cons.inj hlast
          refine ⟨by rw [List.append_nil]; exact hearly, Or.inl ⟨?_, hpost.symm⟩⟩
          exact (Entry.invoked.inj hc).symm
      | cons e pre' =>
          obtain ⟨-, hrest⟩ := List.cons.inj hlast
          simp at hrest
  constructor
  · intro pre c post hlog hc
    rcases (hsplit pre c post hlog).2 with ⟨rfl, -⟩ | ⟨hnot, -⟩
    · cases hc
    · rw [hnot] at hc
      cases hc
  · intro pre ec post hlog
    obtain ⟨hpre, hc⟩ := hsplit pre _ post hlog
    rcases hc with ⟨-, rfl⟩ | ⟨-, hnot⟩
    · exact ⟨rfl, confirm_not_mem_of_early hpre⟩
    · exact absurd rfl (hnot ec)

theorem ordered_of_established {log : List Entry} (h : Established log) : Ordered log := by
  obtain ⟨pre₀, post₀, rfl, hearly, hpost₀⟩ := h
  -- an invocation is one of the handshake, or it comes after `confirm`
  have hsplit : ∀ pre c post, pre₀ ++ .returned .confirm :: post₀ = pre ++ .invoked c :: post →
      (c.relays = false ∧ ∀ ec, c ≠ .disconnect ec)
        ∨ c.relays = true ∧ .returned .confirm ∈ pre := by
    intro pre c post hlog
    rcases split_append hlog with ⟨post', hpre₀⟩ | ⟨pre', rfl, hpost⟩
    · exact Or.inl (not_early_invoked hearly hpre₀)
    · cases pre' with
      | nil => cases (List.cons.inj hpost).1
      | cons e pre' =>
          obtain ⟨rfl, rfl⟩ := List.cons.inj hpost
          exact Or.inr ⟨hpost₀ (.invoked c) (List.mem_append_right _ List.mem_cons_self), by simp⟩
  constructor
  · intro pre c post hlog hc
    rcases hsplit pre c post hlog with ⟨hnot, -⟩ | ⟨-, hmem⟩
    · rw [hnot] at hc
      cases hc
    · exact hmem
  · intro pre ec post hlog
    rcases hsplit pre _ post hlog with ⟨-, hnot⟩ | ⟨hrelays, -⟩
    · exact absurd rfl (hnot ec)
    · cases hrelays

theorem Orderly.ordered (h : Orderly s) : Ordered s.log := by
  unfold Orderly at h
  split at h
  · exact ordered_of_early h
  · exact ordered_of_early h.1
  · exact ordered_of_early h.1
  · exact ordered_of_early h.1
  · exact ordered_of_early h.1
  · exact ordered_of_established h.1
  · obtain ⟨pre, hpre, hearly⟩ := h
    exact ordered_of_refused ⟨pre, _, hpre, hearly⟩
  · rcases h with h | h | h
    · exact ordered_of_early h
    · exact ordered_of_established h
    · exact ordered_of_refused h

/-- Reading the remote endpoint and disconnecting are never refused. -/
theorem inlet_admits_of_handshake (inlet : Inlet) {c : Call}
    (h : c = .readRemote ∨ ∃ ec, c = .disconnect ec) : inlet.admits c = true := by
  rcases inlet with ⟨credentials, manner⟩ | ⟨vo, _ | _ | manner⟩ | _ <;>
    rcases h with rfl | ⟨ec, rfl⟩ <;> rfl

/-- Connecting is never refused. -/
theorem outlet_admits_connect (outlet : Outlet) : outlet.admits .connect = true := by
  cases outlet <;> rfl

theorem admits_of_ready (hinlet : s.inlet.Ready) (houtlet : s.outlet = .other) (c : Call) :
    s.admits c = true := by
  unfold State.admits
  split
  · exact hinlet c
  · rw [houtlet]
    rfl

theorem Orderly.admits (h : Orderly s) {c : Call} (hc : c ∈ s.pending) : s.admits c = true := by
  unfold Orderly at h
  unfold State.pending at hc
  split at h <;> rename_i hpoint <;> simp only [hpoint] at hc
  · rw [List.mem_singleton.mp hc]
    exact inlet_admits_of_handshake s.inlet (Or.inl rfl)
  · cases hc
  · rw [List.mem_singleton.mp hc]
    exact outlet_admits_connect s.outlet
  · rw [List.mem_singleton.mp hc]
    exact outlet_admits_connect s.outlet
  · exact admits_of_ready h.2.1 h.2.2 c
  · exact admits_of_ready h.2.1 h.2.2 c
  · rw [List.mem_singleton.mp hc]
    exact inlet_admits_of_handshake s.inlet (Or.inr ⟨_, rfl⟩)
  · cases hc

/-! ### Confirming and connecting -/

/-- `confirm` is invoked once at most; it comes after the return of `connect`, and so does every
other use of the egress. -/
structure Connects (log : List Entry) : Prop where
  once : ∀ pre post, log = pre ++ .invoked .confirm :: post → .invoked .confirm ∉ pre
  connected : ∀ pre c post, log = pre ++ .invoked c :: post →
    c = .confirm ∨ c.side = .egress ∧ c ≠ .connect → .returned .connect ∈ pre

/-- A record goes on without `confirm`, and uses the egress only if it is connected. -/
theorem Connects.append {log new : List Entry} (h : Connects log)
    (hnew : ∀ c, .invoked c ∈ new →
      c ≠ .confirm ∧ (c.side = .egress → c = .connect ∨ .returned .connect ∈ log)) :
    Connects (log ++ new) where
  once pre post hlog := by
    rcases split_append hlog with ⟨post', rfl⟩ | ⟨pre', -, rfl⟩
    · exact h.once pre post' rfl
    · exact absurd rfl (hnew .confirm (by simp)).1
  connected pre c post hlog hc := by
    rcases split_append hlog with ⟨post', rfl⟩ | ⟨pre', rfl, rfl⟩
    · exact h.connected pre c post' rfl hc
    · obtain ⟨hconfirm, hegress⟩ := hnew c (by simp)
      rcases hc with rfl | ⟨hside, hconnect⟩
      · exact absurd rfl hconfirm
      · exact List.mem_append_left _ ((hegress hside).resolve_left hconnect)

theorem Connects.concat {log : List Entry} (h : Connects log) {entry : Entry}
    (hentry : ∀ c, entry = .invoked c → c ≠ .confirm ∧ (c.side = .egress → c = .connect)) :
    Connects (log ++ [entry]) := by
  refine h.append fun c hc => ?_
  obtain ⟨hconfirm, hegress⟩ := hentry c (List.mem_singleton.mp hc).symm
  exact ⟨hconfirm, fun hside => Or.inl (hegress hside)⟩

/-- The first `confirm`. -/
theorem Connects.confirm {log : List Entry} (h : Connects log) (hnot : .invoked .confirm ∉ log)
    (hconnected : .returned .connect ∈ log) : Connects (log ++ [.invoked .confirm]) where
  once pre post hlog := by
    rcases split_append hlog with ⟨post', rfl⟩ | ⟨pre', rfl, hnew⟩
    · exact h.once pre post' rfl
    · obtain rfl : pre' = [] := by
        cases pre' with
        | nil => rfl
        | cons e pre' => simp at hnew
      rwa [List.append_nil]
  connected pre c post hlog hc := by
    rcases split_append hlog with ⟨post', rfl⟩ | ⟨pre', rfl, -⟩
    · exact h.connected pre c post' rfl hc
    · exact List.mem_append_left _ hconnected

/-- **The invariant**: before `confirming` there is no `confirm` in the record, and from there on
the egress is connected. -/
def Connecting (s : State) : Prop :=
  Connects s.log ∧
    match s.point with
    | .reading | .routing _ | .connecting | .rejecting => .invoked .confirm ∉ s.log
    | .confirming | .bridging => .returned .connect ∈ s.log
    | .disconnecting _ | .ended _ => True

theorem connecting_throw (h : Connects s.log) (f : Fault) : Connecting (s.throw f) := by
  unfold State.throw
  split
  · refine ⟨h.concat fun c hc => ?_, trivial⟩
    cases hc
    exact ⟨by simp, by simp [Call.side]⟩
  · exact ⟨h, trivial⟩

theorem connecting_failed (h : Connects s.log) (c : Call) (f : Fault) :
    Connecting (s.failed c f) :=
  connecting_throw (h.concat fun _ hc => by cases hc) f

theorem connecting_connectTo (h : Connects s.log) (hnot : .invoked .confirm ∉ s.log) (vo : Egress)
    {point : Point} (hpoint : point = .connecting ∨ point = .rejecting) :
    Connecting (connectTo st vo point s) := by
  unfold connectTo
  split
  · exact connecting_throw h _
  · have hconnects : Connects (s.log ++ [.invoked .connect]) := by
      refine h.concat fun c hc => ?_
      cases hc
      exact ⟨by simp, fun _ => rfl⟩
    rcases hpoint with rfl | rfl <;> exact ⟨hconnects, by simpa [State.invoke] using hnot⟩

/-- The two bridges use an egress that is connected. -/
theorem connecting_establish (h : Connects s.log) (hconnected : .returned .connect ∈ s.log) :
    Connecting s.establish := by
  refine ⟨h.append fun c hc => ?_, List.mem_append_left _ hconnected⟩
  refine ⟨?_, fun _ => Or.inr hconnected⟩
  rintro rfl
  simp at hc

theorem connecting_turn (h : Connects s.log) (hconnected : .returned .connect ∈ s.log)
    {entry : Entry} (hentry : ∀ c, entry ≠ .invoked c) (b : Bridge) :
    Connecting (s.turn d entry b) := by
  have hlog : Connects (s.log ++ entry :: (b.call d).toList.map .invoked) := by
    refine h.append fun c hc => ⟨?_, fun _ => Or.inr hconnected⟩
    rintro rfl
    rcases List.mem_cons.mp hc with hc | hc
    · exact hentry _ hc.symm
    · obtain ⟨c, hc, hconfirm⟩ := List.mem_map.mp hc
      cases hconfirm
      cases relays_of_call (Option.mem_toList.mp hc)
  refine ⟨hlog, ?_⟩
  rcases point_turn s d entry b with hpoint | ⟨f, hpoint⟩ <;> rw [hpoint]
  · exact List.mem_append_left _ hconnected
  · trivial

theorem connecting_afterRead (h : Connects s.log) (hnot : .invoked .confirm ∉ s.log)
    (remote : Result Endpoint) : Connecting (afterRead st remote s) := by
  unfold afterRead
  split
  · refine ⟨h.concat fun c hc => ?_, by simpa using hnot⟩
    cases hc
  · split
    · refine connecting_connectTo (h.concat fun _ hc => by cases hc) ?_ _ (Or.inr rfl)
      simpa using hnot
    · exact connecting_failed h _ _
  · exact connecting_failed h _ _

theorem connecting_afterRoute (h : Connects s.log) (hnot : .invoked .confirm ∉ s.log)
    (decision : Checked Decision) : Connecting (afterRoute st decision s) := by
  unfold afterRoute
  split
  · exact connecting_connectTo h hnot _ (Or.inl rfl)
  · exact connecting_throw h _

/-- The answer of a bridge is no invocation. -/
theorem not_invoked_of_turn {cancelled : Bool} {b b' : Bridge} {entry : Entry}
    (h : Turn d cancelled b entry b') (c : Call) : entry ≠ .invoked c := by
  cases h <;> simp

theorem Connecting.step (h : Connecting s) (hstep : Step st s e s') : Connecting s' := by
  obtain ⟨hlog, hpoint'⟩ := h
  cases hstep with
  | read hpoint =>
      simp only [hpoint] at hpoint'
      refine connecting_afterRead ?_ ?_ _
      · exact hlog
      · exact hpoint'
  | route hpoint =>
      simp only [hpoint] at hpoint'
      exact connecting_afterRoute hlog hpoint' _
  | connected hpoint hr =>
      simp only [hpoint] at hpoint'
      have hreturned : Connects (s.log ++ [.returned .connect]) :=
        hlog.concat fun _ hc => by cases hc
      exact ⟨hreturned.confirm (by simpa using hpoint') (by simp), by simp [State.invoke]⟩
  | connectFailed hpoint => exact connecting_failed hlog _ _
  | spared hpoint hr =>
      exact connecting_establish (hlog.concat fun _ hc => by cases hc) (by simp)
  | confirmed hpoint =>
      simp only [hpoint] at hpoint'
      exact connecting_establish (hlog.concat fun _ hc => by cases hc) (by simp [hpoint'])
  | confirmFailed hpoint => exact connecting_failed hlog _ _
  | disconnected hpoint => exact ⟨hlog, trivial⟩
  | received hpoint _ ht _ =>
      simp only [hpoint] at hpoint'
      exact connecting_turn hlog hpoint' (not_invoked_of_turn ht) _
  | finished hpoint ht _ =>
      simp only [hpoint] at hpoint'
      exact connecting_turn hlog hpoint' (not_invoked_of_turn ht) _
  | cancelled hpoint hother hd =>
      simp only [hpoint] at hpoint'
      refine ⟨hlog, ?_⟩
      simp only [hpoint]
      exact hpoint'

theorem connecting_start : Connecting (start st) := by
  have hnil : Connects [] := ⟨fun _ _ hlog => by simp at hlog, fun _ _ _ hlog => by simp at hlog⟩
  unfold start
  split
  · refine ⟨hnil.concat fun c hc => ?_, by simp⟩
    cases hc
    exact ⟨by simp, by simp [Call.side]⟩
  · exact ⟨hnil, trivial⟩

theorem connecting_of_reachable (h : Reachable (exec st) (start st) s) : Connecting s := by
  have hinv : Orderly s ∧ Connecting s := by
    refine Reaches.invariant (fun s => Orderly s ∧ Connecting s)
      ⟨orderly_start, connecting_start⟩ ?_ h
    rintro t e u ⟨ht, hconnecting⟩ - hexec
    exact ⟨ht.step (ht.step_of_exec hexec), hconnecting.step (ht.step_of_exec hexec)⟩
  exact hinv.2

/-- **Sessions keep to the protocol of their adapters.**  For every configuration, whatever the
adapters answer and in whatever order: no operation is invoked that the code of the adapter
refuses (an operation of `DualIngress` without a delegate, of `HttpIngress` without a manner,
`recv` or `send` of `RejectEgress`); nothing is received, sent or closed before `confirm` has
returned; `disconnect` is invoked once at most, as the last operation, in a session whose
`confirm` has not returned; `confirm` is invoked once at most, and only after `connect` has
returned, as every use of the egress is. -/
theorem orderly (h : Reachable (exec st) (start st) s) :
    (∀ c ∈ s.pending, s.admits c = true) ∧ Ordered s.log ∧ Connects s.log :=
  ⟨fun _ hc => (orderly_of_reachable h).admits hc, (orderly_of_reachable h).ordered,
    (connecting_of_reachable h).1⟩

/-! ### A session of a `DualIngress` -/

/-- A dual ingress, and a router that sends everything to a direct egress. -/
def Example.setting : Setting Unit Unit where
  platform := Reference.platform
  library := bareLibrary
  sha224 := fun _ => ⟨List.replicate 56 48, rfl⟩
  mmdb := none
  router := ⟨[], (lit "*", lit "direct", { type := .direct })⟩
  vo := { type := .dual }
  socket := ()

/-- A SOCKS5 client is let in. -/
def Example.handshake : List Event :=
  [.read ⟨.ok 5, .error aborted, .ok ⟨.domainName, lit "host", 80⟩⟩, .route (.ok []),
    .finish (.ok ()), .finish (.ok ())]

theorem orderly_example :
    ∃ s, Reachable (exec Example.setting) (start Example.setting) s
      ∧ s.pending = [.recv .ingress, .recv .egress] ∧ (∀ c ∈ s.pending, s.admits c = true)
      ∧ Ordered s.log ∧ Connects s.log := by
  have hexec : run (exec Example.setting) (start Example.setting) Example.handshake = some _ := rfl
  exact ⟨_, Reaches.of_run .refl hexec, rfl, orderly (Reaches.of_run .refl hexec)⟩

end Session

end Pichi
