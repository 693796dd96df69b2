/-
# Sessions in front of a stream

A session together with the receiving half of its ingress.  `Session` leaves the answers of the
adapters open; here the answers of `read_remote` and of `recv` are those of a given machine, and all
others are still open.

A session asks its ingress for more only as long as every answer was a success: after the first
failure it closes the adapters.  So what it has received is what a chain of successful calls has
delivered, from the state in which `read_remote` left the ingress.

**Main result** (`Node.delivers`): in every run, the buffers received from the ingress are those of
such a chain, and the endpoint that is routed is the one `read_remote` has found.
-/
import Pichi.SessionRelay

namespace Pichi

open Interleave

namespace Session

/-! ## The receiving half of an ingress -/

/-- The receiving half of an ingress; `Env` is what its surroundings decide at a call. -/
structure Receiver (Env σ : Type) where
  /-- What `read_remote` finds. -/
  read : Env → σ → Reading × σ
  /-- `recv`, into a buffer of `0xffff` bytes. -/
  recv : Env → σ → Result Bytes × σ

/-- A session and the state of its ingress. -/
structure Node (σ : Type) where
  session : State
  stream : σ

/-- What can happen: a call of the ingress, or something else. -/
inductive NodeEvent (Env : Type) : Type where
  | read (env : Env)
  | receive (env : Env)
  | other (e : Event)

/-- The answer does not come from the receiving half of the ingress. -/
def Event.elsewhere : Event → Bool
  | .read _ | .received .up _ => false
  | _ => true

variable {Env σ Context Socket : Type}

/-- What an event does. -/
def Node.exec (st : Setting Context Socket) (R : Receiver Env σ) (n : Node σ) :
    NodeEvent Env → Option (Node σ)
  | .read env =>
    let (r, stream) := R.read env n.stream
    (Session.exec st n.session (.read r)).map (⟨·, stream⟩)
  | .receive env =>
    let (r, stream) := R.recv env n.stream
    (Session.exec st n.session (.received .up r)).map (⟨·, stream⟩)
  | .other e =>
    if e.elsewhere then (Session.exec st n.session e).map (⟨·, n.stream⟩) else none

/-- A session that starts in front of a stream. -/
def Node.start (st : Setting Context Socket) (stream : σ) : Node σ := ⟨Session.start st, stream⟩

/-- A chain of successful calls of `recv`, with the buffers they have delivered. -/
inductive Receiver.Delivers (R : Receiver Env σ) (s : σ) : List Bytes → σ → Prop where
  | nil : Delivers R s [] s
  | concat {bufs : List Bytes} {buf : Bytes} {env : Env} {t u : σ} (h : Delivers R s bufs t)
      (hrecv : R.recv env t = (.ok buf, u)) : Delivers R s (bufs ++ [buf]) u

variable {st : Setting Context Socket} {R : Receiver Env σ} {n n' : Node σ} {stream : σ}

/-- An event of the node is an event of its session. -/
theorem Node.exists_exec {e : NodeEvent Env} (h : n.exec st R e = some n') :
    ∃ e', Session.exec st n.session e' = some n'.session := by
  unfold Node.exec at h
  split at h
  · obtain ⟨s, hs, rfl⟩ := Option.map_eq_some_iff.mp h
    exact ⟨_, hs⟩
  · obtain ⟨s, hs, rfl⟩ := Option.map_eq_some_iff.mp h
    exact ⟨_, hs⟩
  · split at h
    · obtain ⟨s, hs, rfl⟩ := Option.map_eq_some_iff.mp h
      exact ⟨_, hs⟩
    · cases h

/-- A run of the node is a run of its session. -/
theorem Node.reachable (h : Reachable (Node.exec st R) (Node.start st stream) n) :
    Reachable (Session.exec st) (Session.start st) n.session := by
  refine Reaches.invariant
    (fun n : Node σ => Reachable (Session.exec st) (Session.start st) n.session) .refl ?_ h
  intro t e u ht _ hexec
  obtain ⟨e', he'⟩ := Node.exists_exec hexec
  exact .step ht trivial he'

section Runs

variable {start : Node σ} {env : Env} {s : State} {t : σ}

/-- The session asks for the remote endpoint. -/
theorem Node.reachable_read {r : Reading} (h : Reachable (Node.exec st R) start n)
    (hread : R.read env n.stream = (r, t)) (hs : Session.exec st n.session (.read r) = some s) :
    Reachable (Node.exec st R) start ⟨s, t⟩ := by
  have hexec : n.exec st R (.read env) = some ⟨s, t⟩ := by
    simp only [Node.exec, hread, hs, Option.map_some]
  exact .step h trivial hexec

/-- The session asks for more. -/
theorem Node.reachable_receive {r : Result Bytes} (h : Reachable (Node.exec st R) start n)
    (hrecv : R.recv env n.stream = (r, t))
    (hs : Session.exec st n.session (.received .up r) = some s) :
    Reachable (Node.exec st R) start ⟨s, t⟩ := by
  have hexec : n.exec st R (.receive env) = some ⟨s, t⟩ := by
    simp only [Node.exec, hrecv, hs, Option.map_some]
  exact .step h trivial hexec

/-- Things happen elsewhere. -/
theorem Node.reachable_others {es : List Event} :
    ∀ {n : Node σ}, Reachable (Node.exec st R) start n → (∀ e ∈ es, e.elsewhere = true) →
      run (Session.exec st) n.session es = some s →
      Reachable (Node.exec st R) start ⟨s, n.stream⟩ := by
  induction es with
  | nil =>
      intro n h _ hrun
      cases hrun
      exact h
  | cons e es ih =>
      intro n h helse hrun
      obtain ⟨u, hu, hrun⟩ := Option.bind_eq_some_iff.mp hrun
      have hexec : n.exec st R (.other e) = some ⟨u, n.stream⟩ := by
        simp only [Node.exec, helse e (by simp), if_true, hu, Option.map_some]
      have hnext := ih (.step h trivial hexec) (fun x hx => helse x (by simp [hx]))
      exact hnext hrun

end Runs

/-! ## While the ingress is being read -/

/-- The ingress has been asked for the remote endpoint, and may be asked for more. -/
def State.Live (s : State) : Prop :=
  match s.point with
  | .routing _ | .connecting | .confirming => True
  | .bridging => ¬(s.bridges .up).Stopped
  | _ => False

/-- The ingress is being asked for the remote endpoint. -/
def State.isReading (s : State) : Bool :=
  match s.point with
  | .reading => true
  | .routing _ | .connecting | .rejecting | .confirming | .bridging | .disconnecting _
  | .ended _ => false

/-- The handshake has failed. -/
def State.Lost (s : State) : Prop :=
  match s.point with
  | .rejecting | .disconnecting _ | .ended _ => True
  | _ => False

variable {s s' : State} {e : Event}

theorem lost_throw (f : Fault) : (s.throw f).Lost := by
  unfold State.throw
  split <;> exact trivial

theorem lost_failed (c : Call) (f : Fault) : (s.failed c f).Lost := lost_throw f

theorem lost_connectTo (vo : Egress) : (connectTo st vo .rejecting s).Lost := by
  unfold connectTo
  split
  · exact lost_throw _
  · exact trivial

/-- A session whose `read_remote` has failed is lost. -/
theorem lost_afterRead {f : Fault} : (afterRead st (.error f) s).Lost := by
  unfold afterRead
  split
  · rename_i h
    cases h
  · split
    · exact lost_connectTo _
    · exact lost_failed _ _
  · exact lost_failed _ _

theorem State.Lost.not_live (h : s.Lost) : ¬s.Live := by
  unfold State.Lost at h
  unfold State.Live
  split at h <;> simp_all

theorem Extends.received {log log' : List Entry} (h : Extends log log') (side : Side) :
    receivedFrom side log' = receivedFrom side log := by
  obtain ⟨extra, rfl, hextra⟩ := h
  have hnone : ∀ e ∈ extra, e.got side = none := by
    intro e he
    rcases hextra e he with hearly | ⟨ec, rfl⟩
    · exact (silent_of_early (early_singleton hearly) e (by simp) side).1
    · rfl
  rw [receivedFrom, List.filterMap_append, List.filterMap_eq_nil_iff.mpr hnone, List.append_nil]
  rfl

/-- A stopped bridge stays so. -/
theorem stopped_of_turn {d : Direction} {cancelled : Bool} {b b' : Bridge} {entry : Entry}
    (h : Turn d cancelled b entry b') (hb : b.Stopped) : b'.Stopped := by
  cases h with
  | received => exact absurd rfl hb.1
  | recvFailed => exact absurd rfl hb.1
  | sent => exact absurd rfl (hb.2 _)
  | sendFailed => exact absurd rfl (hb.2 _)
  | sourceClosed => exact stopped_await ⟨by simp, by simp⟩
  | sourceFailed => exact stopped_done _
  | targetClosed => exact stopped_done _
  | targetFailed => exact stopped_done _

theorem live_of_turn {d : Direction} {entry : Entry} {b : Bridge} (hpoint : s.point = .bridging)
    (ht : Turn d (s.cancelled d) (s.bridges d) entry b) (h : (s.turn d entry b).Live) : s.Live := by
  have hup : (s.bridges .up).Stopped → ((s.turn d entry b).bridges .up).Stopped := by
    intro hstopped
    by_cases hd : d = .up
    · subst hd
      rw [bridges_turn]
      exact stopped_of_turn ht hstopped
    · rw [bridges_turn_of_ne (Ne.symm hd)]
      exact hstopped
  unfold State.Live at h
  split at h <;> rename_i hnext
  · simp only [State.turn] at hnext
    split at hnext <;> cases hnext
  · simp only [State.turn] at hnext
    split at hnext <;> cases hnext
  · simp only [State.turn] at hnext
    split at hnext <;> cases hnext
  · simp only [State.Live, hpoint]
    exact fun hstopped => h (hup hstopped)
  · exact h.elim

/-- The buffers of a turn of the other direction, or of a turn that receives nothing. -/
theorem received_turn_of_got {d : Direction} {entry : Entry} {b : Bridge}
    (h : entry.got .ingress = none) :
    receivedFrom .ingress (s.turn d entry b).log = receivedFrom .ingress s.log := by
  have hlog : (s.turn d entry b).log = s.log ++ entry :: (b.call d).toList.map .invoked := rfl
  rw [hlog, receivedFrom, filterMap_concat, h]
  simp [Entry.got, receivedFrom]

/-- A buffer is received from the ingress. -/
theorem received_turn_up (buf : Bytes) (b : Bridge) :
    receivedFrom .ingress (s.turn .up (.received .ingress buf) b).log
      = receivedFrom .ingress s.log ++ [buf] := by
  have hlog : (s.turn .up (.received .ingress buf) b).log
      = s.log ++ .received .ingress buf :: (b.call .up).toList.map .invoked := rfl
  rw [hlog, receivedFrom, filterMap_concat]
  simp [Entry.got, receivedFrom]

/-- A session that has stopped receiving from its ingress. -/
theorem not_live_of_stopped {entry : Entry} {b : Bridge} (hb : b.Stopped) :
    ¬(s.turn .up entry b).Live := by
  unfold State.Live
  split <;> rename_i hpoint
  · simp only [State.turn] at hpoint
    split at hpoint <;> cases hpoint
  · simp only [State.turn] at hpoint
    split at hpoint <;> cases hpoint
  · simp only [State.turn] at hpoint
    split at hpoint <;> cases hpoint
  · rw [bridges_turn]
    exact fun h => h hb
  · exact id

/-- An event elsewhere does not touch what was received from the ingress. -/
theorem elsewhere_step (hs : Orderly s) (hstep : Step st s e s') (he : e.elsewhere = true) :
    receivedFrom .ingress s'.log = receivedFrom .ingress s.log ∧ (s'.Live → s.Live)
      ∧ (s.Lost → s'.Lost) := by
  cases hstep with
  | read hpoint => cases he
  | route hpoint =>
      refine ⟨(extends_afterRoute (.refl s.log) _).received _, fun _ => ?_, fun hlost => ?_⟩
      · simp only [State.Live, hpoint]
      · simp only [State.Lost, hpoint] at hlost
  | connected hpoint hr =>
      have hext : Extends s.log (s.log ++ [.returned .connect] ++ [.invoked .confirm]) :=
        ((Extends.refl s.log).concat (Or.inl rfl)).concat (Or.inl rfl)
      refine ⟨hext.received _, fun _ => ?_, fun hlost => ?_⟩
      · simp only [State.Live, hpoint]
      · simp only [State.Lost, hpoint] at hlost
  | connectFailed hpoint =>
      exact ⟨(extends_failed (.refl s.log) rfl).received _,
        fun hlive => absurd hlive (lost_failed _ _).not_live, fun _ => lost_failed _ _⟩
  | spared hpoint hr =>
      simp only [Orderly, hpoint] at hs
      have hother := outlet_of_connect (by rw [hs.2]; simp) hr
      rw [hs.2] at hother
      cases hother
  | confirmed hpoint =>
      refine ⟨?_, fun _ => ?_, fun hlost => ?_⟩
      · simp [State.establish, receivedFrom, Entry.got, List.filterMap_cons]
      · simp only [State.Live, hpoint]
      · simp only [State.Lost, hpoint] at hlost
  | confirmFailed hpoint =>
      exact ⟨(extends_failed (.refl s.log) rfl).received _,
        fun hlive => absurd hlive (lost_failed _ _).not_live, fun _ => lost_failed _ _⟩
  | disconnected hpoint => exact ⟨rfl, fun hlive => hlive.elim, fun _ => trivial⟩
  | received hpoint hb ht hr =>
      rename_i d r entry b
      have hd : Direction.up ≠ d := by
        rintro rfl
        cases he
      refine ⟨received_turn_of_got (silent_of_turn hd ht).1, live_of_turn hpoint ht,
        fun hlost => ?_⟩
      simp only [State.Lost, hpoint] at hlost
  | finished hpoint ht hr =>
      rename_i d r entry b
      refine ⟨received_turn_of_got ?_, live_of_turn hpoint ht, fun hlost => ?_⟩
      · cases entry with
        | received side buf => exact absurd rfl (hr side buf)
        | _ => rfl
      · simp only [State.Lost, hpoint] at hlost
  | cancelled hpoint hother hd =>
      refine ⟨rfl, fun hlive => ?_, fun hlost => ?_⟩
      · simpa only [State.Live, hpoint] using hlive
      · simp only [State.Lost, hpoint] at hlost

/-! ## The chain of calls -/

/-- **The invariant**: the session has not read anything, or its handshake has failed, or what it
has received is a chain of calls that ends where the stream is now. -/
def Node.Chained (st : Setting Context Socket) (R : Receiver Env σ) (stream : σ) (n : Node σ) :
    Prop :=
  n = Node.start st stream ∨ (n.session.Lost ∧ receivedFrom .ingress n.session.log = [])
    ∨ n.session.point ≠ .reading ∧ ∃ env peer t,
      ((Session.start st).inlet.readRemote st.platform (R.read env stream).1).1 = .ok peer
        ∧ (∀ peer', n.session.point = .routing peer' → peer' = peer)
        ∧ R.Delivers (R.read env stream).2 (receivedFrom .ingress n.session.log) t
        ∧ (n.session.Live → t = n.stream)

theorem received_start : receivedFrom .ingress (Session.start st).log = [] := by
  unfold Session.start
  split <;> rfl

/-- A session that has been started asks for the remote endpoint, or is at its end. -/
theorem point_start (st : Setting Context Socket) :
    (Session.start st).point = .reading ∨ ∃ f, (Session.start st).point = .ended f := by
  unfold Session.start
  split
  · exact Or.inl rfl
  · exact Or.inr ⟨_, rfl⟩

/-- Nothing else can happen to it. -/
theorem not_elsewhere_of_start (hstep : Step st (Session.start st) e s') : e.elsewhere = false := by
  rcases point_start st with h | ⟨f, h⟩ <;> cases hstep <;> simp_all [Event.elsewhere]

theorem point_throw (f : Fault) : (s.throw f).point ≠ .reading := by
  unfold State.throw
  split <;> simp [State.invoke]

theorem point_connectTo (vo : Egress) {point : Point} (h : point ≠ .reading) :
    (connectTo st vo point s).point ≠ .reading := by
  unfold connectTo
  split
  · exact point_throw _
  · exact h

theorem routing_throw {peer : Endpoint} (f : Fault) : (s.throw f).point ≠ .routing peer := by
  unfold State.throw
  split <;> simp [State.invoke]

theorem routing_connectTo (vo : Egress) {point : Point} {peer : Endpoint}
    (h : point ≠ .routing peer) : (connectTo st vo point s).point ≠ .routing peer := by
  unfold connectTo
  split
  · exact routing_throw _
  · exact h

/-- The remote endpoint is asked for once. -/
theorem point_of_step (hstep : Step st s e s') : s'.point ≠ .reading := by
  cases hstep with
  | read hpoint =>
      unfold afterRead
      split
      · simp
      · split
        · exact point_connectTo _ (by simp)
        · exact point_throw _
      · exact point_throw _
  | route hpoint =>
      unfold afterRoute
      split
      · exact point_connectTo _ (by simp)
      · exact point_throw _
  | connected => simp [State.invoke]
  | connectFailed => exact point_throw _
  | spared => simp [State.establish]
  | confirmed => simp [State.establish]
  | confirmFailed => exact point_throw _
  | disconnected => simp
  | received =>
      simp only [State.turn]
      split <;> simp
  | finished =>
      simp only [State.turn]
      split <;> simp
  | cancelled hpoint =>
      simp only [hpoint]
      simp

/-- An endpoint is only routed after `read_remote` has found it. -/
theorem routing_of_step {peer : Endpoint} (hstep : Step st s e s')
    (hpoint : s'.point = .routing peer) :
    ∃ r, e = .read r ∧ (s.inlet.readRemote st.platform r).1 = .ok peer := by
  cases hstep with
  | read =>
      rename_i r h
      refine ⟨r, rfl, ?_⟩
      unfold afterRead at hpoint
      split at hpoint
      · rename_i hremote
        cases hpoint
        exact hremote
      · split at hpoint
        · exact absurd hpoint (routing_connectTo _ (by simp))
        · exact absurd hpoint (routing_throw _)
      · exact absurd hpoint (routing_throw _)
  | route h =>
      unfold afterRoute at hpoint
      split at hpoint
      · exact absurd hpoint (routing_connectTo _ (by simp))
      · exact absurd hpoint (routing_throw _)
  | connected => simp [State.invoke] at hpoint
  | connectFailed => exact absurd hpoint (routing_throw _)
  | spared => simp [State.establish] at hpoint
  | confirmed => simp [State.establish] at hpoint
  | confirmFailed => exact absurd hpoint (routing_throw _)
  | disconnected => simp at hpoint
  | received =>
      simp only [State.turn] at hpoint
      split at hpoint <;> simp at hpoint
  | finished =>
      simp only [State.turn] at hpoint
      split at hpoint <;> simp at hpoint
  | cancelled h =>
      simp only [h] at hpoint
      cases hpoint

/-- `read_remote` delivers nothing yet. -/
theorem received_of_read {r : Reading} (hstep : Step st (Session.start st) (.read r) s') :
    receivedFrom .ingress s'.log = [] := by
  cases hstep with
  | read =>
      rw [(extends_afterRead (.refl _) _).received]
      exact received_start

/-- A session whose `read_remote` has failed is lost. -/
theorem lost_of_read {r : Reading} {f : Fault} (hstep : Step st (Session.start st) (.read r) s')
    (h : ((Session.start st).inlet.readRemote st.platform r).1 = .error f) : s'.Lost := by
  cases hstep with
  | read =>
      rw [h]
      exact lost_afterRead

/-- The session asks for the remote endpoint. -/
theorem Node.chained_read {env : Env}
    (hstep : Step st (Session.start st) (.read (R.read env stream).1) s') :
    Node.Chained st R stream ⟨s', (R.read env stream).2⟩ := by
  have hreceived := received_of_read hstep
  cases hremote : ((Session.start st).inlet.readRemote st.platform (R.read env stream).1).1 with
  | error f => exact Or.inr (Or.inl ⟨lost_of_read hstep hremote, hreceived⟩)
  | ok peer =>
      refine Or.inr (Or.inr ⟨point_of_step hstep, env, peer, _, hremote, ?_, ?_, fun _ => rfl⟩)
      · intro peer' hrouting
        obtain ⟨r, hr, hpeer⟩ := routing_of_step hstep hrouting
        cases hr
        rw [hremote] at hpeer
        exact (Except.ok.inj hpeer).symm
      · simp only [hreceived]
        exact .nil

/-- The session asks for more. -/
theorem Node.chained_receive {env : Env} (hs : n.Chained st R stream)
    (hstep : Step st n.session (.received .up (R.recv env n.stream).1) s') :
    Node.Chained st R stream ⟨s', (R.recv env n.stream).2⟩ := by
  have hnext := point_of_step hstep
  have hrouting : ∀ peer, s'.point ≠ .routing peer := by
    intro peer hpoint
    obtain ⟨r, hr, -⟩ := routing_of_step hstep hpoint
    cases hr
  cases hstep with
  | received hpoint hb ht hr =>
      rename_i entry b
      have hlive : n.session.Live := by
        simp only [State.Live, hpoint, hb]
        exact fun hstopped => hstopped.1 rfl
      rcases hs with rfl | ⟨hlost, -⟩ | ⟨-, env₀, peer, t, hpeer, -, hdelivers, ht'⟩
      · -- a session that has just been started has no bridges
        simp only [Node.start, Session.start] at hpoint
        split at hpoint <;> cases hpoint
      · exact absurd hlive hlost.not_live
      · have ht' := ht' hlive
        subst ht'
        rw [hb] at ht
        refine Or.inr (Or.inr ⟨hnext, env₀, peer, ?_⟩)
        cases ht with
        | received hle =>
            rename_i buf
            have hrecv : R.recv env n.stream = (.ok buf, (R.recv env n.stream).2) :=
              Prod.ext (hr _ _ rfl) rfl
            refine ⟨(R.recv env n.stream).2, hpeer, fun _ h => absurd h (hrouting _), ?_,
              fun _ => rfl⟩
            rw [show Direction.up.source = .ingress from rfl, received_turn_up]
            exact hdelivers.concat hrecv
        | recvFailed =>
            refine ⟨n.stream, hpeer, fun _ h => absurd h (hrouting _), ?_,
              fun hlive' => absurd hlive' ?_⟩
            · rw [received_turn_of_got rfl]
              exact hdelivers
            · exact not_live_of_stopped (stopped_leave _ _)

theorem Node.chained_step {e : NodeEvent Env} (hn : Orderly n.session)
    (hs : n.Chained st R stream) (h : n.exec st R e = some n') : n'.Chained st R stream := by
  unfold Node.exec at h
  split at h
  · obtain ⟨s', hs', rfl⟩ := Option.map_eq_some_iff.mp h
    have hstep := hn.step_of_exec hs'
    have hpoint : n.session.point = .reading := by
      cases hstep with
      | read hpoint => exact hpoint
    rcases hs with rfl | ⟨hlost, -⟩ | ⟨hnot, -⟩
    · exact Node.chained_read hstep
    · simp only [State.Lost, hpoint] at hlost
    · exact absurd hpoint hnot
  · obtain ⟨s', hs', rfl⟩ := Option.map_eq_some_iff.mp h
    exact Node.chained_receive hs (hn.step_of_exec hs')
  · split at h
    · rename_i helse
      obtain ⟨s', hs', rfl⟩ := Option.map_eq_some_iff.mp h
      have hstep := hn.step_of_exec hs'
      obtain ⟨hreceived, hlive, hlost⟩ := elsewhere_step hn hstep helse
      rcases hs with rfl | ⟨hl, hr⟩ | ⟨-, env, peer, t, hpeer, -, hdelivers, ht⟩
      · rw [not_elsewhere_of_start hstep] at helse
        cases helse
      · exact Or.inr (Or.inl ⟨hlost hl, hreceived.trans hr⟩)
      · refine Or.inr (Or.inr ⟨point_of_step hstep, env, peer, t, hpeer, ?_, ?_,
          fun hl => ht (hlive hl)⟩)
        · intro peer' hpoint
          obtain ⟨r, rfl, -⟩ := routing_of_step hstep hpoint
          cases helse
        · rw [hreceived]
          exact hdelivers
    · cases h

theorem Node.chained (h : Reachable (Node.exec st R) (Node.start st stream) n) :
    n.Chained st R stream := by
  have hinv : Orderly n.session ∧ n.Chained st R stream := by
    refine Reaches.invariant (fun n : Node σ => Orderly n.session ∧ n.Chained st R stream)
      ⟨orderly_start, Or.inl rfl⟩ ?_ h
    rintro t e u ⟨ht, hchained⟩ - hexec
    obtain ⟨e', he'⟩ := Node.exists_exec hexec
    exact ⟨ht.step (ht.step_of_exec he'), Node.chained_step ht hchained hexec⟩
  exact hinv.2

/-- **What a session has received from its ingress**, in every run: nothing, or the buffers of a
chain of successful calls of `recv` that begins where `read_remote` has left the ingress.  The
endpoint that is routed is the one `read_remote` has found. -/
theorem Node.delivers (h : Reachable (Node.exec st R) (Node.start st stream) n) :
    (receivedFrom .ingress n.session.log = [] ∧ ∀ peer, n.session.point ≠ .routing peer)
      ∨ ∃ env peer t,
        ((Session.start st).inlet.readRemote st.platform (R.read env stream).1).1 = .ok peer
          ∧ (∀ peer', n.session.point = .routing peer' → peer' = peer)
          ∧ R.Delivers (R.read env stream).2 (receivedFrom .ingress n.session.log) t := by
  rcases Node.chained h with rfl | ⟨hlost, hnil⟩ | ⟨-, env, peer, t, hpeer, hrouting, hdelivers, -⟩
  · refine Or.inl ⟨received_start, fun peer hpoint => ?_⟩
    rcases point_start st with h | ⟨f, h⟩ <;> rw [Node.start, h] at hpoint <;> cases hpoint
  · refine Or.inl ⟨hnil, fun peer hpoint => ?_⟩
    simp only [State.Lost, hpoint] at hlost
  · exact Or.inr ⟨env, peer, t, hpeer, hrouting, hdelivers⟩

/-! ## Sessions that are refused -/

/-- The session has not asked for the remote endpoint yet, or has not got it. -/
def Node.Refused (st : Setting Context Socket) (stream : σ) (n : Node σ) : Prop :=
  n = Node.start st stream ∨ n.session.Lost ∧ receivedFrom .ingress n.session.log = []

/-- A session stays refused as long as `read_remote` fails. -/
theorem Node.refused_step {e : NodeEvent Env} (hn : Orderly n.session) (hs : n.Refused st stream)
    (h : n.exec st R e = some n')
    (hread : n = Node.start st stream → ∀ env, e = .read env → ∃ f,
      ((Session.start st).inlet.readRemote st.platform (R.read env stream).1).1 = .error f) :
    n'.Refused st stream := by
  unfold Node.exec at h
  split at h
  · rename_i env
    obtain ⟨s', hs', rfl⟩ := Option.map_eq_some_iff.mp h
    have hstep := hn.step_of_exec hs'
    have hpoint : n.session.point = .reading := by
      cases hstep with
      | read hpoint => exact hpoint
    rcases hs with rfl | ⟨hlost, -⟩
    · obtain ⟨f, hf⟩ := hread rfl env rfl
      exact Or.inr ⟨lost_of_read hstep hf, received_of_read hstep⟩
    · simp only [State.Lost, hpoint] at hlost
  · obtain ⟨s', hs', rfl⟩ := Option.map_eq_some_iff.mp h
    have hpoint : n.session.point = .bridging := by
      cases hn.step_of_exec hs' with
      | received hpoint => exact hpoint
    rcases hs with rfl | ⟨hlost, -⟩
    · rcases point_start st with hstart | ⟨f, hstart⟩ <;> rw [Node.start, hstart] at hpoint <;>
        cases hpoint
    · simp only [State.Lost, hpoint] at hlost
  · split at h
    · rename_i helse
      obtain ⟨s', hs', rfl⟩ := Option.map_eq_some_iff.mp h
      have hstep := hn.step_of_exec hs'
      rcases hs with rfl | ⟨hlost, hreceived⟩
      · rw [not_elsewhere_of_start hstep] at helse
        cases helse
      · obtain ⟨hsame, -, hlost'⟩ := elsewhere_step hn hstep helse
        exact Or.inr ⟨hlost' hlost, hsame.trans hreceived⟩
    · cases h

/-- Nothing comes of a session that is refused. -/
theorem Node.Refused.nothing (h : n.Refused st stream)
    (hn : Reachable (Session.exec st) (Session.start st) n.session) :
    (∀ peer, n.session.point ≠ .routing peer) ∧ receivedFrom .ingress n.session.log = []
      ∧ givenTo .egress n.session.log = [] := by
  have hreceived : receivedFrom .ingress n.session.log = [] := by
    rcases h with rfl | ⟨-, hreceived⟩
    · exact received_start
    · exact hreceived
  obtain ⟨b, hcarried, -⟩ := exists_carried hn .up
  have hgiven : givenTo .egress n.session.log <+: receivedFrom .ingress n.session.log :=
    hcarried.given
  rw [hreceived, List.prefix_nil] at hgiven
  refine ⟨fun peer hpoint => ?_, hreceived, hgiven⟩
  rcases h with rfl | ⟨hlost, -⟩
  · rcases point_start st with hstart | ⟨f, hstart⟩ <;> rw [Node.start, hstart] at hpoint <;>
      cases hpoint
  · simp only [State.Lost, hpoint] at hlost

/-! ## Broken sockets -/

/-- The same receiver over a socket that may break in any call, which leaves the ingress in any
state. -/
def Receiver.breakable (R : Receiver Env σ) : Receiver (Env ⊕ Fault × σ) σ where
  read
    | .inl env, s => R.read env s
    | .inr (f, s), _ => (⟨.error f, .error f, .error f⟩, s)
  recv
    | .inl env, s => R.recv env s
    | .inr (f, s), _ => (.error f, s)

/-- A call that succeeds has not met a broken socket. -/
theorem Receiver.Delivers.of_breakable {s t : σ} {bufs : List Bytes}
    (h : R.breakable.Delivers s bufs t) : R.Delivers s bufs t := by
  induction h with
  | nil => exact .nil
  | concat h hrecv ih =>
      rename_i env t u
      rcases env with env | ⟨f, s⟩
      · exact ih.concat hrecv
      · cases hrecv

/-- Successful calls of an ingress that hands out what is pending hand out the beginning of it. -/
theorem Receiver.Delivers.of_drains {recv : ℕ → σ → Result Bytes × σ} {Ready : σ → Prop}
    {pending : σ → Bytes} (hdrains : Transfer.Drains recv Ready pending)
    (hrecv : ∀ env s, R.recv env s = recv bufferSize s) {s t : σ} {bufs : List Bytes} (hs : Ready s)
    (h : R.Delivers s bufs t) : Ready t ∧ pending s = bufs.flatten ++ pending t := by
  induction h with
  | nil => exact ⟨hs, rfl⟩
  | concat h hok ih =>
      rename_i bufs buf env t u
      obtain ⟨ht, hpending⟩ := ih
      rw [hrecv] at hok
      rcases hdrains.step t bufferSize ht (by decide) with
        ⟨-, f, hf⟩ | ⟨got, t', -, hgot, ht', hall⟩
      · rw [hf] at hok
        cases hok
      · rw [hgot] at hok
        cases hok
        refine ⟨ht', ?_⟩
        rw [hpending, hall, List.flatten_append, List.flatten_singleton, List.append_assoc]

theorem readRemote_of_broken {p : Platform} {f : Fault} (inlet : Inlet) :
    (inlet.readRemote p ⟨.error f, .error f, .error f⟩).1 = .error f := by
  cases inlet <;> rfl

/-- `Node.delivers`, over a socket that may break. -/
theorem Node.delivers_breakable
    (h : Reachable (Node.exec st R.breakable) (Node.start st stream) n) :
    (receivedFrom .ingress n.session.log = [] ∧ ∀ peer, n.session.point ≠ .routing peer)
      ∨ ∃ env peer t,
        ((Session.start st).inlet.readRemote st.platform (R.read env stream).1).1 = .ok peer
          ∧ (∀ peer', n.session.point = .routing peer' → peer' = peer)
          ∧ R.Delivers (R.read env stream).2 (receivedFrom .ingress n.session.log) t := by
  rcases Node.delivers h with hnil | ⟨env, peer, t, hpeer, hrouting, hdelivers⟩
  · exact Or.inl hnil
  · rcases env with env | ⟨f, s⟩
    · exact Or.inr ⟨env, peer, t, hpeer, hrouting, hdelivers.of_breakable⟩
    · rw [Receiver.breakable, readRemote_of_broken] at hpeer
      cases hpeer

/-- The endpoint that is routed is one that `read_remote` finds. -/
theorem Node.routes {Found : Endpoint → Prop}
    (hfound : ∀ env peer,
      ((Session.start st).inlet.readRemote st.platform (R.read env stream).1).1 = .ok peer →
      Found peer)
    (h : Reachable (Node.exec st R.breakable) (Node.start st stream) n) {peer : Endpoint}
    (hpoint : n.session.point = .routing peer) : Found peer := by
  rcases Node.delivers_breakable h with ⟨-, hrouting⟩ | ⟨env, peer', t, hpeer, hrouting, -⟩
  · exact absurd hpoint (hrouting peer)
  · rw [hrouting peer hpoint]
    exact hfound env peer' hpeer

/-- **What a session does with what its ingress finds.**  Let `Says` hold of each endpoint that
`read_remote` finds, and of a payload that the calls of `recv` after it deliver the beginning of.
Then in every run, `Says` holds of the endpoint that is routed, and of one and a payload of which
the egress was given the beginning. -/
theorem Node.relays {Says : Endpoint → Bytes → Prop}
    (hfound : ∀ env peer,
      ((Session.start st).inlet.readRemote st.platform (R.read env stream).1).1 = .ok peer →
      ∃ payload, Says peer payload
        ∧ ∀ bufs t, R.Delivers (R.read env stream).2 bufs t → bufs.flatten <+: payload)
    (h : Reachable (Node.exec st R.breakable) (Node.start st stream) n) :
    (∀ peer, n.session.point = .routing peer → ∃ payload, Says peer payload)
      ∧ (givenTo .egress n.session.log = [] ∨ ∃ peer payload, Says peer payload
        ∧ (givenTo .egress n.session.log).flatten <+: payload) := by
  obtain ⟨b, hcarried, -⟩ := exists_carried (Node.reachable h) .up
  have hgiven : givenTo .egress n.session.log <+: receivedFrom .ingress n.session.log :=
    hcarried.given
  rcases Node.delivers_breakable h with
    ⟨hnil, hrouting⟩ | ⟨env, peer, t, hpeer, hrouting, hdelivers⟩
  · refine ⟨fun peer hpoint => absurd hpoint (hrouting peer), Or.inl ?_⟩
    rwa [hnil, List.prefix_nil] at hgiven
  · obtain ⟨payload, hpayload, hbufs⟩ := hfound env peer hpeer
    refine ⟨fun peer' hpoint => ⟨payload, hrouting peer' hpoint ▸ hpayload⟩,
      Or.inr ⟨peer, payload, hpayload, ?_⟩⟩
    exact hgiven.flatten.trans (hbufs _ _ hdelivers)

end Session

end Pichi
