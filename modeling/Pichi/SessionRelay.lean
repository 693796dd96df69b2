/-
# What a session relays

The two coroutines `bridge` of `actor/session.cpp`, in every interleaving: what they carry from one
adapter to the other, and what is closed when they end.

Both properties are invariants of a session whose `confirm` has returned; `invariant_of_confirmed`
is the rule for them.  One turn of a bridge changes what its own direction has carried, and nothing
of the other direction.

**Main results**:
* `relays_exactly`: what is sent to one adapter is what was received from the other one, buffer by
  buffer, with at most one buffer on the way;
* `closes_both`: an established session that comes to its end has closed both adapters, unless the
  one it closed first failed to close.
-/
import Pichi.Session

namespace Pichi

open Interleave

namespace Session

variable {Context Socket : Type} {st : Setting Context Socket} {s s' : State} {e : Event}
  {d : Direction}

/-! ## Relaying -/

/-- The buffer an adapter has delivered. -/
def Entry.got (side : Side) : Entry → Option Bytes
  | .received side' buf => if side' = side then some buf else none
  | _ => none

/-- The buffer an adapter is given to send. -/
def Entry.put (side : Side) : Entry → Option Bytes
  | .invoked (.send side' buf) => if side' = side then some buf else none
  | _ => none

/-- The buffer an adapter has sent. -/
def Entry.sent (side : Side) : Entry → Option Bytes
  | .returned (.send side' buf) => if side' = side then some buf else none
  | _ => none

/-- The buffers received from an adapter. -/
def receivedFrom (side : Side) (log : List Entry) : List Bytes := log.filterMap (Entry.got side)

/-- The buffers an adapter was given to send. -/
def givenTo (side : Side) (log : List Entry) : List Bytes := log.filterMap (Entry.put side)

/-- The buffers an adapter has sent. -/
def sentBy (side : Side) (log : List Entry) : List Bytes := log.filterMap (Entry.sent side)

/-- What a direction has carried so far: `got` was received, `put` was given to `send`, and `sent`
was sent. -/
structure Carried (b : Bridge) (got put sent : List Bytes) : Prop where
  given : put <+: got
  returned : sent <+: put
  outstanding : got.length ≤ sent.length + 1
  bounded : ∀ buf ∈ got, buf.length ≤ bufferSize
  recv : b = .recv → sent = got
  send : ∀ buf, b = .send buf → put = got ∧ got = sent ++ [buf]

/-- What the direction `d` has carried. -/
def CarriedBy (s : State) (d : Direction) : Prop :=
  Carried (s.bridges d) (receivedFrom d.source s.log) (givenTo d.target s.log)
    (sentBy d.target s.log)

theorem carried_nil (b : Bridge) (hb : ∀ buf, b ≠ .send buf) : Carried b [] [] [] where
  given := List.prefix_rfl
  returned := List.prefix_rfl
  outstanding := Nat.zero_le _
  bounded := by simp
  recv _ := rfl
  send buf h := absurd h (hb buf)

/-- A bridge that does not go on relays nothing more. -/
theorem Carried.stop {b b' : Bridge} {got put sent : List Bytes} (h : Carried b got put sent)
    (hrecv : b' ≠ .recv) (hsend : ∀ buf, b' ≠ .send buf) : Carried b' got put sent where
  given := h.given
  returned := h.returned
  outstanding := h.outstanding
  bounded := h.bounded
  recv hb := absurd hb hrecv
  send buf hb := absurd hb (hsend buf)

/-- A buffer was received, and is given to `send`. -/
theorem Carried.receive {got put sent : List Bytes} {buf : Bytes}
    (h : Carried .recv got put sent) (hle : buf.length ≤ bufferSize) :
    Carried (.send buf) (got ++ [buf]) (put ++ [buf]) sent := by
  have hsent : sent = got := h.recv rfl
  have hput : put = got := h.given.eq_of_length (by
    have hlen := h.returned.length_le
    rw [hsent] at hlen
    have hlen' := h.given.length_le
    omega)
  subst hsent
  refine ⟨by rw [hput], ?_, by simp, ?_, fun hb => (by cases hb), fun buf' hb => ?_⟩
  · rw [hput]
    exact List.prefix_append sent [buf]
  · intro x hx
    rcases List.mem_append.mp hx with hx | hx
    · exact h.bounded x hx
    · rw [List.mem_singleton.mp hx]
      exact hle
  · cases hb
    exact ⟨by rw [hput], rfl⟩

/-- A buffer was received by a bridge that was told to stop. -/
theorem Carried.drop {got put sent : List Bytes} {buf : Bytes} {f : Fault}
    (h : Carried .recv got put sent) (hle : buf.length ≤ bufferSize) :
    Carried (.done f) (got ++ [buf]) put sent := by
  have hreceive := h.receive hle
  refine ⟨?_, h.returned, hreceive.outstanding, hreceive.bounded, fun hb => (by cases hb),
    fun buf' hb => (by cases hb)⟩
  exact h.given.trans (List.prefix_append got [buf])

/-- A buffer was sent. -/
theorem Carried.deliver {got put sent : List Bytes} {buf : Bytes}
    (h : Carried (.send buf) got put sent) : Carried .recv got put (sent ++ [buf]) := by
  obtain ⟨hput, hgot⟩ := h.send buf rfl
  refine ⟨h.given, ?_, ?_, h.bounded, fun _ => hgot.symm, fun buf' hb => (by cases hb)⟩
  · rw [hput, hgot]
  · rw [hgot]
    exact Nat.le_succ _

/-- The buffers of one more entry. -/
theorem filterMap_concat (f : Entry → Option Bytes) (log : List Entry) (entry : Entry)
    (c : Option Call) :
    (log ++ entry :: c.toList.map .invoked).filterMap f
      = log.filterMap f ++ (f entry).toList ++ (c.bind fun c => f (.invoked c)).toList := by
  rw [List.filterMap_append, List.filterMap_cons]
  cases c with
  | none => cases f entry <;> simp
  | some c => cases f entry <;> cases hc : f (.invoked c) <;> simp [hc]

/-- A bridge that has left its loop. -/
def Bridge.Stopped (b : Bridge) : Prop := b ≠ .recv ∧ ∀ buf, b ≠ .send buf

theorem stopped_done (f : Fault) : (Bridge.done f).Stopped := ⟨by simp, by simp⟩

theorem stopped_await {cancelled : Bool} {b : Bridge} (h : b.Stopped) :
    (b.await cancelled).Stopped := by
  cases cancelled with
  | true => exact stopped_done aborted
  | false => exact h

theorem stopped_leave (cancelled : Bool) (f : Fault) : (Bridge.leave cancelled f).Stopped := by
  unfold Bridge.leave
  split
  · exact stopped_await ⟨by simp, by simp⟩
  · exact stopped_done f

/-- Such a bridge sends nothing. -/
theorem put_of_stopped {b : Bridge} (h : b.Stopped) (side : Side) :
    ((b.call d).bind fun c => Entry.put side (.invoked c)) = none := by
  cases b with
  | send buf => exact absurd rfl (h.2 buf)
  | _ => rfl

/-- A turn, seen from its own direction. -/
theorem carriedBy_turn (h : CarriedBy s d) {entry : Entry} {b : Bridge}
    (ht : Turn d (s.cancelled d) (s.bridges d) entry b) : CarriedBy (s.turn d entry b) d := by
  unfold CarriedBy at h ⊢
  have hbridge : (s.turn d entry b).bridges d = b := Function.update_self ..
  have hlog : (s.turn d entry b).log = s.log ++ entry :: (b.call d).toList.map .invoked := rfl
  rw [hbridge, hlog]
  simp only [receivedFrom, givenTo, sentBy, filterMap_concat] at h ⊢
  generalize s.bridges d = b₀ at h ht
  generalize s.cancelled d = cancelled at ht
  -- a turn out of the loop, or after it
  have hstop : ∀ {b : Bridge} {entry : Entry}, b.Stopped → entry.got d.source = none →
      entry.put d.target = none → entry.sent d.target = none →
      Carried b (s.log.filterMap (Entry.got d.source) ++ (entry.got d.source).toList
          ++ ((b.call d).bind fun c => Entry.got d.source (.invoked c)).toList)
        (s.log.filterMap (Entry.put d.target) ++ (entry.put d.target).toList
          ++ ((b.call d).bind fun c => Entry.put d.target (.invoked c)).toList)
        (s.log.filterMap (Entry.sent d.target) ++ (entry.sent d.target).toList
          ++ ((b.call d).bind fun c => Entry.sent d.target (.invoked c)).toList) := by
    intro b entry hb hgot hput hsent
    rw [hgot, hput, hsent, put_of_stopped hb]
    simpa [Entry.got, Entry.sent] using h.stop hb.1 hb.2
  cases ht with
  | received hle =>
      cases cancelled with
      | true =>
          simpa [Bridge.await, Bridge.call, Entry.got, Entry.put, Entry.sent] using h.drop hle
      | false =>
          simpa [Bridge.await, Bridge.call, Entry.got, Entry.put, Entry.sent] using h.receive hle
  | sent =>
      cases cancelled with
      | true =>
          simpa [Bridge.await, Bridge.call, Entry.got, Entry.put, Entry.sent] using
            h.deliver.stop (stopped_done aborted).1 (stopped_done aborted).2
      | false => simpa [Bridge.await, Bridge.call, Entry.got, Entry.put, Entry.sent] using h.deliver
  | recvFailed => exact hstop (stopped_leave _ _) rfl rfl rfl
  | sendFailed => exact hstop (stopped_leave _ _) rfl rfl rfl
  | sourceClosed => exact hstop (stopped_await ⟨by simp, by simp⟩) rfl rfl rfl
  | sourceFailed => exact hstop (stopped_done _) rfl rfl rfl
  | targetClosed => exact hstop (stopped_done _) rfl rfl rfl
  | targetFailed => exact hstop (stopped_done _) rfl rfl rfl

/-- The entries of a turn, seen from the other direction. -/
theorem silent_of_turn {d' : Direction} (hne : d' ≠ d) {cancelled : Bool} {b₀ b : Bridge}
    {entry : Entry} (ht : Turn d cancelled b₀ entry b) :
    entry.got d'.source = none ∧ entry.put d'.target = none ∧ entry.sent d'.target = none
      ∧ ((b.call d).bind fun c => Entry.put d'.target (.invoked c)) = none := by
  have hsource : d.source ≠ d'.source := by
    cases d <;> cases d' <;> simp_all [Direction.source]
  have htarget : d.target ≠ d'.target := by
    cases d <;> cases d' <;> simp_all [Direction.target]
  refine ⟨?_, ?_, ?_, ?_⟩
  · cases ht <;> simp [Entry.got, hsource]
  · cases ht <;> rfl
  · cases ht <;> simp [Entry.sent, htarget]
  · cases b <;> simp [Bridge.call, Entry.put, htarget]

/-- A turn of the other direction. -/
theorem carriedBy_turn_of_ne {d' : Direction} (hne : d' ≠ d) (h : CarriedBy s d') {entry : Entry}
    {b : Bridge} (ht : Turn d (s.cancelled d) (s.bridges d) entry b) :
    CarriedBy (s.turn d entry b) d' := by
  unfold CarriedBy at h ⊢
  have hbridge : (s.turn d entry b).bridges d' = s.bridges d' := Function.update_of_ne hne ..
  have hlog : (s.turn d entry b).log = s.log ++ entry :: (b.call d).toList.map .invoked := rfl
  obtain ⟨hgot, hput, hsent, hnext⟩ := silent_of_turn hne ht
  rw [hbridge, hlog]
  simp only [receivedFrom, givenTo, sentBy, filterMap_concat, hgot, hput, hsent, hnext] at h ⊢
  simpa [Entry.got, Entry.sent] using h

/-! ### Handshakes carry nothing -/

/-- No buffer occurs in the record. -/
def Silent (log : List Entry) : Prop :=
  ∀ e ∈ log, ∀ side, e.got side = none ∧ e.put side = none ∧ e.sent side = none

theorem lists_of_silent {log : List Entry} (h : Silent log) (side : Side) :
    receivedFrom side log = [] ∧ givenTo side log = [] ∧ sentBy side log = [] := by
  refine ⟨?_, ?_, ?_⟩
  · exact List.filterMap_eq_nil_iff.mpr fun e he => (h e he side).1
  · exact List.filterMap_eq_nil_iff.mpr fun e he => (h e he side).2.1
  · exact List.filterMap_eq_nil_iff.mpr fun e he => (h e he side).2.2

theorem silent_of_early {log : List Entry} (h : Early log) : Silent log := by
  intro e he side
  have hearly := h e he
  cases e with
  | invoked c => cases c <;> simp_all [Entry.early, Entry.got, Entry.put, Entry.sent]
  | returned c => cases c <;> simp_all [Entry.early, Entry.got, Entry.put, Entry.sent]
  | received side' buf => cases hearly
  | failed c f => exact ⟨rfl, rfl, rfl⟩

theorem silent_append {log log' : List Entry} (h : Silent log) (h' : Silent log') :
    Silent (log ++ log') := by
  intro e he side
  rcases List.mem_append.mp he with he | he
  · exact h e he side
  · exact h' e he side

/-- An entry of a handshake that does not end with the return of `confirm`. -/
def Entry.quiet (e : Entry) : Prop := e.early = true ∨ ∃ ec, e = .invoked (.disconnect ec)

/-- The record goes on with such entries. -/
def Extends (log log' : List Entry) : Prop := ∃ extra, log' = log ++ extra ∧ ∀ e ∈ extra, e.quiet

theorem Extends.refl (log : List Entry) : Extends log log := ⟨[], by simp, by simp⟩

theorem Extends.concat {log log' : List Entry} (h : Extends log log') {e : Entry} (he : e.quiet) :
    Extends log (log' ++ [e]) := by
  obtain ⟨extra, rfl, hextra⟩ := h
  refine ⟨extra ++ [e], List.append_assoc .., fun x hx => ?_⟩
  rcases List.mem_append.mp hx with hx | hx
  · exact hextra x hx
  · rw [List.mem_singleton.mp hx]
    exact he

theorem extends_throw {log : List Entry} (h : Extends log s.log) (f : Fault) :
    Extends log (s.throw f).log := by
  unfold State.throw
  split
  · exact h.concat (Or.inr ⟨_, rfl⟩)
  · exact h

theorem extends_failed {log : List Entry} (h : Extends log s.log) {c : Call} {f : Fault}
    (hc : (Entry.failed c f).early = true) : Extends log (s.failed c f).log := by
  unfold State.failed
  exact extends_throw (h.concat (Or.inl hc)) f

theorem extends_connectTo {log : List Entry} (h : Extends log s.log) (vo : Egress)
    (point : Point) : Extends log (connectTo st vo point s).log := by
  unfold connectTo
  split
  · exact extends_throw h _
  · exact h.concat (Or.inl rfl)

theorem extends_afterRead {log : List Entry} (h : Extends log s.log) (remote : Result Endpoint) :
    Extends log (afterRead st remote s).log := by
  unfold afterRead
  split
  · exact h.concat (Or.inl rfl)
  · split
    · exact extends_connectTo (h.concat (Or.inl rfl)) _ _
    · exact extends_failed h rfl
  · exact extends_failed h rfl

theorem extends_afterRoute {log : List Entry} (h : Extends log s.log)
    (decision : Checked Decision) : Extends log (afterRoute st decision s).log := by
  unfold afterRoute
  split
  · exact extends_connectTo h _ _
  · exact extends_throw h _

theorem Extends.confirm_mem {log log' : List Entry} (h : Extends log log')
    (hmem : .returned .confirm ∈ log') : .returned .confirm ∈ log := by
  obtain ⟨extra, rfl, hextra⟩ := h
  rcases List.mem_append.mp hmem with hmem | hmem
  · exact hmem
  · rcases hextra _ hmem with hearly | ⟨ec, hec⟩
    · cases hearly
    · cases hec

/-- **The first relayed state.**  A step to a session whose `confirm` has returned is the return of
`confirm`, or a step of such a session. -/
theorem confirmed_cases (hs : Orderly s) (hstep : Step st s e s')
    (hmem : .returned .confirm ∈ s'.log) :
    (s'.point = .bridging ∧ ∃ pre, Early pre ∧ s'.bridges = (fun _ => .recv)
        ∧ s'.cancelled = (fun _ => false)
        ∧ s'.log = pre ++ [.returned .confirm, .invoked (.recv .ingress), .invoked (.recv .egress)])
      ∨ (s.point = .bridging ∧ ∃ d entry b, Turn d (s.cancelled d) (s.bridges d) entry b
        ∧ s' = s.turn d entry b)
      ∨ (s.point = .bridging ∧ ∃ d f, s.bridges d.other = .done f ∧ (∀ f, s.bridges d ≠ .done f)
        ∧ s' = { s with cancelled := Function.update s.cancelled d true }) := by
  cases hstep with
  | read hpoint =>
      simp only [Orderly, hpoint] at hs
      refine absurd (Extends.confirm_mem (extends_afterRead ?_ _) hmem)
        (confirm_not_mem_of_early hs)
      exact .refl s.log
  | route hpoint =>
      simp only [Orderly, hpoint] at hs
      exact absurd ((extends_afterRoute (.refl s.log) _).confirm_mem hmem)
        (confirm_not_mem_of_early hs.1)
  | connected hpoint hr =>
      simp only [Orderly, hpoint] at hs
      exact absurd (by simpa [State.invoke] using hmem) (confirm_not_mem_of_early hs.1)
  | connectFailed hpoint =>
      rcases hpoint with hpoint | hpoint <;> simp only [Orderly, hpoint] at hs
      · exact absurd ((extends_failed (.refl s.log) rfl).confirm_mem hmem)
          (confirm_not_mem_of_early hs.1)
      · exact absurd ((extends_failed (.refl s.log) rfl).confirm_mem hmem)
          (confirm_not_mem_of_early hs.1)
  | spared hpoint hr =>
      simp only [Orderly, hpoint] at hs
      have hother := outlet_of_connect (by rw [hs.2]; simp) hr
      rw [hs.2] at hother
      cases hother
  | confirmed hpoint =>
      simp only [Orderly, hpoint] at hs
      exact Or.inl ⟨rfl, s.log, hs.1, rfl, rfl, by simp [State.establish]⟩
  | confirmFailed hpoint =>
      simp only [Orderly, hpoint] at hs
      exact absurd ((extends_failed (.refl s.log) rfl).confirm_mem hmem)
        (confirm_not_mem_of_early hs.1)
  | disconnected hpoint =>
      simp only [Orderly, hpoint] at hs
      obtain ⟨pre, hpre, hearly⟩ := hs
      refine absurd ?_ (confirm_not_mem_of_early hearly)
      simpa [hpre] using hmem
  | received hpoint _ ht _ => exact Or.inr (Or.inl ⟨hpoint, _, _, _, ht, rfl⟩)
  | finished hpoint ht _ => exact Or.inr (Or.inl ⟨hpoint, _, _, _, ht, rfl⟩)
  | cancelled hpoint hother hd => exact Or.inr (Or.inr ⟨hpoint, _, _, hother, hd, rfl⟩)

/-- The rule of invariants for sessions whose `confirm` has returned. -/
theorem invariant_of_confirmed (Inv : State → Prop)
    (hinit : ∀ s pre, s.point = .bridging → Early pre → s.bridges = (fun _ => .recv) →
      s.cancelled = (fun _ => false) →
      s.log = pre ++ [.returned .confirm, .invoked (.recv .ingress), .invoked (.recv .egress)] →
      Inv s)
    (hturn : ∀ s d entry b, Inv s → Turn d (s.cancelled d) (s.bridges d) entry b →
      Inv (s.turn d entry b))
    (hcancel : ∀ s d f, Inv s → s.point = .bridging → s.bridges (Direction.other d) = .done f →
      (∀ f, s.bridges d ≠ .done f) →
      Inv { s with cancelled := Function.update s.cancelled d true })
    (h : Reachable (exec st) (start st) s) (hmem : .returned .confirm ∈ s.log) : Inv s := by
  have hinv : Orderly s ∧ (.returned .confirm ∈ s.log → Inv s) := by
    refine Reaches.invariant (fun s => Orderly s ∧ (.returned .confirm ∈ s.log → Inv s))
      ⟨orderly_start, fun hmem => ?_⟩ ?_ h
    · unfold start at hmem
      split at hmem
      · simp at hmem
      · simp at hmem
    · rintro t e u ⟨ht, htinv⟩ - hexec
      have hstep := ht.step_of_exec hexec
      refine ⟨ht.step hstep, fun hmem => ?_⟩
      -- at the start of the bridges, or along them
      have hconfirmed : t.point = .bridging → .returned .confirm ∈ t.log := by
        intro hpoint
        simp only [Orderly, hpoint] at ht
        obtain ⟨pre, post, hlog, -⟩ := ht.1
        rw [hlog]
        exact List.mem_append_right _ List.mem_cons_self
      rcases confirmed_cases ht hstep hmem with ⟨hpoint, pre, hpre, hb, hc, hlog⟩ |
        ⟨hpoint, d, entry, b, hturned, rfl⟩ | ⟨hpoint, d, f, hother, hd, rfl⟩
      · exact hinit u pre hpoint hpre hb hc hlog
      · exact hturn t d entry b (htinv (hconfirmed hpoint)) hturned
      · exact hcancel t d f (htinv (hconfirmed hpoint)) hpoint hother hd
  exact hinv.2 hmem

theorem carriedBy_of_confirmed (h : Reachable (exec st) (start st) s)
    (hmem : .returned .confirm ∈ s.log) (d : Direction) : CarriedBy s d := by
  refine invariant_of_confirmed (fun s => ∀ d, CarriedBy s d) ?_ ?_ ?_ h hmem d
  · intro s pre _ hpre hb _ hlog d
    have hsilent : Silent s.log := by
      rw [hlog]
      refine silent_append (silent_of_early hpre) ?_
      intro e he side
      simp only [List.mem_cons, List.not_mem_nil, or_false] at he
      rcases he with rfl | rfl | rfl <;> exact ⟨rfl, rfl, rfl⟩
    unfold CarriedBy
    rw [(lists_of_silent hsilent d.source).1, (lists_of_silent hsilent d.target).2.1,
      (lists_of_silent hsilent d.target).2.2, hb]
    exact carried_nil .recv (by simp)
  · intro s d entry b hs ht d'
    by_cases hd : d' = d
    · rw [hd]
      exact carriedBy_turn (hs d) ht
    · exact carriedBy_turn_of_ne hd (hs d') ht
  · intro s d f hs _ _ _ d'
    exact hs d'

theorem silent_of_not_confirmed (h : Orderly s) (hmem : .returned .confirm ∉ s.log) :
    Silent s.log := by
  have hearly : Early s.log ∨ Refused s.log := by
    have hestablished : ¬Established s.log := by
      rintro ⟨pre, post, hlog, -⟩
      exact hmem (by rw [hlog]; exact List.mem_append_right _ List.mem_cons_self)
    unfold Orderly at h
    split at h
    · exact Or.inl h
    · exact Or.inl h.1
    · exact Or.inl h.1
    · exact Or.inl h.1
    · exact Or.inl h.1
    · exact absurd h.1 hestablished
    · obtain ⟨pre, hpre, hpre'⟩ := h
      exact Or.inr ⟨pre, _, hpre, hpre'⟩
    · rcases h with h | h | h
      · exact Or.inl h
      · exact absurd h hestablished
      · exact Or.inr h
  rcases hearly with hearly | ⟨pre, ec, hpre, hearly⟩
  · exact silent_of_early hearly
  · rw [hpre]
    refine silent_append (silent_of_early hearly) ?_
    intro e he side
    rw [List.mem_singleton.mp he]
    exact ⟨rfl, rfl, rfl⟩

/-- What a direction has carried, before and after `confirm` has returned. -/
theorem exists_carried (h : Reachable (exec st) (start st) s) (d : Direction) :
    ∃ b, Carried b (receivedFrom d.source s.log) (givenTo d.target s.log) (sentBy d.target s.log)
      ∧ (s.bridges d = .recv → b = .recv) := by
  by_cases hmem : .returned .confirm ∈ s.log
  · exact ⟨s.bridges d, carriedBy_of_confirmed h hmem d, id⟩
  · have hsilent := silent_of_not_confirmed (orderly_of_reachable h) hmem
    rw [(lists_of_silent hsilent d.source).1, (lists_of_silent hsilent d.target).2.1,
      (lists_of_silent hsilent d.target).2.2]
    exact ⟨.recv, carried_nil _ (by simp), fun _ => rfl⟩

/-- **Nothing is lost, invented or reordered between the adapters.**  For every configuration, in
every state of every session and in both directions: the buffers given to one adapter are the first
ones of those received from the other one, in their order, and so are the ones it has sent; all of
them are sent but the last one at most, which has at most `0xffff` bytes; and while a bridge waits
for its adapter it has sent everything. -/
theorem relays_exactly (h : Reachable (exec st) (start st) s) (d : Direction) :
    givenTo d.target s.log <+: receivedFrom d.source s.log
      ∧ sentBy d.target s.log <+: receivedFrom d.source s.log
      ∧ (receivedFrom d.source s.log).length ≤ (sentBy d.target s.log).length + 1
      ∧ (receivedFrom d.source s.log).flatten.length
        ≤ (sentBy d.target s.log).flatten.length + bufferSize
      ∧ (s.point = .bridging → s.bridges d = .recv →
        sentBy d.target s.log = receivedFrom d.source s.log) := by
  obtain ⟨b, hcarried, hrecv⟩ := exists_carried h d
  have hsent := hcarried.returned.trans hcarried.given
  refine ⟨hcarried.given, hsent, hcarried.outstanding, ?_, fun _ hb => hcarried.recv (hrecv hb)⟩
  obtain ⟨rest, hrest⟩ := hsent
  have hlen := hcarried.outstanding
  rw [← hrest, List.length_append] at hlen
  rw [← hrest, List.flatten_append, List.length_append]
  -- what was not sent is one buffer
  match rest, hrest, hlen with
  | [], _, _ => simp
  | [buf], hrest, _ =>
      have hbuf := hcarried.bounded buf (by rw [← hrest]; simp)
      simpa using hbuf
  | _ :: _ :: _, _, hlen => simp at hlen

/-! ## Closing -/

/-- The other adapter. -/
def Side.other : Side → Side
  | ingress => egress
  | egress => ingress

/-- An operation has failed by something else than a `system_error`, which no coroutine of the
session catches. -/
def Fatal (log : List Entry) : Prop :=
  ∃ c f, .failed c f ∈ log ∧ ∀ e, f ≠ .thrown (.systemError e)

/-- A bridge that ended by itself has closed both adapters, or failed to close the first one. -/
def Ends (s : State) (d : Direction) : Prop :=
  (∃ f, s.bridges d = .done f) ∧ (Fatal s.log
    ∨ .invoked (.close d.source) ∈ s.log
      ∧ (.invoked (.close d.target) ∈ s.log ∨ ∃ f, .failed (.close d.source) f ∈ s.log))

/-- What the end of a session depends on, for the bridge of one direction. -/
structure Closing (s : State) (d : Direction) : Prop where
  source : ∀ ec, s.bridges d = .closeSource ec → .invoked (.close d.source) ∈ s.log
  target : ∀ ec, s.bridges d = .closeTarget ec →
    .invoked (.close d.source) ∈ s.log ∧ .invoked (.close d.target) ∈ s.log
  done : ∀ f, s.bridges d = .done f → Ends s d ∨ s.cancelled d = true
  cancelled : s.cancelled d = true → Ends s d.other

theorem Fatal.append {log : List Entry} (h : Fatal log) (log' : List Entry) :
    Fatal (log ++ log') := by
  obtain ⟨c, f, hmem, hf⟩ := h
  exact ⟨c, f, List.mem_append_left _ hmem, hf⟩

/-- What a bridge has closed stays closed. -/
theorem Ends.extend (h : Ends s d) {extra : List Entry} (hbridge : s'.bridges d = s.bridges d)
    (hlog : s'.log = s.log ++ extra) : Ends s' d := by
  obtain ⟨⟨f, hf⟩, hend⟩ := h
  refine ⟨⟨f, hbridge.trans hf⟩, ?_⟩
  rw [hlog]
  rcases hend with hfatal | ⟨hsource, htarget | ⟨f', hf'⟩⟩
  · exact Or.inl (hfatal.append extra)
  · exact Or.inr ⟨List.mem_append_left _ hsource, Or.inl (List.mem_append_left _ htarget)⟩
  · exact Or.inr ⟨List.mem_append_left _ hsource, Or.inr ⟨f', List.mem_append_left _ hf'⟩⟩

theorem other_ne (d : Direction) : d.other ≠ d := by
  cases d <;> simp [Direction.other]

theorem eq_other_of_ne {d' : Direction} (h : d' ≠ d) : d' = d.other := by
  cases d <;> cases d' <;> simp_all [Direction.other]

/-- A bridge that takes a turn has not ended. -/
theorem not_done_of_turn {cancelled : Bool} {b : Bridge} {f : Fault} {entry : Entry} :
    ¬Turn d cancelled (.done f) entry b := by
  intro h
  cases h

section Turns

variable {entry : Entry} {b : Bridge}

theorem mem_turn_of_mem {e : Entry} (h : e ∈ s.log) : e ∈ (s.turn d entry b).log :=
  List.mem_append_left _ h

theorem entry_mem_turn : entry ∈ (s.turn d entry b).log :=
  List.mem_append_right _ List.mem_cons_self

/-- The operation a bridge goes on to is invoked. -/
theorem invoked_mem_turn {c : Call} (h : b.call d = some c) :
    .invoked c ∈ (s.turn d entry b).log := by
  refine List.mem_append_right _ (List.mem_cons_of_mem _ ?_)
  rw [h]
  exact List.mem_singleton_self _

theorem bridges_turn : (s.turn d entry b).bridges d = b := Function.update_self ..

theorem bridges_turn_of_ne {d' : Direction} (h : d' ≠ d) :
    (s.turn d entry b).bridges d' = s.bridges d' := Function.update_of_ne h ..

theorem Closing.cancelled_turn (hs : Closing s d) (hc : (s.turn d entry b).cancelled d = true) :
    Ends (s.turn d entry b) d.other :=
  (hs.cancelled hc).extend (bridges_turn_of_ne (other_ne d)) rfl

/-- A bridge that comes to its end by itself. -/
theorem Closing.turn_done (hs : Closing s d) {f : Fault} (hb : b = .done f)
    (hends : Fatal (s.turn d entry b).log ∨ .invoked (.close d.source) ∈ (s.turn d entry b).log
      ∧ (.invoked (.close d.target) ∈ (s.turn d entry b).log
        ∨ ∃ f, .failed (.close d.source) f ∈ (s.turn d entry b).log)) :
    Closing (s.turn d entry b) d := by
  refine ⟨fun ec h => ?_, fun ec h => ?_, fun f' h => Or.inl ⟨⟨f', h⟩, hends⟩, hs.cancelled_turn⟩
  · rw [bridges_turn, hb] at h
    cases h
  · rw [bridges_turn, hb] at h
    cases h

/-- A bridge that goes on, or throws because it was cancelled. -/
theorem Closing.turn_await (hs : Closing s d) {b' : Bridge} (hb : b = .await (s.cancelled d) b')
    (hnot : ∀ f, b' ≠ .done f)
    (hsource : ∀ ec, b' = .closeTarget ec → .invoked (.close d.source) ∈ s.log) :
    Closing (s.turn d entry b) d := by
  cases hc : s.cancelled d with
  | true =>
      rw [hc] at hb
      refine ⟨fun ec h => ?_, fun ec h => ?_, fun _ _ => Or.inr hc, hs.cancelled_turn⟩
      · rw [bridges_turn, hb] at h
        cases h
      · rw [bridges_turn, hb] at h
        cases h
  | false =>
      rw [hc] at hb
      have hb' : b = b' := hb
      refine ⟨fun ec h => ?_, fun ec h => ?_, fun f h => ?_, hs.cancelled_turn⟩
      · rw [bridges_turn] at h
        exact invoked_mem_turn (by rw [h]; rfl)
      · rw [bridges_turn] at h
        exact ⟨mem_turn_of_mem (hsource ec (hb' ▸ h)), invoked_mem_turn (by rw [h]; rfl)⟩
      · rw [bridges_turn, hb'] at h
        exact absurd h (hnot f)

/-- A bridge that leaves its loop. -/
theorem Closing.turn_leave (hs : Closing s d) {c : Call} {f : Fault} (he : entry = .failed c f)
    (hb : b = .leave (s.cancelled d) f) : Closing (s.turn d entry b) d := by
  unfold Bridge.leave at hb
  split at hb
  · exact hs.turn_await hb (by simp) (by simp)
  · rename_i hnot
    exact hs.turn_done hb (Or.inl ⟨c, f, he ▸ entry_mem_turn, fun e hf => hnot e hf⟩)

/-- The bridge of the direction that takes a turn. -/
theorem closing_turn (hs : Closing s d) (ht : Turn d (s.cancelled d) (s.bridges d) entry b) :
    Closing (s.turn d entry b) d := by
  generalize hb₀ : s.bridges d = b₀ at ht
  cases ht with
  | received hle => exact hs.turn_await rfl (by simp) (by simp)
  | recvFailed => exact hs.turn_leave rfl rfl
  | sent => exact hs.turn_await rfl (by simp) (by simp)
  | sendFailed => exact hs.turn_leave rfl rfl
  | sourceClosed => exact hs.turn_await rfl (by simp) fun _ _ => hs.source _ hb₀
  | sourceFailed =>
      exact hs.turn_done rfl
        (Or.inr ⟨mem_turn_of_mem (hs.source _ hb₀), Or.inr ⟨_, entry_mem_turn⟩⟩)
  | targetClosed =>
      obtain ⟨hsource, htarget⟩ := hs.target _ hb₀
      exact hs.turn_done rfl (Or.inr ⟨mem_turn_of_mem hsource, Or.inl (mem_turn_of_mem htarget)⟩)
  | targetFailed =>
      obtain ⟨hsource, htarget⟩ := hs.target _ hb₀
      exact hs.turn_done rfl (Or.inr ⟨mem_turn_of_mem hsource, Or.inl (mem_turn_of_mem htarget)⟩)

/-- The bridge of the other direction. -/
theorem closing_turn_of_ne {d' : Direction} (hne : d' ≠ d) (hs : Closing s d')
    (ht : Turn d (s.cancelled d) (s.bridges d) entry b) : Closing (s.turn d entry b) d' := by
  have hbridge : (s.turn d entry b).bridges d' = s.bridges d' := bridges_turn_of_ne hne
  refine ⟨fun ec h => ?_, fun ec h => ?_, fun f h => ?_, fun hc => ?_⟩
  · exact mem_turn_of_mem (hs.source ec (hbridge ▸ h))
  · obtain ⟨hsource, htarget⟩ := hs.target ec (hbridge ▸ h)
    exact ⟨mem_turn_of_mem hsource, mem_turn_of_mem htarget⟩
  · rcases hs.done f (hbridge ▸ h) with hends | hc
    · exact Or.inl (hends.extend hbridge rfl)
    · exact Or.inr hc
  · -- the bridge that takes a turn would have ended
    obtain ⟨⟨f, hf⟩, -⟩ := hs.cancelled hc
    have hd : d'.other = d := by
      rw [eq_other_of_ne hne]
      cases d <;> rfl
    rw [hd] at hf
    rw [hf] at ht
    exact absurd ht not_done_of_turn

end Turns

/-- The other bridge has ended, and this one is told to stop. -/
theorem closing_cancel {f : Fault} (hs : ∀ d, Closing s d) (hother : s.bridges d.other = .done f)
    (hd : ∀ f, s.bridges d ≠ .done f) (d' : Direction) :
    Closing { s with cancelled := Function.update s.cancelled d true } d' := by
  have hends : Ends s d.other := by
    rcases (hs d.other).done f hother with hends | hc
    · exact hends
    · -- two bridges cannot cancel each other
      have hback := (hs d.other).cancelled hc
      have hd' : d.other.other = d := by cases d <;> rfl
      rw [hd'] at hback
      obtain ⟨⟨f', hf'⟩, -⟩ := hback
      exact absurd hf' (hd f')
  by_cases hd' : d' = d
  · subst hd'
    exact ⟨(hs d').source, (hs d').target, fun f' hf' => absurd hf' (hd f'), fun _ => hends⟩
  · have hsame : Function.update s.cancelled d true d' = s.cancelled d' :=
      Function.update_of_ne hd' ..
    refine ⟨(hs d').source, (hs d').target, fun f' hf' => ?_, fun hc => ?_⟩
    · rcases (hs d').done f' hf' with hends' | hc
      · exact Or.inl hends'
      · exact Or.inr (hsame.trans hc)
    · exact (hs d').cancelled (hsame.symm.trans hc)

/-- A session that has come to its end, has come to the end of both bridges. -/
def Joined (s : State) : Prop :=
  ∀ f, s.point = .ended f → s.bridges .up = .done f ∧ ∃ g, s.bridges .down = .done g

theorem joined_turn {entry : Entry} {b : Bridge} : Joined (s.turn d entry b) := by
  intro f hf
  simp only [State.turn] at hf ⊢
  split at hf
  · rename_i g g' hup hdown
    cases hf
    exact ⟨hup, g', hdown⟩
  · cases hf

theorem closing_of_confirmed (h : Reachable (exec st) (start st) s)
    (hmem : .returned .confirm ∈ s.log) : (∀ d, Closing s d) ∧ Joined s := by
  refine invariant_of_confirmed (fun s => (∀ d, Closing s d) ∧ Joined s) ?_ ?_ ?_ h hmem
  · intro s pre hpoint _ hb hc _
    refine ⟨fun d => ⟨?_, ?_, ?_, ?_⟩, fun f hf => ?_⟩
    · simp [hb]
    · simp [hb]
    · simp [hb]
    · simp [hc]
    · rw [hpoint] at hf
      cases hf
  · intro s d entry b hs ht
    refine ⟨fun d' => ?_, joined_turn⟩
    by_cases hd : d' = d
    · rw [hd]
      exact closing_turn (hs.1 d) ht
    · exact closing_turn_of_ne hd (hs.1 d') ht
  · intro s d f hs hpoint hother hd
    refine ⟨closing_cancel hs.1 hother hd, fun f' hf' => ?_⟩
    rw [hpoint] at hf'
    cases hf'

/-- **Both adapters are closed.**  For every configuration, every established session that comes to
its end throws what `bridge(ingress, egress)` has thrown, and has invoked `close` of both adapters,
unless the `close` of the other one has failed before, or an exception that is not a `system_error`
has passed through it. -/
theorem closes_both {f : Fault} (h : Reachable (exec st) (start st) s) (hended : s.point = .ended f)
    (hmem : .returned .confirm ∈ s.log) :
    s.bridges .up = .done f
      ∧ ∀ side, .invoked (.close side) ∈ s.log ∨ (∃ f, .failed (.close side.other) f ∈ s.log)
        ∨ Fatal s.log := by
  obtain ⟨hclosing, hjoined⟩ := closing_of_confirmed h hmem
  obtain ⟨hup, g, hdown⟩ := hjoined f hended
  refine ⟨hup, ?_⟩
  -- one of the bridges has ended by itself
  have hends : ∃ d, Ends s d := by
    rcases (hclosing .up).done f hup with hends | hc
    · exact ⟨.up, hends⟩
    · exact ⟨.down, (hclosing .up).cancelled hc⟩
  obtain ⟨d, -, hends⟩ := hends
  intro side
  rcases hends with hfatal | ⟨hsource, htarget⟩
  · exact Or.inr (Or.inr hfatal)
  · have hside : side = d.source ∨ side = d.target ∧ side.other = d.source := by
      cases d <;> cases side <;> simp [Direction.source, Direction.target, Side.other]
    rcases hside with rfl | ⟨hside, hother⟩
    · exact Or.inl hsource
    · rcases htarget with htarget | hfailed
      · exact Or.inl (hside ▸ htarget)
      · exact Or.inr (Or.inl (hother ▸ hfailed))

/-! ## A session and its end -/

/-- A buffer is relayed, and then the egress comes to its end. -/
def Example.relay : List Event :=
  Example.handshake ++ [.received .up (.ok (lit "hi")), .finished .up (.ok ()),
    .received .down (.error (.thrown (.systemError ⟨.asio .eof, ""⟩)))]

theorem relays_exactly_example :
    ∃ s, Reachable (exec Example.setting) (start Example.setting) s
      ∧ receivedFrom .ingress s.log = [lit "hi"]
      ∧ sentBy .egress s.log <+: receivedFrom .ingress s.log
      ∧ (s.point = .bridging → s.bridges .up = .recv →
        sentBy .egress s.log = receivedFrom .ingress s.log) := by
  have hexec : run (exec Example.setting) (start Example.setting) Example.relay = some _ := rfl
  have hreach := Reaches.of_run .refl hexec
  obtain ⟨-, hsent, -, -, hall⟩ := relays_exactly hreach .up
  exact ⟨_, hreach, rfl, hsent, hall⟩

/-- Both adapters are closed, and the other direction is stopped. -/
def Example.ending : List Event :=
  Example.relay ++ [.finished .down (.ok ()), .finished .down (.ok ()), .cancel .up,
    .received .up (.error aborted)]

theorem closes_both_example :
    ∃ s, Reachable (exec Example.setting) (start Example.setting) s ∧ s.point = .ended aborted
      ∧ s.bridges .up = .done aborted
      ∧ ∀ side, .invoked (.close side) ∈ s.log ∨ (∃ f, .failed (.close side.other) f ∈ s.log)
        ∨ Fatal s.log := by
  have hexec : run (exec Example.setting) (start Example.setting) Example.ending = some _ := rfl
  have hreach := Reaches.of_run .refl hexec
  exact ⟨_, hreach, rfl, closes_both hreach rfl (List.mem_of_getElem? (i := 5) rfl)⟩

end Session

end Pichi
