/-
# Tunnels and their balancers

`balancer::Service`, `Balancer` and its three manners of `service/balancer.cpp`, the tunnel ingress
of `adapter/tcp/tunnel.cpp`, and the calls of `create_balancer` and `remove_balancer` in
`actor/listener.cpp`.

The service keeps the balancers by name and works on a strand of its own.  A tunnel asks it for
the balancer of its name, keeps a reference to it, and then asks the balancer for a peer on the
strand of the balancer; when the tunnel is destroyed, the balancer posts the release of the peer to
its strand, and the tunnel drops its reference.  The handlers of one strand run in the order in
which they were posted; everything else is in any order.  A coroutine that waits for a strand is
one of the handlers that were posted to it.

`least_loaded`: in every state that can be reached, the counters of a least-connection balancer
over distinct destinations count the tunnels that have a peer and the releases still to come, and a
selection takes a peer that has the fewest.
-/
import Pichi.Adapters
import Pichi.BalancerTurns
import Pichi.Interleave

namespace Pichi

open Interleave

/-! ## Balancers -/

/-- A handler on the strand of a balancer. -/
inductive Handler : Type where
  /-- The rest of `select`, and of the tunnel that awaits it. -/
  | select
  /-- What `LeastConn::release` posts. -/
  | release (peer : Endpoint)
  deriving DecidableEq

namespace Balancer

/-- `select`; `draw` is what the generator of `balancer::Random` yields. -/
def select (draw : ℕ) : Balancer → Result (Endpoint × Balancer)
  | random peers upper => do
    -- the distribution is over the numbers up to `upper`
    let peer ← deref peers[draw % (upper + 1)]?
    return (peer, random peers upper)
  | roundRobin peers pos => do
    let (peer, s) ← RoundRobin.select ⟨peers, pos⟩
    return (peer, roundRobin s.peers s.pos)
  | leastConn s => do
    let (peer, s) ← s.select
    return (peer, leastConn s)

/-- `release`: what it posts to the strand. -/
def release (peer : Endpoint) : Balancer → List Handler
  | leastConn _ => [.release peer]
  | random _ _ => []
  | roundRobin _ _ => []

/-- The handler that `LeastConn::release` posts. -/
def released (peer : Endpoint) : Balancer → Result Balancer
  | leastConn s => do return leastConn (← s.release peer)
  | random peers upper => return random peers upper
  | roundRobin peers pos => return roundRobin peers pos

def isLeastConn : Balancer → Bool
  | leastConn _ => true
  | random _ _ => false
  | roundRobin _ _ => false

/-- A balancer that can select. -/
def Ok : Balancer → Prop
  | random peers upper => upper < peers.length
  | roundRobin peers pos => pos < peers.length
  | leastConn s => s.Consistent ∧ s.peers ≠ []

variable {b b' : Balancer}

theorem Ok.select (h : b.Ok) (draw : ℕ) :
    ∃ peer b', b.select draw = .ok (peer, b') ∧ b'.Ok ∧ b'.isLeastConn = b.isLeastConn := by
  cases b with
  | random peers upper =>
      have hlt : draw % (upper + 1) < peers.length :=
        lt_of_le_of_lt (Nat.le_of_lt_succ (Nat.mod_lt _ (Nat.succ_pos _))) h
      refine ⟨peers[draw % (upper + 1)], random peers upper, ?_, h, rfl⟩
      rw [Balancer.select, List.getElem?_eq_getElem hlt]
      rfl
  | roundRobin peers pos =>
      have hlt : pos < peers.length := h
      refine ⟨peers[pos], roundRobin peers ((pos + 1) % peers.length), ?_, ?_, rfl⟩
      · rw [Balancer.select, RoundRobin.select, List.getElem?_eq_getElem hlt]
        rfl
      · exact Nat.mod_lt _ (by omega)
  | leastConn s =>
      obtain ⟨-, peer, s', -, hselect, -, hcons, hpeers, -⟩ := h.1.select h.2
      refine ⟨peer, leastConn s', ?_, ⟨hcons, hpeers ▸ h.2⟩, rfl⟩
      rw [Balancer.select, hselect]
      rfl

theorem Ok.released (h : b.Ok) (peer : Endpoint) :
    ∃ b', b.released peer = .ok b' ∧ b'.Ok ∧ b'.isLeastConn = b.isLeastConn := by
  cases b with
  | random peers upper => exact ⟨_, rfl, h, rfl⟩
  | roundRobin peers pos => exact ⟨_, rfl, h, rfl⟩
  | leastConn s =>
      obtain ⟨s', hrelease, hcons, hpeers, -⟩ := h.1.release peer
      refine ⟨leastConn s', ?_, ⟨hcons, hpeers ▸ h.2⟩, rfl⟩
      rw [Balancer.released, hrelease]
      rfl

/-- A new balancer can select, and a least-connection balancer is one of its option. -/
theorem ok_of_initializeManner {vo : Ingress} (h : initializeManner vo = .ok b) :
    b.Ok ∧ ∀ s, b = leastConn s → ∃ opt, s = LeastConn.make opt := by
  obtain ⟨-, -, h⟩ := bind_eq_ok_iff.mp h
  obtain ⟨o, -, h⟩ := bind_eq_ok_iff.mp h
  obtain ⟨opt, -, h⟩ := bind_eq_ok_iff.mp h
  obtain ⟨u, hne, h⟩ := bind_eq_ok_iff.mp h
  have hne : opt.destinations ≠ [] := by
    intro hnil
    rw [hnil] at hne
    cases hne
  have hpos : 0 < opt.destinations.length := List.length_pos_iff.mpr hne
  split at h
  · cases h
    refine ⟨?_, fun s hs => by cases hs⟩
    show (opt.destinations.length + (2 ^ 64 - 1)) % 2 ^ 64 < opt.destinations.length
    omega
  · cases h
    exact ⟨hpos, fun s hs => by cases hs⟩
  · cases h
    refine ⟨⟨LeastConn.consistent_make, by rwa [LeastConn.peers_make]⟩, fun s hs => ?_⟩
    cases hs
    exact ⟨opt, rfl⟩

end Balancer

/-! ## The system -/

namespace Tunnels

/-- A handler on the strand of the service. -/
inductive Task : Type where
  /-- `Service::create`. -/
  | create (vo : Ingress)
  /-- What `Service::remove` posts. -/
  | remove (name : Bytes)
  /-- `Service::get`, and the rest of `Tunnel::read_remote` up to the strand of the balancer. -/
  | get (name : Bytes)

/-- A `Balancer`, with the handlers that were posted to its strand. -/
structure Cell where
  manner : Balancer
  posted : List Handler

/-- The service, the balancers ever made and the tunnels.  A balancer is its place in the list. -/
structure State where
  /-- `balancers_`. -/
  balancers : ValueMap ℕ
  /-- What was posted to the strand of the service. -/
  posted : List Task
  cells : List Cell
  /-- `balancer_` and `peer_` of the tunnels that have a peer. -/
  tunnels : List (ℕ × Endpoint)
  /-- The balancers of which a handler had no defined behaviour. -/
  undefined : List ℕ

namespace State

def initial : State := ⟨∅, [], [], [], []⟩

/-- A tunnel has a reference to the balancer: it has a peer, or waits for one. -/
def InUse (s : State) (o : ℕ) : Prop :=
  o ∈ s.tunnels.map Prod.fst ∨ ∃ cell ∈ s.cells[o]?, Handler.select ∈ cell.posted

/-- The service has a reference to the balancer. -/
def InTable (s : State) (o : ℕ) : Prop := ∃ e ∈ s.balancers.entries, e.2 = o

/-- There is a `shared_ptr` to the balancer. -/
def Alive (s : State) (o : ℕ) : Prop := s.InTable o ∨ s.InUse o

instance (s : State) (o : ℕ) : Decidable (s.InUse o) :=
  inferInstanceAs (Decidable (_ ∨ ∃ cell ∈ s.cells[o]?, _))

instance (s : State) (o : ℕ) : Decidable (s.InTable o) :=
  inferInstanceAs (Decidable (∃ e ∈ s.balancers.entries, _))

instance (s : State) (o : ℕ) : Decidable (s.Alive o) :=
  inferInstanceAs (Decidable (_ ∨ _))

/-- `asio::post` to the strand of a balancer. -/
def post (s : State) (o : ℕ) (handlers : List Handler) : State :=
  { s with cells := s.cells.modify o fun cell => { cell with posted := cell.posted ++ handlers } }

/-- The strand of the service runs a handler. -/
def runTask (s : State) : Task → State
  | .create vo =>
    match Balancer.initializeManner vo with
    | .ok manner => { s with
        balancers := s.balancers.insert vo.name s.cells.length
        cells := s.cells ++ [⟨manner, []⟩] }
    | .error _ => s
  | .remove name => { s with balancers := s.balancers.erase name }
  | .get name =>
    match s.balancers.lookup name with
    | some o => s.post o [.select]
    -- `assertTrue` throws, and there is no balancer to release
    | none => s

/-- The strand of the balancer `o` runs a handler. -/
def runHandler (s : State) (o : ℕ) (manner : Balancer) (rest : List Handler) (draw : ℕ) :
    Handler → State
  | .select =>
    match manner.select draw with
    | .ok (peer, manner) =>
      { s with cells := s.cells.set o ⟨manner, rest⟩, tunnels := (o, peer) :: s.tunnels }
    | .error _ =>
      { s with cells := s.cells.set o ⟨manner, rest⟩, undefined := o :: s.undefined }
  | .release peer =>
    match manner.released peer with
    | .ok manner => { s with cells := s.cells.set o ⟨manner, rest⟩ }
    | .error _ =>
      { s with cells := s.cells.set o ⟨manner, rest⟩, undefined := o :: s.undefined }

end State

/-- What can happen. -/
inductive Event : Type where
  /-- `Listener::listen` of a tunnel calls `create_balancer`. -/
  | listen (vo : Ingress)
  /-- `Listener::~Listener` of a tunnel calls `remove_balancer`. -/
  | unlisten (name : Bytes)
  /-- A session starts with `Tunnel::read_remote`. -/
  | accept (name : Bytes)
  /-- The strand of the service runs its next handler. -/
  | serve
  /-- The strand of a balancer runs its next handler. -/
  | strand (o draw : ℕ)
  /-- A session ends, and with it the `k`-th of the tunnels that have a peer. -/
  | finish (k : ℕ)

open State

/-- An event, where it can happen. -/
def exec (s : State) : Event → Option State
  | .listen vo => some { s with posted := s.posted ++ [.create vo] }
  | .unlisten name => some { s with posted := s.posted ++ [.remove name] }
  | .accept name => some { s with posted := s.posted ++ [.get name] }
  | .serve =>
    match s.posted with
    | [] => none
    | task :: posted => some (runTask { s with posted := posted } task)
  | .strand o draw =>
    match s.cells[o]? with
    | none => none
    | some ⟨_, []⟩ => none
    | some ⟨manner, handler :: rest⟩ =>
      if s.Alive o then some (s.runHandler o manner rest draw handler)
      else some { s with cells := s.cells.set o ⟨manner, rest⟩, undefined := o :: s.undefined }
  | .finish k =>
    match s.tunnels[k]? with
    | some (o, peer) =>
      -- the destructor releases the peer, and then drops the reference
      s.cells[o]?.map fun cell =>
        { s with tunnels := s.tunnels.eraseIdx k }.post o (cell.manner.release peer)
    | none => none

/-! ## Steps -/

/-- What an event does: it posts a task, runs one, runs a handler, or ends a tunnel. -/
inductive Step (s : State) : State → Prop where
  | post (task : Task) : Step s { s with posted := s.posted ++ [task] }
  | skip (task : Task) (posted : List Task) (h : s.posted = task :: posted) :
      Step s { s with posted := posted }
  | create (vo : Ingress) (posted : List Task) (manner : Balancer)
      (h : s.posted = .create vo :: posted) (hmanner : Balancer.initializeManner vo = .ok manner) :
      Step s { s with
        posted := posted
        balancers := s.balancers.insert vo.name s.cells.length
        cells := s.cells ++ [⟨manner, []⟩] }
  | remove (name : Bytes) (posted : List Task) (h : s.posted = .remove name :: posted) :
      Step s { s with posted := posted, balancers := s.balancers.erase name }
  | get (name : Bytes) (posted : List Task) (o : ℕ) (h : s.posted = .get name :: posted)
      (hlookup : s.balancers.lookup name = some o) :
      Step s ({ s with posted := posted }.post o [.select])
  | select (o draw : ℕ) (manner manner' : Balancer) (rest : List Handler) (peer : Endpoint)
      (hcell : s.cells[o]? = some ⟨manner, .select :: rest⟩) (halive : s.Alive o)
      (hselect : manner.select draw = .ok (peer, manner')) :
      Step s { s with cells := s.cells.set o ⟨manner', rest⟩, tunnels := (o, peer) :: s.tunnels }
  | release (o : ℕ) (manner manner' : Balancer) (rest : List Handler) (peer : Endpoint)
      (hcell : s.cells[o]? = some ⟨manner, .release peer :: rest⟩) (halive : s.Alive o)
      (hrelease : manner.released peer = .ok manner') :
      Step s { s with cells := s.cells.set o ⟨manner', rest⟩ }
  | undefined (o : ℕ) (manner : Balancer) (handler : Handler) (rest : List Handler)
      (hcell : s.cells[o]? = some ⟨manner, handler :: rest⟩)
      (h : ¬s.Alive o ∨ (∃ draw e, handler = .select ∧ manner.select draw = .error e)
        ∨ ∃ peer e, handler = .release peer ∧ manner.released peer = .error e) :
      Step s { s with cells := s.cells.set o ⟨manner, rest⟩, undefined := o :: s.undefined }
  | finish (k o : ℕ) (peer : Endpoint) (cell : Cell) (h : s.tunnels[k]? = some (o, peer))
      (hcell : s.cells[o]? = some cell) :
      Step s ({ s with tunnels := s.tunnels.eraseIdx k }.post o (cell.manner.release peer))

variable {s s' t : State} {o : ℕ} {cell : Cell}

theorem step_runTask {task : Task} {posted : List Task} (h : s.posted = task :: posted) :
    Step s (runTask { s with posted := posted } task) := by
  cases task with
  | create vo =>
      simp only [runTask]
      split
      · rename_i manner hmanner
        exact .create vo posted manner h hmanner
      · exact .skip _ posted h
  | remove name => exact .remove name posted h
  | get name =>
      simp only [runTask]
      split
      · rename_i o hlookup
        exact .get name posted o h hlookup
      · exact .skip _ posted h

theorem step_runHandler {manner : Balancer} {handler : Handler} {rest : List Handler} {draw : ℕ}
    (hcell : s.cells[o]? = some ⟨manner, handler :: rest⟩) (halive : s.Alive o) :
    Step s (s.runHandler o manner rest draw handler) := by
  cases handler with
  | select =>
      simp only [runHandler]
      split
      · rename_i peer manner' hselect
        exact .select o draw manner manner' rest peer hcell halive hselect
      · rename_i e hselect
        exact .undefined o manner _ rest hcell (Or.inr (Or.inl ⟨draw, e, rfl, hselect⟩))
  | release peer =>
      simp only [runHandler]
      split
      · rename_i manner' hrelease
        exact .release o manner manner' rest peer hcell halive hrelease
      · rename_i e hrelease
        exact .undefined o manner _ rest hcell (Or.inr (Or.inr ⟨peer, e, rfl, hrelease⟩))

/-- **Every event is a step.** -/
theorem step_of_exec {e : Event} (h : exec s e = some s') : Step s s' := by
  cases e with
  | listen vo =>
      cases h
      exact .post _
  | unlisten name =>
      cases h
      exact .post _
  | accept name =>
      cases h
      exact .post _
  | serve =>
      simp only [exec] at h
      split at h
      · cases h
      · rename_i task posted hposted
        cases h
        exact step_runTask hposted
  | strand o draw =>
      simp only [exec] at h
      split at h
      · cases h
      · cases h
      · rename_i manner handler rest hcell
        split at h
        · rename_i halive
          cases h
          exact step_runHandler hcell halive
        · rename_i halive
          cases h
          exact .undefined o manner handler rest hcell (Or.inl halive)
  | finish k =>
      simp only [exec] at h
      split at h
      · rename_i o peer htunnel
        obtain ⟨cell, hcell, rfl⟩ := Option.map_eq_some_iff.mp h
        exact .finish k o peer cell htunnel hcell
      · cases h

/-! ## The references -/

theorem inTable_iff : s.InTable o ↔ ∃ name, s.balancers.lookup name = some o := by
  constructor
  · rintro ⟨e, he, rfl⟩
    exact ⟨e.1, AList.mem_lookup_iff.mpr he⟩
  · rintro ⟨name, h⟩
    exact ⟨⟨name, o⟩, AList.mem_lookup_iff.mp h, rfl⟩

/-- A balancer that is in the table after a balancer was made was there, or is the new one. -/
theorem inTable_insert {name : Bytes} {n : ℕ}
    (h : { s with balancers := s.balancers.insert name n }.InTable o) : o = n ∨ s.InTable o := by
  obtain ⟨name', h⟩ := inTable_iff.mp h
  by_cases hname : name' = name
  · subst hname
    rw [AList.lookup_insert] at h
    exact Or.inl (Option.some.inj h).symm
  · rw [AList.lookup_insert_ne hname] at h
    exact Or.inr (inTable_iff.mpr ⟨name', h⟩)

theorem inTable_erase {name : Bytes}
    (h : { s with balancers := s.balancers.erase name }.InTable o) : s.InTable o := by
  obtain ⟨name', h⟩ := inTable_iff.mp h
  by_cases hname : name' = name
  · subst hname
    rw [AList.lookup_erase] at h
    cases h
  · rw [AList.lookup_erase_ne hname] at h
    exact inTable_iff.mpr ⟨name', h⟩

theorem cells_post {o' : ℕ} {handlers : List Handler} :
    (s.post o handlers).cells[o']? = some cell ↔
      ∃ cell', s.cells[o']? = some cell'
        ∧ cell = if o' = o then ⟨cell'.manner, cell'.posted ++ handlers⟩ else cell' := by
  simp only [State.post, List.getElem?_modify, Option.map_eq_map, Option.map_eq_some_iff,
    eq_comm (a := o) (b := o')]
  constructor
  · rintro ⟨cell', h, rfl⟩
    exact ⟨cell', h, rfl⟩
  · rintro ⟨cell', h, rfl⟩
    exact ⟨cell', h, rfl⟩

theorem cells_set {o' : ℕ} {cell₀ cell' : Cell} (h : s.cells[o]? = some cell₀) :
    (s.cells.set o cell)[o']? = some cell' ↔
      o' = o ∧ cell' = cell ∨ o' ≠ o ∧ s.cells[o']? = some cell' := by
  have hlt : o < s.cells.length := (List.getElem?_eq_some_iff.mp h).1
  by_cases ho : o' = o
  · subst ho
    simp [List.getElem?_set_self hlt, eq_comm]
  · simp [List.getElem?_set_ne (Ne.symm ho), ho]

theorem cells_append {o : ℕ} {cell cell' : Cell}
    (h : (s.cells ++ [cell'])[o]? = some cell) :
    s.cells[o]? = some cell ∨ o = s.cells.length ∧ cell = cell' := by
  rw [List.getElem?_append] at h
  split at h
  · exact Or.inl h
  · have hzero : o - s.cells.length = 0 := by
      have hlt := (List.getElem?_eq_some_iff.mp h).1
      simpa using hlt
    exact Or.inr ⟨by omega, List.mem_singleton.mp (List.mem_of_getElem? h)⟩

/-! ## What is always so -/

/-- The references are to balancers that were made, and these can select; only the releases of a
least-connection balancer are posted. -/
structure WellFormed (s : State) : Prop where
  table : ∀ o, s.InTable o → o < s.cells.length
  tunnels : ∀ t ∈ s.tunnels, t.1 < s.cells.length
  manner : ∀ (o : ℕ) (cell : Cell), s.cells[o]? = some cell → cell.manner.Ok
  handlers : ∀ (o : ℕ) (cell : Cell), s.cells[o]? = some cell → cell.manner.isLeastConn = false →
    ∀ handler ∈ cell.posted, handler = .select

theorem wellFormed_initial : WellFormed initial where
  table := by rintro o ⟨e, he, -⟩; cases he
  tunnels := by intro t ht; cases ht
  manner := by intro o cell h; simp [initial] at h
  handlers := by intro o cell h; simp [initial] at h

/-- A balancer with other handlers, in the place of one. -/
theorem WellFormed.set (hs : WellFormed s) {manner manner' : Balancer} {handler : Handler}
    {rest : List Handler} (hcell : s.cells[o]? = some ⟨manner, handler :: rest⟩)
    (hok : manner'.Ok) (hsame : manner'.isLeastConn = manner.isLeastConn)
    {tunnels : List (ℕ × Endpoint)} (htunnels : ∀ t ∈ tunnels, t.1 < s.cells.length)
    {undefined : List ℕ} :
    WellFormed { s with
      cells := s.cells.set o ⟨manner', rest⟩, tunnels := tunnels, undefined := undefined } where
  table := fun o' h => by
    rw [List.length_set]
    exact hs.table o' h
  tunnels := fun t ht => by
    rw [List.length_set]
    exact htunnels t ht
  manner := fun o' cell' h => by
    rcases (cells_set hcell).mp h with ⟨-, rfl⟩ | ⟨-, h⟩
    · exact hok
    · exact hs.manner o' cell' h
  handlers := fun o' cell' h => by
    rcases (cells_set hcell).mp h with ⟨-, rfl⟩ | ⟨-, h⟩
    · intro hleast handler' hmem
      exact hs.handlers o _ hcell (hsame ▸ hleast) handler' (List.mem_cons_of_mem _ hmem)
    · exact hs.handlers o' cell' h

/-- A handler more, that the balancer may have. -/
theorem WellFormed.post (hs : WellFormed s) {handlers : List Handler}
    (h : ∀ cell, s.cells[o]? = some cell → cell.manner.isLeastConn = false →
      ∀ handler ∈ handlers, handler = .select) : WellFormed (s.post o handlers) where
  table := fun o' h => by
    rw [State.post, List.length_modify]
    exact hs.table o' h
  tunnels := fun t ht => by
    rw [State.post, List.length_modify]
    exact hs.tunnels t ht
  manner := fun o' cell' h => by
    obtain ⟨cell, hcell, rfl⟩ := cells_post.mp h
    split <;> exact hs.manner o' cell hcell
  handlers := fun o' cell' h' => by
    obtain ⟨cell, hcell, rfl⟩ := cells_post.mp h'
    split
    · rename_i ho
      subst ho
      intro hleast handler hmem
      rcases List.mem_append.mp hmem with hmem | hmem
      · exact hs.handlers o' cell hcell hleast handler hmem
      · exact h cell hcell hleast handler hmem
    · exact hs.handlers o' cell hcell

theorem wellFormed_step (hs : WellFormed s) (h : Step s s') : WellFormed s' := by
  cases h with
  | post task => exact ⟨hs.table, hs.tunnels, hs.manner, hs.handlers⟩
  | skip task posted h => exact ⟨hs.table, hs.tunnels, hs.manner, hs.handlers⟩
  | create vo posted manner h hmanner =>
      refine ⟨fun o ho => ?_, fun t ht => ?_, fun o cell hcell => ?_, fun o cell hcell => ?_⟩
      · rw [List.length_append]
        rcases inTable_insert ho with rfl | ho
        · simp
        · exact Nat.lt_add_right _ (hs.table o ho)
      · rw [List.length_append]
        exact Nat.lt_add_right _ (hs.tunnels t ht)
      · rcases cells_append hcell with hcell | ⟨-, rfl⟩
        · exact hs.manner o cell hcell
        · exact (Balancer.ok_of_initializeManner hmanner).1
      · rcases cells_append hcell with hcell | ⟨-, rfl⟩
        · exact hs.handlers o cell hcell
        · intro _ handler hmem
          cases hmem
  | remove name posted h =>
      exact ⟨fun o ho => hs.table o (inTable_erase ho), hs.tunnels, hs.manner, hs.handlers⟩
  | get name posted o h hlookup =>
      have hs' : WellFormed { s with posted := posted } :=
        ⟨hs.table, hs.tunnels, hs.manner, hs.handlers⟩
      exact hs'.post fun cell _ _ handler hmem => List.mem_singleton.mp hmem
  | select o draw manner manner' rest peer hcell halive hselect =>
      have hok := hs.manner o _ hcell
      obtain ⟨peer', b', hselect', hok', hsame⟩ := Balancer.Ok.select hok draw
      rw [hselect] at hselect'
      cases hselect'
      refine hs.set hcell hok' hsame fun t ht => ?_
      rcases List.mem_cons.mp ht with rfl | ht
      · exact (List.getElem?_eq_some_iff.mp hcell).1
      · exact hs.tunnels t ht
  | release o manner manner' rest peer hcell halive hrelease =>
      have hok := hs.manner o _ hcell
      obtain ⟨b', hrelease', hok', hsame⟩ := Balancer.Ok.released hok peer
      rw [hrelease] at hrelease'
      cases hrelease'
      exact hs.set hcell hok' hsame hs.tunnels
  | undefined o manner handler rest hcell h =>
      exact hs.set hcell (hs.manner o _ hcell) rfl hs.tunnels
  | finish k o peer cell h hcell =>
      have hs' : WellFormed { s with tunnels := s.tunnels.eraseIdx k } :=
        ⟨hs.table, fun t ht => hs.tunnels t (List.mem_of_mem_eraseIdx ht), hs.manner, hs.handlers⟩
      refine hs'.post fun cell' hcell' hleast handler hmem => ?_
      have heq : cell' = cell := Option.some.inj (hcell'.symm.trans hcell)
      subst heq
      cases hmanner : cell'.manner with
      | leastConn lc =>
          rw [hmanner] at hleast
          cases hleast
      | random peers upper =>
          rw [hmanner] at hmem
          cases hmem
      | roundRobin peers pos =>
          rw [hmanner] at hmem
          cases hmem

/-! ## Counting the tunnels -/

/-- The peer that a handler gives back. -/
def peer? : Handler → Option Endpoint
  | .select => none
  | .release peer => some peer

/-- The peers that are to be given back. -/
def Cell.given (cell : Cell) : List Endpoint := cell.posted.filterMap peer?

/-- The peers of the tunnels of a balancer. -/
def State.held (s : State) (o : ℕ) : List Endpoint :=
  s.tunnels.filterMap fun t => if t.1 = o then some t.2 else none

/-- The number of tunnels of a balancer that have a peer, or had it and have not been counted
back. -/
def State.load (s : State) (o : ℕ) (peer : Endpoint) : ℕ :=
  (s.held o).count peer + s.cells[o]?.elim 0 fun cell => cell.given.count peer

/-- What a least-connection balancer counts. -/
def Counts (s : State) (o : ℕ) (cell : Cell) : Prop :=
  ∀ lc, cell.manner = .leastConn lc → lc.peers.Nodup → o ∉ s.undefined →
    ∃ opt out, LeastConn.Counted opt lc out ∧ (out.map Prod.snd).Perm (s.held o ++ cell.given)

/-- A tunnel that is there no more. -/
theorem held_eraseIdx {k : ℕ} {peer : Endpoint} (h : s.tunnels[k]? = some (o, peer)) (o' : ℕ) :
    (s.held o').Perm ((if o = o' then [peer] else [])
      ++ { s with tunnels := s.tunnels.eraseIdx k }.held o') := by
  obtain ⟨hlt, hk⟩ := List.getElem?_eq_some_iff.mp h
  have hperm := (List.getElem_cons_eraseIdx_perm hlt).symm.filterMap
    fun t : ℕ × Endpoint => if t.1 = o' then some t.2 else none
  rw [hk, List.filterMap_cons] at hperm
  by_cases ho : o = o'
  · simpa [State.held, ho] using hperm
  · simpa [State.held, ho] using hperm

theorem given_append (manner : Balancer) (posted handlers : List Handler) :
    Cell.given ⟨manner, posted ++ handlers⟩
      = Cell.given ⟨manner, posted⟩ ++ handlers.filterMap peer? :=
  List.filterMap_append

/-- Selecting from a least-connection balancer. -/
theorem select_leastConn {lc : LeastConn} {draw : ℕ} {peer : Endpoint} {manner : Balancer}
    (h : (Balancer.leastConn lc).select draw = .ok (peer, manner)) :
    ∃ lc', lc.select = .ok (peer, lc') ∧ manner = .leastConn lc' := by
  obtain ⟨⟨peer', lc'⟩, hselect, h⟩ := bind_eq_ok_iff.mp h
  cases h
  exact ⟨lc', hselect, rfl⟩

/-- A selection is counted, and takes a peer that is out as little as any. -/
theorem counted_select {opt : TunnelOption} {lc lc' : LeastConn} {out : List LeastConn.Ticket}
    {peer : Endpoint} (h : LeastConn.Counted opt lc out) (hne : lc.peers ≠ [])
    (hselect : lc.select = .ok (peer, lc')) :
    ∃ pos, LeastConn.Counted opt lc' ((pos, peer) :: out)
      ∧ ∀ pos' < lc.peers.length, LeastConn.outstanding out pos % 2 ^ 64
        ≤ LeastConn.outstanding out pos' % 2 ^ 64 := by
  rw [h.peers_eq] at hne ⊢
  obtain ⟨pos, peer', lc'', hcall, hcounted, hmin⟩ := h.select hne
  obtain ⟨pos', -, hcall⟩ := bind_eq_ok_iff.mp hcall
  obtain ⟨x, hselect', hcall⟩ := bind_eq_ok_iff.mp hcall
  rw [hselect] at hselect'
  cases hselect'
  cases hcall
  exact ⟨pos, hcounted, hmin⟩

theorem counts_select {draw : ℕ} {manner manner' : Balancer} {rest : List Handler} {peer : Endpoint}
    (h : Counts s o ⟨manner, .select :: rest⟩) (hok : manner.Ok)
    (hselect : manner.select draw = .ok (peer, manner')) (cells : List Cell) :
    Counts { s with cells := cells, tunnels := (o, peer) :: s.tunnels } o ⟨manner', rest⟩ := by
  intro lc' hlc' hnodup hdefined
  obtain ⟨peer', b', hselect', -, hsame⟩ := hok.select draw
  rw [hselect] at hselect'
  cases hselect'
  subst hlc'
  cases manner with
  | random peers upper => cases hsame
  | roundRobin peers pos => cases hsame
  | leastConn lc =>
      obtain ⟨lc'', hselect, hlc⟩ := select_leastConn hselect
      cases hlc
      obtain ⟨pos, peer', s', -, hselect', -, -, hpeers, -⟩ := hok.1.select hok.2
      rw [hselect] at hselect'
      cases hselect'
      obtain ⟨opt, out, hcounted, hperm⟩ := h lc rfl (hpeers ▸ hnodup) hdefined
      obtain ⟨pos, hcounted', -⟩ := counted_select hcounted hok.2 hselect
      refine ⟨opt, _, hcounted', ?_⟩
      have hheld : State.held { s with cells := cells, tunnels := (o, peer) :: s.tunnels } o
          = peer :: s.held o := by
        simp [State.held]
      rw [hheld]
      exact hperm.cons peer

/-- A release is counted back. -/
theorem counts_release {manner manner' : Balancer} {rest : List Handler} {peer : Endpoint}
    (h : Counts s o ⟨manner, .release peer :: rest⟩) (hok : manner.Ok)
    (hrelease : manner.released peer = .ok manner') (cells : List Cell) :
    Counts { s with cells := cells } o ⟨manner', rest⟩ := by
  intro lc' hlc' hnodup hdefined
  obtain ⟨b', hrelease', -, hsame⟩ := hok.released peer
  rw [hrelease] at hrelease'
  cases hrelease'
  subst hlc'
  cases manner with
  | random peers upper => cases hsame
  | roundRobin peers pos => cases hsame
  | leastConn lc =>
      obtain ⟨lc'', hrelease, hlc⟩ := bind_eq_ok_iff.mp hrelease
      cases hlc
      obtain ⟨s', hrelease', -, hpeers, -⟩ := hok.1.release peer
      rw [hrelease] at hrelease'
      cases hrelease'
      obtain ⟨opt, out, hcounted, hperm⟩ := h lc rfl (hpeers ▸ hnodup) hdefined
      -- the peer is that of a selection, which is now given back
      have hmem : peer ∈ out.map Prod.snd := hperm.mem_iff.mpr (by simp [Cell.given, peer?])
      obtain ⟨k, hk⟩ := List.mem_iff_getElem?.mp hmem
      rw [List.getElem?_map, Option.map_eq_some_iff] at hk
      obtain ⟨ticket, hk, rfl⟩ := hk
      have hnodup' : opt.destinations.Nodup := by
        rw [← hcounted.peers_eq, ← hpeers]
        exact hnodup
      obtain ⟨lc₁, hcall, hcounted'⟩ := hcounted.release_of_nodup hnodup' hk
      simp only [LeastConn.call, hk] at hcall
      obtain ⟨x, hx, hcall⟩ := bind_eq_ok_iff.mp hcall
      rw [hrelease] at hx
      cases hx
      cases hcall
      refine ⟨opt, _, hcounted', ?_⟩
      obtain ⟨hlt, rfl⟩ := List.getElem?_eq_some_iff.mp hk
      have hout := (List.getElem_cons_eraseIdx_perm hlt).map Prod.snd
      have hgiven : (s.held o ++ Cell.given ⟨.leastConn lc, .release out[k].2 :: rest⟩).Perm
          (out[k].2 :: (s.held o ++ Cell.given ⟨.leastConn lc', rest⟩)) := List.perm_middle
      exact List.Perm.cons_inv ((hout.trans hperm).trans hgiven)

/-- Every balancer counts. -/
def Counting (s : State) : Prop :=
  ∀ (o : ℕ) (cell : Cell), s.cells[o]? = some cell → Counts s o cell

/-- What a balancer counts depends on its own tunnels and releases only. -/
theorem Counts.congr {cell' : Cell} (h : Counts s o cell) (hmanner : cell'.manner = cell.manner)
    (hdefined : o ∉ s'.undefined → o ∉ s.undefined)
    (hperm : (s.held o ++ cell.given).Perm (s'.held o ++ cell'.given)) : Counts s' o cell' := by
  intro lc hlc hnodup hmem
  obtain ⟨opt, out, hcounted, hout⟩ := h lc (hmanner ▸ hlc) hnodup (hdefined hmem)
  exact ⟨opt, out, hcounted, hout.trans hperm⟩

theorem counting_step (hs : WellFormed s) (hc : Counting s) (h : Step s s') : Counting s' := by
  cases h with
  | post task => exact hc
  | skip task posted h => exact hc
  | create vo posted manner h hmanner =>
      intro o cell hcell
      rcases cells_append hcell with hcell | ⟨rfl, rfl⟩
      · exact hc o cell hcell
      · intro lc hlc _ _
        obtain ⟨opt, rfl⟩ := (Balancer.ok_of_initializeManner hmanner).2 lc hlc
        refine ⟨opt, [], LeastConn.counted_make, ?_⟩
        -- nothing refers to the new balancer
        have hheld : s.held s.cells.length = [] := by
          rw [State.held, List.filterMap_eq_nil_iff]
          intro t ht
          rw [if_neg (hs.tunnels t ht).ne]
        show List.Perm [] (s.held s.cells.length ++ [])
        rw [hheld]
        exact List.Perm.refl []
  | remove name posted h => exact hc
  | get name posted o h hlookup =>
      intro o' cell' hcell'
      obtain ⟨cell, hcell, rfl⟩ := cells_post.mp hcell'
      refine (hc o' cell hcell).congr (by split <;> rfl) id ?_
      split
      · rw [given_append]
        show (s.held o' ++ cell.given).Perm (s.held o' ++ (cell.given ++ []))
        rw [List.append_nil]
      · exact List.Perm.refl _
  | select o draw manner manner' rest peer hcell halive hselect =>
      intro o' cell' hcell'
      rcases (cells_set hcell).mp hcell' with ⟨rfl, rfl⟩ | ⟨ho, hcell'⟩
      · exact counts_select (hc o' _ hcell) (hs.manner o' _ hcell) hselect _
      · refine (hc o' cell' hcell').congr rfl id ?_
        simp [State.held, Ne.symm ho]
  | release o manner manner' rest peer hcell halive hrelease =>
      intro o' cell' hcell'
      rcases (cells_set hcell).mp hcell' with ⟨rfl, rfl⟩ | ⟨ho, hcell'⟩
      · exact counts_release (hc o' _ hcell) (hs.manner o' _ hcell) hrelease _
      · exact hc o' cell' hcell'
  | undefined o manner handler rest hcell h =>
      intro o' cell' hcell'
      rcases (cells_set hcell).mp hcell' with ⟨rfl, rfl⟩ | ⟨ho, hcell'⟩
      · intro lc _ _ hdefined
        exact absurd List.mem_cons_self hdefined
      · exact (hc o' cell' hcell').congr rfl (fun h h' => h (List.mem_cons_of_mem _ h')) (.refl _)
  | finish k o peer cell₀ h hcell₀ =>
      intro o' cell' hcell'
      obtain ⟨cell, hcell, rfl⟩ := cells_post.mp hcell'
      have hheld := held_eraseIdx h o'
      intro lc hlc hnodup hdefined
      have hmanner : cell.manner = .leastConn lc := by
        split at hlc <;> exact hlc
      obtain ⟨opt, out, hcounted, hout⟩ := hc o' cell hcell lc hmanner hnodup hdefined
      refine ⟨opt, out, hcounted, hout.trans ?_⟩
      by_cases ho : o' = o
      · subst ho
        obtain rfl : cell = cell₀ := Option.some.inj (hcell.symm.trans hcell₀)
        rw [if_pos rfl] at hheld ⊢
        rw [given_append, hmanner]
        refine (hheld.append_right _).trans ?_
        rw [List.append_assoc]
        exact List.perm_append_comm.trans (by rw [List.append_assoc]; exact .refl _)
      · rw [if_neg (Ne.symm ho)] at hheld
        rw [if_neg ho]
        exact hheld.append_right _

theorem invariant_of_reachable (h : Reachable exec initial s) : WellFormed s ∧ Counting s := by
  refine h.invariant (fun s => WellFormed s ∧ Counting s)
    ⟨wellFormed_initial, fun o cell hcell => by simp [initial] at hcell⟩ ?_
  rintro s e s' ⟨hs, hc⟩ - hexec
  have hstep := step_of_exec hexec
  exact ⟨wellFormed_step hs hstep, counting_step hs hc hstep⟩

/-- The selections of a position are the selections of its destination, if it is listed once. -/
theorem outstanding_eq_count {opt : TunnelOption} {lc : LeastConn} {out : List LeastConn.Ticket}
    (h : LeastConn.Counted opt lc out) (hnodup : lc.peers.Nodup) {pos : ℕ} {peer : Endpoint}
    (hpeer : lc.peers[pos]? = some peer) :
    LeastConn.outstanding out pos = (out.map Prod.snd).count peer := by
  rw [LeastConn.outstanding, List.count_eq_countP, List.count_eq_countP, List.countP_map,
    List.countP_map]
  refine List.countP_congr fun ticket hticket => ?_
  have hticket := h.peer_of_ticket ticket hticket
  simp only [Function.comp_apply, beq_iff_eq]
  constructor
  · rintro rfl
    exact Option.some.inj (hticket.symm.trans hpeer)
  · rintro rfl
    have hlt := (List.getElem?_eq_some_iff.mp hticket).1
    exact (List.getElem?_inj hlt hnodup).mp (hticket.trans hpeer.symm)

theorem load_eq_count {peers : List Endpoint} (hcell : s.cells[o]? = some cell)
    (hperm : peers.Perm (s.held o ++ cell.given)) (peer : Endpoint) :
    peers.count peer = s.load o peer := by
  rw [hperm.count_eq, List.count_append, State.load, hcell]
  rfl

/-- **Least loaded.**  In every state that can be reached without a release that ran on a destroyed
balancer, the counters of a least-connection balancer over distinct destinations are, modulo
`2 ^ 64`, the numbers of tunnels that have each of them, together with those whose release is still
to come; and the next selection takes a destination with the smallest of these counters. -/
theorem least_loaded (h : Reachable exec initial s) {lc : LeastConn}
    (hcell : s.cells[o]? = some cell) (hlc : cell.manner = .leastConn lc)
    (hnodup : lc.peers.Nodup) (hdefined : s.undefined = []) :
    (∀ pos peer, lc.peers[pos]? = some peer → lc.counter pos = some (s.load o peer % 2 ^ 64))
      ∧ ∀ draw rest s', cell.posted = .select :: rest → exec s (.strand o draw) = some s' →
        ∃ peer ∈ lc.peers, s'.tunnels = (o, peer) :: s.tunnels
          ∧ ∀ peer' ∈ lc.peers, s.load o peer % 2 ^ 64 ≤ s.load o peer' % 2 ^ 64 := by
  obtain ⟨hs, hc⟩ := invariant_of_reachable h
  obtain ⟨opt, out, hcounted, hperm⟩ :=
    hc o cell hcell lc hlc hnodup (by rw [hdefined]; exact List.not_mem_nil)
  have hload : ∀ pos peer, lc.peers[pos]? = some peer →
      LeastConn.outstanding out pos = s.load o peer := fun pos peer hpeer =>
    (outstanding_eq_count hcounted hnodup hpeer).trans (load_eq_count hcell hperm peer)
  constructor
  · intro pos peer hpeer
    rw [hcounted.counter_eq pos (List.getElem?_eq_some_iff.mp hpeer).1, hload pos peer hpeer]
  · intro draw rest s' hposted hexec
    obtain ⟨manner, posted⟩ := cell
    obtain rfl : manner = .leastConn lc := hlc
    obtain rfl : posted = .select :: rest := hposted
    -- a tunnel waits for the selection, so that the balancer is alive
    have halive : s.Alive o := Or.inr (Or.inr ⟨_, hcell, List.mem_cons_self⟩)
    have hok : lc.Consistent ∧ lc.peers ≠ [] := hs.manner o _ hcell
    obtain ⟨pos', peer, lc', -, hselect, -, -, -, -⟩ := hok.1.select hok.2
    obtain ⟨pos, hcounted', hmin⟩ := counted_select hcounted hok.2 hselect
    have hpeer : lc.peers[pos]? = some peer := by
      rw [hcounted.peers_eq, ← hcounted'.peers_eq]
      exact hcounted'.peer_of_ticket (pos, peer) List.mem_cons_self
    refine ⟨peer, List.mem_of_getElem? hpeer, ?_, fun peer' hpeer' => ?_⟩
    · simp only [exec, hcell, if_pos halive, runHandler, Balancer.select, hselect] at hexec
      cases hexec
      rfl
    · obtain ⟨pos'', hlt, hpos''⟩ := List.mem_iff_getElem.mp hpeer'
      have hpeer'' : lc.peers[pos'']? = some peer' := List.getElem?_eq_some_iff.mpr ⟨hlt, hpos''⟩
      rw [← hload pos peer hpeer, ← hload pos'' peer' hpeer'']
      exact hmin pos'' hlt

/-- A tunnel `t` that selects the destination with the fewest connections, out of two. -/
def Example.tunnel : Ingress where
  type := .tunnel
  opt := some (.tunnel ⟨[⟨.domainName, [97], 80⟩, ⟨.domainName, [98], 80⟩], .leastConn⟩)
  name := [116]

/-- Two sessions start, and the first of them has its peer. -/
def Example.opened : List Event :=
  [.listen Example.tunnel, .serve, .accept [116], .accept [116], .serve, .serve, .strand 0 0]

theorem least_loaded_example :
    ∃ s cell lc rest, Reachable exec initial s ∧ s.cells[0]? = some cell
      ∧ cell.manner = .leastConn lc ∧ cell.posted = .select :: rest
      ∧ s.load 0 ⟨.domainName, [97], 80⟩ = 1
      ∧ ∀ draw s', exec s (.strand 0 draw) = some s' →
        ∃ peer ∈ lc.peers, s'.tunnels = (0, peer) :: s.tunnels
          ∧ ∀ peer' ∈ lc.peers, s.load 0 peer % 2 ^ 64 ≤ s.load 0 peer' % 2 ^ 64 := by
  have hrun : ∃ s, run exec initial Example.opened = some s ∧ ∃ cell lc,
      s.cells[0]? = some cell ∧ cell.manner = .leastConn lc ∧ cell.posted = [.select]
        ∧ lc.peers = [⟨.domainName, [97], 80⟩, ⟨.domainName, [98], 80⟩] ∧ s.undefined = []
        ∧ s.load 0 ⟨.domainName, [97], 80⟩ = 1 :=
    ⟨_, rfl, _, _, rfl, rfl, rfl, rfl, rfl, rfl⟩
  obtain ⟨s, hrun, cell, lc, hcell, hlc, hposted, hpeers, hdefined, hload⟩ := hrun
  have hreach : Reachable exec initial s := Reaches.of_run .refl hrun
  refine ⟨s, cell, lc, [], hreach, hcell, hlc, hposted, hload, fun draw s' hexec => ?_⟩
  exact (least_loaded hreach hcell hlc (by rw [hpeers]; decide) hdefined).2 draw [] s' hposted
    hexec

end Tunnels

end Pichi
