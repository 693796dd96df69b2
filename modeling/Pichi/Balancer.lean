/-
# Least-connection balancing

`balancer::LeastConn` of `service/balancer.cpp`.  The balancer of a tunnel keeps a counter
for each position of the list of destinations, as the key of a multimap from counters to
positions: `select` takes the first node of the map and moves it to the next counter,
`release` looks an endpoint up in the list and moves the node of *every* position that
holds it one counter back.

A history is a sequence of selections and releases, in which each release gives back one
selection that was not given back before.

**Main result** (`exact_iff_nodup`): the counters count the selections that are out, in
every state of every history, if and only if no destination is listed twice.
-/
import Mathlib.Data.List.Count
import Mathlib.Data.List.Perm.Subperm
import Pichi.Multimap
import Pichi.Reference
import Pichi.VoOptions

namespace Pichi

/-- `balancer::LeastConn`; the strand is left out.  An entry of `iters` is an iterator of
`index`. -/
structure LeastConn where
  index : Multimap ℕ ℕ
  iters : ℕ → Option ℕ
  peers : List Endpoint

namespace LeastConn

/-- `++conn` of a `size_t`. -/
def increment (conn : ℕ) : ℕ := (conn + 1) % 2 ^ 64

/-- `--conn` of a `size_t`. -/
def decrement (conn : ℕ) : ℕ := (conn + (2 ^ 64 - 1)) % 2 ^ 64

theorem decrement_succ_mod (n : ℕ) : decrement ((n + 1) % 2 ^ 64) = n % 2 ^ 64 := by
  unfold decrement
  omega

/-- `iters_[pos] = index_.emplace(conn, pos)`. -/
def emplace (s : LeastConn) (conn : ℕ) (pos : ℕ) : LeastConn where
  index := s.index.emplace conn pos
  iters := Function.update s.iters pos (some s.index.inserted)
  peers := s.peers

/-- `index_.erase(it)`. -/
def erase (s : LeastConn) (it : ℕ) : LeastConn := { s with index := s.index.erase it }

/-- The first `k` iterations of the loop of the constructor. -/
def init (peers : List Endpoint) (k : ℕ) : LeastConn :=
  (List.range k).foldl (fun s pos => s.emplace 0 pos) ⟨.empty, fun _ => none, peers⟩

/-- The constructor. -/
def make (opt : TunnelOption) : LeastConn := init opt.destinations opt.destinations.length

/-- `select`. -/
def select (s : LeastConn) : Result (Endpoint × LeastConn) := do
  let it ← deref s.index.first?
  let peer ← deref s.peers[it.value]?
  return (peer, (s.erase it.serial).emplace (increment it.key) it.value)

/-- The node `iters_[pos]` refers to. -/
def node? (s : LeastConn) (pos : ℕ) : Option (MultimapNode ℕ ℕ) :=
  (s.iters pos).bind s.index.get?

/-- The body of the loop of `release`. -/
def releaseAt (peer : Endpoint) (s : LeastConn) (pos : ℕ) : Result LeastConn := do
  if s.peers[pos]? = some peer then
    let it ← deref (s.node? pos)
    return (s.erase it.serial).emplace (decrement it.key) pos
  else return s

/-- `release`. -/
def release (s : LeastConn) (peer : Endpoint) : Result LeastConn :=
  (List.range s.peers.length).foldlM (releaseAt peer) s

/-- The counter recorded for a position. -/
def counter (s : LeastConn) (pos : ℕ) : Option ℕ := (s.node? pos).map (·.key)

/-- The position the next selection takes. -/
def next? (s : LeastConn) : Option ℕ := s.index.first?.map (·.value)

/-! ## The index and the iterators -/

/-- Each position has one node, and its iterator refers to it. -/
structure Consistent (s : LeastConn) : Prop where
  node_of_pos : ∀ pos < s.peers.length, ∃ a ∈ s.index.nodes, a.value = pos
  iters_of_node : ∀ a ∈ s.index.nodes, a.value < s.peers.length
    ∧ s.iters a.value = some a.serial

variable {s s' : LeastConn} {a : MultimapNode ℕ ℕ} {pos pos' : ℕ} {conn : ℕ}

theorem Consistent.node?_of_mem (hs : s.Consistent) (ha : a ∈ s.index.nodes) :
    s.node? a.value = some a := by
  rw [node?, (hs.iters_of_node a ha).2, Option.bind_some]
  exact Multimap.get?_eq_some_iff.mpr ⟨ha, rfl⟩

theorem Consistent.exists_node? (hs : s.Consistent) (hpos : pos < s.peers.length) :
    ∃ a ∈ s.index.nodes, a.value = pos ∧ s.node? pos = some a := by
  obtain ⟨a, ha, rfl⟩ := hs.node_of_pos pos hpos
  exact ⟨a, ha, rfl, hs.node?_of_mem ha⟩

/-- No other node of a consistent index has the position of `a`. -/
theorem Consistent.serial_ne_iff (hs : s.Consistent) {b : MultimapNode ℕ ℕ}
    (ha : a ∈ s.index.nodes) (hb : b ∈ s.index.nodes) :
    b.serial ≠ a.serial ↔ b.value ≠ a.value := by
  constructor
  · intro h hv
    have hserial := (hs.iters_of_node a ha).2
    rw [← hv, (hs.iters_of_node b hb).2] at hserial
    exact h (Option.some.inj hserial)
  · intro h hserial
    exact h (congrArg _ (Multimap.eq_of_serial_eq hb ha hserial))

/-- The nodes after the node of a position moved to another counter. -/
theorem mem_move : ∀ {b : MultimapNode ℕ ℕ},
    b ∈ ((s.erase a.serial).emplace conn pos).index.nodes ↔
      b = ⟨s.index.inserted, conn, pos⟩ ∨ b ∈ s.index.nodes ∧ b.serial ≠ a.serial := by
  intro b
  simp [emplace, erase]

theorem Consistent.move (hs : s.Consistent) (ha : a ∈ s.index.nodes) :
    ((s.erase a.serial).emplace conn a.value).Consistent := by
  constructor
  · intro pos hpos
    by_cases h : pos = a.value
    · exact ⟨_, mem_move.mpr (Or.inl rfl), h.symm⟩
    · obtain ⟨b, hb, rfl⟩ := hs.node_of_pos pos hpos
      exact ⟨b, mem_move.mpr (Or.inr ⟨hb, (hs.serial_ne_iff ha hb).mpr h⟩), rfl⟩
  · intro b hb
    rcases mem_move.mp hb with rfl | ⟨hb, hne⟩
    · exact ⟨(hs.iters_of_node a ha).1, by simp [emplace, erase]⟩
    · refine ⟨(hs.iters_of_node b hb).1, ?_⟩
      calc ((s.erase a.serial).emplace conn a.value).iters b.value
          = s.iters b.value := Function.update_of_ne ((hs.serial_ne_iff ha hb).mp hne) _ _
        _ = some b.serial := (hs.iters_of_node b hb).2

/-- Moving a node changes the counter of its position only. -/
theorem Consistent.counter_move (hs : s.Consistent) (ha : a ∈ s.index.nodes)
    (hpos : pos < s.peers.length) :
    ((s.erase a.serial).emplace conn a.value).counter pos
      = if pos = a.value then some conn else s.counter pos := by
  split
  · rename_i h
    subst h
    rw [counter, (hs.move ha).node?_of_mem (a := ⟨_, conn, a.value⟩) (mem_move.mpr (Or.inl rfl))]
    rfl
  · rename_i h
    obtain ⟨b, hb, rfl, hnode⟩ := hs.exists_node? hpos
    rw [counter, counter, hnode, (hs.move ha).node?_of_mem
      (mem_move.mpr (Or.inr ⟨hb, (hs.serial_ne_iff ha hb).mpr h⟩))]

/-- What the loop of the constructor builds. -/
theorem init_spec (peers : List Endpoint) (k : ℕ) :
    (init peers k).peers = peers ∧ (init peers k).index.inserted = k
      ∧ (∀ a, a ∈ (init peers k).index.nodes ↔ ∃ pos < k, a = ⟨pos, 0, pos⟩)
      ∧ ∀ pos < k, (init peers k).iters pos = some pos := by
  induction k with
  | zero => simp [init, Multimap.empty]
  | succ k ih =>
      obtain ⟨hpeers, hinserted, hnodes, hiters⟩ := ih
      have hsucc : init peers (k + 1) = (init peers k).emplace 0 k := by
        rw [init, List.range_succ, List.foldl_append]
        rfl
      rw [hsucc]
      generalize init peers k = s at *
      refine ⟨hpeers, congrArg (· + 1) hinserted, ?_, ?_⟩
      · intro a
        rw [emplace, Multimap.mem_emplace, hnodes, hinserted]
        constructor
        · rintro (rfl | ⟨pos, hpos, rfl⟩)
          · exact ⟨k, Nat.lt_succ_self k, rfl⟩
          · exact ⟨pos, Nat.lt_succ_of_lt hpos, rfl⟩
        · rintro ⟨pos, hpos, rfl⟩
          rcases Nat.lt_succ_iff_lt_or_eq.mp hpos with hpos | rfl
          · exact Or.inr ⟨pos, hpos, rfl⟩
          · exact Or.inl rfl
      · intro pos hpos
        rcases Nat.lt_succ_iff_lt_or_eq.mp hpos with hlt | rfl
        · calc (s.emplace 0 k).iters pos
              = s.iters pos := Function.update_of_ne (by omega) _ _
            _ = some pos := hiters pos hlt
        · calc (s.emplace 0 pos).iters pos
              = some s.index.inserted := Function.update_self _ _ _
            _ = some pos := by rw [hinserted]

variable {opt : TunnelOption}

theorem peers_make : (make opt).peers = opt.destinations := (init_spec _ _).1

theorem consistent_make : (make opt).Consistent := by
  obtain ⟨hpeers, -, hnodes, hiters⟩ := init_spec opt.destinations opt.destinations.length
  constructor
  · intro pos hpos
    rw [peers_make] at hpos
    exact ⟨_, (hnodes _).mpr ⟨pos, hpos, rfl⟩, rfl⟩
  · intro a ha
    obtain ⟨pos, hpos, rfl⟩ := (hnodes a).mp ha
    rw [peers_make]
    exact ⟨hpos, hiters pos hpos⟩

/-- All counters are zero at first. -/
theorem counter_make (hpos : pos < opt.destinations.length) :
    (make opt).counter pos = some 0 := by
  obtain ⟨-, -, hnodes, -⟩ := init_spec opt.destinations opt.destinations.length
  have hmem : ⟨pos, 0, pos⟩ ∈ (make opt).index.nodes := (hnodes _).mpr ⟨pos, hpos, rfl⟩
  rw [counter, consistent_make.node?_of_mem hmem]
  rfl

/-! ## What the calls do to the counters -/

/-- **What `select` does**: it takes a position with a smallest counter, and counts it. -/
theorem Consistent.select (hs : s.Consistent) (hne : s.peers ≠ []) :
    ∃ pos peer s', s.next? = some pos ∧ s.select = .ok (peer, s') ∧ s.peers[pos]? = some peer
      ∧ s'.Consistent ∧ s'.peers = s.peers
      ∧ (∀ pos' < s.peers.length, ∀ c c', s.counter pos = some c → s.counter pos' = some c'
          → c ≤ c')
      ∧ ∀ pos' < s.peers.length,
          s'.counter pos' = if pos' = pos then (s.counter pos).map increment
            else s.counter pos' := by
  obtain ⟨b, hb, -⟩ := hs.node_of_pos 0 (List.length_pos_iff.mpr hne)
  obtain ⟨a, ha⟩ := Multimap.exists_first? hb
  have hmem := Multimap.mem_of_first? ha
  have hlt := (hs.iters_of_node a hmem).1
  have hcounter : s.counter a.value = some a.key := by
    rw [counter, hs.node?_of_mem hmem]
    rfl
  have hpeer : s.peers[a.value]? = some s.peers[a.value] := List.getElem?_eq_getElem hlt
  refine ⟨a.value, s.peers[a.value], (s.erase a.serial).emplace (increment a.key) a.value,
    by rw [next?, ha]; rfl, ?_, hpeer, hs.move hmem, rfl, ?_, ?_⟩
  · rw [LeastConn.select, ha]
    change (deref s.peers[a.value]? >>= _) = _
    rw [hpeer]
    rfl
  · intro pos' hpos' c c' hc hc'
    obtain ⟨b, hb, rfl, hnode⟩ := hs.exists_node? hpos'
    rw [counter, hnode] at hc'
    rw [hcounter] at hc
    cases hc
    cases hc'
    exact Multimap.key_le_of_first? ha hb
  · intro pos' hpos'
    rw [hs.counter_move hmem hpos', hcounter]
    rfl

/-- What one iteration of `release` does. -/
theorem Consistent.releaseAt (hs : s.Consistent) (peer : Endpoint) (hpos : pos < s.peers.length) :
    ∃ s', s.releaseAt peer pos = .ok s' ∧ s'.Consistent ∧ s'.peers = s.peers
      ∧ ∀ pos' < s.peers.length,
          s'.counter pos' = if pos' = pos ∧ s.peers[pos]? = some peer
            then (s.counter pos).map decrement else s.counter pos' := by
  rw [LeastConn.releaseAt]
  split
  · rename_i hpeer
    obtain ⟨a, ha, rfl, hnode⟩ := hs.exists_node? hpos
    refine ⟨(s.erase a.serial).emplace (decrement a.key) a.value, ?_, hs.move ha, rfl, ?_⟩
    · rw [hnode]
      rfl
    · intro pos' hpos'
      rw [hs.counter_move ha hpos', counter, counter, hnode]
      simp [hpeer]
  · exact ⟨s, rfl, hs, rfl, by simp_all⟩

/-- What the first `k` iterations of `release` do. -/
theorem Consistent.foldlM_releaseAt (hs : s.Consistent) (peer : Endpoint) {k : ℕ}
    (hk : k ≤ s.peers.length) :
    ∃ s', (List.range k).foldlM (LeastConn.releaseAt peer) s = .ok s' ∧ s'.Consistent
      ∧ s'.peers = s.peers
      ∧ ∀ pos < s.peers.length,
          s'.counter pos = if pos < k ∧ s.peers[pos]? = some peer
            then (s.counter pos).map decrement else s.counter pos := by
  induction k with
  | zero => exact ⟨s, rfl, hs, rfl, by simp⟩
  | succ k ih =>
      obtain ⟨t, ht, hcons, hpeers, hcounter⟩ := ih (by omega)
      have hk : k < t.peers.length := by
        rw [hpeers]
        omega
      obtain ⟨t', ht', hcons', hpeers', hcounter'⟩ := hcons.releaseAt peer hk
      refine ⟨t', ?_, hcons', hpeers'.trans hpeers, ?_⟩
      · rw [List.range_succ, List.foldlM_append, ht]
        change ([k].foldlM (LeastConn.releaseAt peer) t) = .ok t'
        rw [List.foldlM_cons, ht']
        rfl
      · intro pos hpos
        rw [hcounter' pos (by rw [hpeers]; exact hpos), hpeers, hcounter pos hpos]
        by_cases hk : pos = k
        · subst hk
          rw [hcounter pos hpos]
          simp
        · have hlt : pos < k + 1 ↔ pos < k := by omega
          simp [hk, hlt]

/-- **What `release` does**: it counts one back at every position that holds the peer. -/
theorem Consistent.release (hs : s.Consistent) (peer : Endpoint) :
    ∃ s', s.release peer = .ok s' ∧ s'.Consistent ∧ s'.peers = s.peers
      ∧ ∀ pos < s.peers.length,
          s'.counter pos = if s.peers[pos]? = some peer
            then (s.counter pos).map decrement else s.counter pos := by
  obtain ⟨s', hs', hcons, hpeers, hcounter⟩ := hs.foldlM_releaseAt peer le_rfl
  refine ⟨s', hs', hcons, hpeers, fun pos hpos => ?_⟩
  rw [hcounter pos hpos]
  simp only [hpos, true_and]

/-! ## Histories -/

/-- A call of a history: a selection, or the release of the `k`-th of the selections that
are out. -/
inductive Call : Type where
  | select
  | release (k : ℕ)

/-- A selection that is out: its position and the endpoint it returned. -/
abbrev Ticket := ℕ × Endpoint

/-- One call.  A release without a selection to give back is no call of a history. -/
def call : LeastConn × List Ticket → Call → Result (LeastConn × List Ticket)
  | (s, out), .select => do
    let pos ← deref s.next?
    let (peer, s) ← s.select
    return (s, (pos, peer) :: out)
  | (s, out), .release k =>
    match out[k]? with
    | some ticket => do return (← s.release ticket.2, out.eraseIdx k)
    | none => return (s, out)

/-- A whole history. -/
def run (opt : TunnelOption) (calls : List Call) : Result (LeastConn × List Ticket) :=
  calls.foldlM call (make opt, [])

/-- The number of selections of a position that are out. -/
def outstanding (out : List Ticket) (pos : ℕ) : ℕ := (out.map Prod.fst).count pos

theorem outstanding_cons (ticket : Ticket) (out : List Ticket) (pos : ℕ) :
    outstanding (ticket :: out) pos = outstanding out pos + if ticket.1 = pos then 1 else 0 := by
  simp [outstanding, List.count_cons]

theorem outstanding_append (out out' : List Ticket) (pos : ℕ) :
    outstanding (out ++ out') pos = outstanding out pos + outstanding out' pos := by
  simp [outstanding, List.count_append]

theorem outstanding_pos_iff {out : List Ticket} {pos : ℕ} :
    0 < outstanding out pos ↔ pos ∈ out.map Prod.fst :=
  List.count_pos_iff

/-- **Exact counters**: each counter is the number of selections of its position that are
out, as long as that is a number a counter can hold, and giving one of them back wraps no
counter. -/
structure Exact (s : LeastConn) (out : List Ticket) : Prop where
  counter_eq : ∀ pos < s.peers.length, outstanding out pos < 2 ^ 64 →
    s.counter pos = some (outstanding out pos)
  no_wrap : ∀ ticket ∈ out, outstanding out ticket.1 < 2 ^ 64 →
    ∀ pos < s.peers.length, s.peers[pos]? = some ticket.2 → s.counter pos ≠ some 0

/-- The invariant of histories. -/
structure Counted (opt : TunnelOption) (s : LeastConn) (out : List Ticket) : Prop where
  consistent : s.Consistent
  peers_eq : s.peers = opt.destinations
  peer_of_ticket : ∀ ticket ∈ out, s.peers[ticket.1]? = some ticket.2
  counter_eq : ∀ pos < s.peers.length, s.counter pos = some (outstanding out pos % 2 ^ 64)

variable {out : List Ticket}

theorem counted_make : Counted opt (make opt) [] where
  consistent := consistent_make
  peers_eq := peers_make
  peer_of_ticket := by simp
  counter_eq := fun pos hpos => counter_make (by rwa [peers_make] at hpos)

/-- A selection is counted, and takes a position that is out as little as any. -/
theorem Counted.select (h : Counted opt s out) (hne : opt.destinations ≠ []) :
    ∃ pos peer s', call (s, out) .select = .ok (s', (pos, peer) :: out)
      ∧ Counted opt s' ((pos, peer) :: out)
      ∧ ∀ pos' < opt.destinations.length,
          outstanding out pos % 2 ^ 64 ≤ outstanding out pos' % 2 ^ 64 := by
  obtain ⟨pos, peer, s', hnext, hselect, hpeer, hcons, hpeers, hmin, hcounter⟩ :=
    h.consistent.select (by rw [h.peers_eq]; exact hne)
  have hpos : pos < s.peers.length := (List.getElem?_eq_some_iff.mp hpeer).1
  refine ⟨pos, peer, s', ?_, ⟨hcons, hpeers.trans h.peers_eq, ?_, ?_⟩, ?_⟩
  · rw [call, hnext]
    change (s.select >>= _) = _
    rw [hselect]
    rfl
  · intro ticket hticket
    rw [hpeers]
    rcases List.mem_cons.mp hticket with rfl | hticket
    · exact hpeer
    · exact h.peer_of_ticket ticket hticket
  · intro pos' hpos'
    rw [hpeers] at hpos'
    rw [hcounter pos' hpos', h.counter_eq pos hpos, h.counter_eq pos' hpos', outstanding_cons]
    by_cases heq : pos' = pos
    · subst heq
      simp [increment]
    · simp [heq, Ne.symm heq]
  · intro pos' hpos'
    rw [← h.peers_eq] at hpos'
    exact hmin pos' hpos' _ _ (h.counter_eq pos hpos) (h.counter_eq pos' hpos')

/-- What a release does, the destinations distinct or not. -/
theorem Counted.release (h : Counted opt s out) {k : ℕ} {ticket : Ticket}
    (hk : out[k]? = some ticket) :
    ∃ s', call (s, out) (.release k) = .ok (s', out.eraseIdx k) ∧ s'.Consistent
      ∧ s'.peers = s.peers
      ∧ ∀ pos < s.peers.length,
          s'.counter pos = if s.peers[pos]? = some ticket.2
            then some (decrement (outstanding out pos % 2 ^ 64))
            else some (outstanding out pos % 2 ^ 64) := by
  obtain ⟨s', hs', hcons, hpeers, hcounter⟩ := h.consistent.release ticket.2
  refine ⟨s', ?_, hcons, hpeers, ?_⟩
  · simp only [call, hk]
    rw [hs']
    rfl
  · intro pos hpos
    rw [hcounter pos hpos, h.counter_eq pos hpos]
    rfl

theorem outstanding_eraseIdx {k : ℕ} {ticket : Ticket} (hk : out[k]? = some ticket) (pos : ℕ) :
    outstanding out pos
      = outstanding (out.eraseIdx k) pos + if ticket.1 = pos then 1 else 0 := by
  obtain ⟨hlt, rfl⟩ := List.getElem?_eq_some_iff.mp hk
  have hsplit : out = out.take k ++ out[k] :: out.drop (k + 1) := by
    rw [← List.drop_eq_getElem_cons hlt, List.take_append_drop]
  conv_lhs => rw [hsplit]
  rw [List.eraseIdx_eq_take_drop_succ, outstanding_append, outstanding_append, outstanding_cons]
  omega

/-- A release keeps the invariant if no destination is listed twice. -/
theorem Counted.release_of_nodup (h : Counted opt s out) (hnodup : opt.destinations.Nodup)
    {k : ℕ} {ticket : Ticket} (hk : out[k]? = some ticket) :
    ∃ s', call (s, out) (.release k) = .ok (s', out.eraseIdx k)
      ∧ Counted opt s' (out.eraseIdx k) := by
  obtain ⟨s', hs', hcons, hpeers, hcounter⟩ := h.release hk
  have hticket := h.peer_of_ticket ticket (List.mem_of_getElem? hk)
  refine ⟨s', hs', hcons, hpeers.trans h.peers_eq, ?_, ?_⟩
  · intro t ht
    rw [hpeers]
    exact h.peer_of_ticket t (List.mem_of_mem_eraseIdx ht)
  · intro pos hpos
    rw [hpeers] at hpos
    have hcount := outstanding_eraseIdx hk pos
    -- the destinations are distinct, so that only the position of the ticket holds its peer
    have hiff : s.peers[pos]? = some ticket.2 ↔ ticket.1 = pos := by
      rw [← hticket]
      constructor
      · intro heq
        rw [← h.peers_eq] at hnodup
        exact ((List.getElem?_inj hpos hnodup).mp heq).symm
      · rintro rfl
        rfl
    rw [hcounter pos hpos]
    simp only [hiff]
    split
    · rename_i heq
      rw [if_pos heq] at hcount
      rw [hcount, decrement_succ_mod]
    · rename_i heq
      rw [if_neg heq, Nat.add_zero] at hcount
      rw [hcount]

/-- One call keeps the invariant if no destination is listed twice. -/
theorem Counted.call_of_nodup (h : Counted opt s out) (hnodup : opt.destinations.Nodup)
    (hne : opt.destinations ≠ []) (c : Call) :
    ∃ s' out', call (s, out) c = .ok (s', out') ∧ Counted opt s' out' := by
  cases c with
  | select =>
      obtain ⟨pos, peer, s', hcall, hcounted, -⟩ := h.select hne
      exact ⟨s', _, hcall, hcounted⟩
  | release k =>
      cases hk : out[k]? with
      | none => exact ⟨s, out, by simp only [call, hk]; rfl, h⟩
      | some ticket =>
          obtain ⟨s', hcall, hcounted⟩ := h.release_of_nodup hnodup hk
          exact ⟨s', _, hcall, hcounted⟩

theorem run_append_singleton (opt : TunnelOption) (calls : List Call) (c : Call) :
    run opt (calls ++ [c]) = run opt calls >>= fun s => call s c := by
  rw [run, List.foldlM_append]
  congr 1
  funext s
  cases h : call s c <;> simp [List.foldlM_cons, h, bind, Except.bind, pure, Except.pure]

/-- Every history keeps the invariant if no destination is listed twice. -/
theorem counted_run_of_nodup (hnodup : opt.destinations.Nodup) (hne : opt.destinations ≠ [])
    (calls : List Call) : ∃ s out, run opt calls = .ok (s, out) ∧ Counted opt s out := by
  induction calls using List.reverseRecOn with
  | nil => exact ⟨_, _, rfl, counted_make⟩
  | append_singleton calls c ih =>
      obtain ⟨s, out, hrun, hcounted⟩ := ih
      obtain ⟨s', out', hcall, hcounted'⟩ := hcounted.call_of_nodup hnodup hne c
      exact ⟨s', out', by rw [run_append_singleton, hrun]; exact hcall, hcounted'⟩

theorem Counted.exact_of_nodup (h : Counted opt s out) (hnodup : opt.destinations.Nodup) :
    Exact s out := by
  have hexact : ∀ pos < s.peers.length, outstanding out pos < 2 ^ 64 →
      s.counter pos = some (outstanding out pos) := by
    intro pos hpos hlt
    rw [h.counter_eq pos hpos, Nat.mod_eq_of_lt hlt]
  refine ⟨hexact, ?_⟩
  intro ticket hticket hlt pos hpos hpeer
  have hpeer' := h.peer_of_ticket ticket hticket
  rw [← h.peers_eq] at hnodup
  obtain rfl : pos = ticket.1 := (List.getElem?_inj hpos hnodup).mp (hpeer.trans hpeer'.symm)
  have hmem : 0 < outstanding out ticket.1 :=
    outstanding_pos_iff.mpr (List.mem_map_of_mem hticket)
  rw [hexact _ hpos hlt]
  simp only [ne_eq, Option.some.injEq]
  omega

/-! ## Destinations listed twice -/

/-- Selections alone take the positions one after another, each of them once before any of
them twice. -/
theorem counted_run_select (hne : opt.destinations ≠ []) :
    ∀ m ≤ opt.destinations.length, ∃ s out,
      run opt (List.replicate m .select) = .ok (s, out) ∧ Counted opt s out
        ∧ (out.map Prod.fst).Nodup ∧ out.length = m := by
  intro m
  induction m with
  | zero => exact fun _ => ⟨_, _, rfl, counted_make, List.nodup_nil, rfl⟩
  | succ m ih =>
      intro hm
      obtain ⟨s, out, hrun, hcounted, hnodup, hlen⟩ := ih (by omega)
      obtain ⟨pos, peer, s', hcall, hcounted', hmin⟩ := hcounted.select hne
      refine ⟨s', _, ?_, hcounted', ?_, by simp [hlen]⟩
      · rw [List.replicate_succ', run_append_singleton, hrun]
        exact hcall
      · rw [List.map_cons, List.nodup_cons]
        refine ⟨?_, hnodup⟩
        intro hmem
        -- some position is not out yet, and `pos` is not out more often than that one
        obtain ⟨fresh, hfresh, hnot⟩ : ∃ fresh < opt.destinations.length,
            fresh ∉ out.map Prod.fst := by
          by_contra hall
          push Not at hall
          have hsub : List.range opt.destinations.length ⊆ out.map Prod.fst :=
            fun i hi => hall i (List.mem_range.mp hi)
          have hle := (List.nodup_range.subperm hsub).length_le
          simp only [List.length_range, List.length_map] at hle
          omega
        have hzero : outstanding out fresh = 0 := List.count_eq_zero_of_not_mem hnot
        have hone : outstanding out pos = 1 := List.count_eq_one_of_mem hnodup hmem
        have hle := hmin fresh hfresh
        rw [hzero, hone] at hle
        omega

/-- As many distinct positions as there are destinations are all of them. -/
theorem mem_of_full (h : Counted opt s out) (hnodup : (out.map Prod.fst).Nodup)
    (hlen : out.length = opt.destinations.length) :
    ∀ pos < opt.destinations.length, pos ∈ out.map Prod.fst := by
  have hsub : out.map Prod.fst ⊆ List.range opt.destinations.length := by
    intro pos hpos
    obtain ⟨ticket, hticket, rfl⟩ := List.mem_map.mp hpos
    rw [← h.peers_eq]
    exact List.mem_range.mpr (List.getElem?_eq_some_iff.mp (h.peer_of_ticket ticket hticket)).1
  have hperm : (out.map Prod.fst).Perm (List.range opt.destinations.length) :=
    (hnodup.subperm hsub).perm_of_length_le (by simp [hlen])
  intro pos hpos
  exact hperm.mem_iff.mpr (List.mem_range.mpr hpos)

/-- **The counters are exact in every state of every history if and only if no destination
is listed twice.** -/
theorem exact_iff_nodup (p : Platform) (v : Json) (opt : TunnelOption)
    (h : TunnelOption.parse p v = .ok opt) :
    (∀ calls, ∃ s out, run opt calls = .ok (s, out) ∧ Exact s out)
      ↔ opt.destinations.Nodup := by
  have hne := TunnelOption.destinations_ne_nil h
  constructor
  · intro hall
    rw [List.nodup_iff_getElem?_ne_getElem?]
    intro i j hij hj heq
    obtain ⟨s, out, hrun, hcounted, hnodup, hlen⟩ := counted_run_select hne _ le_rfl
    have hmem := mem_of_full hcounted hnodup hlen
    have hone : outstanding out j = 1 := List.count_eq_one_of_mem hnodup (hmem j hj)
    obtain ⟨k, hk⟩ := List.mem_iff_getElem?.mp (hmem i (by omega))
    rw [List.getElem?_map, Option.map_eq_some_iff] at hk
    obtain ⟨ticket, hk, rfl⟩ := hk
    -- giving `i` back counts `j` back as well, though `j` stays out
    obtain ⟨s', hcall, -, hpeers, hcounter⟩ := hcounted.release hk
    have hrun' : run opt (List.replicate opt.destinations.length .select ++ [.release k])
        = .ok (s', out.eraseIdx k) := by
      rw [run_append_singleton, hrun]
      exact hcall
    obtain ⟨s'', out'', hrun'', hexact⟩ := hall
      (List.replicate opt.destinations.length .select ++ [.release k])
    rw [hrun'] at hrun''
    cases hrun''
    have hout : outstanding (out.eraseIdx k) j = 1 := by
      have hcount := outstanding_eraseIdx hk j
      rw [if_neg (by omega), hone] at hcount
      omega
    have hj' : j < s.peers.length := by rw [hcounted.peers_eq]; exact hj
    have hpeer : s.peers[j]? = some ticket.2 := by
      rw [← hcounted.peer_of_ticket ticket (List.mem_of_getElem? hk), hcounted.peers_eq, heq]
    have hzero : s'.counter j = some 0 := by
      rw [hcounter j hj', if_pos hpeer, hone]
      rfl
    have hcontra := hexact.counter_eq j (by rw [hpeers]; exact hj') (by rw [hout]; norm_num)
    rw [hzero, hout] at hcontra
    cases hcontra
  · intro hnodup calls
    obtain ⟨s, out, hrun, hcounted⟩ := counted_run_of_nodup hnodup hne calls
    exact ⟨s, out, hrun, hcounted.exact_of_nodup hnodup⟩

/-- The option of a tunnel to some hosts, all at port 80. -/
def tunnelJson (hosts : List String) : Json :=
  .obj [field "destinations" (.arr (hosts.map fun host =>
      .obj [field "host" (.str (lit host)), field "port" (.int 80)])),
    field "balance" (.str (lit "least_conn"))]

/-- Two different destinations. -/
theorem exact_iff_nodup_example :
    ∃ opt, TunnelOption.parse Reference.platform (tunnelJson ["one", "two"]) = .ok opt
      ∧ ∀ calls, ∃ s out, run opt calls = .ok (s, out) ∧ Exact s out :=
  ⟨⟨[⟨.domainName, lit "one", 80⟩, ⟨.domainName, lit "two", 80⟩], .leastConn⟩, rfl,
    (exact_iff_nodup Reference.platform (tunnelJson ["one", "two"]) _ rfl).mpr (by decide)⟩

/-- One destination listed twice: the first selection and its release leave the counter of
the second position at the largest number there is. -/
theorem exact_counterexample :
    ∃ opt s, TunnelOption.parse Reference.platform (tunnelJson ["one", "one"]) = .ok opt
      ∧ run opt [.select, .release 0] = .ok (s, []) ∧ s.counter 1 = some (2 ^ 64 - 1)
      ∧ ¬Exact s [] := by
  have hcounter : ∃ s, run ⟨[⟨.domainName, lit "one", 80⟩, ⟨.domainName, lit "one", 80⟩],
      .leastConn⟩ [.select, .release 0] = .ok (s, []) ∧ s.peers.length = 2
        ∧ s.counter 1 = some (2 ^ 64 - 1) :=
    ⟨_, rfl, rfl, rfl⟩
  obtain ⟨s, hrun, hlen, hcounter⟩ := hcounter
  refine ⟨_, s, rfl, hrun, hcounter, ?_⟩
  intro hexact
  have hzero := hexact.counter_eq 1 (by omega) (by decide)
  rw [hcounter] at hzero
  exact absurd hzero (by decide)

end LeastConn

end Pichi
