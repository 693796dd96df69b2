/-
# The index of the least-connection balancer

`balancer::LeastConn` of `service/balancer.cpp` once more, now under any sequence of calls:
`release` is called with endpoints that no selection has returned, more often than `select`,
or with endpoints that are not in the list of destinations.  A counter then no longer counts
connections, and wraps around modulo `2 ^ 64`; what holds in every state is that the index and
the iterators fit together, and that a selection takes the first of the positions with a
smallest counter.

The runs start from the constructor, and `Consistent` is the invariant.
-/
import Pichi.Balancer

namespace Pichi

namespace LeastConn

/-! ## Runs -/

/-- A call of one of the two functions. -/
inductive Op : Type where
  | select
  | release (peer : Endpoint)

def perform (s : LeastConn) : Op → Result LeastConn
  | .select => do
    let (_, s) ← s.select
    return s
  | .release peer => s.release peer

/-- The calls one after another, on the strand of the balancer. -/
def performAll (opt : TunnelOption) (ops : List Op) : Result LeastConn :=
  ops.foldlM perform (make opt)

/-! ## What is to hold -/

/-- The index has one node for each position and no others, and the iterator of a position
refers to its node. -/
structure Indexed (s : LeastConn) : Prop where
  values_perm : (s.index.nodes.map (·.value)).Perm (List.range s.peers.length)
  iters_eq : ∀ pos < s.peers.length, ∃ a ∈ s.index.nodes, a.value = pos
    ∧ s.iters pos = some a.serial

/-- A selection takes a position `pos` with a smallest counter, of these the one whose node was
inserted first, and raises the counter of `pos` by one and no other. -/
structure Takes (s : LeastConn) (pos : ℕ) (peer : Endpoint) (s' : LeastConn) : Prop where
  peer_eq : s.peers[pos]? = some peer
  least : ∃ a, s.node? pos = some a ∧ ∀ pos' < s.peers.length, pos' ≠ pos →
    ∃ b, s.node? pos' = some b ∧ (a.key < b.key ∨ a.key = b.key ∧ a.serial < b.serial)
  counter_eq : ∀ pos' < s.peers.length,
    s'.counter pos' = if pos' = pos then (s.counter pos).map fun conn => (conn + 1) % 2 ^ 64
      else s.counter pos'

variable {s : LeastConn}

theorem Consistent.indexed (hs : s.Consistent) : s.Indexed where
  values_perm := by
    have hnodes : s.index.nodes.Nodup := List.Nodup.of_map _ s.index.nodup
    have hnodup : (s.index.nodes.map (·.value)).Nodup := by
      refine hnodes.map_on fun a ha b hb hvalue => ?_
      by_contra hne
      have hserial : a.serial ≠ b.serial := fun heq => hne (Multimap.eq_of_serial_eq ha hb heq)
      exact (hs.serial_ne_iff hb ha).mp hserial hvalue
    rw [List.perm_ext_iff_of_nodup hnodup List.nodup_range]
    intro pos
    rw [List.mem_map, List.mem_range]
    constructor
    · rintro ⟨a, ha, rfl⟩
      exact (hs.iters_of_node a ha).1
    · intro hpos
      exact hs.node_of_pos pos hpos
  iters_eq := by
    intro pos hpos
    obtain ⟨a, ha, rfl⟩ := hs.node_of_pos pos hpos
    exact ⟨a, ha, rfl, (hs.iters_of_node a ha).2⟩

/-- The first node of the index belongs to the position that is taken. -/
theorem Consistent.takes (hs : s.Consistent) (hne : s.peers ≠ []) :
    ∃ pos peer s', s.next? = some pos ∧ s.select = .ok (peer, s') ∧ s.Takes pos peer s'
      ∧ s'.Consistent ∧ s'.peers = s.peers := by
  obtain ⟨pos, peer, s', hnext, hselect, hpeer, hcons, hpeers, -, hcounter⟩ := hs.select hne
  refine ⟨pos, peer, s', hnext, hselect, ⟨hpeer, ?_, hcounter⟩, hcons, hpeers⟩
  obtain ⟨a, ha, rfl⟩ := Option.map_eq_some_iff.mp hnext
  refine ⟨a, hs.node?_of_mem (Multimap.mem_of_first? ha), fun pos' hpos' hne' => ?_⟩
  obtain ⟨b, hb, rfl, hnode⟩ := hs.exists_node? hpos'
  rcases Multimap.eq_or_before_of_first? ha hb with rfl | hbefore
  · exact absurd rfl hne'
  · exact ⟨b, hnode, hbefore⟩

/-! ## Every run -/

theorem Consistent.perform (hs : s.Consistent) (hne : s.peers ≠ []) (op : Op) :
    ∃ s', LeastConn.perform s op = .ok s' ∧ s'.Consistent ∧ s'.peers = s.peers := by
  cases op with
  | select =>
      obtain ⟨pos, peer, s', -, hselect, -, hcons, hpeers⟩ := hs.takes hne
      refine ⟨s', ?_, hcons, hpeers⟩
      rw [LeastConn.perform, hselect]
      rfl
  | release peer =>
      obtain ⟨s', hrelease, hcons, hpeers, -⟩ := hs.release peer
      exact ⟨s', hrelease, hcons, hpeers⟩

theorem Consistent.performAll (ops : List Op) : ∀ {s : LeastConn}, s.Consistent → s.peers ≠ [] →
    ∃ s', ops.foldlM LeastConn.perform s = .ok s' ∧ s'.Consistent ∧ s'.peers = s.peers := by
  induction ops with
  | nil =>
      intro s hs _
      exact ⟨s, rfl, hs, rfl⟩
  | cons op ops ih =>
      intro s hs hne
      obtain ⟨s', hs', hcons, hpeers⟩ := hs.perform hne op
      obtain ⟨s'', hs'', hcons', hpeers'⟩ := ih hcons (by rwa [hpeers])
      refine ⟨s'', ?_, hcons', hpeers'.trans hpeers⟩
      rw [List.foldlM_cons, hs']
      exact hs''

/-- **The index in every state of every run.**  However selections follow each other and
releases of any endpoints, no call fails, the index and the iterators fit together, and the
next selection takes the oldest of the positions with a smallest counter. -/
theorem indexed_performAll (opt : TunnelOption) (hne : opt.destinations ≠ []) (ops : List Op) :
    ∃ s, performAll opt ops = .ok s ∧ s.peers = opt.destinations ∧ s.Indexed
      ∧ ∃ pos peer s', s.next? = some pos ∧ s.select = .ok (peer, s')
        ∧ performAll opt (ops ++ [.select]) = .ok s' ∧ s.Takes pos peer s' := by
  obtain ⟨s, hs, hcons, hpeers⟩ := Consistent.performAll (s := make opt) ops consistent_make
    (by rwa [peers_make])
  rw [peers_make] at hpeers
  obtain ⟨pos, peer, s', hnext, hselect, htakes, -⟩ := hcons.takes (by rwa [hpeers])
  refine ⟨s, hs, hpeers, hcons.indexed, pos, peer, s', hnext, hselect, ?_, htakes⟩
  rw [LeastConn.performAll, List.foldlM_append, hs]
  show [Op.select].foldlM LeastConn.perform s = _
  rw [List.foldlM_cons, LeastConn.perform, hselect]
  rfl

/-- One destination listed twice, released before it was selected. -/
theorem indexed_performAll_example :
    ∃ s, performAll ⟨[⟨.domainName, lit "one", 80⟩, ⟨.domainName, lit "one", 80⟩], .leastConn⟩
        [.release ⟨.domainName, lit "one", 80⟩, .select, .release ⟨.domainName, lit "two", 80⟩]
          = .ok s
      ∧ s.Indexed := by
  obtain ⟨s, hs, -, hindexed, -⟩ := indexed_performAll
    ⟨[⟨.domainName, lit "one", 80⟩, ⟨.domainName, lit "one", 80⟩], .leastConn⟩ (by decide)
    [.release ⟨.domainName, lit "one", 80⟩, .select, .release ⟨.domainName, lit "two", 80⟩]
  exact ⟨s, hs, hindexed⟩

end LeastConn

end Pichi
