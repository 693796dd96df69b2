/-
# Least-connection balancing without releases

`balancer::RoundRobin` of `service/balancer.cpp`, and `balancer::LeastConn` as long as nothing is
released.  Both hand out the destinations in turn.  The first one counts positions modulo the
length of the list; of the second one the whole index has to be known, since the order of equal
counters is the order in which their nodes were inserted.

Of `n` destinations the index after `k` selections has the entries `k`, …, `k + n - 1`, where
entry `m` is the position `m % n` with the counter `m / n`: a selection takes the first of them
and inserts entry `k + n` behind the others.

A counter is a `size_t`.  When all of them have the largest value, the position that is taken
next is counted as 0 and stands in front of the others until it has the largest value again, so
that from then on each position is taken `2 ^ 64` times in a row.

**Main result** (`selections_agree_iff`): the first selections of the two are the same, in turn,
up to that moment, and one more.  With the ones that follow they are the same exactly if the
destinations are equal whose turn has come since.
-/
import Pichi.Balancer

namespace Pichi

/-- `balancer::RoundRobin`; the strand is left out. -/
structure RoundRobin where
  peers : List Endpoint
  pos : ℕ

namespace RoundRobin

/-- The constructor. -/
def make (opt : TunnelOption) : RoundRobin := ⟨opt.destinations, 0⟩

/-- `select`. -/
def select (s : RoundRobin) : Result (Endpoint × RoundRobin) := do
  let ret ← deref s.peers[s.pos]?
  return (ret, { s with pos := (s.pos + 1) % s.peers.length })

end RoundRobin

/-! ## Selections in a row -/

section Selections

variable {B : Type}

/-- What the first `k` calls of `select` return, with no other call in between. -/
def selections (select : B → Result (Endpoint × B)) : ℕ → B → Result (List Endpoint)
  | 0, _ => .ok []
  | k + 1, s => do
    let (peer, s) ← select s
    return peer :: (← selections select k s)

/-- A run is known when it is known for each state it passes what is returned there. -/
theorem selections_of_step {select : B → Result (Endpoint × B)} (At : ℕ → B → Prop)
    {peer : ℕ → Endpoint}
    (hstep : ∀ k s, At k s → ∃ s', select s = .ok (peer k, s') ∧ At (k + 1) s') (n : ℕ) :
    ∀ {k : ℕ} {s : B}, At k s → selections select n s = .ok ((List.range' k n).map peer) := by
  induction n with
  | zero =>
      intro k s _
      rfl
  | succ n ih =>
      intro k s hs
      obtain ⟨s', hselect, hs'⟩ := hstep k s hs
      rw [selections, hselect]
      change (selections select n s' >>= _) = _
      rw [ih hs']
      rfl

end Selections

/-- The destination whose turn it is at selection `i`. -/
def turn (peers : List Endpoint) (hne : peers ≠ []) (i : ℕ) : Endpoint :=
  peers.get ⟨i % peers.length, Nat.mod_lt i (List.length_pos_of_ne_nil hne)⟩

section Turn

variable {peers : List Endpoint} {hne : peers ≠ []}

theorem getElem?_turn (hne : peers ≠ []) (i : ℕ) :
    peers[i % peers.length]? = some (turn peers hne i) :=
  List.getElem?_eq_getElem _

theorem turn_mod (i : ℕ) : turn peers hne (i % peers.length) = turn peers hne i := by
  apply Option.some.inj
  rw [← getElem?_turn, ← getElem?_turn, Nat.mod_mod]

/-- **Round robin takes the destinations in turn.** -/
theorem RoundRobin.selections_eq {opt : TunnelOption} (hne : opt.destinations ≠ []) (k : ℕ) :
    selections RoundRobin.select k (RoundRobin.make opt)
      = .ok ((List.range k).map (turn opt.destinations hne)) := by
  rw [List.range_eq_range']
  have hstart : RoundRobin.make opt = ⟨opt.destinations, 0 % opt.destinations.length⟩ := by
    rw [Nat.zero_mod]
    rfl
  refine selections_of_step (fun k s => s = ⟨opt.destinations, k % opt.destinations.length⟩)
    ?_ k hstart
  rintro k s rfl
  refine ⟨_, ?_, rfl⟩
  rw [RoundRobin.select, getElem?_turn hne]
  show Except.ok (_, _) = _
  rw [Nat.mod_add_mod]

end Turn

namespace LeastConn

/-! ## The index between selections -/

/-- The largest value of a `size_t`. -/
def sizeMax : ℕ := 0xffffffffffffffff

theorem increment_of_lt {conn : ℕ} (h : conn < sizeMax) : increment conn = conn + 1 := by
  rw [sizeMax] at h
  rw [increment]
  omega

theorem increment_sizeMax : increment sizeMax = 0 := by
  rw [increment, sizeMax]
  omega

/-- The index after `k` selections from `n` destinations, before a counter has wrapped around. -/
def early (n k : ℕ) : List (ℕ × ℕ) := (List.range' k n).map fun m => (m / n, m % n)

/-- The index `t` selections after all counters had the largest value: each position is taken
`2 ^ 64` times in a row, and the others wait with the largest counter. -/
def late (n t : ℕ) : List (ℕ × ℕ) :=
  (if t % (sizeMax + 1) = 0 then sizeMax else t % (sizeMax + 1) - 1, t / (sizeMax + 1) % n)
    :: (List.range' (t / (sizeMax + 1) + 1) (n - 1)).map fun m => (sizeMax, m % n)

/-- The index after `k` selections. -/
def queue (n k : ℕ) : List (ℕ × ℕ) :=
  if k < n * sizeMax then early n k else late n (k - n * sizeMax)

/-- The turn the position belongs to that selection `i` takes. -/
def turnOf (n i : ℕ) : ℕ := if i < n * sizeMax then i else (i - n * sizeMax) / (sizeMax + 1)

/-- A round and the entry that is the first one of the next round. -/
theorem early_eq_cons {n : ℕ} (hn : 0 < n) (k : ℕ) :
    early n k = (k / n, k % n) :: (List.range' (k + 1) (n - 1)).map fun m => (m / n, m % n) := by
  obtain ⟨n, rfl⟩ : ∃ n', n = n' + 1 := ⟨n - 1, by omega⟩
  rw [early, List.range'_succ, List.map_cons, Nat.add_sub_cancel]

/-- The entries from the second one on, and the one that is inserted. -/
theorem range'_append_last {n : ℕ} (hn : 0 < n) (k : ℕ) :
    List.range' (k + 1) (n - 1) ++ [k + n] = List.range' (k + 1) n := by
  obtain ⟨n, rfl⟩ : ∃ n', n = n' + 1 := ⟨n - 1, by omega⟩
  rw [Nat.add_sub_cancel, List.range'_1_concat, Nat.add_right_comm, Nat.add_assoc]

/-- A selection before any counter has the largest value. -/
theorem early_step {n k : ℕ} (hn : 0 < n) (hk : k < n * sizeMax) :
    Multimap.insertEntry (increment (k / n), k % n)
        ((List.range' (k + 1) (n - 1)).map fun m => (m / n, m % n)) = early n (k + 1) := by
  have hlt : k / n < sizeMax := Nat.div_lt_of_lt_mul hk
  have hnext : (k + n) / n = k / n + 1 ∧ (k + n) % n = k % n :=
    ⟨Nat.add_div_right k hn, Nat.add_mod_right k n⟩
  rw [increment_of_lt hlt, Multimap.insertEntry_of_forall_le]
  · rw [early, ← range'_append_last hn, List.map_append, List.map_singleton, hnext.1, hnext.2]
  · intro d hd
    obtain ⟨m, hm, rfl⟩ := List.mem_map.mp hd
    have hle : m ≤ k + n := by
      have hmem := (List.mem_range'_1.mp hm).2
      omega
    calc m / n ≤ (k + n) / n := Nat.div_le_div_right hle
      _ = k / n + 1 := hnext.1

/-- When all counters have the largest value. -/
theorem early_eq_late {n : ℕ} (hn : 0 < n) : early n (n * sizeMax) = late n 0 := by
  rw [early_eq_cons hn, late]
  congr 1
  · simp [Nat.mul_div_cancel_left _ hn]
  · rw [List.range'_eq_map_range, List.range'_eq_map_range, List.map_map, List.map_map]
    apply List.map_congr_left
    intro j hj
    have hj := List.mem_range.mp hj
    have hlt : 1 + j < n := by omega
    simp only [Function.comp_apply, Nat.zero_div, Nat.zero_add, Nat.add_assoc,
      Nat.mul_add_div hn, Nat.div_eq_of_lt hlt, Nat.mul_add_mod, Nat.add_zero]

/-- The positions that wait all have the largest counter. -/
theorem key_of_mem_waiting {n q : ℕ} {d : ℕ × ℕ}
    (hd : d ∈ (List.range' (q + 1) (n - 1)).map fun m => (sizeMax, m % n)) : d.1 = sizeMax := by
  obtain ⟨m, -, rfl⟩ := List.mem_map.mp hd
  rfl

/-- A selection after a counter has had the largest value. -/
theorem late_step {n : ℕ} (hn : 0 < n) (t : ℕ) :
    Multimap.insertEntry
        (increment (if t % (sizeMax + 1) = 0 then sizeMax else t % (sizeMax + 1) - 1),
          t / (sizeMax + 1) % n)
        ((List.range' (t / (sizeMax + 1) + 1) (n - 1)).map fun m => (sizeMax, m % n))
      = late n (t + 1) := by
  have hpos : 0 < sizeMax := by decide
  have hlt : t % (sizeMax + 1) < sizeMax + 1 := Nat.mod_lt t (Nat.succ_pos _)
  by_cases hlast : t % (sizeMax + 1) = sizeMax
  · -- the position has the largest counter again, and goes behind the others
    have hmod : (t + 1) % (sizeMax + 1) = 0 := by
      rw [Nat.add_mod, hlast, Nat.mod_eq_of_lt (a := 1) (by omega), Nat.mod_self]
    have hdiv : (t + 1) / (sizeMax + 1) = t / (sizeMax + 1) + 1 := by
      rw [Nat.succ_div, if_pos (Nat.dvd_of_mod_eq_zero hmod)]
    have hconn : increment (sizeMax - 1) = sizeMax := by
      rw [increment_of_lt (by omega)]
      omega
    rw [hlast, if_neg hpos.ne', hconn, late, hmod, if_pos rfl, hdiv,
      Multimap.insertEntry_of_forall_le fun d hd => (key_of_mem_waiting hd).le]
    have hround : (sizeMax, (t / (sizeMax + 1) + 1) % n)
          :: (List.range' (t / (sizeMax + 1) + 1 + 1) (n - 1)).map (fun m => (sizeMax, m % n))
        = (List.range' (t / (sizeMax + 1) + 1) n).map fun m => (sizeMax, m % n) := by
      obtain ⟨n, rfl⟩ : ∃ n', n = n' + 1 := ⟨n - 1, by omega⟩
      rw [Nat.add_sub_cancel, List.range'_succ, List.map_cons]
    rw [hround, ← range'_append_last hn, List.map_append, List.map_singleton, Nat.add_mod_right]
  · -- it stays in front
    have hmod : (t + 1) % (sizeMax + 1) = t % (sizeMax + 1) + 1 := by
      rw [Nat.add_mod, Nat.mod_eq_of_lt (a := 1) (by omega), Nat.mod_eq_of_lt (by omega)]
    have hdiv : (t + 1) / (sizeMax + 1) = t / (sizeMax + 1) := by
      refine Nat.succ_div_of_not_dvd fun hdvd => ?_
      rw [Nat.mod_eq_zero_of_dvd hdvd] at hmod
      omega
    have hconn : increment (if t % (sizeMax + 1) = 0 then sizeMax else t % (sizeMax + 1) - 1)
        = t % (sizeMax + 1) := by
      split
      · rename_i hzero
        rw [hzero, increment_sizeMax]
      · rw [increment_of_lt (by omega)]
        omega
    rw [hconn, late, hmod, if_neg (Nat.succ_ne_zero _), Nat.add_sub_cancel, hdiv]
    apply Multimap.insertEntry_of_forall_lt
    intro d hd
    rw [key_of_mem_waiting hd]
    exact Nat.lt_of_le_of_ne (Nat.lt_succ_iff.mp hlt) hlast

/-- **One selection**, at any time: the first entry belongs to the turn, and is inserted again. -/
theorem queue_step {n : ℕ} (hn : 0 < n) (k : ℕ) :
    ∃ conn l, queue n k = (conn, turnOf n k % n) :: l
      ∧ Multimap.insertEntry (increment conn, turnOf n k % n) l = queue n (k + 1) := by
  by_cases hk : k < n * sizeMax
  · refine ⟨_, _, by rw [queue, if_pos hk, turnOf, if_pos hk]; exact early_eq_cons hn k, ?_⟩
    rw [turnOf, if_pos hk, early_step hn hk, queue]
    split
    · rfl
    · have hlast : k + 1 = n * sizeMax := by omega
      rw [hlast, Nat.sub_self, early_eq_late hn]
  · have hsub : k + 1 - n * sizeMax = k - n * sizeMax + 1 := by omega
    refine ⟨_, _, by rw [queue, if_neg hk, turnOf, if_neg hk, late], ?_⟩
    rw [turnOf, if_neg hk, late_step hn, queue, if_neg (by omega), hsub]

/-! ## The selections -/

/-- What a selection makes of the first entry. -/
theorem select_of_entries {s : LeastConn} {conn pos : ℕ} {l : List (ℕ × ℕ)} {peer : Endpoint}
    (hentries : s.index.entries = (conn, pos) :: l) (hpeer : s.peers[pos]? = some peer) :
    ∃ s', s.select = .ok (peer, s') ∧ s'.peers = s.peers
      ∧ s'.index.entries = Multimap.insertEntry (increment conn, pos) l := by
  obtain ⟨a, ha⟩ : ∃ a, s.index.first? = some a := by
    cases h : s.index.nodes with
    | nil => simp [Multimap.entries, h] at hentries
    | cons a l => exact ⟨a, by simp [Multimap.first?, h]⟩
  rw [Multimap.entries_of_first? ha] at hentries
  simp only [List.cons.injEq, Prod.mk.injEq] at hentries
  obtain ⟨⟨rfl, rfl⟩, rfl⟩ := hentries
  refine ⟨(s.erase a.serial).emplace (increment a.key) a.value, ?_, rfl,
    Multimap.entries_emplace⟩
  rw [LeastConn.select, ha]
  change (deref s.peers[a.value]? >>= _) = _
  rw [hpeer]
  rfl

/-- The index the constructor builds. -/
theorem entries_init (peers : List Endpoint) (k : ℕ) :
    (init peers k).index.entries = (List.range k).map fun pos => (0, pos) := by
  induction k with
  | zero => rfl
  | succ k ih =>
      have hsucc : init peers (k + 1) = (init peers k).emplace 0 k := by
        rw [init, List.range_succ, List.foldl_append]
        rfl
      rw [hsucc, emplace, Multimap.entries_emplace, ih, Multimap.insertEntry_of_forall_le,
        List.range_succ, List.map_append, List.map_singleton]
      intro d hd
      obtain ⟨pos, -, rfl⟩ := List.mem_map.mp hd
      exact le_refl 0

theorem entries_make {opt : TunnelOption} (hne : opt.destinations ≠ []) :
    (make opt).index.entries = queue opt.destinations.length 0 := by
  have hn := List.length_pos_of_ne_nil hne
  have hpos : 0 < opt.destinations.length * sizeMax := Nat.mul_pos hn (by decide)
  rw [make, entries_init, queue, if_pos hpos, early, List.range_eq_range']
  apply List.map_congr_left
  intro m hm
  have hlt : m < opt.destinations.length := by
    have hmem := (List.mem_range'_1.mp hm).2
    omega
  rw [Nat.div_eq_of_lt hlt, Nat.mod_eq_of_lt hlt]

/-- **What the selections return**, however many there are. -/
theorem selections_eq {opt : TunnelOption} (hne : opt.destinations ≠ []) (k : ℕ) :
    selections LeastConn.select k (make opt) = .ok ((List.range k).map fun i =>
      turn opt.destinations hne (turnOf opt.destinations.length i)) := by
  rw [List.range_eq_range']
  refine selections_of_step (fun k s => s.peers = opt.destinations
    ∧ s.index.entries = queue opt.destinations.length k) ?_ k ⟨peers_make, entries_make hne⟩
  rintro k s ⟨hpeers, hentries⟩
  obtain ⟨conn, l, hqueue, hnext⟩ := queue_step (List.length_pos_of_ne_nil hne) k
  have hpeer : s.peers[turnOf opt.destinations.length k % opt.destinations.length]?
      = some (turn opt.destinations hne (turnOf opt.destinations.length k)) := by
    rw [hpeers]
    exact getElem?_turn hne _
  obtain ⟨s', hselect, hpeers', hentries'⟩ := select_of_entries (hentries.trans hqueue) hpeer
  exact ⟨s', hselect, hpeers'.trans hpeers, hentries'.trans hnext⟩

end LeastConn

/-! ## The two balancers -/

section Agree

variable {peers : List Endpoint}

/-- Destinations that are the same up to some turn are so after any number of rounds. -/
theorem turn_eq_zero_iff (hne : peers ≠ []) {bound : ℕ} :
    (∀ j < bound, turn peers hne (j / (LeastConn.sizeMax + 1)) = turn peers hne j)
      ↔ ∀ j < peers.length, j < bound → peers[j]? = peers[0]? := by
  have hget : ∀ j < peers.length, peers[j]? = some (turn peers hne j) := by
    intro j hj
    rw [← getElem?_turn hne, Nat.mod_eq_of_lt hj]
  have hpos := List.length_pos_of_ne_nil hne
  constructor
  · intro h
    -- by induction: what is divided is smaller
    have hzero : ∀ j, j < bound → turn peers hne j = turn peers hne 0 := by
      intro j
      induction j using Nat.strong_induction_on with
      | h j ih =>
          intro hj
          by_cases hj0 : j = 0
          · rw [hj0]
          · have hlt : j / (LeastConn.sizeMax + 1) < j :=
              Nat.div_lt_self (Nat.pos_of_ne_zero hj0) (by decide)
            rw [← h j hj, ih _ hlt (by omega)]
    intro j hj hbound
    rw [hget j hj, hget 0 hpos, hzero j hbound]
  · intro h
    have hzero : ∀ j < bound, turn peers hne j = turn peers hne 0 := by
      intro j hj
      have hmod := Nat.mod_lt j hpos
      have hle := Nat.mod_le j peers.length
      have heq := h (j % peers.length) hmod (by omega)
      rw [hget _ hmod, hget 0 hpos, turn_mod] at heq
      exact Option.some.inj heq
    intro j hj
    have hle := Nat.div_le_self j (LeastConn.sizeMax + 1)
    rw [hzero j hj, hzero _ (by omega)]

end Agree

/-- The selections are the same exactly if the destinations are equal whose turn has come since
all counters had the largest value. -/
theorem selections_eq_iff {opt : TunnelOption} (hne : opt.destinations ≠ []) (k : ℕ) :
    selections LeastConn.select k (LeastConn.make opt)
        = selections RoundRobin.select k (RoundRobin.make opt)
      ↔ ∀ j < opt.destinations.length, opt.destinations.length * LeastConn.sizeMax + j < k →
        opt.destinations[j]? = opt.destinations[0]? := by
  have hbound : (∀ j < opt.destinations.length,
        opt.destinations.length * LeastConn.sizeMax + j < k →
          opt.destinations[j]? = opt.destinations[0]?)
      ↔ ∀ j < opt.destinations.length, j < k - opt.destinations.length * LeastConn.sizeMax →
        opt.destinations[j]? = opt.destinations[0]? := by
    refine forall₂_congr fun j _ => ?_
    rw [Nat.lt_sub_iff_add_lt']
  rw [hbound, ← turn_eq_zero_iff hne, LeastConn.selections_eq hne,
    RoundRobin.selections_eq hne, Except.ok.injEq, List.map_inj_left]
  constructor
  · intro h j hj
    have hi := h (opt.destinations.length * LeastConn.sizeMax + j) (List.mem_range.mpr (by omega))
    rw [LeastConn.turnOf, if_neg (by omega), Nat.add_sub_cancel_left] at hi
    rw [hi, ← turn_mod, Nat.mul_add_mod, turn_mod]
  · intro h i hi
    have hi := List.mem_range.mp hi
    rw [LeastConn.turnOf]
    split
    · rfl
    · have hturn := h (i - opt.destinations.length * LeastConn.sizeMax) (by omega)
      have hsplit : i = opt.destinations.length * LeastConn.sizeMax
          + (i - opt.destinations.length * LeastConn.sizeMax) := by omega
      rw [hturn, ← turn_mod]
      conv_rhs => rw [hsplit, ← turn_mod, Nat.mul_add_mod]

/-- **Without releases the two balancers agree** on the first `k` selections from `n`
destinations, which are those at the positions `0`, `1`, …, `n - 1`, `0`, `1`, … in turn.  They
do so for every `k` up to `n * (2 ^ 64 - 1) + 1`.  After `n * (2 ^ 64 - 1)` selections all
counters have their largest value, and from there on the selections are the same exactly if the
destinations are equal whose turn has come since. -/
theorem selections_agree_iff (opt : TunnelOption) (hne : opt.destinations ≠ []) (k : ℕ) :
    selections RoundRobin.select k (RoundRobin.make opt)
        = .ok ((List.range k).map (turn opt.destinations hne))
      ∧ (k ≤ opt.destinations.length * LeastConn.sizeMax + 1 →
        selections LeastConn.select k (LeastConn.make opt)
          = selections RoundRobin.select k (RoundRobin.make opt))
      ∧ (selections LeastConn.select k (LeastConn.make opt)
          = selections RoundRobin.select k (RoundRobin.make opt)
        ↔ ∀ j < opt.destinations.length, opt.destinations.length * LeastConn.sizeMax + j < k →
          opt.destinations[j]? = opt.destinations[0]?) := by
  refine ⟨RoundRobin.selections_eq hne k, fun hk => ?_, selections_eq_iff hne k⟩
  rw [selections_eq_iff hne]
  intro j _ hj
  obtain rfl : j = 0 := by omega
  rfl

/-- Two destinations. -/
def Example.two : TunnelOption :=
  ⟨[⟨.domainName, lit "one", 80⟩, ⟨.domainName, lit "two", 80⟩], .leastConn⟩

/-- Five selections. -/
theorem selections_agree_example :
    ∃ l, selections LeastConn.select 5 (LeastConn.make Example.two) = .ok l
      ∧ l.map (·.host) = [lit "one", lit "two", lit "one", lit "two", lit "one"] := by
  obtain ⟨hturns, hagree, -⟩ := selections_agree_iff Example.two (by decide) 5
  exact ⟨_, (hagree (by decide)).trans hturns, rfl⟩

/-- The counters of both have the largest value after `2 * (2 ^ 64 - 1)` selections.  The first
destination is selected next, and then once more. -/
theorem selections_agree_counterexample :
    selections LeastConn.select (2 * LeastConn.sizeMax + 2) (LeastConn.make Example.two)
      ≠ selections RoundRobin.select (2 * LeastConn.sizeMax + 2) (RoundRobin.make Example.two) := by
  intro heq
  have hne : Example.two.destinations ≠ [] := by decide
  have hsame := (selections_eq_iff hne _).mp heq 1 (by decide)
    (Nat.lt_succ_self (2 * LeastConn.sizeMax + 1))
  exact absurd hsame (by decide)

end Pichi
