/-
# The lifetime of balancers

A tunnel that is destroyed has its peer released, which posts a handler to the strand of the
balancer, and then drops its reference to the balancer.  The handler has no reference of its own.
So a balancer that is no longer in the table of the service lives as long as its tunnels, and the
last of them leaves a handler behind that runs when the balancer is gone.

`defined_iff`: no handler runs on a balancer that was destroyed, in a run at whose end nothing is
left, if and only if no least-connection balancer leaves the table while it is in use.
-/
import Pichi.Tunnels

namespace Pichi

open Interleave

namespace Tunnels

open State

variable {s s' t : State} {o : ℕ} {cell : Cell}

/-! ## Leaving the table -/

/-- The balancer posts what it is given back. -/
def State.IsLeastConn (s : State) (o : ℕ) : Prop :=
  ∃ cell, s.cells[o]? = some cell ∧ cell.manner.isLeastConn = true

/-- No tunnel has the balancer or waits for it, and nothing is to be given back. -/
def State.Idle (s : State) (o : ℕ) : Prop :=
  o ∉ s.tunnels.map Prod.fst ∧ ∀ cell, s.cells[o]? = some cell → cell.posted = []

/-- A least-connection balancer that an event takes from the table is not in use. -/
def LeavesIdle (s : State) (e : Event) : Prop :=
  ∀ s' o, exec s e = some s' → s.InTable o → ¬s'.InTable o → s.IsLeastConn o → s.Idle o

/-- No tunnel is left, and no handler of a balancer. -/
def State.Settled (s : State) : Prop :=
  s.tunnels = [] ∧ ∀ cell ∈ s.cells, cell.posted = []

/-- No handler of a balancer that can select runs into undefined behaviour while the balancer is
alive. -/
theorem not_alive_of_undefined (hs : WellFormed s) {manner : Balancer} {handler : Handler}
    {rest : List Handler} (hcell : s.cells[o]? = some ⟨manner, handler :: rest⟩)
    (h : ¬s.Alive o ∨ (∃ draw e, handler = .select ∧ manner.select draw = .error e)
      ∨ ∃ peer e, handler = .release peer ∧ manner.released peer = .error e) : ¬s.Alive o := by
  have hok := hs.manner o _ hcell
  rcases h with h | ⟨draw, e, -, h⟩ | ⟨peer, e, -, h⟩
  · exact h
  · obtain ⟨peer, b', hselect, -⟩ := Balancer.Ok.select hok draw
    rw [hselect] at h
    cases h
  · obtain ⟨b', hrelease, -⟩ := Balancer.Ok.released hok peer
    rw [hrelease] at h
    cases h

/-- A handler runs on the strand of another balancer than one that is idle. -/
theorem State.Idle.set_other (hidle : s.Idle o) {o' : ℕ} {cell' : Cell} {manner : Balancer}
    {handler : Handler} {rest : List Handler}
    (hcell' : s.cells[o']? = some ⟨manner, handler :: rest⟩) :
    o ≠ o' ∧ ∀ cell, (s.cells.set o' cell')[o]? = some cell → cell.posted = [] := by
  have hne : o ≠ o' := by
    rintro rfl
    cases hidle.2 _ hcell'
  refine ⟨hne, fun cell hcell => ?_⟩
  rcases (cells_set hcell').mp hcell with ⟨ho, -⟩ | ⟨-, hcell⟩
  · exact absurd ho hne
  · exact hidle.2 cell hcell

/-- A balancer that is idle stays so while it is not in the table. -/
theorem idle_step (h : Step s s') (hidle : s.Idle o) (hout : ¬s'.InTable o)
    (hlt : o < s.cells.length) : s'.Idle o := by
  obtain ⟨htunnels, hcells⟩ := id hidle
  cases h with
  | post task => exact ⟨htunnels, hcells⟩
  | skip task posted h => exact ⟨htunnels, hcells⟩
  | create vo posted manner h hmanner =>
      refine ⟨htunnels, fun cell hcell => ?_⟩
      rcases cells_append hcell with hcell | ⟨ho, -⟩
      · exact hcells cell hcell
      · exact absurd ho hlt.ne
  | remove name posted h => exact ⟨htunnels, hcells⟩
  | get name posted o' h hlookup =>
      refine ⟨htunnels, fun cell hcell => ?_⟩
      obtain ⟨cell', hcell', rfl⟩ := cells_post.mp hcell
      have hne : o ≠ o' := by
        rintro rfl
        exact hout (inTable_iff.mpr ⟨name, hlookup⟩)
      rw [if_neg hne]
      exact hcells cell' hcell'
  | select o' draw manner manner' rest peer hcell halive hselect =>
      obtain ⟨hne, hposted⟩ := hidle.set_other hcell
      refine ⟨?_, hposted⟩
      rw [List.map_cons, List.mem_cons, not_or]
      exact ⟨hne, htunnels⟩
  | release o' manner manner' rest peer hcell halive hrelease =>
      exact ⟨htunnels, (hidle.set_other hcell).2⟩
  | undefined o' manner handler rest hcell h => exact ⟨htunnels, (hidle.set_other hcell).2⟩
  | finish k o' peer cell' h hcell' =>
      have hne : o ≠ o' := by
        rintro rfl
        exact htunnels (List.mem_map_of_mem (List.mem_of_getElem? h))
      refine ⟨fun hmem => htunnels ?_, fun cell hcell => ?_⟩
      · obtain ⟨t, ht, rfl⟩ := List.mem_map.mp hmem
        exact List.mem_map_of_mem (List.mem_of_mem_eraseIdx ht)
      · obtain ⟨cell₁, hcell₁, rfl⟩ := cells_post.mp hcell
        rw [if_neg hne]
        exact hcells cell₁ hcell₁

theorem isLeastConn_set {o' : ℕ} {cell' : Cell} (hcell : s.cells[o']? = some cell)
    (hsame : cell'.manner.isLeastConn = cell.manner.isLeastConn) :
    State.IsLeastConn { s with cells := s.cells.set o' cell' } o ↔ s.IsLeastConn o := by
  constructor
  · rintro ⟨cell₁, hcell₁, hleast⟩
    rcases (cells_set hcell).mp hcell₁ with ⟨rfl, rfl⟩ | ⟨-, hcell₁⟩
    · exact ⟨cell, hcell, hsame ▸ hleast⟩
    · exact ⟨cell₁, hcell₁, hleast⟩
  · rintro ⟨cell₁, hcell₁, hleast⟩
    by_cases ho : o = o'
    · subst ho
      obtain rfl := Option.some.inj (hcell.symm.trans hcell₁)
      exact ⟨cell', (cells_set hcell).mpr (Or.inl ⟨rfl, rfl⟩), hsame.trans hleast⟩
    · exact ⟨cell₁, (cells_set hcell).mpr (Or.inr ⟨ho, hcell₁⟩), hleast⟩

theorem isLeastConn_post {o' : ℕ} {handlers : List Handler} :
    (s.post o' handlers).IsLeastConn o ↔ s.IsLeastConn o := by
  constructor
  · rintro ⟨cell₁, hcell₁, hleast⟩
    obtain ⟨cell, hcell, rfl⟩ := cells_post.mp hcell₁
    refine ⟨cell, hcell, ?_⟩
    split at hleast <;> exact hleast
  · rintro ⟨cell, hcell, hleast⟩
    refine ⟨_, cells_post.mpr ⟨cell, hcell, rfl⟩, ?_⟩
    split <;> exact hleast

/-- What a balancer is does not change. -/
theorem isLeastConn_step (hs : WellFormed s) (h : Step s s') (hlt : o < s.cells.length) :
    s'.IsLeastConn o ↔ s.IsLeastConn o := by
  cases h with
  | post task => exact Iff.rfl
  | skip task posted h => exact Iff.rfl
  | create vo posted manner h hmanner =>
      simp only [State.IsLeastConn, List.getElem?_append_left hlt]
  | remove name posted h => exact Iff.rfl
  | get name posted o' h hlookup => exact isLeastConn_post
  | select o' draw manner manner' rest peer hcell halive hselect =>
      obtain ⟨peer', b', hselect', -, hsame⟩ := (hs.manner o' _ hcell).select draw
      rw [hselect] at hselect'
      cases hselect'
      exact isLeastConn_set hcell hsame
  | release o' manner manner' rest peer hcell halive hrelease =>
      obtain ⟨b', hrelease', -, hsame⟩ := (hs.manner o' _ hcell).released peer
      rw [hrelease] at hrelease'
      cases hrelease'
      exact isLeastConn_set hcell hsame
  | undefined o' manner handler rest hcell h => exact isLeastConn_set hcell rfl
  | finish k o' peer cell h hcell => exact isLeastConn_post

/-- A new balancer is in the table. -/
theorem lt_or_inTable_of_step (h : Step s s') (hcell : s'.cells[o]? = some cell) :
    o < s.cells.length ∨ s'.InTable o := by
  have hlt := (List.getElem?_eq_some_iff.mp hcell).1
  cases h with
  | create vo posted manner h hmanner =>
      rcases cells_append hcell with hcell | ⟨rfl, -⟩
      · exact Or.inl (List.getElem?_eq_some_iff.mp hcell).1
      · exact Or.inr (inTable_iff.mpr ⟨vo.name, AList.lookup_insert _⟩)
  | _ =>
      refine Or.inl ?_
      simpa [State.post] using hlt

/-- As long as least-connection balancers leave the table idle. -/
structure Kept (s : State) : Prop where
  wellFormed : WellFormed s
  idle : ∀ o, s.IsLeastConn o → ¬s.InTable o → s.Idle o
  undefined : s.undefined = []

/-- The balancer of a handler is alive. -/
theorem Kept.alive (hs : Kept s) {manner : Balancer} {handler : Handler} {rest : List Handler}
    (hcell : s.cells[o]? = some ⟨manner, handler :: rest⟩) : s.Alive o := by
  by_cases hleast : manner.isLeastConn = true
  · refine Or.inl (by_contra fun hout => ?_)
    cases (hs.idle o ⟨_, hcell, hleast⟩ hout).2 _ hcell
  · have hselect := hs.wellFormed.handlers o _ hcell (Bool.eq_false_iff.mpr hleast) handler
      List.mem_cons_self
    refine Or.inr (Or.inr ⟨_, hcell, ?_⟩)
    rw [hselect]
    exact List.mem_cons_self

theorem kept_step (hs : Kept s) (h : Step s s')
    (hleaves : ∀ o, s.InTable o → ¬s'.InTable o → s.IsLeastConn o → s.Idle o) : Kept s' := by
  refine ⟨wellFormed_step hs.wellFormed h, fun o hleast hout => ?_, ?_⟩
  · obtain ⟨cell, hcell, -⟩ := id hleast
    have hlt : o < s.cells.length := (lt_or_inTable_of_step h hcell).resolve_right hout
    have hleast := (isLeastConn_step hs.wellFormed h hlt).mp hleast
    by_cases hin : s.InTable o
    · exact idle_step h (hleaves o hin hout hleast) hout hlt
    · exact idle_step h (hs.idle o hleast hin) hout hlt
  · cases h with
    | undefined o manner handler rest hcell h =>
        exact absurd (hs.alive hcell) (not_alive_of_undefined hs.wellFormed hcell h)
    | _ => exact hs.undefined

/-- A least-connection balancer that has left the table while it was in use. -/
structure Doomed (s : State) (o : ℕ) : Prop where
  out : ¬s.InTable o
  least : s.IsLeastConn o
  busy : ¬s.Idle o ∨ o ∈ s.undefined

theorem not_idle_iff : ¬s.Idle o ↔ o ∈ s.tunnels.map Prod.fst
    ∨ ∃ cell, s.cells[o]? = some cell ∧ cell.posted ≠ [] := by
  simp only [State.Idle, not_and_or, not_not, not_forall, exists_prop]

/-- Once out of the table, a balancer is not put there again. -/
theorem not_inTable_step (h : Step s s') (hout : ¬s.InTable o) (hlt : o < s.cells.length) :
    ¬s'.InTable o := by
  cases h with
  | create vo posted manner h hmanner =>
      intro hin
      rcases inTable_insert hin with ho | hin
      · exact absurd ho hlt.ne
      · exact hout hin
  | remove name posted h => exact fun hin => hout (inTable_erase hin)
  | _ => exact hout

/-- A tunnel of another balancer ends. -/
theorem mem_tunnels_eraseIdx {k o' : ℕ} {peer : Endpoint} (h : s.tunnels[k]? = some (o', peer))
    (ho : o ≠ o') (hmem : o ∈ s.tunnels.map Prod.fst) :
    o ∈ (s.tunnels.eraseIdx k).map Prod.fst := by
  obtain ⟨hlt, hk⟩ := List.getElem?_eq_some_iff.mp h
  have hperm := (List.getElem_cons_eraseIdx_perm hlt).map Prod.fst
  rw [hk, List.map_cons] at hperm
  rcases List.mem_cons.mp (hperm.mem_iff.mpr hmem) with hmem | hmem
  · exact absurd hmem ho
  · exact hmem

/-- A least-connection balancer posts what it is given back. -/
theorem release_ne_nil {manner : Balancer} (hleast : manner.isLeastConn = true) (peer : Endpoint) :
    manner.release peer ≠ [] := by
  cases manner with
  | leastConn lc => simp [Balancer.release]
  | random peers upper => cases hleast
  | roundRobin peers pos => cases hleast

/-- Its last release is still to come, or came when it was destroyed. -/
theorem busy_step (h : Step s s') (hd : Doomed s o) : ¬s'.Idle o ∨ o ∈ s'.undefined := by
  obtain ⟨cell, hcell, hleast⟩ := hd.least
  rcases hd.busy with hbusy | hundefined
  swap
  · refine Or.inr ?_
    cases h with
    | undefined o' manner handler rest hcell' h => exact List.mem_cons_of_mem _ hundefined
    | _ => exact hundefined
  rw [not_idle_iff] at hbusy
  simp only [not_idle_iff]
  cases h with
  | post task => exact Or.inl hbusy
  | skip task posted h => exact Or.inl hbusy
  | create vo posted manner h hmanner =>
      refine Or.inl (hbusy.imp_right fun ⟨cell', hcell', hne⟩ => ⟨cell', ?_, hne⟩)
      rw [List.getElem?_append_left (List.getElem?_eq_some_iff.mp hcell').1]
      exact hcell'
  | remove name posted h => exact Or.inl hbusy
  | get name posted o' h hlookup =>
      refine Or.inl (hbusy.imp_right fun ⟨cell', hcell', hne⟩ => ?_)
      refine ⟨_, cells_post.mpr ⟨cell', hcell', rfl⟩, ?_⟩
      split
      · simp
      · exact hne
  | select o' draw manner manner' rest peer hcell' halive hselect =>
      refine Or.inl ?_
      by_cases ho : o = o'
      · exact Or.inl (ho ▸ List.mem_cons_self)
      · refine hbusy.imp (fun hmem => List.mem_cons_of_mem _ hmem) fun ⟨cell', hcell₁, hne⟩ => ?_
        exact ⟨cell', (cells_set hcell').mpr (Or.inr ⟨ho, hcell₁⟩), hne⟩
  | release o' manner manner' rest peer hcell' halive hrelease =>
      refine Or.inl ?_
      by_cases ho : o = o'
      · -- it is alive because of another tunnel
        subst ho
        rcases halive with hin | hmem | ⟨cell', hcell₁, hmem⟩
        · exact absurd hin hd.out
        · exact Or.inl hmem
        · obtain rfl := Option.some.inj (hcell'.symm.trans hcell₁)
          refine Or.inr ⟨_, (cells_set hcell').mpr (Or.inl ⟨rfl, rfl⟩), ?_⟩
          rcases List.mem_cons.mp hmem with hmem | hmem
          · cases hmem
          · exact List.ne_nil_of_mem hmem
      · refine hbusy.imp_right fun ⟨cell', hcell₁, hne⟩ => ?_
        exact ⟨cell', (cells_set hcell').mpr (Or.inr ⟨ho, hcell₁⟩), hne⟩
  | undefined o' manner handler rest hcell' h =>
      by_cases ho : o = o'
      · exact Or.inr (ho ▸ List.mem_cons_self)
      · refine Or.inl (hbusy.imp_right fun ⟨cell', hcell₁, hne⟩ => ?_)
        exact ⟨cell', (cells_set hcell').mpr (Or.inr ⟨ho, hcell₁⟩), hne⟩
  | finish k o' peer cell' h hcell' =>
      refine Or.inl ?_
      by_cases ho : o = o'
      · -- the tunnel leaves a release behind
        subst ho
        obtain rfl := Option.some.inj (hcell.symm.trans hcell')
        refine Or.inr ⟨_, cells_post.mpr ⟨cell, hcell, rfl⟩, ?_⟩
        rw [if_pos rfl]
        exact List.append_ne_nil_of_right_ne_nil _ (release_ne_nil hleast peer)
      · refine hbusy.imp (mem_tunnels_eraseIdx h ho) fun ⟨cell₁, hcell₁, hne⟩ => ?_
        refine ⟨_, cells_post.mpr ⟨cell₁, hcell₁, rfl⟩, ?_⟩
        rw [if_neg ho]
        exact hne

theorem doomed_step (hs : WellFormed s) (h : Step s s') (hd : Doomed s o) : Doomed s' o := by
  obtain ⟨cell, hcell, -⟩ := hd.least
  have hlt := (List.getElem?_eq_some_iff.mp hcell).1
  exact ⟨not_inTable_step h hd.out hlt, (isLeastConn_step hs h hlt).mpr hd.least, busy_step h hd⟩

/-- A balancer that leaves the table keeps its tunnels and handlers. -/
theorem not_idle_of_leaves (h : Step s s') (hin : s.InTable o) (hout : ¬s'.InTable o)
    (hlt : o < s.cells.length) (hbusy : ¬s.Idle o) : ¬s'.Idle o := by
  cases h with
  | create vo posted manner h hmanner =>
      rintro ⟨htunnels, hcells⟩
      refine hbusy ⟨htunnels, fun cell hcell => hcells cell ?_⟩
      rw [List.getElem?_append_left hlt]
      exact hcell
  | remove name posted h => exact hbusy
  | _ => exact absurd hin hout

/-- **The lifetime of balancers.**  If every least-connection balancer that leaves the table in a
run is idle when it does, then no handler runs on a balancer that was destroyed.  In a run after
which nothing is left this is the only way: a balancer that leaves the table while a tunnel has
it, or waits for it, or has not been counted back, is destroyed before its last release runs. -/
theorem defined_iff {es : List Event} (h : run exec initial es = some s) :
    (Meets exec LeavesIdle initial es → s.undefined = [])
      ∧ (s.Settled → s.undefined = [] → Meets exec LeavesIdle initial es) := by
  constructor
  · intro hmeets
    have hreaches := Reaches.of_meets (.refl : Reaches exec LeavesIdle initial initial) hmeets h
    have hinit : Kept initial := by
      refine ⟨wellFormed_initial, fun o hleast _ => ?_, rfl⟩
      obtain ⟨cell, hcell, -⟩ := hleast
      simp [initial] at hcell
    exact (hreaches.invariant Kept hinit fun t e u ht hC hexec =>
      kept_step ht (step_of_exec hexec) fun o => hC u o hexec).undefined
  · intro hsettled hdefined
    by_contra hnot
    obtain ⟨t, e, u, es', ht, hC, hexec, hrun⟩ := exists_of_not_meets .refl hnot h
    simp only [LeavesIdle, not_forall] at hC
    obtain ⟨u', o, hexec', hin, hout, hleast, hbusy⟩ := hC
    obtain rfl : u = u' := Option.some.inj (hexec.symm.trans hexec')
    have hs := (invariant_of_reachable ht).1
    have hstep := step_of_exec hexec
    have hlt := hs.table o hin
    have hdoomed : Doomed u o := ⟨hout, (isLeastConn_step hs hstep hlt).mpr hleast,
      Or.inl (not_idle_of_leaves hstep hin hout hlt hbusy)⟩
    have hend := (Reaches.of_run .refl hrun).invariant (fun s => WellFormed s ∧ Doomed s o)
      ⟨wellFormed_step hs hstep, hdoomed⟩ fun t e u ht _ hexec =>
        ⟨wellFormed_step ht.1 (step_of_exec hexec), doomed_step ht.1 (step_of_exec hexec) ht.2⟩
    rcases hend.2.busy with hbusy | hmem
    · refine hbusy ⟨by rw [hsettled.1]; simp, fun cell hcell => ?_⟩
      exact hsettled.2 cell (List.mem_of_getElem? hcell)
    · rw [hdefined] at hmem
      cases hmem

/-- A session, and the end of the listener after it. -/
def Example.settled : List Event :=
  [.listen Example.tunnel, .serve, .accept [116], .serve, .strand 0 0, .finish 0, .strand 0 0,
    .unlisten [116], .serve]

/-- The same with the end of the listener before that of the session. -/
def Example.removed : List Event :=
  [.listen Example.tunnel, .serve, .accept [116], .serve, .strand 0 0, .unlisten [116], .serve,
    .finish 0, .strand 0 0]

theorem defined_iff_example :
    Meets exec LeavesIdle initial Example.settled
      ∧ ∃ s, run exec initial Example.removed = some s ∧ s.undefined = [0]
        ∧ ¬Meets exec LeavesIdle initial Example.removed := by
  have hsettled : ∃ s, run exec initial Example.settled = some s ∧ s.undefined = []
      ∧ s.tunnels = [] ∧ ∃ manner, s.cells = [⟨manner, []⟩] := ⟨_, rfl, rfl, rfl, _, rfl⟩
  have hremoved : ∃ s, run exec initial Example.removed = some s ∧ s.undefined = [0] :=
    ⟨_, rfl, rfl⟩
  obtain ⟨s, hrun, hdefined, htunnels, manner, hcells⟩ := hsettled
  obtain ⟨s', hrun', hdefined'⟩ := hremoved
  refine ⟨(defined_iff hrun).2 ⟨htunnels, ?_⟩ hdefined, s', hrun', hdefined', fun hmeets => ?_⟩
  · rw [hcells]
    simp
  · rw [(defined_iff hrun').1 hmeets] at hdefined'
    cases hdefined'

end Tunnels

end Pichi
