/-
# What one request does

`Server.Step` lists everything a request can do to the server, and `Server.handle_step`
says that `handle` does nothing else; the invariants of the server are case analyses over
these few shapes.  Requests that rebuild the router are singled out by `Server.Rebuilds`:
they write a table first and construct the router from the new tables afterwards, so
that their outcome is the one of `Server.finish` on the tables they wrote
(`Server.handle_of_rebuilds`).

`Server.Consistent` is the invariant that holds in every state whatever the requests are
(`Server.consistent_handle`): the names in the route are names in the tables, and the
adapters hold the alternatives of their types.
-/
import Pichi.Server

namespace Pichi

namespace Server

variable {p : Platform} {s s₁ : Server} {i : Arrival}

/-! ## Requests that rebuild the router -/

/-- The request is accepted, writes a table, giving `s₁`, and then rebuilds the router. -/
inductive Rebuilds (p : Platform) (s : Server) (i : Arrival) : Server → Prop where
  | egress {ename : Bytes} {egress : Egress}
      (htarget : Target.of i.request.target = .egress ename) (hput : i.request.method = .put)
      (hbody : parseBody p (Egress.parse p) i.request = .ok egress)
      (huse : egressInUse s.route ename = .ok true) :
      Rebuilds p s i { s with egresses := s.egresses.insert ename egress }
  | rule {rname : Bytes} {rule : Rule}
      (htarget : Target.of i.request.target = .rule rname) (hput : i.request.method = .put)
      (hbody : parseBody p Rule.parse i.request = .ok rule)
      (huse : ruleInUse s.route rname = true) :
      Rebuilds p s i { s with rules := s.rules.insert rname rule }
  | route {route : Route}
      (htarget : Target.of i.request.target = .route) (hput : i.request.method = .put)
      (hbody : parseBody p Route.parse i.request = .ok route)
      (hcheck : checkRoute s route = .ok ()) :
      Rebuilds p s i { s with route := route }

/-- The request asks whether an egress is in use, which looks at the default of the
route. -/
def LooksAtDefault (p : Platform) (i : Arrival) : Prop :=
  ∃ ename, Target.of i.request.target = .egress ename
    ∧ (i.request.method = .delete
      ∨ i.request.method = .put
        ∧ ∃ egress, parseBody p (Egress.parse p) i.request = .ok egress)

/-- A request that rebuilds the router ends with the rebuild. -/
theorem handle_of_rebuilds (h : Rebuilds p s i s₁) : handle p s i = finish p s₁ := by
  cases h with
  | egress htarget hput hbody huse =>
      simp only [handle, htarget, handleEgress, hput, hbody, huse]
  | rule htarget hput hbody huse =>
      simp only [handle, htarget, handleRule, hput, hbody, huse, if_true]
  | route htarget hput hbody hcheck =>
      simp only [handle, htarget, handleRoute, hput, hbody, hcheck]

/-! ## The outcome of a rebuild -/

/-- The tables after a rebuild that worked. -/
def rerouted (s : Server) (router : Router) : Server :=
  { s with router := router, listeners := s.listeners.mapValues (Listener.reroute router) }

theorem finish_of_ok {router : Router} (h : Router.make p s.egresses s.rules s.route = .ok router) :
    finish p s = (.ok (genResp .noContent), s.rerouted router) := by
  simp only [finish, updateRouter, h, rerouted]

theorem finish_of_error {f : Fault} (h : Router.make p s.egresses s.rules s.route = .error f) :
    finish p s = (.error f, s) := by
  simp only [finish, updateRouter, h]

/-- A rebuild changes neither the route nor the tables it is made from. -/
theorem finish_tables : (finish p s).2.egresses = s.egresses ∧ (finish p s).2.rules = s.rules
    ∧ (finish p s).2.route = s.route := by
  cases h : Router.make p s.egresses s.rules s.route with
  | ok router => simp [finish_of_ok h, rerouted]
  | error f => simp [finish_of_error h]

/-! ## The names in use -/

theorem egressInUse_of_none (h : s.route.default = none) (ename : Bytes) :
    egressInUse s.route ename = .error .undefinedBehaviour := by
  rw [egressInUse, h]
  rfl

theorem egressInUse_of_some {d : Bytes} (h : s.route.default = some d) (ename : Bytes) :
    egressInUse s.route ename
      = .ok (d = ename || s.route.rules.any fun item => item.2 = ename) := by
  rw [egressInUse, h]
  rfl

/-- An egress that is not in use is named neither as the default nor by a rule. -/
theorem egressInUse_eq_false {ename : Bytes} (h : egressInUse s.route ename = .ok false) :
    ∃ d, s.route.default = some d ∧ d ≠ ename ∧ ∀ item ∈ s.route.rules, item.2 ≠ ename := by
  cases hd : s.route.default with
  | none =>
      rw [egressInUse_of_none hd] at h
      cases h
  | some d =>
      rw [egressInUse_of_some hd] at h
      have h' : d ≠ ename ∧ ∀ item ∈ s.route.rules, item.2 ≠ ename := by simpa using h
      exact ⟨d, rfl, h'⟩

theorem egressInUse_eq_error {ename : Bytes} {f : Fault}
    (h : egressInUse s.route ename = .error f) :
    s.route.default = none ∧ f = .undefinedBehaviour := by
  cases hd : s.route.default with
  | none =>
      rw [egressInUse_of_none hd] at h
      exact ⟨rfl, (Except.error.inj h).symm⟩
  | some d =>
      rw [egressInUse_of_some hd] at h
      cases h

theorem ruleInUse_eq_false {rname : Bytes} (h : ¬ruleInUse s.route rname = true) :
    ∀ item ∈ s.route.rules, ∀ rn ∈ item.1, rn ≠ rname := by
  intro item hitem rn hrn heq
  apply h
  simp only [ruleInUse, List.any_eq_true, decide_eq_true_eq]
  exact ⟨item, hitem, rn, hrn, heq⟩

/-- A route that passes the checks names entries of the tables only. -/
theorem known_of_checkRoute {route : Route} (h : checkRoute s route = .ok ()) :
    route.Known s.egresses s.rules ∧ ∀ d, route.default = some d → d ∈ s.egresses := by
  unfold checkRoute at h
  obtain ⟨_, hrules, h⟩ := bind_eq_ok_iff.mp h
  obtain ⟨_, hegresses, h⟩ := bind_eq_ok_iff.mp h
  have hrules := Checked.assertTrue_eq_ok_iff.mp hrules
  have hegresses := Checked.assertTrue_eq_ok_iff.mp hegresses
  simp only [List.all_eq_true, AList.lookup_isSome] at hrules hegresses
  refine ⟨fun item hitem => ⟨hrules item hitem, hegresses item hitem⟩, fun d hd => ?_⟩
  rw [hd] at h
  exact AList.lookup_isSome.mp (Checked.assertTrue_eq_ok_iff.mp h)

/-- The checks pass exactly when the tables hold every name. -/
theorem checkRoute_eq_ok_iff {route : Route} :
    checkRoute s route = .ok () ↔
      route.Known s.egresses s.rules ∧ ∀ d, route.default = some d → d ∈ s.egresses := by
  refine ⟨known_of_checkRoute, fun ⟨hknown, hdefault⟩ => ?_⟩
  have hrules : (route.rules.all fun item => item.1.all fun rname =>
      (s.rules.lookup rname).isSome) = true := by
    simp only [List.all_eq_true, AList.lookup_isSome]
    exact fun item hitem => (hknown item hitem).1
  have hegresses : (route.rules.all fun item => (s.egresses.lookup item.2).isSome) = true := by
    simp only [List.all_eq_true, AList.lookup_isSome]
    exact fun item hitem => (hknown item hitem).2
  unfold checkRoute
  rw [hrules, hegresses]
  cases hd : route.default with
  | none => rfl
  | some d =>
      have hmem := AList.lookup_isSome.mpr (hdefault d hd)
      simp [Checked.assertTrue, hmem, bind, Except.bind]

/-! ## The shapes of a step -/

/-- The adapters in the tables hold the alternatives of their types. -/
def WellTyped (s : Server) : Prop :=
  (∀ name listener, s.listeners.lookup name = some listener → listener.vo.WellTyped)
    ∧ ∀ name egress, s.egresses.lookup name = some egress → egress.WellTyped

/-- Everything a request can do. -/
inductive Step (p : Platform) (s : Server) (i : Arrival) : Result Response → Server → Prop where
  /-- Nothing is written. -/
  | answer {out : Result Response} (hout : s.WellTyped → OnlySystemError out) : Step p s i out s
  /-- The listeners change. -/
  | listeners {resp : Response} {listeners : ValueMap Listener}
      (hwt : ∀ name listener, listeners.lookup name = some listener →
        s.listeners.lookup name = some listener ∨ listener.vo.WellTyped) :
      Step p s i (.ok resp) { s with listeners := listeners }
  /-- An egress that is not in use changes. -/
  | egresses {d ename : Bytes} {egresses : ValueMap Egress} (hd : s.route.default = some d)
      (hne : d ≠ ename) (hunused : ∀ item ∈ s.route.rules, item.2 ≠ ename)
      (hother : ∀ name, name ≠ ename → egresses.lookup name = s.egresses.lookup name)
      (hwt : ∀ egress, egresses.lookup ename = some egress → egress.WellTyped) :
      Step p s i (.ok (genResp .noContent)) { s with egresses := egresses }
  /-- A rule that is not in use changes. -/
  | rules {rname : Bytes} {rules : ValueMap Rule}
      (hunused : ∀ item ∈ s.route.rules, ∀ rn ∈ item.1, rn ≠ rname)
      (hother : ∀ name, name ≠ rname → rules.lookup name = s.rules.lookup name) :
      Step p s i (.ok (genResp .noContent)) { s with rules := rules }
  /-- A table is written and the router is rebuilt. -/
  | rebuild {s₁ : Server} (h : Rebuilds p s i s₁) : Step p s i (finish p s₁).1 (finish p s₁).2
  /-- The use of an egress is asked for while the route has no default. -/
  | undefined {egresses : ValueMap Egress} (h : LooksAtDefault p i) (hd : s.route.default = none)
      (hkeys : ∀ name ∈ s.egresses, name ∈ egresses)
      (hwt : ∀ name egress, egresses.lookup name = some egress →
        s.egresses.lookup name = some egress ∨ egress.WellTyped) :
      Step p s i (.error .undefinedBehaviour) { s with egresses := egresses }

theorem onlySystemError_map {α β : Type} {x : Result α} {g : α → β} (h : OnlySystemError x) :
    OnlySystemError (x.map g) := by
  cases x with
  | ok a => exact .ok _
  | error f => exact fun f' hf' => h f' (by cases hf'; rfl)

/-- Writing a table fails as one of its entries does. -/
theorem toJson_fault {V : Type} {pairs : ValueMap V} {itemToJson : V → Result Json}
    (h : ∀ name v, pairs.lookup name = some v → OnlySystemError (itemToJson v)) :
    OnlySystemError (toJson pairs itemToJson) := by
  refine .bind ?_ fun _ _ => .ok _
  intro f hf
  obtain ⟨pre, pair, post, hl, -, hpair⟩ := mapM_eq_error_iff.mp hf
  have hmem : pairs.lookup pair.1 = some pair.2 := by
    rw [← Option.mem_def, AList.mem_lookup_iff, hl]
    simp
  exact (OnlySystemError.bind (.lift _) fun _ _ =>
    .bind (h pair.1 pair.2 hmem) fun _ _ => .ok _) f hpair

theorem step_collection {out : Result Response × Server} {body : Result Json}
    (h : out = handleCollection s i.request body) (hbody : s.WellTyped → OnlySystemError body) :
    Step p s i out.1 out.2 := by
  subst h
  unfold handleCollection
  split
  · exact .answer fun hs => onlySystemError_map (hbody hs)
  · exact .answer fun _ => .ok _
  · exact .answer fun _ => .ok _

/-- The failure of a check is a `system_error`. -/
theorem onlySystemError_thrown {α : Type} (e : SystemError) :
    OnlySystemError (.error (.thrown (.systemError e)) : Result α) :=
  OnlySystemError.lift (.error e)

/-- An entry of a table after an insertion is the new one or an old one. -/
theorem lookup_insert_cases {V : Type} {t : ValueMap V} {key name : Bytes} {v w : V}
    (h : (t.insert key v).lookup name = some w) : t.lookup name = some w ∨ w = v := by
  by_cases hname : name = key
  · rw [hname, AList.lookup_insert] at h
    exact Or.inr (Option.some.inj h).symm
  · rw [AList.lookup_insert_ne hname] at h
    exact Or.inl h

/-- An entry of a table after an erasure is an old one. -/
theorem lookup_of_lookup_erase {V : Type} {t : ValueMap V} {key name : Bytes} {w : V}
    (h : (t.erase key).lookup name = some w) : t.lookup name = some w := by
  by_cases hname : name = key
  · rw [hname, AList.lookup_erase] at h
    cases h
  · rwa [AList.lookup_erase_ne hname] at h

theorem step_ingress (name : Bytes) :
    Step p s i (handleIngress p s i name).1 (handleIngress p s i name).2 := by
  unfold handleIngress
  split
  · exact .listeners fun name' listener h => Or.inl (lookup_of_lookup_erase h)
  · exact .answer fun _ => .ok _
  · split
    · exact .answer fun _ => onlySystemError_thrown _
    · rename_i vo hvo
      split
      · exact .answer fun _ => onlySystemError_thrown _
      · rename_i listener hlistener
        -- the new listener holds the parsed value, which is well typed
        obtain ⟨_, -, hl⟩ := bind_eq_ok_iff.mp hlistener
        obtain ⟨v, -, hparse⟩ := bind_eq_ok_iff.mp hvo
        have hwt : vo.WellTyped := Ingress.wellTyped_of_parse hparse
        refine .listeners fun name' l h => ?_
        rcases lookup_insert_cases h with hold | rfl
        · exact Or.inl hold
        · rw [← Except.ok.inj hl]
          exact Or.inr hwt
  · exact .answer fun _ => .ok _

theorem step_egress {ename : Bytes} (htarget : Target.of i.request.target = .egress ename) :
    Step p s i (handleEgress p s i.request ename).1 (handleEgress p s i.request ename).2 := by
  unfold handleEgress
  split
  · rename_i hdelete
    split
    · rename_i f hf
      -- the default is dereferenced before anything is written
      obtain ⟨hd, rfl⟩ := egressInUse_eq_error hf
      exact .undefined ⟨ename, htarget, Or.inl hdelete⟩ hd (fun _ h => h) fun _ _ h => Or.inl h
    · exact .answer fun _ => onlySystemError_thrown _
    · rename_i hunused
      obtain ⟨d, hd, hne, hrules⟩ := egressInUse_eq_false hunused
      refine .egresses hd hne hrules (fun name hname => AList.lookup_erase_ne hname) ?_
      intro egress h
      rw [AList.lookup_erase] at h
      cases h
  · exact .answer fun _ => .ok _
  · rename_i hput
    split
    · exact .answer fun _ => onlySystemError_thrown _
    · rename_i egress hbody
      have hwt : egress.WellTyped := by
        obtain ⟨v, -, hparse⟩ := bind_eq_ok_iff.mp hbody
        exact Egress.wellTyped_of_parse hparse
      have hinsert : ∀ name egress', (s.egresses.insert ename egress).lookup name = some egress' →
          s.egresses.lookup name = some egress' ∨ egress'.WellTyped := by
        intro name egress' h
        rcases lookup_insert_cases h with hold | rfl
        · exact Or.inl hold
        · exact Or.inr hwt
      dsimp only
      split
      · rename_i f hf
        obtain ⟨hd, rfl⟩ := egressInUse_eq_error hf
        refine .undefined ⟨ename, htarget, Or.inr ⟨hput, egress, hbody⟩⟩ hd (fun name h => ?_)
          hinsert
        exact (AList.mem_insert _).mpr (Or.inr h)
      · rename_i huse
        exact .rebuild (.egress htarget hput hbody huse)
      · rename_i hunused
        obtain ⟨d, hd, hne, hrules⟩ := egressInUse_eq_false hunused
        refine .egresses hd hne hrules (fun name hname => AList.lookup_insert_ne hname) ?_
        intro egress' h
        rw [AList.lookup_insert] at h
        obtain rfl := Option.some.inj h
        exact hwt
  · exact .answer fun _ => .ok _

theorem step_rule {rname : Bytes} (htarget : Target.of i.request.target = .rule rname) :
    Step p s i (handleRule p s i.request rname).1 (handleRule p s i.request rname).2 := by
  unfold handleRule
  split
  · split
    · exact .answer fun _ => onlySystemError_thrown _
    · rename_i hunused
      exact .rules (ruleInUse_eq_false hunused) fun name hname => AList.lookup_erase_ne hname
  · exact .answer fun _ => .ok _
  · rename_i hput
    split
    · exact .answer fun _ => onlySystemError_thrown _
    · rename_i rule hbody
      dsimp only
      split
      · rename_i huse
        exact .rebuild (.rule htarget hput hbody huse)
      · rename_i hunused
        exact .rules (ruleInUse_eq_false hunused) fun name hname => AList.lookup_insert_ne hname
  · exact .answer fun _ => .ok _

theorem step_route (htarget : Target.of i.request.target = .route) :
    Step p s i (handleRoute p s i.request).1 (handleRoute p s i.request).2 := by
  unfold handleRoute
  split
  · exact .answer fun _ => onlySystemError_map (.lift _)
  · exact .answer fun _ => .ok _
  · rename_i hput
    split
    · exact .answer fun _ => onlySystemError_thrown _
    · rename_i route hbody
      split
      · exact .answer fun _ => onlySystemError_thrown _
      · rename_i hcheck
        exact .rebuild (.route htarget hput hbody hcheck)
  · exact .answer fun _ => .ok _

/-- **`handle` does nothing but what `Step` lists.** -/
theorem handle_step (p : Platform) (s : Server) (i : Arrival) :
    Step p s i (handle p s i).1 (handle p s i).2 := by
  unfold handle
  split
  · exact step_collection rfl fun hs => toJson_fault fun name listener h =>
      Ingress.toJson_fault (hs.1 name listener h)
  · exact step_ingress _
  · exact step_collection rfl fun hs => toJson_fault fun name egress h =>
      Egress.toJson_fault (hs.2 name egress h)
  · rename_i htarget
    exact step_egress htarget
  · exact step_collection rfl fun _ => toJson_fault fun _ _ _ => .ok _
  · rename_i htarget
    exact step_rule htarget
  · rename_i htarget
    exact step_route htarget
  · exact .answer fun _ => .ok _

/-! ## The invariant of every run -/

/-- The names in the route are names in the tables, and the adapters are well typed. -/
structure Consistent (s : Server) : Prop where
  known : s.route.Known s.egresses s.rules
  default : ∀ d, s.route.default = some d → d ∈ s.egresses
  wellTyped : s.WellTyped

theorem consistent_initial : Consistent initial where
  known := by simp [Route.Known, initial]
  default := by
    intro d hd
    obtain rfl := Option.some.inj hd
    exact AList.lookup_isSome.mp (by simp [initial, AList.lookup])
  wellTyped := by
    refine ⟨by simp [initial], fun name egress h => ?_⟩
    rw [← Option.mem_def, AList.mem_lookup_iff] at h
    simp only [initial, AList.singleton_entries, List.mem_singleton, Sigma.mk.injEq] at h
    obtain ⟨rfl, h⟩ := h
    rw [eq_of_heq h]
    trivial

/-- A table that keeps its entries at the names in use keeps those names. -/
theorem mem_of_lookup_eq {V : Type} {m m' : ValueMap V} {name : Bytes}
    (h : m'.lookup name = m.lookup name) (hmem : name ∈ m) : name ∈ m' := by
  rw [← AList.lookup_isSome] at hmem ⊢
  rwa [h]

/-- The tables a request writes before a rebuild are consistent. -/
theorem consistent_of_rebuilds (hs : s.Consistent) (h : Rebuilds p s i s₁) : s₁.Consistent := by
  cases h with
  | @egress ename egress htarget hput hbody huse =>
      obtain ⟨v, -, hparse⟩ := bind_eq_ok_iff.mp hbody
      refine ⟨fun item hitem => ⟨(hs.known item hitem).1, ?_⟩, fun d hd => ?_,
        hs.wellTyped.1, fun name egress' h => ?_⟩
      · exact (AList.mem_insert _).mpr (Or.inr (hs.known item hitem).2)
      · exact (AList.mem_insert _).mpr (Or.inr (hs.default d hd))
      · rcases lookup_insert_cases h with hold | rfl
        · exact hs.wellTyped.2 name egress' hold
        · exact Egress.wellTyped_of_parse hparse
  | rule htarget hput hbody huse =>
      refine ⟨fun item hitem => ⟨fun rn hrn => ?_, (hs.known item hitem).2⟩, hs.default,
        hs.wellTyped⟩
      exact (AList.mem_insert _).mpr (Or.inr ((hs.known item hitem).1 rn hrn))
  | route htarget hput hbody hcheck =>
      obtain ⟨hknown, hdefault⟩ := known_of_checkRoute hcheck
      exact ⟨hknown, hdefault, hs.wellTyped⟩

theorem lookup_mapValues {V : Type} (f : V → V) (m : ValueMap V) (name : Bytes) :
    (m.mapValues f).lookup name = (m.lookup name).map f := by
  obtain ⟨entries, hnodup⟩ := m
  show (entries.map fun e => (⟨e.1, f e.2⟩ : Sigma fun _ : Bytes => V)).dlookup name
    = (entries.dlookup name).map f
  clear hnodup
  induction entries with
  | nil => rfl
  | cons e entries ih =>
      obtain ⟨key, v⟩ := e
      rw [List.map_cons]
      by_cases hkey : name = key
      · subst hkey
        simp
      · rw [List.dlookup_cons_ne _ _ hkey, List.dlookup_cons_ne _ _ hkey]
        exact ih

/-- A rebuild keeps consistency, whether it works or not. -/
theorem consistent_finish (hs : s.Consistent) : (finish p s).2.Consistent := by
  cases h : Router.make p s.egresses s.rules s.route with
  | error f =>
      rw [finish_of_error h]
      exact hs
  | ok router =>
      rw [finish_of_ok h]
      refine ⟨hs.known, hs.default, fun name listener hl => ?_, hs.wellTyped.2⟩
      simp only [rerouted] at hl
      rw [lookup_mapValues, Option.map_eq_some_iff] at hl
      obtain ⟨listener', hl', rfl⟩ := hl
      exact hs.wellTyped.1 name listener' hl'

/-- **Every request keeps consistency.** -/
theorem consistent_handle (hs : s.Consistent) : (handle p s i).2.Consistent := by
  have hstep := handle_step p s i
  generalize (handle p s i).1 = out at hstep
  generalize (handle p s i).2 = s' at hstep
  cases hstep with
  | answer hout => exact hs
  | listeners hwt =>
      refine ⟨hs.known, hs.default, fun name listener h => ?_, hs.wellTyped.2⟩
      rcases hwt name listener h with hold | hnew
      · exact hs.wellTyped.1 name listener hold
      · exact hnew
  | @egresses d ename egresses hd hne hunused hother hwt =>
      refine ⟨fun item hitem => ⟨(hs.known item hitem).1, ?_⟩, fun d' hd' => ?_,
        hs.wellTyped.1, fun name egress h => ?_⟩
      · exact mem_of_lookup_eq (hother _ (hunused item hitem)) (hs.known item hitem).2
      · obtain rfl : d = d' := Option.some.inj (hd.symm.trans hd')
        exact mem_of_lookup_eq (hother _ hne) (hs.default d hd')
      · by_cases hname : name = ename
        · exact hwt egress (hname ▸ h)
        · exact hs.wellTyped.2 name egress (by rw [← hother name hname]; exact h)
  | rules hunused hother =>
      refine ⟨fun item hitem => ⟨fun rn hrn => ?_, (hs.known item hitem).2⟩, hs.default,
        hs.wellTyped⟩
      exact mem_of_lookup_eq (hother _ (hunused item hitem rn hrn))
        ((hs.known item hitem).1 rn hrn)
  | rebuild h => exact consistent_finish (consistent_of_rebuilds hs h)
  | undefined h hd hkeys hwt =>
      refine ⟨fun item hitem => ⟨(hs.known item hitem).1, hkeys _ (hs.known item hitem).2⟩,
        fun d hd' => ?_, hs.wellTyped.1, fun name egress h => ?_⟩
      · have hnone : (none : Option Bytes) = some d := hd.symm.trans hd'
        cases hnone
      · rcases hwt name egress h with hold | hnew
        · exact hs.wellTyped.2 name egress hold
        · exact hnew

end Server

end Pichi
