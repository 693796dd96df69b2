/-
# Addressing a resource

`Server::handle` takes the name of a resource out of the target and operates on the table of
its collection under that name.  The first part of this module says what an operation does to
the tables, for the three collections alike: it changes no entry but the one of its name.

The second part is about the targets.  A slash, a query or a fragment behind the name is
allowed by the three expressions, and is not a part of the name.  Of the expressions for
egresses and rules the group of the name takes slashes as well, and being greedy it leaves none
for the optional slash behind it.

`addresses_iff`: a target addresses the name in it if and only if it has no slash behind the
name, or is the target of an ingress.
-/
import Pichi.Reference
import Pichi.ServerSteps
import Pichi.Targets

namespace Pichi

open Target

/-! ## Entries -/

/-- A resource of one of the collections. -/
inductive Resource : Type where
  | ingress (vo : Ingress)
  | egress (vo : Egress)
  | rule (vo : Rule)

namespace Collection

/-- What the table of a collection holds under a name. -/
def entry (c : Collection) (s : Server) (name : Bytes) : Option Resource :=
  match c with
  | .ingresses => (s.listeners.lookup name).map fun listener => .ingress listener.vo
  | .egresses => (s.egresses.lookup name).map .egress
  | .rules => (s.rules.lookup name).map .rule

/-- What a `PUT` under a name stores: the value its body is parsed to.  The ingress is given
the name, and its listener has to be constructed. -/
def resource (c : Collection) (p : Platform) (acceptors : Acceptors) (name : Bytes)
    (req : Request) : Checked Resource :=
  match c with
  | .ingresses => do
    let vo ← Server.parseBody p (Ingress.parse p) req
    let _ ← vo.bind.zipIdx.mapM (openAcceptor p acceptors)
    return .ingress { vo with name := name }
  | .egresses => do return .egress (← Server.parseBody p (Egress.parse p) req)
  | .rules => do return .rule (← Server.parseBody p Rule.parse req)

/-- The branch of `handle` for a resource of the collection. -/
def handleAt (c : Collection) (p : Platform) (s : Server) (i : Arrival) (name : Bytes) :
    Result Response × Server :=
  match c with
  | .ingresses => Server.handleIngress p s i name
  | .egresses => Server.handleEgress p s i.request name
  | .rules => Server.handleRule p s i.request name

variable {c : Collection} {p : Platform} {s : Server} {i : Arrival} {name : Bytes}

theorem handle_of_member (h : Target.of i.request.target = c.member name) :
    Server.handle p s i = c.handleAt p s i name := by
  cases c with
  | ingresses =>
      rw [member] at h
      simp only [Server.handle, h, handleAt]
  | egresses =>
      rw [member] at h
      simp only [Server.handle, h, handleAt]
  | rules =>
      rw [member] at h
      simp only [Server.handle, h, handleAt]

/-! ## What an operation does to the tables -/

/-- Rebuilding the router changes no entry. -/
theorem entry_finish (c : Collection) (p : Platform) (s : Server) (name : Bytes) :
    c.entry (Server.finish p s).2 name = c.entry s name := by
  obtain ⟨hegresses, hrules, -⟩ := Server.finish_tables (p := p) (s := s)
  cases c with
  | ingresses =>
      cases h : Router.make p s.egresses s.rules s.route with
      | error f => rw [Server.finish_of_error h]
      | ok router =>
          rw [Server.finish_of_ok h]
          show ((s.listeners.mapValues (Listener.reroute router)).lookup name).map _ = _
          rw [Server.lookup_mapValues, Option.map_map]
          rfl
  | egresses =>
      show ((Server.finish p s).2.egresses.lookup name).map _ = _
      rw [hegresses]
      rfl
  | rules =>
      show ((Server.finish p s).2.rules.lookup name).map _ = _
      rw [hrules]
      rfl

section Tables

variable {name' : Bytes} {c' : Collection}

/-- A change of one table changes the entries of its collection only. -/
theorem entry_with_listeners {t : ValueMap Listener}
    (h : c' = .ingresses → t.lookup name' = s.listeners.lookup name') :
    c'.entry { s with listeners := t } name' = c'.entry s name' := by
  cases c' with
  | ingresses =>
      show (t.lookup name').map _ = (s.listeners.lookup name').map _
      rw [h rfl]
  | egresses => rfl
  | rules => rfl

theorem entry_with_egresses {t : ValueMap Egress}
    (h : c' = .egresses → t.lookup name' = s.egresses.lookup name') :
    c'.entry { s with egresses := t } name' = c'.entry s name' := by
  cases c' with
  | ingresses => rfl
  | egresses =>
      show (t.lookup name').map _ = (s.egresses.lookup name').map _
      rw [h rfl]
  | rules => rfl

theorem entry_with_rules {t : ValueMap Rule}
    (h : c' = .rules → t.lookup name' = s.rules.lookup name') :
    c'.entry { s with rules := t } name' = c'.entry s name' := by
  cases c' with
  | ingresses => rfl
  | egresses => rfl
  | rules =>
      show (t.lookup name').map _ = (s.rules.lookup name').map _
      rw [h rfl]

/-- **An operation under a name changes no other entry.** -/
theorem entry_handleAt_of_ne (p : Platform) (s : Server) (i : Arrival)
    (h : ¬(c' = c ∧ name' = name)) :
    c'.entry (c.handleAt p s i name).2 name' = c'.entry s name' := by
  have hne : c' = c → name' ≠ name := fun hc hname => h ⟨hc, hname⟩
  cases c with
  | ingresses =>
      rw [handleAt, Server.handleIngress]
      split
      · exact entry_with_listeners fun hc => AList.lookup_erase_ne (hne hc)
      · rfl
      · split
        · rfl
        · split
          · rfl
          · exact entry_with_listeners fun hc => AList.lookup_insert_ne (hne hc)
      · rfl
  | egresses =>
      rw [handleAt, Server.handleEgress]
      split
      · split
        · rfl
        · rfl
        · exact entry_with_egresses fun hc => AList.lookup_erase_ne (hne hc)
      · rfl
      · split
        · rfl
        · have hinsert : ∀ egress : Egress,
              c'.entry { s with egresses := s.egresses.insert name egress } name'
                = c'.entry s name' :=
            fun egress => entry_with_egresses fun hc => AList.lookup_insert_ne (hne hc)
          dsimp only
          split
          · exact hinsert _
          · rw [entry_finish]
            exact hinsert _
          · exact hinsert _
      · rfl
  | rules =>
      rw [handleAt, Server.handleRule]
      split
      · split
        · rfl
        · exact entry_with_rules fun hc => AList.lookup_erase_ne (hne hc)
      · rfl
      · split
        · rfl
        · have hinsert : ∀ rule : Rule,
              c'.entry { s with rules := s.rules.insert name rule } name' = c'.entry s name' :=
            fun rule => entry_with_rules fun hc => AList.lookup_insert_ne (hne hc)
          dsimp only
          split
          · rw [entry_finish]
            exact hinsert _
          · exact hinsert _
      · rfl

end Tables

/-- What is rejected changes nothing. -/
theorem handleAt_put_of_error {e : SystemError} (hput : i.request.method = .put)
    (h : c.resource p i.acceptors name i.request = .error e) :
    c.handleAt p s i name = (.error (.thrown (.systemError e)), s) := by
  cases c with
  | ingresses =>
      rw [resource] at h
      simp only [handleAt, Server.handleIngress, hput]
      cases hbody : Server.parseBody p (Ingress.parse p) i.request with
      | error e' =>
          rw [hbody] at h
          cases h
          rfl
      | ok vo =>
          rw [hbody] at h
          change (vo.bind.zipIdx.mapM (openAcceptor p i.acceptors) >>= _) = _ at h
          simp only [Listener.make]
          cases hopen : vo.bind.zipIdx.mapM (openAcceptor p i.acceptors) with
          | error e' =>
              rw [hopen] at h
              cases h
              rfl
          | ok us =>
              rw [hopen] at h
              cases h
  | egresses =>
      rw [resource] at h
      simp only [handleAt, Server.handleEgress, hput]
      cases hbody : Server.parseBody p (Egress.parse p) i.request with
      | error e' =>
          rw [hbody] at h
          cases h
          rfl
      | ok vo =>
          rw [hbody] at h
          cases h
  | rules =>
      rw [resource] at h
      simp only [handleAt, Server.handleRule, hput]
      cases hbody : Server.parseBody p Rule.parse i.request with
      | error e' =>
          rw [hbody] at h
          cases h
          rfl
      | ok vo =>
          rw [hbody] at h
          cases h

/-- What is accepted is stored under the name, whether the router can be rebuilt or not. -/
theorem entry_handleAt_put_of_ok {v : Resource} (hput : i.request.method = .put)
    (h : c.resource p i.acceptors name i.request = .ok v) :
    c.entry (c.handleAt p s i name).2 name = some v := by
  cases c with
  | ingresses =>
      obtain ⟨vo, hbody, h⟩ := bind_eq_ok_iff.mp h
      obtain ⟨us, hopen, h⟩ := bind_eq_ok_iff.mp h
      cases h
      simp only [handleAt, Server.handleIngress, hput, hbody, Listener.make, hopen]
      show ((s.listeners.insert name _).lookup name).map _ = _
      rw [AList.lookup_insert]
      rfl
  | egresses =>
      obtain ⟨vo, hbody, h⟩ := bind_eq_ok_iff.mp h
      cases h
      have hinsert : entry .egresses { s with egresses := s.egresses.insert name vo } name
          = some (.egress vo) := by
        show ((s.egresses.insert name vo).lookup name).map _ = _
        rw [AList.lookup_insert]
        rfl
      simp only [handleAt, Server.handleEgress, hput, hbody]
      split
      · exact hinsert
      · rw [entry_finish]
        exact hinsert
      · exact hinsert
  | rules =>
      obtain ⟨vo, hbody, h⟩ := bind_eq_ok_iff.mp h
      cases h
      have hinsert : entry .rules { s with rules := s.rules.insert name vo } name
          = some (.rule vo) := by
        show ((s.rules.insert name vo).lookup name).map _ = _
        rw [AList.lookup_insert]
        rfl
      simp only [handleAt, Server.handleRule, hput, hbody]
      split
      · rw [entry_finish]
        exact hinsert
      · exact hinsert

/-- What is deleted is not there any more. -/
theorem entry_handleAt_delete (hdelete : i.request.method = .delete) {r : Response}
    (h : (c.handleAt p s i name).1 = .ok r) :
    c.entry (c.handleAt p s i name).2 name = none := by
  cases c with
  | ingresses =>
      simp only [handleAt, Server.handleIngress, hdelete]
      show ((s.listeners.erase name).lookup name).map _ = _
      rw [AList.lookup_erase]
      rfl
  | egresses =>
      simp only [handleAt, Server.handleEgress, hdelete] at h ⊢
      split at h
      · cases h
      · cases h
      · show ((s.egresses.erase name).lookup name).map _ = _
        rw [AList.lookup_erase]
        rfl
  | rules =>
      simp only [handleAt, Server.handleRule, hdelete] at h ⊢
      split at h
      · cases h
      · rename_i huse
        rw [if_neg huse]
        show ((s.rules.erase name).lookup name).map _ = _
        rw [AList.lookup_erase]
        rfl

end Collection

/-! ## Targets of a resource -/

/-- The forms of the target of a resource. -/
inductive TargetForm : Type where
  | plain | slash | query | slashQuery | fragment
  deriving DecidableEq

namespace TargetForm

/-- What stands behind the name. -/
def tail : TargetForm → Bytes → Bytes
  | .plain, _ => []
  | .slash, _ => [47]
  | .query, q => 63 :: q
  | .slashQuery, q => 47 :: 63 :: q
  | .fragment, q => 35 :: q

/-- There is a slash behind the name. -/
def hasSlash : TargetForm → Bool
  | .plain => false
  | .slash => true
  | .query => false
  | .slashQuery => true
  | .fragment => false

end TargetForm

/-- `/c/n`, `/c/n/`, `/c/n?q`, `/c/n/?q` or `/c/n#q`. -/
def targetOf (c : Collection) (form : TargetForm) (n q : Bytes) : Bytes :=
  lit c.path ++ 47 :: (n ++ form.tail q)

/-- A request operates on the entry under a name: it changes no other one, a `PUT` stores what
its body stands for, and a `DELETE` that is answered removes the entry. -/
structure Operates (p : Platform) (s : Server) (i : Arrival) (c : Collection) (name : Bytes) :
    Prop where
  others : ∀ c' name', ¬(c' = c ∧ name' = name) →
    Collection.entry c' (Server.handle p s i).2 name' = Collection.entry c' s name'
  stored : i.request.method = .put → ∀ v, c.resource p i.acceptors name i.request = .ok v →
    c.entry (Server.handle p s i).2 name = some v
  removed : i.request.method = .delete → ∀ r, (Server.handle p s i).1 = .ok r →
    c.entry (Server.handle p s i).2 name = none

/-- The `PUT` and `DELETE` requests to a target operate on the entry under a name. -/
def Addresses (target : Bytes) (c : Collection) (name : Bytes) : Prop :=
  ∀ (p : Platform) (s : Server) (i : Arrival), i.request.target = target →
    i.request.method = .put ∨ i.request.method = .delete → Operates p s i c name

theorem addresses_of_member {target : Bytes} {c : Collection} {name : Bytes}
    (h : Target.of target = c.member name) : Addresses target c name := by
  intro p s i htarget _
  have hhandle : Server.handle p s i = c.handleAt p s i name :=
    Collection.handle_of_member (by rw [htarget, h])
  refine ⟨fun c' name' hne => ?_, fun hput v hv => ?_, fun hdelete r hr => ?_⟩
  · rw [hhandle]
    exact Collection.entry_handleAt_of_ne p s i hne
  · rw [hhandle]
    exact Collection.entry_handleAt_put_of_ok hput hv
  · rw [hhandle] at hr ⊢
    exact Collection.entry_handleAt_delete hdelete hr

/-- A server with one entry, which the route does not name. -/
def Example.holding (c : Collection) (name : Bytes) : Server :=
  match c with
  | .ingresses => { Server.initial with
      listeners := (∅ : ValueMap Listener).insert name
        ⟨{ type := .http }, Server.initial.router, []⟩ }
  | .egresses => { Server.initial with
      egresses := (∅ : ValueMap Egress).insert name Server.directEgress
      route := { default := some [] } }
  | .rules => { Server.initial with rules := (∅ : ValueMap Rule).insert name {} }

theorem Example.entry_holding (c : Collection) (name : Bytes) :
    (c.entry (Example.holding c name) name).isSome = true := by
  cases c with
  | ingresses =>
      show (((∅ : ValueMap Listener).insert name _).lookup name |>.map _).isSome = true
      rw [AList.lookup_insert]
      rfl
  | egresses =>
      show (((∅ : ValueMap Egress).insert name _).lookup name |>.map _).isSome = true
      rw [AList.lookup_insert]
      rfl
  | rules =>
      show (((∅ : ValueMap Rule).insert name _).lookup name |>.map _).isSome = true
      rw [AList.lookup_insert]
      rfl

theorem Example.delete_holding (c : Collection) {name : Bytes} (target : Bytes) (hne : name ≠ []) :
    ∃ r, (c.handleAt Reference.platform (Example.holding c name)
      { request := ⟨.delete, target, []⟩ } name).1 = .ok r := by
  cases c with
  | ingresses => exact ⟨_, rfl⟩
  | egresses =>
      have huse : Server.egressInUse (Example.holding .egresses name).route name = .ok false := by
        rw [Server.egressInUse_of_some (d := []) rfl]
        simp [Example.holding, hne.symm]
      refine ⟨genResp .noContent, ?_⟩
      simp only [Collection.handleAt, Server.handleEgress, huse]
  | rules => exact ⟨_, rfl⟩

/-- A target addresses one name only. -/
theorem eq_of_addresses {target : Bytes} {c : Collection} {name name' : Bytes} (hne : name ≠ [])
    (h : Target.of target = c.member name) (haddr : Addresses target c name') : name = name' := by
  by_contra hnames
  let i : Arrival := { request := ⟨.delete, target, []⟩ }
  obtain ⟨r, hr⟩ := Example.delete_holding c target hne
  have hhandle : Server.handle Reference.platform (Example.holding c name) i
      = c.handleAt Reference.platform (Example.holding c name) i name :=
    Collection.handle_of_member h
  have hnone := Collection.entry_handleAt_delete rfl hr
  -- the entry is gone, though another name is addressed
  have hothers := (haddr Reference.platform (Example.holding c name) i rfl (Or.inr rfl)).others
    c name fun hand => hnames hand.2
  rw [hhandle, hnone] at hothers
  have hsome := Example.entry_holding c name
  rw [← hothers] at hsome
  cases hsome

/-! ## What the forms address -/

theorem isTail_tail (form : TargetForm) {q : Bytes} (hq : ∀ x ∈ q, x ≠ 10 ∧ x ≠ 13) :
    IsTail (form.tail q) := by
  cases form with
  | plain => exact isTail_nil
  | slash => exact Or.inr ⟨[], rfl, Or.inl rfl⟩
  | query => exact Or.inl (Or.inr ⟨63, q, rfl, Or.inl rfl, hq⟩)
  | slashQuery => exact Or.inr ⟨63 :: q, rfl, Or.inr ⟨63, q, rfl, Or.inl rfl, hq⟩⟩
  | fragment => exact Or.inl (Or.inr ⟨35, q, rfl, Or.inr rfl, hq⟩)

section Forms

variable {n q : Bytes}

/-- A form without a slash, and any form of the target of an ingress. -/
theorem of_targetOf (c : Collection) (form : TargetForm) (hne : n ≠ [])
    (hn : ∀ x ∈ n, x ≠ 47 ∧ x ≠ 63 ∧ x ≠ 35) (hq : ∀ x ∈ q, x ≠ 10 ∧ x ≠ 13)
    (h : c = .ingresses ∨ form.hasSlash = false) :
    Target.of (targetOf c form n q) = c.member n := by
  have hslash : ∀ x ∈ n, notSlash x = true := by
    intro x hx
    simp [notSlash, hn x hx]
  apply c.of_member hne _ (isTail_tail form hq)
  · intro x hx
    rcases h with rfl | hform
    · obtain ⟨t, ht⟩ := List.head?_eq_some_iff.mp (Option.mem_def.mp hx)
      have htail := isTail_tail form hq
      rw [ht] at htail
      exact htail.head
    · have hquery : x = 63 ∨ x = 35 := by
        cases form with
        | plain => cases hx
        | slash => cases hform
        | query =>
            cases hx
            exact Or.inl rfl
        | slashQuery => cases hform
        | fragment =>
            cases hx
            exact Or.inr rfl
      cases c <;> rcases hquery with rfl | rfl <;> rfl
  · intro x hx
    cases c with
    | ingresses => exact hslash x hx
    | egresses => exact notQuery_of_notSlash (hslash x hx)
    | rules => exact notQuery_of_notSlash (hslash x hx)

/-- The others: the slash becomes a part of the name. -/
theorem of_targetOf_slash {c : Collection} (hc : c ≠ .ingresses) (form : TargetForm)
    (hform : form.hasSlash = true) (hn : ∀ x ∈ n, x ≠ 47 ∧ x ≠ 63 ∧ x ≠ 35)
    (hq : ∀ x ∈ q, x ≠ 10 ∧ x ≠ 13) :
    Target.of (targetOf c form n q) = c.member (n ++ [47]) := by
  have hcls : c.cls = notQuery := by
    cases c with
    | ingresses => exact absurd rfl hc
    | egresses => rfl
    | rules => rfl
  have hname : ∀ x ∈ n ++ [47], c.cls x = true := by
    intro x hx
    rw [hcls]
    rcases List.mem_append.mp hx with hx | hx
    · simp [notQuery, hn x hx]
    · rw [List.mem_singleton.mp hx]
      rfl
  -- what is left behind the slash
  have hrest : ∃ t, form.tail q = 47 :: t ∧ IsTail t ∧ ∀ x ∈ t.head?, c.cls x = false := by
    rw [hcls]
    cases form with
    | plain => cases hform
    | slash => exact ⟨[], rfl, isTail_nil, by simp⟩
    | query => cases hform
    | slashQuery =>
        refine ⟨63 :: q, rfl, isTail_tail .query hq, fun x hx => ?_⟩
        cases hx
        rfl
    | fragment => cases hform
  obtain ⟨t, ht, htail, hhead⟩ := hrest
  have hof := c.of_member (by simp) hname htail hhead
  rw [List.append_assoc] at hof
  rw [targetOf, ht]
  exact hof

end Forms

/-- **When a target addresses the name in it.**  For each collection, each form and every name
without a slash, a question mark and a hash: if and only if there is no slash behind the name,
or the collection is the one of the ingresses. -/
theorem addresses_iff (c : Collection) (form : TargetForm) {n q : Bytes} (hne : n ≠ [])
    (hn : ∀ x ∈ n, x ≠ 47 ∧ x ≠ 63 ∧ x ≠ 35) (hq : ∀ x ∈ q, x ≠ 10 ∧ x ≠ 13) :
    Addresses (targetOf c form n q) c n ↔ c = .ingresses ∨ form.hasSlash = false := by
  constructor
  · intro haddr
    by_contra hnot
    obtain ⟨hc, hform⟩ := not_or.mp hnot
    have hof := of_targetOf_slash hc form (Bool.eq_true_of_not_eq_false hform) hn hq
    have heq := eq_of_addresses (by simp) hof haddr
    have hlength := congrArg List.length heq
    rw [List.length_append, List.length_singleton] at hlength
    omega
  · intro h
    exact addresses_of_member (of_targetOf c form hne hn hq h)

theorem forall_mem_of_all {P : UInt8 → Prop} [DecidablePred P] {l : Bytes}
    (h : l.all (fun x => decide (P x)) = true) : ∀ x ∈ l, P x := by
  intro x hx
  exact of_decide_eq_true (List.all_eq_true.mp h x hx)

/-- An ingress with a slash behind its name, and an egress with a fragment. -/
theorem addresses_iff_example :
    Addresses (lit "/ingresses/in/?x=1") .ingresses (lit "in")
      ∧ Addresses (lit "/egresses/out#top") .egresses (lit "out") :=
  ⟨(addresses_iff .ingresses .slashQuery (n := lit "in") (q := lit "x=1") (by decide)
      (forall_mem_of_all (by decide)) (forall_mem_of_all (by decide))).mpr (Or.inl rfl),
    (addresses_iff .egresses .fragment (n := lit "out") (q := lit "top") (by decide)
      (forall_mem_of_all (by decide)) (forall_mem_of_all (by decide))).mpr (Or.inr rfl)⟩

/-- `/egresses/out/` addresses an egress `out/`, and `/rules/out/?` a rule of that name. -/
theorem addresses_counterexample :
    ¬Addresses (lit "/egresses/out/") .egresses (lit "out")
      ∧ ¬Addresses (lit "/rules/out/?") .rules (lit "out") := by
  have hegress : Target.of (lit "/egresses/out/") = Collection.member .egresses (lit "out/") :=
    of_targetOf_slash (c := .egresses) (n := lit "out") (q := []) (by decide) .slash rfl
      (forall_mem_of_all (by decide)) (by simp)
  have hrule : Target.of (lit "/rules/out/?") = Collection.member .rules (lit "out/") :=
    of_targetOf_slash (c := .rules) (n := lit "out") (q := []) (by decide) .slashQuery rfl
      (forall_mem_of_all (by decide)) (by simp)
  constructor
  · intro haddr
    exact absurd (eq_of_addresses (by decide) hegress haddr) (by decide)
  · intro haddr
    exact absurd (eq_of_addresses (by decide) hrule haddr) (by decide)

end Pichi
