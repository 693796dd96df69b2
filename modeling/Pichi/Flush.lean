/-
# Flushing the server

`HttpClient::flush` of `server/run.cpp`: before a configuration is loaded again, the program
resets its own server through the API.  It puts the egress `direct` and the empty route, and
then deletes every rule, every other egress and every ingress that the server lists, each
addressed by the name under which it is listed.

Deleting is refused while a resource is in use, and a name has to find its way from the target
it was put under to the table, into the list, and through another target back to the table.

**Main result** (`flush_resets`): from every state of a run in which all requests were answered
and all routes had a default, flushing succeeds and leaves the state of the constructor.
-/
import Pichi.ServerRuns
import Pichi.Targets
import Pichi.Transfer
import Pichi.VoRoundTrip

namespace Pichi

namespace Server

open Transfer (bind_of_ok)

/-! ## The client -/

/-- The client of `server/run.cpp`, talking to the server of the same process. -/
abbrev Client (α : Type) := ExceptT Fault (StateM Server) α

variable (p : Platform)

/-- A request, and the response to it.  What is neither a response nor a `system_error` ends
the process. -/
def exchange (req : Request) : Client Response := fun s =>
  let out := handle p s { request := req }
  (reply p out.1, out.2)

/-- `assertTrue`. -/
def assertStatus (resp : Response) (status : Status) : Client Unit := fun s =>
  ((Checked.assertTrue (resp.status = status) .misc "").lift, s)

/-- `put`. -/
def putRequest (target body : Bytes) : Client Status := do
  return (← exchange p ⟨.put, target, body⟩).status

/-- `get`; the text of the body is parsed to the value it was written from. -/
def getRequest (target : Bytes) : Client Json := do
  let resp ← exchange p ⟨.get, target, []⟩
  assertStatus resp .ok
  return resp.body.getD .null

/-- `del`. -/
def delRequest (target : Bytes) : Client Unit := do
  let resp ← exchange p ⟨.delete, target, []⟩
  assertStatus resp .noContent

/-- `member.name.GetString()` for the members of an object. -/
def memberNames : Json → List Bytes
  | .obj members => members.map fun member => cString member.1
  | _ => []

/-- Delete one after another. -/
def delAll (path : Bytes) : List Bytes → Client Unit
  | [] => return ()
  | name :: names => do
    delRequest p (path ++ name)
    delAll path names

def directBody : Bytes := lit "\x7b\"type\":\"direct\"\x7d"

def emptyRouteBody : Bytes := lit "\x7b\"default\":\"direct\",\"rules\":[]\x7d"

/-- `HttpClient::flush`. -/
def flush : Client Unit := do
  let _ ← putRequest p (lit "/egresses/direct") directBody
  let _ ← putRequest p (lit "/route") emptyRouteBody
  delAll p (lit "/rules/") (memberNames (← getRequest p (lit "/rules")))
  delAll p (lit "/egresses/")
    ((memberNames (← getRequest p (lit "/egresses"))).filter fun e => e ≠ lit "direct")
  delAll p (lit "/ingresses/") (memberNames (← getRequest p (lit "/ingresses")))

/-! ## What is stored -/

/-- A name that survives the way through a list and a target. -/
structure Listed (cls : UInt8 → Bool) (name : Bytes) : Prop where
  ne_nil : name ≠ []
  cls : ∀ x ∈ name, cls x = true
  no_nul : 0 ∉ name

/-- What the tables hold was put under a name of its kind, and parsed. -/
structure Stored (s : Server) : Prop where
  listeners : ∀ name listener, s.listeners.lookup name = some listener →
    Listed Target.notSlash name
      ∧ ∃ v vo, Ingress.parse p v = .ok vo ∧ listener.vo = { vo with name := name }
  egresses : ∀ name egress, s.egresses.lookup name = some egress →
    Listed Target.notQuery name ∧ ∃ v, Egress.parse p v = .ok egress
  rules : ∀ name rule, s.rules.lookup name = some rule → Listed Target.notQuery name

variable {p} {s : Server} {i : Arrival}

theorem listed_of_names {cls : UInt8 → Bool} {target name : Bytes}
    (h : Target.Names cls target name) (hnul : 0 ∉ target) : Listed cls name :=
  ⟨h.ne_nil, h.cls, fun hx => hnul (h.mem 0 hx)⟩

theorem listed_default : Listed Target.notQuery defaultEgressName :=
  ⟨by decide, List.all_eq_true.1 rfl, by decide⟩

theorem stored_initial : Stored p initial where
  listeners := by simp [initial]
  egresses := by
    intro name egress h
    rw [← Option.mem_def, AList.mem_lookup_iff] at h
    simp only [initial, AList.singleton_entries, List.mem_singleton, Sigma.mk.injEq] at h
    obtain ⟨rfl, h⟩ := h
    rw [eq_of_heq h]
    exact ⟨listed_default, .obj [field "type" (nameToJson "direct")], rfl⟩
  rules := by simp [initial]

/-- Rebuilding the router touches no entry. -/
theorem stored_finish (hs : Stored p s) : Stored p (finish p s).2 := by
  cases h : Router.make p s.egresses s.rules s.route with
  | error f =>
      rw [finish_of_error h]
      exact hs
  | ok router =>
      rw [finish_of_ok h]
      refine ⟨fun name listener hl => ?_, hs.egresses, hs.rules⟩
      simp only [rerouted] at hl
      rw [lookup_mapValues, Option.map_eq_some_iff] at hl
      obtain ⟨listener', hl', rfl⟩ := hl
      exact hs.listeners name listener' hl'

/-- A new listener is listed under the name it was put under. -/
theorem stored_ingress (hs : Stored p s) {name : Bytes} (hname : Listed Target.notSlash name) :
    Stored p (handleIngress p s i name).2 := by
  unfold handleIngress
  split
  · exact ⟨fun n l h => hs.listeners n l (lookup_of_lookup_erase h), hs.egresses, hs.rules⟩
  · exact hs
  · split
    · exact hs
    · rename_i vo hvo
      split
      · exact hs
      · rename_i listener hlistener
        obtain ⟨_, -, hl⟩ := bind_eq_ok_iff.mp hlistener
        obtain ⟨v, -, hparse⟩ := bind_eq_ok_iff.mp hvo
        refine ⟨fun n l h => ?_, hs.egresses, hs.rules⟩
        by_cases hn : n = name
        · subst hn
          rw [AList.lookup_insert] at h
          obtain rfl := Option.some.inj h
          refine ⟨hname, v, vo, hparse, ?_⟩
          rw [← Except.ok.inj hl]
        · rw [AList.lookup_insert_ne hn] at h
          exact hs.listeners n l h
  · exact hs

/-- A new egress is listed under the name it was put under, whether the router can be rebuilt
or not. -/
theorem stored_egress (hs : Stored p s) {ename : Bytes} (hname : Listed Target.notQuery ename) :
    Stored p (handleEgress p s i.request ename).2 := by
  unfold handleEgress
  split
  · split
    · exact hs
    · exact hs
    · exact ⟨hs.listeners, fun n e h => hs.egresses n e (lookup_of_lookup_erase h), hs.rules⟩
  · exact hs
  · split
    · exact hs
    · rename_i egress hbody
      obtain ⟨v, -, hparse⟩ := bind_eq_ok_iff.mp hbody
      have hinsert : Stored p { s with egresses := s.egresses.insert ename egress } := by
        refine ⟨hs.listeners, fun n e h => ?_, hs.rules⟩
        by_cases hn : n = ename
        · subst hn
          rw [AList.lookup_insert] at h
          obtain rfl := Option.some.inj h
          exact ⟨hname, v, hparse⟩
        · rw [AList.lookup_insert_ne hn] at h
          exact hs.egresses n e h
      dsimp only
      split
      · exact hinsert
      · exact stored_finish hinsert
      · exact hinsert
  · exact hs

/-- A new rule is listed under the name it was put under. -/
theorem stored_rule (hs : Stored p s) {rname : Bytes} (hname : Listed Target.notQuery rname) :
    Stored p (handleRule p s i.request rname).2 := by
  unfold handleRule
  split
  · split
    · exact hs
    · exact ⟨hs.listeners, hs.egresses, fun n r h => hs.rules n r (lookup_of_lookup_erase h)⟩
  · exact hs
  · split
    · exact hs
    · rename_i rule hbody
      have hinsert : Stored p { s with rules := s.rules.insert rname rule } := by
        refine ⟨hs.listeners, hs.egresses, fun n r h => ?_⟩
        by_cases hn : n = rname
        · subst hn
          exact hname
        · rw [AList.lookup_insert_ne hn] at h
          exact hs.rules n r h
      dsimp only
      split
      · exact stored_finish hinsert
      · exact hinsert
  · exact hs

theorem stored_route (hs : Stored p s) : Stored p (handleRoute p s i.request).2 := by
  unfold handleRoute
  split
  · exact hs
  · exact hs
  · split
    · exact hs
    · split
      · exact hs
      · exact stored_finish ⟨hs.listeners, hs.egresses, hs.rules⟩
  · exact hs

/-- **Every request keeps what is stored in order.** -/
theorem stored_handle (hs : Stored p s) (hnul : 0 ∉ i.request.target) :
    Stored p (handle p s i).2 := by
  obtain ⟨hingress, hegress, hrule⟩ := Target.names_of_of i.request.target
  have hcollection : ∀ body, Stored p (handleCollection s i.request body).2 := by
    intro body
    unfold handleCollection
    split <;> exact hs
  unfold handle
  split
  · exact hcollection _
  · rename_i name htarget
    exact stored_ingress hs (listed_of_names (hingress name htarget) hnul)
  · exact hcollection _
  · rename_i ename htarget
    exact stored_egress hs (listed_of_names (hegress ename htarget) hnul)
  · exact hcollection _
  · rename_i rname htarget
    exact stored_rule hs (listed_of_names (hrule rname htarget) hnul)
  · exact stored_route hs
  · exact hs

/-- What holds as long as requests are answered. -/
structure Flushable (p : Platform) (s : Server) : Prop where
  consistent : s.Consistent
  fresh : Fresh p s
  default : s.route.default.isSome = true
  stored : Stored p s

theorem flushable_initial : Flushable p initial :=
  ⟨consistent_initial, rfl, rfl, stored_initial⟩

theorem flushable_handle (hs : Flushable p s) (h : Answered p s i)
    (hnul : 0 ∉ i.request.target) : Flushable p (handle p s i).2 := by
  refine ⟨consistent_handle hs.consistent, fresh_handle hs.fresh h, ?_,
    stored_handle hs.stored hnul⟩
  apply default_handle hs.default
  rintro ⟨route, htarget, hput, hbody, hnone, -⟩
  have hsome := h.2 htarget hput route hbody
  rw [hnone] at hsome
  cases hsome

/-! ## Tables that are emptied -/

theorem exists_lookup_of_mem_keys {V : Type} {t : ValueMap V} {n : Bytes} (h : n ∈ t.keys) :
    ∃ v, t.lookup n = some v :=
  Option.isSome_iff_exists.mp (AList.lookup_isSome.mpr (AList.mem_keys.mpr h))

/-- Erase some names. -/
def eraseAll {V : Type} (t : ValueMap V) (names : List Bytes) : ValueMap V :=
  names.foldl (fun t name => t.erase name) t

theorem lookup_eraseAll {V : Type} (names : List Bytes) :
    ∀ (t : ValueMap V) (n : Bytes), (eraseAll t names).lookup n
      = if n ∈ names then none else t.lookup n := by
  induction names with
  | nil =>
      intro t n
      rfl
  | cons name names ih =>
      intro t n
      rw [show eraseAll t (name :: names) = eraseAll (t.erase name) names from rfl, ih]
      by_cases hn : n ∈ names
      · simp [hn]
      · by_cases hname : n = name
        · rw [hname, AList.lookup_erase]
          simp
        · rw [AList.lookup_erase_ne hname]
          simp [hn, hname]

/-- Erasing all names empties a table. -/
theorem eraseAll_keys {V : Type} (t : ValueMap V) : eraseAll t t.keys = ∅ := by
  have hnone : ∀ n, n ∉ eraseAll t t.keys := by
    intro n
    rw [← AList.lookup_eq_none, lookup_eraseAll]
    split
    · rfl
    · rename_i hn
      exact AList.lookup_eq_none.mpr hn
  apply AList.ext
  cases hentries : (eraseAll t t.keys).entries with
  | nil => rfl
  | cons e entries =>
      have hmem : e.1 ∈ (eraseAll t t.keys).entries.keys := by
        rw [hentries]
        exact List.mem_cons_self
      exact absurd (AList.mem_keys.mpr hmem) (hnone e.1)

/-- Erasing all names but one leaves the entry of that one. -/
theorem eraseAll_others {V : Type} {t : ValueMap V} {key : Bytes} {v : V}
    (h : t.lookup key = some v) :
    eraseAll t (t.keys.filter fun n => n ≠ key) = AList.singleton key v := by
  have hlookup : ∀ n, (eraseAll t (t.keys.filter fun n => n ≠ key)).lookup n
      = (AList.singleton key v : ValueMap V).lookup n := by
    intro n
    rw [lookup_eraseAll]
    by_cases hn : n = key
    · subst hn
      rw [if_neg (by simp), h]
      simp [AList.lookup]
    · have hsingle : (AList.singleton key v : ValueMap V).lookup n = none := by
        rw [AList.lookup_eq_none, AList.mem_keys]
        simpa [AList.keys] using hn
      rw [hsingle]
      split
      · rfl
      · rename_i hmem
        rw [AList.lookup_eq_none, AList.mem_keys]
        simpa [hn] using hmem
  apply AList.ext
  have hperm := List.lookup_ext (AList.nodupKeys _) (AList.singleton key v : ValueMap V).nodupKeys
    (fun n w => by
      show w ∈ (eraseAll t (t.keys.filter fun n => n ≠ key)).lookup n
        ↔ w ∈ (AList.singleton key v : ValueMap V).lookup n
      rw [hlookup])
  exact List.perm_singleton.mp hperm

/-! ## One request of the client -/

theorem exchange_of_ok {req : Request} {resp : Response} {s' : Server}
    (h : handle p s { request := req } = (.ok resp, s')) :
    exchange p req s = (.ok resp, s') := by
  rw [exchange, h]
  rfl

theorem putRequest_of_ok {target body : Bytes} {resp : Response} {s' : Server}
    (h : handle p s { request := ⟨.put, target, body⟩ } = (.ok resp, s')) :
    putRequest p target body s = (.ok resp.status, s') := by
  rw [putRequest, bind_of_ok (exchange_of_ok h)]
  rfl

theorem getRequest_of_ok {target : Bytes} {j : Json} {s' : Server}
    (h : handle p s { request := ⟨.get, target, []⟩ } = (.ok (genBody .ok j), s')) :
    getRequest p target s = (.ok j, s') := by
  rw [getRequest, bind_of_ok (exchange_of_ok h)]
  rfl

theorem delRequest_of_ok {target : Bytes} {s' : Server}
    (h : handle p s { request := ⟨.delete, target, []⟩ } = (.ok (genResp .noContent), s')) :
    delRequest p target s = (.ok (), s') := by
  rw [delRequest, bind_of_ok (exchange_of_ok h)]
  rfl

/-! ## Deleting -/

/-- Rules are deleted while the route uses none. -/
theorem delAll_rules (names : List Bytes) :
    ∀ s : Server, s.route.rules = [] → (∀ n ∈ names, Listed Target.notQuery n) →
      delAll p (lit "/rules/") names s = (.ok (), { s with rules := eraseAll s.rules names }) := by
  induction names with
  | nil =>
      intro s _ _
      rfl
  | cons name names ih =>
      intro s hroute hnames
      have hname := hnames name (by simp)
      have huse : ruleInUse s.route name = false := by simp [ruleInUse, hroute]
      have hdel : handle p s { request := ⟨.delete, lit "/rules/" ++ name, []⟩ }
          = (.ok (genResp .noContent), { s with rules := s.rules.erase name }) := by
        simp [handle, Target.of_rule hname.ne_nil hname.cls, handleRule, huse]
      rw [delAll, bind_of_ok (delRequest_of_ok hdel),
        ih { s with rules := s.rules.erase name } hroute fun n hn => hnames n (by simp [hn])]
      rfl

/-- Egresses other than the default are deleted while the route has no rules. -/
theorem delAll_egresses (names : List Bytes) :
    ∀ s : Server, s.route = initial.route →
      (∀ n ∈ names, Listed Target.notQuery n ∧ n ≠ defaultEgressName) →
      delAll p (lit "/egresses/") names s
        = (.ok (), { s with egresses := eraseAll s.egresses names }) := by
  induction names with
  | nil =>
      intro s _ _
      rfl
  | cons name names ih =>
      intro s hroute hnames
      obtain ⟨hname, hne⟩ := hnames name (by simp)
      have huse : egressInUse s.route name = .ok false := by
        rw [hroute]
        simp [egressInUse, initial, deref, hne.symm, bind, Except.bind, pure, Except.pure]
      have hdel : handle p s { request := ⟨.delete, lit "/egresses/" ++ name, []⟩ }
          = (.ok (genResp .noContent), { s with egresses := s.egresses.erase name }) := by
        simp [handle, Target.of_egress hname.ne_nil hname.cls, handleEgress, huse]
      rw [delAll, bind_of_ok (delRequest_of_ok hdel),
        ih { s with egresses := s.egresses.erase name } hroute fun n hn => hnames n (by simp [hn])]
      rfl

/-- Ingresses are deleted. -/
theorem delAll_ingresses (names : List Bytes) :
    ∀ s : Server, (∀ n ∈ names, Listed Target.notSlash n) →
      delAll p (lit "/ingresses/") names s
        = (.ok (), { s with listeners := eraseAll s.listeners names }) := by
  induction names with
  | nil =>
      intro s _
      rfl
  | cons name names ih =>
      intro s hnames
      have hname := hnames name (by simp)
      have hdel : handle p s { request := ⟨.delete, lit "/ingresses/" ++ name, []⟩ }
          = (.ok (genResp .noContent), { s with listeners := s.listeners.erase name }) := by
        simp [handle, Target.of_ingress hname.ne_nil hname.cls, handleIngress]
      rw [delAll, bind_of_ok (delRequest_of_ok hdel),
        ih _ fun n hn => hnames n (by simp [hn])]
      rfl

/-! ## Listing -/

/-- One member of a listed table. -/
def member {V : Type} (itemToJson : V → Result Json) (e : Sigma fun _ : Bytes => V) :
    Result (Bytes × Json) := do
  (Checked.assertFalse e.1.isEmpty .misc "").lift
  return (e.1, ← itemToJson e.2)

theorem member_eq_ok_iff {V : Type} {itemToJson : V → Result Json} {e : Sigma fun _ : Bytes => V}
    {m : Bytes × Json} :
    member itemToJson e = .ok m ↔ e.1 ≠ [] ∧ m.1 = e.1 ∧ itemToJson e.2 = .ok m.2 := by
  simp only [member, bind_eq_ok_iff, Checked.lift_eq_ok_iff, Checked.assertFalse_eq_ok_iff,
    List.isEmpty_eq_false_iff, pure, Except.pure, Except.ok.injEq]
  constructor
  · rintro ⟨-, hne, j, hj, rfl⟩
    exact ⟨hne, rfl, hj⟩
  · rintro ⟨hne, hname, hj⟩
    exact ⟨(), hne, m.2, hj, Prod.ext hname.symm rfl⟩

/-- Members that are named as entries without a NUL list the names of the entries. -/
theorem map_cString_eq_keys {V : Type} {entries : List (Sigma fun _ : Bytes => V)}
    {members : List (Bytes × Json)} (h : List.Forall₂ (fun e m => m.1 = e.1) entries members)
    (hnul : ∀ e ∈ entries, 0 ∉ e.1) : members.map (fun m => cString m.1) = entries.keys := by
  induction h with
  | nil => rfl
  | @cons e m entries members hm _ ih =>
      rw [List.map_cons, List.keys_cons, ih fun e' he' => hnul e' (by simp [he']), hm,
        cString_eq_self_iff.mpr (hnul e (by simp))]

/-- A table whose names are listed and whose entries can be written is listed under its
names. -/
theorem exists_toJson {V : Type} {cls : UInt8 → Bool} (t : ValueMap V)
    (itemToJson : V → Result Json)
    (h : ∀ name v, t.lookup name = some v → Listed cls name ∧ ∃ j, itemToJson v = .ok j) :
    ∃ j, toJson t itemToJson = .ok j ∧ memberNames j = t.keys := by
  have hentry : ∀ e ∈ t.entries, Listed cls e.1 ∧ ∃ j, itemToJson e.2 = .ok j := by
    intro e he
    exact h e.1 e.2 (AList.mem_lookup_iff.mpr he)
  have hmember : ∀ e ∈ t.entries, ∃ m, member itemToJson e = .ok m := by
    intro e he
    obtain ⟨hlisted, j, hj⟩ := hentry e he
    exact ⟨(e.1, j), member_eq_ok_iff.mpr ⟨hlisted.ne_nil, rfl, hj⟩⟩
  obtain ⟨members, hmembers⟩ := exists_mapM_eq_ok hmember
  refine ⟨.obj members, bind_eq_ok_iff.mpr ⟨members, hmembers, rfl⟩, ?_⟩
  apply map_cString_eq_keys
  · exact (mapM_eq_ok_iff.mp hmembers).imp fun e m hm => (member_eq_ok_iff.mp hm).2.1
  · exact fun e he => (hentry e he).1.no_nul

/-- The three collections are listed under the names of their tables. -/
theorem getRequest_rules (hs : Stored p s) :
    ∃ j, getRequest p (lit "/rules") s = (.ok j, s) ∧ memberNames j = s.rules.keys := by
  obtain ⟨j, hj, hnames⟩ := exists_toJson s.rules (fun rule => .ok rule.toJson)
    fun name rule h => ⟨hs.rules name rule h, _, rfl⟩
  refine ⟨j, getRequest_of_ok ?_, hnames⟩
  have htarget : Target.of (lit "/rules") = .rules := by decide +kernel
  simp [handle, htarget, handleCollection, hj, Except.map]

theorem getRequest_egresses (hs : Stored p s) :
    ∃ j, getRequest p (lit "/egresses") s = (.ok j, s) ∧ memberNames j = s.egresses.keys := by
  have hentries : ∀ name egress, s.egresses.lookup name = some egress →
      Listed Target.notQuery name ∧ ∃ j, egress.toJson = .ok j := by
    intro name egress h
    obtain ⟨hlisted, v, hparse⟩ := hs.egresses name egress h
    obtain ⟨j, hj, -⟩ := Egress.reread hparse
    exact ⟨hlisted, j, hj⟩
  obtain ⟨j, hj, hnames⟩ := exists_toJson s.egresses Egress.toJson hentries
  refine ⟨j, getRequest_of_ok ?_, hnames⟩
  have htarget : Target.of (lit "/egresses") = .egresses := by decide +kernel
  simp [handle, htarget, handleCollection, hj, Except.map]

theorem getRequest_ingresses (hs : Stored p s) :
    ∃ j, getRequest p (lit "/ingresses") s = (.ok j, s) ∧ memberNames j = s.listeners.keys := by
  have hentries : ∀ name listener, s.listeners.lookup name = some listener →
      Listed Target.notSlash name ∧ ∃ j, listener.vo.toJson = .ok j := by
    intro name listener h
    obtain ⟨hlisted, v, vo, hparse, hvo⟩ := hs.listeners name listener h
    -- the name is not a part of what is written
    have hsame : listener.vo.Same vo := by
      rw [hvo]
      obtain ⟨htype, hbind, hcred, hopt, htls, hwebsocket⟩ := Ingress.Same.refl vo
      exact ⟨htype, hbind, hcred, hopt, htls, hwebsocket⟩
    obtain ⟨j, -, hj, -⟩ := Ingress.reread hparse hsame
    exact ⟨hlisted, j, hj⟩
  obtain ⟨j, hj, hnames⟩ := exists_toJson s.listeners (fun l => l.vo.toJson) hentries
  refine ⟨j, getRequest_of_ok ?_, hnames⟩
  have htarget : Target.of (lit "/ingresses") = .ingresses := by decide +kernel
  simp [handle, htarget, handleCollection, hj, Except.map]

/-! ## Flushing -/

/-- What flushing relies on in RapidJSON: the two bodies it sends are parsed as they read. -/
structure FlushText (p : Platform) : Prop where
  direct : p.parseDocument directBody = some (.obj [field "type" (nameToJson "direct")])
  route : p.parseDocument emptyRouteBody
    = some (.obj [field "default" (nameToJson "direct"), field "rules" (.arr [])])

/-- The first request puts the egress `direct`, and is answered: if the egress is in use, the
route it is used by can be built as before. -/
theorem handle_putDirect (hp : FlushText p) (hs : Flushable p s) :
    ∃ s', handle p s { request := ⟨.put, lit "/egresses/direct", directBody⟩ }
        = (.ok (genResp .noContent), s')
      ∧ s'.egresses.lookup defaultEgressName = some directEgress := by
  have htarget : Target.of (lit "/egresses/direct") = .egress defaultEgressName := by
    decide +kernel
  have hbody : parseBody p (Egress.parse p) ⟨.put, lit "/egresses/direct", directBody⟩
      = .ok directEgress := by
    simp only [parseBody, Platform.document, hp.direct]
    rfl
  obtain ⟨d, hd⟩ := Option.isSome_iff_exists.mp hs.default
  cases huse : egressInUse s.route defaultEgressName with
  | error f =>
      rw [egressInUse_of_some hd] at huse
      cases huse
  | ok b =>
      cases b with
      | false =>
          refine ⟨{ s with egresses := s.egresses.insert defaultEgressName directEgress }, ?_,
            AList.lookup_insert _⟩
          simp only [handle, htarget, handleEgress, hbody, huse]
      | true =>
          have hrebuilds : Rebuilds p s
              { request := ⟨.put, lit "/egresses/direct", directBody⟩ }
              { s with egresses := s.egresses.insert defaultEgressName directEgress } :=
            .egress htarget rfl hbody huse
          have hconsistent := consistent_of_rebuilds hs.consistent hrebuilds
          have hbuilds : s.route.Builds p s.rules := by
            rcases Router.make_cases hs.consistent.known hs.consistent.default with
              ⟨hb, -⟩ | ⟨hb, -⟩ | ⟨-, hmake⟩ | ⟨-, -, hmake⟩
            · exact hb
            · exact hb
            · exact absurd (hs.fresh.symm.trans hmake) (by simp)
            · exact absurd (hs.fresh.symm.trans hmake) (by simp)
          obtain ⟨router, hmake⟩ : ∃ router, Router.make p
              (s.egresses.insert defaultEgressName directEgress) s.rules s.route = .ok router := by
            rcases Router.make_cases (p := p) hconsistent.known hconsistent.default with
              ⟨-, -, hrouter⟩ | ⟨-, hnone, -⟩ | ⟨hfirst, -⟩ | ⟨hnot, -⟩
            · exact hrouter
            · exact absurd (hd.symm.trans hnone) (by simp)
            · exact absurd hbuilds hfirst.not_builds
            · exact absurd hbuilds hnot
          have hhandle := handle_of_rebuilds hrebuilds
          rw [finish_of_ok hmake] at hhandle
          exact ⟨_, hhandle, AList.lookup_insert _⟩

/-- The second request puts the empty route, and leaves the router of the constructor. -/
theorem handle_putRoute (hp : FlushText p)
    (hs : s.egresses.lookup defaultEgressName = some directEgress) :
    ∃ s', handle p s { request := ⟨.put, lit "/route", emptyRouteBody⟩ }
        = (.ok (genResp .noContent), s')
      ∧ s'.egresses = s.egresses ∧ s'.route = initial.route ∧ s'.router = initial.router := by
  have htarget : Target.of (lit "/route") = .route := by decide +kernel
  have hbody : parseBody p Route.parse ⟨.put, lit "/route", emptyRouteBody⟩
      = .ok initial.route := by
    simp only [parseBody, Platform.document, hp.route]
    rfl
  have hcheck : checkRoute s initial.route = .ok () := by
    apply checkRoute_eq_ok_iff.mpr
    refine ⟨by simp [Route.Known, initial], fun d hd => ?_⟩
    obtain rfl := Option.some.inj hd
    exact AList.lookup_isSome.mp (by rw [hs]; rfl)
  have hmake : Router.make p s.egresses s.rules initial.route = .ok initial.router := by
    have hat : s.egresses.at defaultEgressName = .ok directEgress := by
      rw [ValueMap.at, hs]
    apply bind_eq_ok_iff.mpr
    refine ⟨[], rfl, bind_eq_ok_iff.mpr ⟨defaultEgressName, rfl, ?_⟩⟩
    rw [hat]
    rfl
  have hrebuilds : Rebuilds p s { request := ⟨.put, lit "/route", emptyRouteBody⟩ }
      { s with route := initial.route } := .route htarget rfl hbody hcheck
  have hhandle := handle_of_rebuilds hrebuilds
  rw [finish_of_ok hmake] at hhandle
  exact ⟨_, hhandle, rfl, rfl, rfl⟩

/-- **Flushing from a state in order.** -/
theorem flush_of_flushable (hp : FlushText p) (hs : Flushable p s) :
    flush p s = (.ok (), initial) := by
  obtain ⟨s₁, h₁, hdirect⟩ := handle_putDirect hp hs
  have hstored₁ : Stored p s₁ := by
    have h := stored_handle (i := { request := ⟨.put, lit "/egresses/direct", directBody⟩ })
      hs.stored (by decide)
    rwa [h₁] at h
  obtain ⟨s₂, h₂, hegresses, hroute, hrouter⟩ := handle_putRoute hp hdirect
  have hstored₂ : Stored p s₂ := by
    have h := stored_handle (i := { request := ⟨.put, lit "/route", emptyRouteBody⟩ })
      hstored₁ (by decide)
    rwa [h₂] at h
  -- the rules, which the route no longer uses
  obtain ⟨rules, hrules, hrnames⟩ := getRequest_rules hstored₂
  have hdelRules : delAll p (lit "/rules/") s₂.rules.keys s₂
      = (.ok (), { s₂ with rules := ∅ }) := by
    rw [delAll_rules _ s₂ (by rw [hroute]; rfl), eraseAll_keys]
    intro n hn
    obtain ⟨rule, hrule⟩ := exists_lookup_of_mem_keys hn
    exact hstored₂.rules n rule hrule
  have hstored₃ : Stored p { s₂ with rules := ∅ } :=
    ⟨hstored₂.listeners, hstored₂.egresses, by simp⟩
  -- the egresses, of which the route only uses `direct`
  obtain ⟨egresses, hgetEgresses, henames⟩ := getRequest_egresses hstored₃
  have hdelEgresses : delAll p (lit "/egresses/")
      (s₂.egresses.keys.filter fun e => e ≠ lit "direct") { s₂ with rules := ∅ }
        = (.ok (), { s₂ with rules := ∅, egresses := initial.egresses }) := by
    rw [delAll_egresses _ { s₂ with rules := ∅ } hroute]
    · rw [show initial.egresses = eraseAll s₂.egresses (s₂.egresses.keys.filter fun e =>
        e ≠ lit "direct") from (eraseAll_others (hegresses ▸ hdirect)).symm]
    · intro n hn
      rw [List.mem_filter, decide_eq_true_eq] at hn
      obtain ⟨egress, hegress⟩ := exists_lookup_of_mem_keys hn.1
      exact ⟨(hstored₂.egresses n egress hegress).1, hn.2⟩
  have hstored₄ : Stored p { s₂ with rules := ∅, egresses := initial.egresses } :=
    ⟨hstored₂.listeners, stored_initial.egresses, by simp⟩
  -- the ingresses, which nothing uses
  obtain ⟨ingresses, hgetIngresses, hinames⟩ := getRequest_ingresses hstored₄
  have hdelIngresses : delAll p (lit "/ingresses/") s₂.listeners.keys
      { s₂ with rules := ∅, egresses := initial.egresses } = (.ok (), initial) := by
    rw [delAll_ingresses, eraseAll_keys, hroute, hrouter]
    · rfl
    · intro n hn
      obtain ⟨listener, hlistener⟩ := exists_lookup_of_mem_keys hn
      exact (hstored₂.listeners n listener hlistener).1
  rw [flush, bind_of_ok (putRequest_of_ok h₁), bind_of_ok (putRequest_of_ok h₂),
    bind_of_ok hrules, hrnames, bind_of_ok hdelRules, bind_of_ok hgetEgresses, henames,
    bind_of_ok hdelEgresses, bind_of_ok hgetIngresses, hinames, hdelIngresses]

/-- **Flushing resets the server.**  In every state of a run in which every request was
answered and every route had a default, the requests of `flush` are all answered, each `DELETE`
with 204, and leave the state of the constructor.  Targets have no NUL, which Beast does not
admit in a request. -/
theorem flush_resets (hp : FlushText p) (is : List Arrival)
    (h : ∀ e ∈ log p is, Answered p e.before e.input)
    (hnul : ∀ e ∈ log p is, 0 ∉ e.input.request.target) :
    ∀ s ∈ states p is, flush p s = (.ok (), initial) ∧ make p = .ok initial := by
  have hrun : ∀ s ∈ states p is, Flushable p s := by
    rw [states, List.forall_mem_cons, List.forall_mem_map]
    refine ⟨flushable_initial, fun e he => ?_⟩
    exact (EventLog.events_invariant (Flushable p)
      (fun s i => Answered p s i ∧ 0 ∉ i.request.target)
      (fun _ _ hs hi => flushable_handle hs hi.1 hi.2) flushable_initial
      (fun e he => ⟨h e he, hnul e he⟩) e he).2
  intro s hs
  exact ⟨flush_of_flushable hp (hrun s hs), make_eq p⟩

/-- Requests that leave a listener, an egress and a rule whose names end in a slash, and a route
that uses both. -/
def Example.filled : List Arrival :=
  [put "/ingresses/in/" ("\x7b\"type\":\"transparent\",\"bind\":[\x7b\"host\":\"127.0.0.1\","
      ++ "\"port\":1080\x7d]\x7d"),
    put "/egresses/out/" "\x7b\"type\":\"direct\"\x7d",
    put "/rules/r/?x" "\x7b\"domain\":[\"example.com\"]\x7d",
    put "/route" "\x7b\"default\":\"out/\",\"rules\":[[\"r/\",\"direct\"]]\x7d"]

/-- The reference platform parses both bodies. -/
theorem flushText_reference : FlushText Reference.platform := by
  -- the bytes written out, so that the parser runs on a list and not on a string
  have hdirect : directBody
      = [123, 34, 116, 121, 112, 101, 34, 58, 34, 100, 105, 114, 101, 99, 116, 34, 125] := by
    decide +kernel
  have hroute : emptyRouteBody
      = [123, 34, 100, 101, 102, 97, 117, 108, 116, 34, 58, 34, 100, 105, 114, 101, 99, 116, 34,
        44, 34, 114, 117, 108, 101, 115, 34, 58, 91, 93, 125] := by
    decide +kernel
  constructor
  · rw [hdirect]
    rfl
  · rw [hroute]
    rfl

theorem flush_resets_example :
    (∀ e ∈ log Reference.platform Example.filled, Answered Reference.platform e.before e.input)
      ∧ ∀ s ∈ states Reference.platform Example.filled,
        flush Reference.platform s = (.ok (), initial) ∧ make Reference.platform = .ok initial := by
  have hanswered : ∀ e ∈ log Reference.platform Example.filled,
      Answered Reference.platform e.before e.input := answered_of_check (by decide +kernel)
  have hnul : (log Reference.platform Example.filled).all
      (fun e => decide (0 ∉ e.input.request.target)) = true := by decide +kernel
  refine ⟨hanswered, flush_resets flushText_reference _ hanswered fun e he => ?_⟩
  exact of_decide_eq_true (List.all_eq_true.mp hnul e he)

end Server

end Pichi
