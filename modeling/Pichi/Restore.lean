/-
# Restoring a configuration

`HttpClient::reload` loads a configuration, and `HttpClient::run` flushes the server and loads it
again whenever the process is told to.  The document it loads has the members that the API returns
for its four resources.

What the API returns is a configuration: `save` asks for the four resources, and whatever state the
server is in when the document is loaded, every entry is loaded, none is reported, and the server
ends up with the entries, the route and the router it had when it was saved (`restores`).  Only an
egress `direct` is there in any case, because flushing does not remove it.
-/
import Pichi.Loading

namespace Pichi

open Transfer (bind_of_ok)

namespace Server

/-! ## Saving and loading -/

section Client

variable (p : Platform) (toString : Json → Bytes) (env : ℕ → Acceptors) (fn : Bytes)

/-- The last request of `HttpClient::reload`. -/
def loadRoute (doc : Json) : Client (List Bytes) :=
  match doc.member? "route" with
  | none => return []
  | some route => do
    let status ← putRequest p (lit "/route") (toString route)
    return if status ≠ .noContent then [lit "  route NOT loaded\n"] else []

/-- `HttpClient::reload` after the file `fn` has been parsed, with the lines it writes to the
log. -/
def reload (doc : Option Json) : Client (List Bytes) :=
  match doc with
  | some (.obj members) => do
    let ingresses ← update p toString env .ingresses (.obj members)
    let egresses ← update p toString env .egresses (.obj members)
    let rules ← update p toString env .rules (.obj members)
    let route ← loadRoute p toString (.obj members)
    return [lit "Loading configuration " ++ fn ++ lit "\n"]
      ++ ingresses ++ egresses ++ rules ++ route
      ++ [lit "Configuration " ++ fn ++ lit " loaded\n"]
  | _ => return [lit "Loading configuration " ++ fn ++ lit "\n", lit "Invalid JSON configuration\n"]

/-- What `HttpClient::run` does after a signal. -/
def hangup (doc : Option Json) : Client (List Bytes) := do
  flush p
  reload p toString env fn doc

/-- The four resources of the API as one document. -/
def save : Client Json := do
  let ingresses ← getRequest p (lit "/ingresses")
  let egresses ← getRequest p (lit "/egresses")
  let rules ← getRequest p (lit "/rules")
  let route ← getRequest p (lit "/route")
  return .obj [field "ingresses" ingresses, field "egresses" egresses, field "rules" rules,
    field "route" route]

end Client

/-! ## What the tables hold -/

/-- What is written for a resource. -/
def resourceToJson : Resource → Result Json
  | .ingress vo => vo.toJson
  | .egress vo => vo.toJson
  | .rule vo => .ok vo.toJson

/-- A resource that a `PUT` under the name has stored. -/
def Valid (p : Platform) (name : Bytes) : Resource → Prop
  | .ingress vo => (∃ v vo', Ingress.parse p v = .ok vo' ∧ vo = { vo' with name := name })
      ∧ ∀ e ∈ vo.bind, (p.makeAddress e.host).isSome = true
  | .egress vo => ∃ v, Egress.parse p v = .ok vo
  | .rule vo => ∃ v, Rule.parse v = .ok vo

/-- The same resource; the credentials of an ingress are unordered. -/
def SameResource : Resource → Resource → Prop
  | .ingress a, .ingress b => a.Same b ∧ a.name = b.name
  | .egress a, .egress b => a = b
  | .rule a, .rule b => a = b
  | _, _ => False

variable {p : Platform} {toString : Json → Bytes} {s : Server} {i : Arrival} {c : Collection}
  {name : Bytes} {v : Resource} {acceptors : Acceptors}

/-- The host of an address that could be opened is an address. -/
theorem isSome_of_openAcceptor {bind : Endpoint × ℕ} (h : openAcceptor p acceptors bind = .ok ()) :
    (p.makeAddress bind.1.host).isSome = true := by
  unfold openAcceptor at h
  split at h
  · cases h
  · rename_i a ha
    rw [ha]
    rfl

theorem openAcceptor_of_isSome {bind : Endpoint × ℕ}
    (h : (p.makeAddress bind.1.host).isSome = true) :
    openAcceptor p (fun _ => none) bind = .ok () := by
  obtain ⟨a, ha⟩ := Option.isSome_iff_exists.mp h
  simp only [openAcceptor, ha]

theorem valid_of_resource {req : Request} (h : c.resource p acceptors name req = .ok v) :
    Valid p name v := by
  cases c with
  | ingresses =>
      obtain ⟨vo, hbody, h⟩ := bind_eq_ok_iff.mp h
      obtain ⟨us, hopen, h⟩ := bind_eq_ok_iff.mp h
      obtain ⟨doc, -, hparse⟩ := bind_eq_ok_iff.mp hbody
      cases h
      refine ⟨⟨doc, vo, hparse, rfl⟩, fun e he => ?_⟩
      obtain ⟨k, hk⟩ := List.mem_iff_getElem?.mp he
      have hmem : (e, k) ∈ vo.bind.zipIdx := List.mem_zipIdx_iff_getElem?.mpr hk
      obtain ⟨u, hu⟩ := exists_of_mapM_eq_ok hopen _ hmem
      exact isSome_of_openAcceptor hu
  | egresses =>
      obtain ⟨vo, hbody, h⟩ := bind_eq_ok_iff.mp h
      obtain ⟨doc, -, hparse⟩ := bind_eq_ok_iff.mp hbody
      cases h
      exact ⟨doc, hparse⟩
  | rules =>
      obtain ⟨vo, hbody, h⟩ := bind_eq_ok_iff.mp h
      obtain ⟨doc, -, hparse⟩ := bind_eq_ok_iff.mp hbody
      cases h
      exact ⟨doc, hparse⟩

/-- Only a `PUT` writes an entry. -/
theorem entry_handleAt_of_not_put (hput : i.request.method ≠ .put) :
    c.entry (c.handleAt p s i name).2 name = c.entry s name
      ∨ c.entry (c.handleAt p s i name).2 name = none := by
  cases c with
  | ingresses =>
      rw [Collection.handleAt, handleIngress]
      split
      · refine Or.inr ?_
        show ((s.listeners.erase name).lookup name).map _ = none
        rw [AList.lookup_erase]
        rfl
      · exact Or.inl rfl
      · rename_i h
        exact absurd h hput
      · exact Or.inl rfl
  | egresses =>
      rw [Collection.handleAt, handleEgress]
      split
      · split
        · exact Or.inl rfl
        · exact Or.inl rfl
        · refine Or.inr ?_
          show ((s.egresses.erase name).lookup name).map _ = none
          rw [AList.lookup_erase]
          rfl
      · exact Or.inl rfl
      · rename_i h
        exact absurd h hput
      · exact Or.inl rfl
  | rules =>
      rw [Collection.handleAt, handleRule]
      split
      · split
        · exact Or.inl rfl
        · refine Or.inr ?_
          show ((s.rules.erase name).lookup name).map _ = none
          rw [AList.lookup_erase]
          rfl
      · exact Or.inl rfl
      · rename_i h
        exact absurd h hput
      · exact Or.inl rfl

/-- What an operation leaves was there, or is what a `PUT` has stored. -/
theorem valid_handleAt {c' : Collection} {name' : Bytes}
    (hs : ∀ c name v, Collection.entry c s name = some v → Valid p name v)
    (h : c'.entry (c.handleAt p s i name).2 name' = some v) : Valid p name' v := by
  by_cases hsame : c' = c ∧ name' = name
  · obtain ⟨rfl, rfl⟩ := hsame
    by_cases hput : i.request.method = .put
    · cases hres : c'.resource p i.acceptors name' i.request with
      | error e =>
          rw [Collection.handleAt_put_of_error hput hres] at h
          exact hs c' name' v h
      | ok v' =>
          rw [Collection.entry_handleAt_put_of_ok hput hres] at h
          cases h
          exact valid_of_resource hres
    · have hcases : c'.entry (c'.handleAt p s i name').2 name' = c'.entry s name'
          ∨ c'.entry (c'.handleAt p s i name').2 name' = none := entry_handleAt_of_not_put hput
      rcases hcases with hkept | hnone
      · rw [hkept] at h
        exact hs c' name' v h
      · rw [hnone] at h
        cases h
  · rw [Collection.entry_handleAt_of_ne p s i hsame] at h
    exact hs c' name' v h

/-- A request is for a resource of a collection, or for the route, or changes nothing. -/
theorem handle_cases (p : Platform) (s : Server) (i : Arrival) :
    (∃ c name, handle p s i = Collection.handleAt c p s i name)
      ∨ handle p s i = handleRoute p s i.request ∨ (handle p s i).2 = s := by
  have hcollection : ∀ body, (handleCollection s i.request body).2 = s := by
    intro body
    unfold handleCollection
    split <;> rfl
  unfold handle
  split
  · exact Or.inr (Or.inr (hcollection _))
  · exact Or.inl ⟨.ingresses, _, rfl⟩
  · exact Or.inr (Or.inr (hcollection _))
  · exact Or.inl ⟨.egresses, _, rfl⟩
  · exact Or.inr (Or.inr (hcollection _))
  · exact Or.inl ⟨.rules, _, rfl⟩
  · exact Or.inr (Or.inl rfl)
  · exact Or.inr (Or.inr rfl)

/-- What holds of a state that can be saved. -/
structure Savable (p : Platform) (s : Server) : Prop extends Flushable p s where
  entries : ∀ c name v, Collection.entry c s name = some v → Valid p name v
  parsed : ∃ v, Route.parse v = .ok s.route

theorem savable_initial : Savable p initial where
  toFlushable := flushable_initial
  entries := by
    intro c name v h
    cases c with
    | ingresses => cases h
    | egresses =>
        obtain ⟨egress, hegress, rfl⟩ := Option.map_eq_some_iff.mp h
        exact (stored_initial.egresses name egress hegress).2
    | rules => cases h
  parsed := ⟨.obj [field "default" (nameToJson "direct"), field "rules" (.arr [])], rfl⟩

/-- The route is the old one or the one in the body, and no entry changes. -/
theorem savable_handleRoute (hs : ∀ c name v, Collection.entry c s name = some v → Valid p name v)
    (hroute : ∃ v, Route.parse v = .ok s.route) (req : Request) :
    (∀ c name v, Collection.entry c (handleRoute p s req).2 name = some v → Valid p name v)
      ∧ ∃ v, Route.parse v = .ok (handleRoute p s req).2.route := by
  unfold handleRoute
  split
  · exact ⟨hs, hroute⟩
  · exact ⟨hs, hroute⟩
  · split
    · exact ⟨hs, hroute⟩
    · rename_i route hbody
      split
      · exact ⟨hs, hroute⟩
      · obtain ⟨doc, -, hparse⟩ := bind_eq_ok_iff.mp hbody
        refine ⟨fun c name v h => ?_, doc, ?_⟩
        · rw [Collection.entry_finish] at h
          refine hs c name v ?_
          cases c <;> exact h
        · rw [finish_tables.2.2]
          exact hparse
  · exact ⟨hs, hroute⟩

theorem savable_handle (hs : Savable p s) (h : Answered p s i) (hnul : 0 ∉ i.request.target) :
    Savable p (handle p s i).2 := by
  have hflushable := flushable_handle hs.toFlushable h hnul
  rcases handle_cases p s i with ⟨c, name, hhandle⟩ | hhandle | hhandle
  · refine ⟨hflushable, fun c' name' v hv => ?_, ?_⟩
    · rw [hhandle] at hv
      exact valid_handleAt hs.entries hv
    · rw [hhandle, route_handleAt]
      exact hs.parsed
  · obtain ⟨hentries, hparsed⟩ := savable_handleRoute hs.entries hs.parsed i.request
    rw [← hhandle] at hentries hparsed
    exact ⟨hflushable, hentries, hparsed⟩
  · rw [hhandle] at hflushable ⊢
    exact hs

/-! ## Loading what was saved -/

/-- What is written for an entry is read back as the same resource. -/
theorem resource_of_saved (toString : Json → Bytes) (hentry : c.entry s name = some v)
    (hv : Valid p name v) :
    ∃ j, resourceToJson v = .ok j ∧ (p.parseDocument (toString j) = some j → ∃ v',
      c.resource p (fun _ => none) name (entryRequest toString c (name, j)) = .ok v'
        ∧ SameResource v' v) := by
  have hbody : ∀ {T : Type} {parse : Json → Checked T} {j : Json} {req : Request} {x : T},
      p.parseDocument (toString j) = some j → req.body = toString j → parse j = .ok x →
      parseBody p parse req = .ok x := by
    intro T parse j req x htext hreq hparse
    simp only [parseBody, Platform.document, hreq, htext]
    exact hparse
  cases c with
  | ingresses =>
      obtain ⟨listener, -, rfl⟩ := Option.map_eq_some_iff.mp hentry
      obtain ⟨⟨doc, vo, hparse, hvo⟩, haddress⟩ := hv
      have hsame : listener.vo.Same vo := by
        rw [hvo]
        obtain ⟨htype, hbind, hcred, hopt, htls, hwebsocket⟩ := Ingress.Same.refl vo
        exact ⟨htype, hbind, hcred, hopt, htls, hwebsocket⟩
      obtain ⟨j, out, hj, hout, hreread⟩ := Ingress.reread hparse hsame
      refine ⟨j, hj, fun htext => ?_⟩
      have hopen : ∀ x ∈ out.bind.zipIdx, ∃ u, openAcceptor p (fun _ => none) x = .ok u := by
        intro x hx
        refine ⟨(), openAcceptor_of_isSome (haddress x.1 ?_)⟩
        rw [hsame.bind, ← hreread.bind]
        exact List.fst_mem_of_mem_zipIdx hx
      obtain ⟨us, hus⟩ := exists_mapM_eq_ok hopen
      refine ⟨.ingress { out with name := name }, ?_, ?_, ?_⟩
      · exact bind_eq_ok_iff.mpr ⟨out, hbody htext rfl hout, bind_eq_ok_iff.mpr ⟨us, hus, rfl⟩⟩
      · rw [hvo]
        obtain ⟨htype, hbind, hcred, hopt, htls, hwebsocket⟩ := hreread
        exact ⟨htype, hbind, hcred, hopt, htls, hwebsocket⟩
      · rw [hvo]
  | egresses =>
      obtain ⟨egress, -, rfl⟩ := Option.map_eq_some_iff.mp hentry
      obtain ⟨doc, hparse⟩ := hv
      obtain ⟨j, hj, hreread⟩ := Egress.reread hparse
      refine ⟨j, hj, fun htext => ⟨.egress egress, ?_, rfl⟩⟩
      exact bind_eq_ok_iff.mpr ⟨egress, hbody htext rfl hreread, rfl⟩
  | rules =>
      obtain ⟨rule, -, rfl⟩ := Option.map_eq_some_iff.mp hentry
      obtain ⟨doc, hparse⟩ := hv
      refine ⟨rule.toJson, rfl, fun htext => ⟨.rule rule, ?_, rfl⟩⟩
      exact bind_eq_ok_iff.mpr ⟨rule, hbody htext rfl (rereads_rule doc rule hparse), rfl⟩

/-- An entry whose name and value are read is loaded, and not reported. -/
theorem loadNode_of_resource {node : Bytes × Json} (hs : Unrouted s)
    (hname : Listed c.cls node.1)
    (hres : c.resource p acceptors node.1 (entryRequest toString c node) = .ok v) :
    ∃ s', loadNode p toString c acceptors node s = (.ok none, s') ∧ Unrouted s'
      ∧ c.entry s' node.1 = some v
      ∧ ∀ c' name', ¬(c' = c ∧ name' = node.1) →
        Collection.entry c' s' name' = Collection.entry c' s name' := by
  have hof : Target.of (entryRequest toString c node).target = c.member node.1 := by
    have htarget := Collection.of_member c hname.ne_nil hname.cls Target.isTail_nil (by simp)
    rw [List.append_nil] at htarget
    show Target.of (entryTarget c (cString node.1)) = _
    rw [cString_eq_self_iff.mpr hname.no_nul, entryTarget_eq, htarget]
  have hhandle := Collection.handle_of_member
    (p := p) (s := s) (i := ⟨entryRequest toString c node, acceptors⟩) hof
  have hout := hs.handleAt_put (p := p) (i := ⟨entryRequest toString c node, acceptors⟩) rfl hres
  have hunrouted := (hs.handle_member (p := p)
    (i := ⟨entryRequest toString c node, acceptors⟩) rfl hof hname.cls).2
  obtain ⟨line, hload, hline⟩ := loadNode_of_reply (r := genResp .noContent)
    (hhandle.trans (Prod.ext hout rfl)) rfl
  have hnone : line = none := by
    cases line with
    | none => rfl
    | some text => exact absurd rfl (hline.mp rfl)
  rw [hhandle] at hunrouted
  refine ⟨_, by rw [hload, hnone], hunrouted, Collection.entry_handleAt_put_of_ok rfl hres, ?_⟩
  intro c' name' hne
  exact Collection.entry_handleAt_of_ne p s _ hne

/-- The entries of a category, one after another. -/
theorem loadNodes_of_resource (p : Platform) (toString : Json → Bytes) (c : Collection)
    (nodes : List (Bytes × Json)) :
    ∀ {k : ℕ} {s : Server}, Unrouted s → (nodes.map Prod.fst).Nodup →
      (∀ node ∈ nodes, Listed c.cls node.1
        ∧ ∃ v, c.resource p (fun _ => none) node.1 (entryRequest toString c node) = .ok v) →
      ∃ s', loadNodes p toString (fun _ _ => none) c k nodes s = (.ok [], s') ∧ Unrouted s'
        ∧ (∀ node ∈ nodes, ∀ v,
          c.resource p (fun _ => none) node.1 (entryRequest toString c node) = .ok v →
          c.entry s' node.1 = some v)
        ∧ ∀ c' name', ¬(c' = c ∧ name' ∈ nodes.map Prod.fst) →
          Collection.entry c' s' name' = Collection.entry c' s name' := by
  induction nodes with
  | nil =>
      intro k s hs _ _
      exact ⟨s, rfl, hs, by simp, fun _ _ _ => rfl⟩
  | cons node nodes ih =>
      intro k s hs hnodup hnodes
      obtain ⟨hfresh, hnodup⟩ := List.nodup_cons.mp hnodup
      obtain ⟨hname, v, hres⟩ := hnodes node (by simp)
      obtain ⟨s₁, hload, hs₁, hentry, hothers⟩ := loadNode_of_resource hs hname hres
      obtain ⟨s₂, hloads, hs₂, hentries, hothers₂⟩ := ih (k := k + 1) hs₁ hnodup
        fun node' hnode' => hnodes node' (by simp [hnode'])
      refine ⟨s₂, ?_, hs₂, ?_, ?_⟩
      · rw [loadNodes, bind_of_ok hload, bind_of_ok hloads]
        rfl
      · intro node' hnode' v' hres'
        rcases List.mem_cons.mp hnode' with rfl | hnode'
        · rw [hothers₂ c node'.1 (by simp [hfresh]), hentry,
            ← Except.ok.inj (hres.symm.trans hres')]
        · exact hentries node' hnode' v' hres'
      · intro c' name' hne
        rw [List.map_cons, List.mem_cons, not_and, not_or] at hne
        rw [hothers₂ c' name' fun h => (hne h.1).2 h.2, hothers c' name' fun h => (hne h.1).1 h.2]

/-! ## The document -/

/-- The body of a `GET` of a collection. -/
def listing (c : Collection) (s : Server) : Result Json :=
  match c with
  | .ingresses => toJson s.listeners fun listener => listener.vo.toJson
  | .egresses => toJson s.egresses Egress.toJson
  | .rules => toJson s.rules fun rule => .ok rule.toJson

theorem map_fst_eq_keys {V : Type} {entries : List (Sigma fun _ : Bytes => V)}
    {members : List (Bytes × Json)} (h : List.Forall₂ (fun e m => m.1 = e.1) entries members) :
    members.map Prod.fst = entries.keys := by
  induction h with
  | nil => rfl
  | cons hm _ ih => rw [List.map_cons, List.keys_cons, hm, ih]

/-- The members of a listed table are its entries. -/
theorem exists_members {V : Type} (t : ValueMap V) (itemToJson : V → Result Json)
    (h : ∀ name v, t.lookup name = some v → name ≠ [] ∧ ∃ j, itemToJson v = .ok j) :
    ∃ members, toJson t itemToJson = .ok (.obj members) ∧ members.map Prod.fst = t.keys
      ∧ ∀ m ∈ members, ∃ v, t.lookup m.1 = some v ∧ itemToJson v = .ok m.2 := by
  have hmember : ∀ e ∈ t.entries, ∃ m, member itemToJson e = .ok m := by
    intro e he
    obtain ⟨hne, j, hj⟩ := h e.1 e.2 (AList.mem_lookup_iff.mpr he)
    exact ⟨(e.1, j), member_eq_ok_iff.mpr ⟨hne, rfl, hj⟩⟩
  obtain ⟨members, hmembers⟩ := exists_mapM_eq_ok hmember
  refine ⟨members, bind_eq_ok_iff.mpr ⟨members, hmembers, rfl⟩, ?_, fun m hm => ?_⟩
  · exact map_fst_eq_keys
      ((mapM_eq_ok_iff.mp hmembers).imp fun e m hm => (member_eq_ok_iff.mp hm).2.1)
  · obtain ⟨e, he, hem⟩ := exists_of_mem_mapM hmembers hm
    obtain ⟨-, hname, hj⟩ := member_eq_ok_iff.mp hem
    exact ⟨e.2, hname ▸ AList.mem_lookup_iff.mpr he, hj⟩

/-- What is listed of a collection: an entry for each name. -/
structure Lists (c : Collection) (s : Server) (nodes : List (Bytes × Json)) : Prop where
  nodup : (nodes.map Prod.fst).Nodup
  entries : ∀ node ∈ nodes, Listed c.cls node.1
    ∧ ∃ v, c.entry s node.1 = some v ∧ resourceToJson v = .ok node.2
  all : ∀ name v, c.entry s name = some v → name ∈ nodes.map Prod.fst

theorem exists_listing (c : Collection) (hs : Savable p s) :
    ∃ nodes, listing c s = .ok (.obj nodes) ∧ Lists c s nodes := by
  have hvalid : ∀ {name : Bytes} {v : Resource}, c.entry s name = some v →
      ∃ j, resourceToJson v = .ok j := by
    intro name v hentry
    obtain ⟨j, hj, -⟩ := resource_of_saved (fun _ => []) hentry (hs.entries c name v hentry)
    exact ⟨j, hj⟩
  cases c with
  | ingresses =>
      obtain ⟨nodes, hnodes, hkeys, hmem⟩ := exists_members s.listeners
        (fun listener => listener.vo.toJson) fun name listener h =>
          ⟨(hs.stored.listeners name listener h).1.ne_nil,
            hvalid (v := .ingress listener.vo) (Option.map_eq_some_iff.mpr ⟨listener, h, rfl⟩)⟩
      refine ⟨nodes, hnodes, hkeys ▸ s.listeners.keys_nodup, fun node hnode => ?_,
        fun name v hv => ?_⟩
      · obtain ⟨listener, hlookup, hj⟩ := hmem node hnode
        exact ⟨(hs.stored.listeners _ _ hlookup).1, .ingress listener.vo,
          Option.map_eq_some_iff.mpr ⟨listener, hlookup, rfl⟩, hj⟩
      · obtain ⟨listener, hlookup, -⟩ := Option.map_eq_some_iff.mp hv
        rw [hkeys]
        exact AList.mem_keys.mp (AList.lookup_isSome.mp (by rw [hlookup]; rfl))
  | egresses =>
      obtain ⟨nodes, hnodes, hkeys, hmem⟩ := exists_members s.egresses Egress.toJson
        fun name egress h => ⟨(hs.stored.egresses name egress h).1.ne_nil,
          hvalid (v := .egress egress) (Option.map_eq_some_iff.mpr ⟨egress, h, rfl⟩)⟩
      refine ⟨nodes, hnodes, hkeys ▸ s.egresses.keys_nodup, fun node hnode => ?_,
        fun name v hv => ?_⟩
      · obtain ⟨egress, hlookup, hj⟩ := hmem node hnode
        exact ⟨(hs.stored.egresses _ _ hlookup).1, .egress egress,
          Option.map_eq_some_iff.mpr ⟨egress, hlookup, rfl⟩, hj⟩
      · obtain ⟨egress, hlookup, -⟩ := Option.map_eq_some_iff.mp hv
        rw [hkeys]
        exact AList.mem_keys.mp (AList.lookup_isSome.mp (by rw [hlookup]; rfl))
  | rules =>
      obtain ⟨nodes, hnodes, hkeys, hmem⟩ := exists_members s.rules (fun rule => .ok rule.toJson)
        fun name rule h => ⟨(hs.stored.rules name rule h).ne_nil, rule.toJson, rfl⟩
      refine ⟨nodes, hnodes, hkeys ▸ s.rules.keys_nodup, fun node hnode => ?_,
        fun name v hv => ?_⟩
      · obtain ⟨rule, hlookup, hj⟩ := hmem node hnode
        exact ⟨hs.stored.rules _ _ hlookup, .rule rule,
          Option.map_eq_some_iff.mpr ⟨rule, hlookup, rfl⟩, hj⟩
      · obtain ⟨rule, hlookup, -⟩ := Option.map_eq_some_iff.mp hv
        rw [hkeys]
        exact AList.mem_keys.mp (AList.lookup_isSome.mp (by rw [hlookup]; rfl))

theorem getRequest_listing {j : Json} (c : Collection) (h : listing c s = .ok j) :
    getRequest p (lit c.path) s = (.ok j, s) := by
  apply getRequest_of_ok
  cases c with
  | ingresses =>
      have htarget : Target.of (lit "/ingresses") = .ingresses := by decide +kernel
      rw [listing] at h
      simp only [handle, Collection.path, htarget, handleCollection, h, Except.map]
  | egresses =>
      have htarget : Target.of (lit "/egresses") = .egresses := by decide +kernel
      rw [listing] at h
      simp only [handle, Collection.path, htarget, handleCollection, h, Except.map]
  | rules =>
      have htarget : Target.of (lit "/rules") = .rules := by decide +kernel
      rw [listing] at h
      simp only [handle, Collection.path, htarget, handleCollection, h, Except.map]

/-- The configuration with the given members. -/
def configuration (ingresses egresses rules : List (Bytes × Json)) (route : Json) : Json :=
  .obj [field "ingresses" (.obj ingresses), field "egresses" (.obj egresses),
    field "rules" (.obj rules), field "route" route]

/-- What the API returns of a state that can be saved. -/
theorem exists_save (hs : Savable p s) :
    ∃ ingresses egresses rules route,
      save p s = (.ok (configuration ingresses egresses rules route), s)
        ∧ Lists .ingresses s ingresses ∧ Lists .egresses s egresses ∧ Lists .rules s rules
        ∧ Route.parse route = .ok s.route := by
  obtain ⟨ingresses, hingresses, hlists₁⟩ := exists_listing .ingresses hs
  obtain ⟨egresses, hegresses, hlists₂⟩ := exists_listing .egresses hs
  obtain ⟨rules, hrules, hlists₃⟩ := exists_listing .rules hs
  obtain ⟨doc, hdoc⟩ := hs.parsed
  obtain ⟨route, hroute, hreread⟩ := reread_route hdoc hs.default
  refine ⟨ingresses, egresses, rules, route, ?_, hlists₁, hlists₂, hlists₃, hreread⟩
  have hget : getRequest p (lit "/route") s = (.ok route, s) := by
    apply getRequest_of_ok
    have htarget : Target.of (lit "/route") = .route := by decide +kernel
    simp only [handle, htarget, handleRoute, hroute, Checked.lift, Except.map]
  have hget₁ : getRequest p (lit "/ingresses") s = (.ok (.obj ingresses), s) :=
    getRequest_listing .ingresses hingresses
  have hget₂ : getRequest p (lit "/egresses") s = (.ok (.obj egresses), s) :=
    getRequest_listing .egresses hegresses
  have hget₃ : getRequest p (lit "/rules") s = (.ok (.obj rules), s) :=
    getRequest_listing .rules hrules
  rw [save, bind_of_ok hget₁, bind_of_ok hget₂, bind_of_ok hget₃, bind_of_ok hget]
  rfl

/-! ## Restoring -/

/-- What `vo::toString` writes for the values of a configuration is parsed as they read. -/
def Readable (p : Platform) (toString : Json → Bytes) (doc : Json) : Prop :=
  (∀ c nodes, doc.member? (category c) = some (.obj nodes) → ∀ node ∈ nodes,
      p.parseDocument (toString node.2) = some node.2)
    ∧ ∀ route, doc.member? "route" = some route → p.parseDocument (toString route) = some route

/-- A state that was restored: the entries, the route and the router are those of the state that
was saved, and the listeners are told of the router.  An egress `direct` may be left. -/
structure Restored (s s' : Server) : Prop where
  entries : ∀ c name v, Collection.entry c s name = some v →
    ∃ v', Collection.entry c s' name = some v' ∧ SameResource v' v
  others : ∀ c name, Collection.entry c s name = none → Collection.entry c s' name = none
    ∨ c = .egresses ∧ name = defaultEgressName
      ∧ Collection.entry c s' name = some (.egress directEgress)
  route : s'.route = s.route
  router : s'.router = s.router
  posted : ∀ name listener, s'.listeners.lookup name = some listener →
    listener.posted.getLast? = some s.router

/-- One category of what was saved. -/
theorem update_of_lists {t : Server} {doc : Json} {nodes : List (Bytes × Json)}
    (hs : Savable p s) (hlists : Lists c s nodes)
    (hdoc : doc.member? (category c) = some (.obj nodes))
    (htext : ∀ node ∈ nodes, p.parseDocument (toString node.2) = some node.2) (ht : Unrouted t) :
    ∃ t', update p toString (fun _ _ => none) c doc t = (.ok [], t') ∧ Unrouted t'
      ∧ (∀ name v, c.entry s name = some v →
        ∃ v', c.entry t' name = some v' ∧ SameResource v' v)
      ∧ (∀ name, c.entry s name = none → c.entry t' name = c.entry t name)
      ∧ ∀ c' name, c' ≠ c → Collection.entry c' t' name = Collection.entry c' t name := by
  have hres : ∀ node ∈ nodes, ∃ v, c.entry s node.1 = some v ∧ ∃ v',
      c.resource p (fun _ => none) node.1 (entryRequest toString c node) = .ok v'
        ∧ SameResource v' v := by
    intro node hnode
    obtain ⟨-, v, hentry, hj⟩ := hlists.entries node hnode
    obtain ⟨j, hj', hread⟩ := resource_of_saved toString hentry (hs.entries c node.1 v hentry)
    obtain rfl : node.2 = j := Except.ok.inj (hj.symm.trans hj')
    exact ⟨v, hentry, hread (htext node hnode)⟩
  obtain ⟨t', hload, ht', hstored, hothers⟩ := loadNodes_of_resource p toString c nodes (k := 0) ht
    hlists.nodup fun node hnode => by
      obtain ⟨v, -, v', hv', -⟩ := hres node hnode
      exact ⟨(hlists.entries node hnode).1, v', hv'⟩
  refine ⟨t', ?_, ht', ?_, ?_, ?_⟩
  · rw [update, hdoc]
    exact hload
  · intro name v hentry
    obtain ⟨node, hnode, rfl⟩ := List.mem_map.mp (hlists.all name v hentry)
    obtain ⟨w, hw, v', hv', hsame⟩ := hres node hnode
    obtain rfl : v = w := Option.some.inj (hentry.symm.trans hw)
    exact ⟨v', hstored node hnode v' hv', hsame⟩
  · intro name hnone
    refine hothers c name fun h => ?_
    obtain ⟨node, hnode, rfl⟩ := List.mem_map.mp h.2
    obtain ⟨w, hw, -⟩ := hres node hnode
    rw [hw] at hnone
    cases hnone
  · exact fun c' name hne => hothers c' name fun h => hne h.1

/-- More entries do not change the router of a route. -/
theorem make_of_more {egresses egresses' : ValueMap Egress} {rules rules' : ValueMap Rule}
    {route : Route} {router : Router}
    (hegresses : ∀ name egress, egresses.lookup name = some egress →
      egresses'.lookup name = some egress)
    (hrules : ∀ name rule, rules.lookup name = some rule → rules'.lookup name = some rule)
    (h : Router.make p egresses rules route = .ok router) :
    Router.make p egresses' rules' route = .ok router := by
  have hat : ∀ {V : Type} {m m' : ValueMap V} {key : Bytes} {x : V},
      (∀ name y, m.lookup name = some y → m'.lookup name = some y) → m.at key = .ok x →
      m'.lookup key = some x ∧ m'.at key = .ok x := by
    intro V m m' key x hmore hx
    unfold ValueMap.at at hx
    split at hx
    · rename_i y hy
      cases hx
      have hy' := hmore key x hy
      exact ⟨hy', by rw [ValueMap.at, hy']⟩
    · cases hx
  have hentry : ∀ {entry : Bytes × Bytes} {m : Matcher},
      Router.parseEntry p egresses rules entry = .ok m →
      Router.parseEntry p egresses' rules' entry = .ok m := by
    intro entry m hm
    simp only [Router.parseEntry, bind_eq_ok_iff] at hm
    obtain ⟨-, -, -, -, rule, hrule, egress, hegress, hm⟩ := hm
    obtain ⟨hlookup, hrule'⟩ := hat hrules hrule
    obtain ⟨hlookup', hegress'⟩ := hat hegresses hegress
    simp only [Router.parseEntry, hlookup, hlookup', hrule', hegress']
    exact hm
  obtain ⟨matchers, hmatchers, h⟩ := bind_eq_ok_iff.mp h
  obtain ⟨default, hdefault, h⟩ := bind_eq_ok_iff.mp h
  obtain ⟨egress, hegress, h⟩ := bind_eq_ok_iff.mp h
  refine bind_eq_ok_iff.mpr ⟨matchers, ?_, bind_eq_ok_iff.mpr ⟨default, hdefault,
    bind_eq_ok_iff.mpr ⟨egress, (hat hegresses hegress).2, h⟩⟩⟩
  exact mapM_eq_ok_iff.mpr ((mapM_eq_ok_iff.mp hmatchers).imp fun _ _ hm => hentry hm)

theorem entry_initial (c : Collection) (name : Bytes) :
    Collection.entry c initial name = none
      ∨ c = .egresses ∧ name = defaultEgressName
        ∧ Collection.entry c initial name = some (.egress directEgress) := by
  cases c with
  | ingresses => exact Or.inl rfl
  | egresses =>
      by_cases hname : name = defaultEgressName
      · subst hname
        exact Or.inr ⟨rfl, rfl, rfl⟩
      · refine Or.inl ?_
        show (initial.egresses.lookup name).map _ = none
        have hnone : initial.egresses.lookup name = none := by
          rw [AList.lookup_eq_none, AList.mem_keys]
          simpa [initial, AList.keys] using hname
        rw [hnone]
        rfl
  | rules => exact Or.inl rfl

/-- The route of what was saved, when the tables have been loaded. -/
theorem loadRoute_of_saved {t : Server} {doc route : Json} (hs : Savable p s)
    (hdoc : doc.member? "route" = some route) (hparse : Route.parse route = .ok s.route)
    (htext : p.parseDocument (toString route) = some route)
    (hegresses : ∀ name egress, s.egresses.lookup name = some egress →
      t.egresses.lookup name = some egress)
    (hrules : ∀ name rule, s.rules.lookup name = some rule → t.rules.lookup name = some rule) :
    loadRoute p toString doc t = (.ok [], rerouted { t with route := s.route } s.router) := by
  have htarget : Target.of (lit "/route") = .route := by decide +kernel
  have hbody : parseBody p Route.parse ⟨.put, lit "/route", toString route⟩ = .ok s.route := by
    simp only [parseBody, Platform.document, htext]
    exact hparse
  have hmem : ∀ {V : Type} {m m' : ValueMap V} {key : Bytes},
      (∀ name x, m.lookup name = some x → m'.lookup name = some x) → key ∈ m → key ∈ m' := by
    intro V m m' key hmore hkey
    obtain ⟨x, hx⟩ := Option.isSome_iff_exists.mp (AList.lookup_isSome.mpr hkey)
    exact AList.lookup_isSome.mp (by rw [hmore key x hx]; rfl)
  have hcheck : checkRoute t s.route = .ok () := by
    refine checkRoute_eq_ok_iff.mpr ⟨fun item hitem => ?_, fun d hd => ?_⟩
    · obtain ⟨hnames, hegress⟩ := hs.consistent.known item hitem
      exact ⟨fun rname hrname => hmem hrules (hnames rname hrname), hmem hegresses hegress⟩
    · exact hmem hegresses (hs.consistent.default d hd)
  have hmake : Router.make p t.egresses t.rules s.route = .ok s.router :=
    make_of_more hegresses hrules hs.fresh
  have hrebuilds : Rebuilds p t { request := ⟨.put, lit "/route", toString route⟩ }
      { t with route := s.route } := .route htarget rfl hbody hcheck
  have hhandle := handle_of_rebuilds hrebuilds
  rw [finish_of_ok hmake] at hhandle
  rw [loadRoute, hdoc]
  exact bind_of_ok (putRequest_of_ok hhandle)

/-- The three categories of what was saved. -/
theorem updates_of_saved {ingresses egresses rules : List (Bytes × Json)} {route : Json}
    (hs : Savable p s) (hlists₁ : Lists .ingresses s ingresses)
    (hlists₂ : Lists .egresses s egresses) (hlists₃ : Lists .rules s rules)
    (htext : Readable p toString (configuration ingresses egresses rules route)) :
    ∃ t₁ t₂ t₃,
      update p toString (fun _ _ => none) .ingresses
          (configuration ingresses egresses rules route) initial = (.ok [], t₁)
        ∧ update p toString (fun _ _ => none) .egresses
          (configuration ingresses egresses rules route) t₁ = (.ok [], t₂)
        ∧ update p toString (fun _ _ => none) .rules
          (configuration ingresses egresses rules route) t₂ = (.ok [], t₃)
        ∧ (∀ c name v, Collection.entry c s name = some v →
          ∃ v', Collection.entry c t₃ name = some v' ∧ SameResource v' v)
        ∧ ∀ c name, Collection.entry c s name = none →
          Collection.entry c t₃ name = Collection.entry c initial name := by
  have hdoc₁ : (configuration ingresses egresses rules route).member? (category .ingresses)
      = some (.obj ingresses) := rfl
  have hdoc₂ : (configuration ingresses egresses rules route).member? (category .egresses)
      = some (.obj egresses) := rfl
  have hdoc₃ : (configuration ingresses egresses rules route).member? (category .rules)
      = some (.obj rules) := rfl
  obtain ⟨t₁, hload₁, ht₁, hentries₁, hnone₁, hothers₁⟩ := update_of_lists hs hlists₁ hdoc₁
    (htext.1 _ _ hdoc₁) unrouted_initial
  obtain ⟨t₂, hload₂, ht₂, hentries₂, hnone₂, hothers₂⟩ := update_of_lists hs hlists₂ hdoc₂
    (htext.1 _ _ hdoc₂) ht₁
  obtain ⟨t₃, hload₃, -, hentries₃, hnone₃, hothers₃⟩ := update_of_lists hs hlists₃ hdoc₃
    (htext.1 _ _ hdoc₃) ht₂
  -- no category changes another one
  refine ⟨t₁, t₂, t₃, hload₁, hload₂, hload₃, fun c name v hv => ?_, fun c name hv => ?_⟩
  · cases c with
    | ingresses =>
        rw [hothers₃ _ name (by decide), hothers₂ _ name (by decide)]
        exact hentries₁ name v hv
    | egresses =>
        rw [hothers₃ _ name (by decide)]
        exact hentries₂ name v hv
    | rules => exact hentries₃ name v hv
  · cases c with
    | ingresses =>
        rw [hothers₃ _ name (by decide), hothers₂ _ name (by decide), hnone₁ name hv]
    | egresses =>
        rw [hothers₃ _ name (by decide), hnone₂ name hv, hothers₁ _ name (by decide)]
    | rules =>
        rw [hnone₃ name hv, hothers₂ _ name (by decide), hothers₁ _ name (by decide)]

theorem egresses_of_entries {t : Server}
    (h : ∀ c name v, Collection.entry c s name = some v →
      ∃ v', Collection.entry c t name = some v' ∧ SameResource v' v)
    {name : Bytes} {egress : Egress} (hlookup : s.egresses.lookup name = some egress) :
    t.egresses.lookup name = some egress := by
  obtain ⟨v', hv', hsame⟩ := h .egresses name (.egress egress)
    (Option.map_eq_some_iff.mpr ⟨egress, hlookup, rfl⟩)
  obtain ⟨egress', hlookup', rfl⟩ := Option.map_eq_some_iff.mp hv'
  rw [hlookup', show egress' = egress from hsame]

theorem rules_of_entries {t : Server}
    (h : ∀ c name v, Collection.entry c s name = some v →
      ∃ v', Collection.entry c t name = some v' ∧ SameResource v' v)
    {name : Bytes} {rule : Rule} (hlookup : s.rules.lookup name = some rule) :
    t.rules.lookup name = some rule := by
  obtain ⟨v', hv', hsame⟩ := h .rules name (.rule rule)
    (Option.map_eq_some_iff.mpr ⟨rule, hlookup, rfl⟩)
  obtain ⟨rule', hlookup', rfl⟩ := Option.map_eq_some_iff.mp hv'
  rw [hlookup', show rule' = rule from hsame]

/-- A new router changes no entry. -/
theorem entry_rerouted (c : Collection) (t : Server) (route : Route) (router : Router)
    (name : Bytes) : Collection.entry c (rerouted { t with route := route } router) name
      = Collection.entry c t name := by
  cases c with
  | ingresses =>
      show ((t.listeners.mapValues (Listener.reroute router)).lookup name).map _ = _
      rw [lookup_mapValues, Option.map_map]
      rfl
  | egresses => rfl
  | rules => rfl

/-- Every listener is told of a new router. -/
theorem posted_rerouted {t : Server} {router : Router} {name : Bytes} {listener : Listener}
    (h : (rerouted t router).listeners.lookup name = some listener) :
    listener.posted.getLast? = some router := by
  simp only [rerouted] at h
  rw [lookup_mapValues, Option.map_eq_some_iff] at h
  obtain ⟨listener', -, rfl⟩ := h
  simp [Listener.reroute]

/-- **What was saved is restored** by loading it into a server that was just started. -/
theorem reload_of_saved (fn : Bytes) (hs : Savable p s) :
    ∃ doc, save p s = (.ok doc, s) ∧ (Readable p toString doc → ∃ s',
      reload p toString (fun _ _ => none) fn (some doc) initial
          = (.ok [lit "Loading configuration " ++ fn ++ lit "\n",
            lit "Configuration " ++ fn ++ lit " loaded\n"], s')
        ∧ Restored s s') := by
  obtain ⟨ingresses, egresses, rules, route, hsave, hlists₁, hlists₂, hlists₃, hparse⟩ :=
    exists_save hs
  refine ⟨_, hsave, fun htext => ?_⟩
  obtain ⟨t₁, t₂, t₃, hload₁, hload₂, hload₃, hentries, hnone⟩ :=
    updates_of_saved hs hlists₁ hlists₂ hlists₃ htext
  have hroute : loadRoute p toString (configuration ingresses egresses rules route) t₃
      = (.ok [], rerouted { t₃ with route := s.route } s.router) :=
    loadRoute_of_saved hs rfl hparse (htext.2 route rfl) (fun _ _ => egresses_of_entries hentries)
      (fun _ _ => rules_of_entries hentries)
  refine ⟨rerouted { t₃ with route := s.route } s.router, ?_, ?_, ?_, rfl, rfl, ?_⟩
  · exact (bind_of_ok hload₁).trans ((bind_of_ok hload₂).trans ((bind_of_ok hload₃).trans
      ((bind_of_ok hroute).trans rfl)))
  · intro c name v hv
    rw [entry_rerouted]
    exact hentries c name v hv
  · intro c name hv
    rw [entry_rerouted, hnone c name hv]
    exact entry_initial c name
  · intro name listener hlistener
    exact posted_rerouted hlistener

/-- **Configurations are restored.**  In every state of a run in which every request was answered
and every route had a default, the API returns a configuration; and if its texts are parsed as they
read and its addresses can be bound, then loading it again after a signal reports nothing, in any
state of any other such run, and restores the entries, the route and the router. -/
theorem restores (hp : FlushText p) (toString : Json → Bytes) (fn : Bytes) (is is' : List Arrival)
    (h : ∀ e ∈ log p is, Answered p e.before e.input ∧ 0 ∉ e.input.request.target)
    (h' : ∀ e ∈ log p is', Answered p e.before e.input ∧ 0 ∉ e.input.request.target) :
    ∀ s ∈ states p is, ∃ doc, save p s = (.ok doc, s) ∧ (Readable p toString doc →
      ∀ t ∈ states p is', ∃ s',
        hangup p toString (fun _ _ => none) fn (some doc) t
            = (.ok [lit "Loading configuration " ++ fn ++ lit "\n",
              lit "Configuration " ++ fn ++ lit " loaded\n"], s')
          ∧ Restored s s') := by
  have hrun : ∀ is : List Arrival,
      (∀ e ∈ log p is, Answered p e.before e.input ∧ 0 ∉ e.input.request.target) →
      ∀ s ∈ states p is, Savable p s := by
    intro is h
    rw [states, List.forall_mem_cons, List.forall_mem_map]
    refine ⟨savable_initial, fun e he => ?_⟩
    exact (EventLog.events_invariant (Savable p)
      (fun s i => Answered p s i ∧ 0 ∉ i.request.target)
      (fun _ _ hs hi => savable_handle hs hi.1 hi.2) savable_initial h e he).2
  intro s hs
  obtain ⟨doc, hsave, hreload⟩ := reload_of_saved fn (hrun is h s hs)
  refine ⟨doc, hsave, fun htext t ht => ?_⟩
  obtain ⟨s', hs', hrestored⟩ := hreload htext
  refine ⟨s', ?_, hrestored⟩
  rw [hangup, bind_of_ok (flush_of_flushable hp (hrun is' h' t ht).toFlushable)]
  exact hs'

/-! ## A saved configuration -/

mutual

/-- A text of a value whose strings need no escape. -/
def Example.write : Json → Bytes
  | .null => lit "null"
  | .bool b => lit (if b then "true" else "false")
  | .int (.ofNat n) => decimal n
  | .int (.negSucc n) => 45 :: decimal (n + 1)
  | .double => lit "0.5"
  | .str s => 34 :: s ++ [34]
  | .arr [] => lit "[]"
  | .arr (v :: vs) => 91 :: Example.write v ++ Example.writeItems vs
  | .obj [] => lit "\x7b\x7d"
  | .obj (m :: ms) => 123 :: 34 :: m.1 ++ 34 :: 58 :: Example.write m.2 ++ Example.writeMembers ms

def Example.writeItems : List Json → Bytes
  | [] => [93]
  | v :: vs => 44 :: Example.write v ++ Example.writeItems vs

def Example.writeMembers : List (Bytes × Json) → Bytes
  | [] => [125]
  | m :: ms => 44 :: 34 :: m.1 ++ 34 :: 58 :: Example.write m.2 ++ Example.writeMembers ms

end

mutual

def Example.same : Json → Json → Bool
  | .null, .null => true
  | .bool a, .bool b => a = b
  | .int a, .int b => a = b
  | .str a, .str b => a = b
  | .arr a, .arr b => Example.sameItems a b
  | .obj a, .obj b => Example.sameMembers a b
  | _, _ => false

def Example.sameItems : List Json → List Json → Bool
  | [], [] => true
  | v :: vs, w :: ws => Example.same v w && Example.sameItems vs ws
  | _, _ => false

def Example.sameMembers : List (Bytes × Json) → List (Bytes × Json) → Bool
  | [], [] => true
  | v :: vs, w :: ws => decide (v.1 = w.1) && Example.same v.2 w.2 && Example.sameMembers vs ws
  | _, _ => false

end

mutual

theorem Example.eq_of_same : ∀ {a b : Json}, Example.same a b = true → a = b
  | .null, .null, _ => rfl
  | .bool a, .bool b, h => by simpa [Example.same] using h
  | .int a, .int b, h => by simpa [Example.same] using h
  | .str a, .str b, h => by simpa [Example.same] using h
  | .arr a, .arr b, h =>
    congrArg Json.arr (Example.eq_of_sameItems (by simpa [Example.same] using h))
  | .obj a, .obj b, h =>
    congrArg Json.obj (Example.eq_of_sameMembers (by simpa [Example.same] using h))

theorem Example.eq_of_sameItems : ∀ {a b : List Json}, Example.sameItems a b = true → a = b
  | [], [], _ => rfl
  | v :: vs, w :: ws, h => by
      rw [Example.sameItems, Bool.and_eq_true] at h
      rw [Example.eq_of_same h.1, Example.eq_of_sameItems h.2]

theorem Example.eq_of_sameMembers :
    ∀ {a b : List (Bytes × Json)}, Example.sameMembers a b = true → a = b
  | [], [], _ => rfl
  | v :: vs, w :: ws, h => by
      rw [Example.sameMembers, Bool.and_eq_true, Bool.and_eq_true, decide_eq_true_eq] at h
      rw [Prod.ext h.1.1 (Example.eq_of_same h.1.2), Example.eq_of_sameMembers h.2]

end

/-- Whether a value is read back from its text. -/
def Example.reads (v : Json) : Bool :=
  match Reference.platform.parseDocument (Example.write v) with
  | some w => Example.same w v
  | none => false

def Example.readable (doc : Json) : Bool :=
  [Collection.ingresses, .egresses, .rules].all (fun c =>
    match doc.member? (category c) with
    | some (.obj nodes) => nodes.all fun node => Example.reads node.2
    | _ => true)
  && match doc.member? "route" with
    | some route => Example.reads route
    | none => true

theorem Example.eq_of_reads {v : Json} (h : Example.reads v = true) :
    Reference.platform.parseDocument (Example.write v) = some v := by
  unfold Example.reads at h
  split at h
  · rename_i w hw
    rw [hw, Example.eq_of_same h]
  · cases h

theorem Example.readable_of_check {doc : Json} (h : Example.readable doc = true) :
    Readable Reference.platform Example.write doc := by
  rw [Example.readable, Bool.and_eq_true, List.all_eq_true] at h
  constructor
  · intro c nodes hnodes node hnode
    have hc := h.1 c (by cases c <;> simp)
    rw [hnodes] at hc
    exact Example.eq_of_reads (List.all_eq_true.mp hc node hnode)
  · intro route hroute
    have hr := h.2
    rw [hroute] at hr
    exact Example.eq_of_reads hr

/-- Whether what is saved of a state can be read. -/
def Example.saves (s : Server) : Bool :=
  match (save Reference.platform s).1 with
  | .ok doc => Example.readable doc
  | .error _ => false

/-- Each state of the run of `Example.filled` is saved and restored, from each other one. -/
theorem restores_example :
    (∀ e ∈ log Reference.platform Example.filled,
        Answered Reference.platform e.before e.input ∧ 0 ∉ e.input.request.target)
      ∧ ∀ s ∈ states Reference.platform Example.filled, ∃ doc,
        save Reference.platform s = (.ok doc, s)
          ∧ Readable Reference.platform Example.write doc
          ∧ ∀ t ∈ states Reference.platform Example.filled, ∃ s',
            hangup Reference.platform Example.write (fun _ _ => none) (lit "pichi.json")
                (some doc) t
                = (.ok [lit "Loading configuration " ++ lit "pichi.json" ++ lit "\n",
                  lit "Configuration " ++ lit "pichi.json" ++ lit " loaded\n"], s')
              ∧ Restored s s' := by
  have hanswered : ∀ e ∈ log Reference.platform Example.filled,
      Answered Reference.platform e.before e.input := answered_of_check (by decide +kernel)
  have hnul : (log Reference.platform Example.filled).all
      (fun e => decide (0 ∉ e.input.request.target)) = true := by decide +kernel
  have hsaves : (states Reference.platform Example.filled).all Example.saves = true := by
    decide +kernel
  have hrun : ∀ e ∈ log Reference.platform Example.filled,
      Answered Reference.platform e.before e.input ∧ 0 ∉ e.input.request.target := fun e he =>
    ⟨hanswered e he, of_decide_eq_true (List.all_eq_true.mp hnul e he)⟩
  refine ⟨hrun, fun s hs => ?_⟩
  obtain ⟨doc, hsave, hreload⟩ := restores flushText_reference Example.write (lit "pichi.json")
    Example.filled Example.filled hrun hrun s hs
  have hsaved := List.all_eq_true.mp hsaves s hs
  rw [Example.saves, hsave] at hsaved
  have htext := Example.readable_of_check hsaved
  exact ⟨doc, hsave, htext, hreload htext⟩

end Server

end Pichi
