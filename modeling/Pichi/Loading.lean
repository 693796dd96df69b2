/-
# Loading a configuration

`HttpClient::update` of `server/run.cpp`: the entries of one category of the configuration are
put one after another, each under the target that is made of the category and its name, and an
entry whose request is not answered by `204` is reported.

The name is put into the target as it is, while the server reads a question mark and a hash in
a target as the end of the name, and so it reads a slash at the end of the name of an ingress.

`loads_iff`: every entry of an object is reported, or stored under its name, in every state of
every run, if and only if the object has no entry that would be accepted and whose name the
server cuts.
-/
import Pichi.Addressing
import Pichi.Flush

namespace Pichi

open Target

namespace Server

/-! ## The client -/

/-- The texts `INGRESSES`, `EGRESSES` and `RULES`. -/
def category : Collection → String
  | .ingresses => "ingresses"
  | .egresses => "egresses"
  | .rules => "rules"

variable (p : Platform) (toString : Json → Bytes) (env : ℕ → Acceptors) (c : Collection)

/-- `std::format("/{}/{}", category, name)`. -/
def entryTarget (name : Bytes) : Bytes := 47 :: lit (category c) ++ 47 :: name

/-- The request for an entry; `toString` is `vo::toString`. -/
def entryRequest (node : Bytes × Json) : Request :=
  ⟨.put, entryTarget c (cString node.1), toString node.2⟩

/-- `put`, with what the operating system answers to it. -/
def putOn (acceptors : Acceptors) (req : Request) : Client Status := fun s =>
  let out := handle p s ⟨req, acceptors⟩
  ((reply p out.1).map (·.status), out.2)

/-- The body of the loop of `update`: the line that is reported, if any. -/
def loadNode (acceptors : Acceptors) (node : Bytes × Json) : Client (Option Bytes) := do
  let status ← putOn p acceptors (entryRequest toString c node)
  if status ≠ .noContent then
    return some (lit "  " ++ entryTarget c (cString node.1) ++ lit " NOT loaded.\n")
  else return none

/-- The loop of `update`; `env k` is what the operating system answers to the `k`-th request. -/
def loadNodes : ℕ → List (Bytes × Json) → Client (List Bytes)
  | _, [] => return []
  | k, node :: nodes => do
    let line ← loadNode p toString c (env k) node
    let lines ← loadNodes (k + 1) nodes
    return line.toList ++ lines

/-- `HttpClient::update`, with the lines it writes to the log. -/
def update (root : Json) : Client (List Bytes) :=
  match root.member? (category c) with
  | some (.obj nodes) => loadNodes p toString env c 0 nodes
  | _ => return [lit "  " ++ lit (category c) ++ lit " NOT loaded\n"]

/-! ## What is to hold -/

/-- One entry is loaded from a state: it is reported, or it is stored under its name with the
value its body is parsed to; and no other entry changes. -/
structure Loaded (acceptors : Acceptors) (node : Bytes × Json) (s : Server) : Prop where
  here : (∃ line, (loadNode p toString c acceptors node s).1 = .ok (some line))
    ∨ ∃ v, c.resource p acceptors node.1 (entryRequest toString c node) = .ok v
      ∧ c.entry (loadNode p toString c acceptors node s).2 node.1 = some v
  others : ∀ c' name', ¬(c' = c ∧ name' = node.1) →
    Collection.entry c' (loadNode p toString c acceptors node s).2 name'
      = Collection.entry c' s name'

/-- Every entry of an object is loaded, from the state in which the entries before it have left
the server. -/
def Loads (nodes : List (Bytes × Json)) (s : Server) : Prop :=
  ∀ k node lines s', nodes[k]? = some node →
    loadNodes p toString env c 0 (nodes.take k) s = (.ok lines, s') →
    Loaded p toString c (env k) node s'

/-- The characters of a name that needs no care on the way: printable, and no space. -/
def Printable (name : Bytes) : Prop := ∀ x ∈ name, 33 ≤ x ∧ x ≤ 126

/-- The server cuts a name: it takes a part for the name, and what is behind it for a query, or
for the optional slash. -/
def Cuts (name : Bytes) : Prop :=
  name.takeWhile c.cls ≠ [] ∧ name.dropWhile c.cls ≠ [] ∧ IsTail (name.dropWhile c.cls)

variable {p toString env c} {s : Server} {acceptors : Acceptors} {node : Bytes × Json}

theorem entryTarget_eq (c : Collection) (name : Bytes) :
    entryTarget c name = lit c.path ++ 47 :: name := by
  cases c with
  | ingresses => rfl
  | egresses => rfl
  | rules => rfl

theorem cString_of_printable {name : Bytes} (h : Printable name) : cString name = name := by
  rw [cString_eq_self_iff]
  intro hzero
  exact absurd (h 0 hzero).1 (by decide)

/-! ## One entry -/

/-- Whether a body is accepted does not depend on the name. -/
theorem resource_eq_error_of_name {name name' : Bytes} {req : Request} {e : SystemError}
    (h : c.resource p acceptors name req = .error e) :
    c.resource p acceptors name' req = .error e := by
  cases c with
  | ingresses =>
      simp only [Collection.resource] at h ⊢
      cases hbody : parseBody p (Ingress.parse p) req with
      | error e' =>
          rw [hbody] at h
          exact h
      | ok vo =>
          rw [hbody] at h
          change (vo.bind.zipIdx.mapM (openAcceptor p acceptors) >>= _) = _ at h
          show (vo.bind.zipIdx.mapM (openAcceptor p acceptors) >>= _) = _
          cases hopen : vo.bind.zipIdx.mapM (openAcceptor p acceptors) with
          | error e' =>
              rw [hopen] at h
              exact h
          | ok us =>
              rw [hopen] at h
              cases h
  | egresses => exact h
  | rules => exact h

/-- No error is answered by `204`. -/
theorem status_genError (p : Platform) (ec : ErrorCode) : (genError p ec).status ≠ .noContent := by
  rw [genError]
  dsimp only [genBody]
  split
  · decide
  · split
    · decide
    · split
      · decide
      · split
        · decide
        · decide

/-- A request that is answered otherwise than by `204` is reported. -/
theorem loadNode_of_reply {r : Response} {s' : Server} {out : Result Response}
    (hhandle : handle p s ⟨entryRequest toString c node, acceptors⟩ = (out, s'))
    (hreply : reply p out = .ok r) :
    ∃ line, loadNode p toString c acceptors node s = (.ok line, s')
      ∧ (line.isSome = true ↔ r.status ≠ .noContent) := by
  have hput : putOn p acceptors (entryRequest toString c node) s = (.ok r.status, s') := by
    simp only [putOn, hhandle, hreply]
    rfl
  rw [loadNode, Transfer.bind_of_ok hput]
  by_cases hstatus : r.status ≠ .noContent
  · rw [if_pos hstatus]
    exact ⟨_, rfl, by simp [hstatus]⟩
  · rw [if_neg hstatus]
    exact ⟨none, rfl, by simp [hstatus]⟩

/-- The state behind an entry is the one behind its request, answered or not. -/
theorem state_loadNode : (loadNode p toString c acceptors node s).2
    = (handle p s ⟨entryRequest toString c node, acceptors⟩).2 := by
  generalize hhandle : handle p s ⟨entryRequest toString c node, acceptors⟩ = out
  obtain ⟨out, s'⟩ := out
  cases hreply : reply p out with
  | ok r =>
      obtain ⟨line, hload, -⟩ := loadNode_of_reply hhandle hreply
      rw [hload]
  | error f =>
      have hput : putOn p acceptors (entryRequest toString c node) s = (.error f, s') := by
        simp only [putOn, hhandle, hreply]
        rfl
      rw [loadNode, Transfer.bind_of_error hput]

/-- Where a request is refused and nothing changes, the entry is reported. -/
theorem loaded_of_refused {out : Result Response} {r : Response}
    (hhandle : handle p s ⟨entryRequest toString c node, acceptors⟩ = (out, s))
    (hreply : reply p out = .ok r) (hstatus : r.status ≠ .noContent) :
    Loaded p toString c acceptors node s := by
  obtain ⟨line, hload, hline⟩ := loadNode_of_reply hhandle hreply
  obtain ⟨text, rfl⟩ := Option.isSome_iff_exists.mp (hline.mpr hstatus)
  refine ⟨Or.inl ⟨text, by rw [hload]⟩, fun c' name' _ => ?_⟩
  rw [hload]

/-- A `PUT` to a collection as a whole, or to a target that is not known, is refused. -/
theorem handle_put_of_no_member {i : Arrival} (hput : i.request.method = .put)
    (h : Target.of i.request.target = c.whole ∨ Target.of i.request.target = .unknown) :
    handle p s i = (.ok (genResp .notFound), s) := by
  rcases h with h | h
  · cases c with
    | ingresses =>
        rw [Collection.whole] at h
        simp only [handle, h, handleCollection, hput]
    | egresses =>
        rw [Collection.whole] at h
        simp only [handle, h, handleCollection, hput]
    | rules =>
        rw [Collection.whole] at h
        simp only [handle, h, handleCollection, hput]
  · simp only [handle, h]

theorem target_entryRequest (toString : Json → Bytes) (c : Collection)
    (hname : Printable node.1) :
    (entryRequest toString c node).target = lit c.path ++ 47 :: node.1 := by
  show entryTarget c (cString node.1) = _
  rw [cString_of_printable hname, entryTarget_eq]

/-- **What becomes of one entry**, in any state of the server. -/
theorem loaded_of_not_cuts (hname : Printable node.1)
    (h : ¬(Cuts c node.1 ∧ ∃ v, c.resource p acceptors node.1 (entryRequest toString c node)
      = .ok v)) :
    Loaded p toString c acceptors node s := by
  have htarget := target_entryRequest toString c hname
  rcases c.of_path_cases node.1 with ⟨hne, htail, hof⟩ | ⟨-, hof⟩
  · rw [← htarget] at hof
    have hhandle : handle p s ⟨entryRequest toString c node, acceptors⟩
        = c.handleAt p s ⟨entryRequest toString c node, acceptors⟩ (node.1.takeWhile c.cls) :=
      Collection.handle_of_member hof
    cases hres : c.resource p acceptors node.1 (entryRequest toString c node) with
    | error e =>
        rw [Collection.handleAt_put_of_error rfl (resource_eq_error_of_name hres)] at hhandle
        exact loaded_of_refused hhandle rfl (status_genError p e.code)
    | ok v =>
        -- the name is not cut, so that it is the one that was taken out
        have hdrop : node.1.dropWhile c.cls = [] := by
          by_contra hdrop
          exact h ⟨⟨hne, hdrop, htail⟩, v, hres⟩
        have hwhole : node.1.takeWhile c.cls = node.1 := by
          have hsplit := List.takeWhile_append_dropWhile (p := c.cls) (l := node.1)
          rwa [hdrop, List.append_nil] at hsplit
        rw [hwhole] at hhandle
        refine ⟨Or.inr ⟨v, hres, ?_⟩, fun c' name' hother => ?_⟩
        · rw [state_loadNode, hhandle]
          exact Collection.entry_handleAt_put_of_ok rfl hres
        · rw [state_loadNode, hhandle]
          exact Collection.entry_handleAt_of_ne p s _ hother
  · rw [← htarget] at hof
    exact loaded_of_refused (handle_put_of_no_member rfl hof) rfl (by decide)

/-! ## A server whose route names no rule -/

/-- A state in which every request of a configuration is answered, and that has no name the
server does not read. -/
structure Unrouted (s : Server) : Prop where
  route_eq : s.route = initial.route
  direct : ((Collection.entry .egresses s) defaultEgressName).isSome = true
  names : ∀ c name, (Collection.entry c s name).isSome = true → ∀ x ∈ name, c.cls x = true

theorem unrouted_initial : Unrouted initial where
  route_eq := rfl
  direct := by
    show ((initial.egresses.lookup defaultEgressName).map _).isSome = true
    rfl
  names := by
    intro c name hsome x hx
    cases c with
    | ingresses => cases hsome
    | egresses =>
        obtain ⟨vo, hvo⟩ := Option.isSome_iff_exists.mp hsome
        obtain ⟨egress, hegress, -⟩ := Option.map_eq_some_iff.mp hvo
        exact ((stored_initial (p := Reference.platform)).egresses name egress hegress).1.cls x hx
    | rules => cases hsome

/-- No operation on a resource changes the route. -/
theorem route_handleAt (c : Collection) (i : Arrival) (name : Bytes) :
    (c.handleAt p s i name).2.route = s.route := by
  cases c with
  | ingresses =>
      rw [Collection.handleAt, handleIngress]
      split
      · rfl
      · rfl
      · split
        · rfl
        · split
          · rfl
          · rfl
      · rfl
  | egresses =>
      rw [Collection.handleAt, handleEgress]
      split
      · split
        · rfl
        · rfl
        · rfl
      · rfl
      · split
        · rfl
        · dsimp only
          split
          · rfl
          · exact finish_tables.2.2
          · rfl
      · rfl
  | rules =>
      rw [Collection.handleAt, handleRule]
      split
      · split
        · rfl
        · rfl
      · rfl
      · split
        · rfl
        · dsimp only
          split
          · exact finish_tables.2.2
          · rfl
      · rfl

/-- The router of the initial route can always be built. -/
theorem finish_of_initial {egress : Egress} (hroute : s.route = initial.route)
    (hdirect : s.egresses.lookup defaultEgressName = some egress) :
    (finish p s).1 = .ok (genResp .noContent) := by
  have hmake : Router.make p s.egresses s.rules s.route
      = .ok ⟨[], (lit "*", defaultEgressName, egress)⟩ := by
    rw [hroute, Router.make]
    show (s.egresses.at defaultEgressName >>= _) = _
    rw [ValueMap.at, hdirect]
    rfl
  rw [finish_of_ok hmake]

/-- What is accepted is answered by `204`. -/
theorem Unrouted.handleAt_put (hs : Unrouted s) {i : Arrival} {name : Bytes} {v : Resource}
    (hput : i.request.method = .put) (hres : c.resource p i.acceptors name i.request = .ok v) :
    (c.handleAt p s i name).1 = .ok (genResp .noContent) := by
  cases c with
  | ingresses =>
      obtain ⟨vo, hbody, hres⟩ := bind_eq_ok_iff.mp hres
      obtain ⟨us, hopen, hres⟩ := bind_eq_ok_iff.mp hres
      simp only [Collection.handleAt, handleIngress, hput, hbody, Listener.make, hopen]
      rfl
  | egresses =>
      obtain ⟨vo, hbody, hres⟩ := bind_eq_ok_iff.mp hres
      simp only [Collection.handleAt, handleEgress, hput, hbody]
      split
      · rename_i f huse
        have hnone := (egressInUse_eq_error (s := s) huse).1
        rw [hs.route_eq] at hnone
        cases hnone
      · rename_i huse
        obtain rfl : name = defaultEgressName := by
          rw [hs.route_eq, egressInUse_of_some (s := initial) rfl] at huse
          simpa [initial, eq_comm] using huse
        exact finish_of_initial hs.route_eq (AList.lookup_insert _)
      · rfl
  | rules =>
      obtain ⟨vo, hbody, hres⟩ := bind_eq_ok_iff.mp hres
      have huse : ruleInUse s.route name = false := by
        rw [hs.route_eq]
        rfl
      simp only [Collection.handleAt, handleRule, hput, hbody, huse]
      rfl

/-- A request for a name the server reads. -/
theorem Unrouted.handle_member (hs : Unrouted s) {i : Arrival} {name : Bytes}
    (hput : i.request.method = .put) (hof : Target.of i.request.target = c.member name)
    (hcls : ∀ x ∈ name, c.cls x = true) :
    (∃ r, reply p (handle p s i).1 = .ok r) ∧ Unrouted (handle p s i).2 := by
  rw [Collection.handle_of_member hof]
  cases hres : c.resource p i.acceptors name i.request with
  | error e =>
      rw [Collection.handleAt_put_of_error hput hres]
      exact ⟨⟨_, rfl⟩, hs⟩
  | ok v =>
      refine ⟨⟨genResp .noContent, by rw [hs.handleAt_put hput hres]; rfl⟩, ?_, ?_, ?_⟩
      · rw [route_handleAt, hs.route_eq]
      · by_cases hsame : Collection.egresses = c ∧ defaultEgressName = name
        · obtain ⟨rfl, rfl⟩ := hsame
          rw [Collection.entry_handleAt_put_of_ok hput hres]
          rfl
        · rw [Collection.entry_handleAt_of_ne p s i hsame]
          exact hs.direct
      · intro c' name' hsome
        by_cases hsame : c' = c ∧ name' = name
        · obtain ⟨rfl, rfl⟩ := hsame
          exact hcls
        · rw [Collection.entry_handleAt_of_ne p s i hsame] at hsome
          exact hs.names c' name' hsome

/-- Every entry is answered. -/
theorem Unrouted.load (p : Platform) (toString : Json → Bytes) (c : Collection)
    (acceptors : Acceptors) (hs : Unrouted s) (hname : Printable node.1) :
    ∃ line s', loadNode p toString c acceptors node s = (.ok line, s') ∧ Unrouted s' := by
  have htarget := target_entryRequest toString c hname
  have hanswer : (∃ r, reply p (handle p s ⟨entryRequest toString c node, acceptors⟩).1 = .ok r)
      ∧ Unrouted (handle p s ⟨entryRequest toString c node, acceptors⟩).2 := by
    rcases c.of_path_cases node.1 with ⟨-, -, hof⟩ | ⟨-, hof⟩
    · rw [← htarget] at hof
      exact hs.handle_member rfl hof fun x hx => List.mem_takeWhile_imp hx
    · rw [← htarget] at hof
      rw [handle_put_of_no_member rfl hof]
      exact ⟨⟨_, rfl⟩, hs⟩
  obtain ⟨⟨r, hreply⟩, hs'⟩ := hanswer
  obtain ⟨line, hload, -⟩ := loadNode_of_reply (Prod.eta _).symm hreply
  exact ⟨line, _, hload, hs'⟩

theorem Unrouted.loadNodes (p : Platform) (toString : Json → Bytes) (env : ℕ → Acceptors)
    (c : Collection) (nodes : List (Bytes × Json)) :
    ∀ {k : ℕ} {s : Server}, Unrouted s → (∀ node ∈ nodes, Printable node.1) →
      ∃ lines s', Server.loadNodes p toString env c k nodes s = (.ok lines, s') ∧ Unrouted s' := by
  induction nodes with
  | nil =>
      intro k s hs _
      exact ⟨[], s, rfl, hs⟩
  | cons node nodes ih =>
      intro k s hs hnames
      obtain ⟨line, s₁, hload, hs₁⟩ := hs.load p toString c (env k) (hnames node (by simp))
      obtain ⟨lines, s₂, hloads, hs₂⟩ := ih (k := k + 1) hs₁ fun node' hnode' =>
        hnames node' (by simp [hnode'])
      refine ⟨line.toList ++ lines, s₂, ?_, hs₂⟩
      rw [Server.loadNodes, Transfer.bind_of_ok hload, Transfer.bind_of_ok hloads]
      rfl

/-- A name that is cut, with a body that is accepted, is neither reported nor stored. -/
theorem Unrouted.not_loaded (hs : Unrouted s) (hname : Printable node.1) {v : Resource}
    (hcuts : Cuts c node.1)
    (hres : c.resource p acceptors node.1 (entryRequest toString c node) = .ok v) :
    ¬Loaded p toString c acceptors node s := by
  intro hloaded
  have htarget := target_entryRequest toString c hname
  rcases c.of_path_cases node.1 with ⟨hne, htail, hof⟩ | ⟨hnot, -⟩
  · rw [← htarget] at hof
    have hhandle : handle p s ⟨entryRequest toString c node, acceptors⟩
        = c.handleAt p s ⟨entryRequest toString c node, acceptors⟩ (node.1.takeWhile c.cls) :=
      Collection.handle_of_member hof
    rcases hloaded.here with ⟨line, hline⟩ | ⟨v', -, hstored⟩
    · -- the request is answered by `204`
      have hanswer : (handle p s ⟨entryRequest toString c node, acceptors⟩).1
          = .ok (genResp .noContent) := by
        rw [hhandle]
        cases hres' : c.resource p acceptors (node.1.takeWhile c.cls)
            (entryRequest toString c node) with
        | error e =>
            rw [resource_eq_error_of_name hres'] at hres
            cases hres
        | ok v' => exact hs.handleAt_put rfl hres'
      obtain ⟨line', hload, hstatus⟩ := loadNode_of_reply (r := genResp .noContent)
        (Prod.eta _).symm (by rw [hanswer]; rfl)
      rw [hload] at hline
      cases hline
      exact hstatus.mp rfl rfl
    · -- the name that was stored is another one, and no table has this one
      have hother : ¬(c = c ∧ node.1 = node.1.takeWhile c.cls) := by
        rintro ⟨-, heq⟩
        apply hcuts.2.1
        have hsplit := List.takeWhile_append_dropWhile (p := c.cls) (l := node.1)
        rw [← heq] at hsplit
        exact List.append_right_eq_self.mp hsplit
      rw [state_loadNode, hhandle, Collection.entry_handleAt_of_ne p s _ hother] at hstored
      have hcls := hs.names c node.1 (by rw [hstored]; rfl)
      exact hcuts.2.1 (List.dropWhile_eq_nil_iff.mpr hcls)
  · exact absurd ⟨hcuts.1, hcuts.2.2⟩ hnot

/-! ## Every run -/

/-- **When a configuration is loaded.**  For every object with printable names, whatever the
operating system answers: every entry is reported or stored under its name, and changes no
other entry, from every state of the server, if and only if no entry has both a name that the
server cuts and a body that is accepted. -/
theorem loads_iff (p : Platform) (toString : Json → Bytes) (env : ℕ → Acceptors)
    (c : Collection) {root : Json} {nodes : List (Bytes × Json)}
    (hroot : root.member? (category c) = some (.obj nodes))
    (hnames : ∀ node ∈ nodes, Printable node.1) :
    update p toString env c root = loadNodes p toString env c 0 nodes
      ∧ ((∀ s, Loads p toString env c nodes s)
        ↔ ∀ k node, nodes[k]? = some node → ¬(Cuts c node.1
          ∧ ∃ v, c.resource p (env k) node.1 (entryRequest toString c node) = .ok v)) := by
  refine ⟨by rw [update, hroot], ?_, ?_⟩
  · rintro hloads k node hnode ⟨hcuts, v, hres⟩
    obtain ⟨lines, s, hrun, hs⟩ := unrouted_initial.loadNodes p toString env c
      (nodes.take k) (k := 0) fun node' hnode' => hnames node' (List.mem_of_mem_take hnode')
    exact hs.not_loaded (hnames node (List.mem_of_getElem? hnode)) hcuts hres
      (hloads initial k node lines s hnode hrun)
  · intro h s k node lines s' hnode _
    exact loaded_of_not_cuts (hnames node (List.mem_of_getElem? hnode)) (h k node hnode)

/-- The member of a configuration that is a direct egress, and the only text it needs. -/
def Example.direct (name : String) : Bytes × Json :=
  field name (.obj [field "type" (nameToJson "direct")])

def Example.configuration (name : String) : Json :=
  .obj [field "egresses" (.obj [Example.direct name])]

def Example.text (_ : Json) : Bytes := directBody

def Example.answers (_ _ : ℕ) : Option ErrorCode := none

theorem Example.resource_direct {req : Request} (name : Bytes) (h : req.body = directBody) :
    Collection.resource .egresses Reference.platform (Example.answers 0) name req
      = .ok (.egress directEgress) := by
  simp only [Collection.resource, parseBody, h, Platform.document, flushText_reference.direct]
  rfl

/-- A name with a slash is stored as it is. -/
theorem loads_iff_example :
    update Reference.platform Example.text Example.answers .egresses (Example.configuration "a/b")
        = loadNodes Reference.platform Example.text Example.answers .egresses 0
          [Example.direct "a/b"]
      ∧ ∀ s, Loads Reference.platform Example.text Example.answers .egresses
        [Example.direct "a/b"] s := by
  have hroot : (Example.configuration "a/b").member? (category .egresses)
      = some (.obj [Example.direct "a/b"]) := rfl
  have hnames : ∀ node ∈ [Example.direct "a/b"], Printable node.1 := by
    intro node hnode
    obtain rfl := List.mem_singleton.mp hnode
    exact forall_mem_of_all (by decide)
  obtain ⟨hupdate, hloads⟩ :=
    loads_iff Reference.platform Example.text Example.answers .egresses hroot hnames
  refine ⟨hupdate, hloads.mpr ?_⟩
  rintro k node hnode ⟨⟨-, hdrop, -⟩, -⟩
  obtain rfl := List.mem_singleton.mp (List.mem_of_getElem? hnode)
  exact hdrop rfl

theorem Example.printable : Printable (Example.direct "a?b").1 :=
  forall_mem_of_all (by decide)

theorem Example.isTail : IsTail [63, 98] := by
  refine Or.inl (Or.inr ⟨63, [98], rfl, Or.inl rfl, fun y hy => ?_⟩)
  rw [List.mem_singleton.mp hy]
  decide

/-- The request for the entry `a?b` is one for the egress `a`. -/
theorem Example.of_node :
    Target.of (entryRequest Example.text .egresses (Example.direct "a?b")).target
      = Collection.member .egresses [97] := by
  have hname : ∀ x ∈ ([97] : Bytes), Collection.egresses.cls x = true := by
    intro x hx
    rw [List.mem_singleton.mp hx]
    rfl
  have hhead : ∀ x ∈ ([63, 98] : Bytes).head?, Collection.egresses.cls x = false := by
    intro x hx
    cases hx
    rfl
  have hof := Collection.of_member .egresses (by simp) hname Example.isTail hhead
  rw [target_entryRequest Example.text .egresses Example.printable]
  exact hof

/-- The entry `a?b` is stored under the name `a`, and nothing is reported. -/
theorem loads_counterexample :
    (∃ s, update Reference.platform Example.text Example.answers .egresses
        (Example.configuration "a?b") initial = (.ok [], s)
      ∧ Collection.entry .egresses s (lit "a") = some (.egress directEgress)
      ∧ Collection.entry .egresses s (lit "a?b") = none)
    ∧ ¬∀ s, Loads Reference.platform Example.text Example.answers .egresses
      [Example.direct "a?b"] s := by
  let i : Arrival :=
    ⟨entryRequest Example.text .egresses (Example.direct "a?b"), Example.answers 0⟩
  constructor
  · have hhandle : handle Reference.platform initial i
        = Collection.handleAt .egresses Reference.platform initial i [97] :=
      Collection.handle_of_member Example.of_node
    have hres : Collection.resource .egresses Reference.platform (Example.answers 0) [97] i.request
        = .ok (.egress directEgress) := Example.resource_direct [97] rfl
    have hanswer := unrouted_initial.handleAt_put (i := i) rfl hres
    have hstored := Collection.entry_handleAt_put_of_ok (s := initial) (i := i) rfl hres
    have hne : ¬(Collection.egresses = .egresses ∧ lit "a?b" = [97]) := by decide
    have hother := Collection.entry_handleAt_of_ne Reference.platform initial i hne
    generalize hout : Collection.handleAt .egresses Reference.platform initial i [97] = out
      at hhandle hanswer hstored hother
    obtain ⟨out, s⟩ := out
    obtain rfl : out = .ok (genResp .noContent) := hanswer
    obtain ⟨line, hload, hline⟩ := loadNode_of_reply (r := genResp .noContent) hhandle rfl
    obtain rfl : line = none := by
      cases line with
      | none => rfl
      | some text => exact absurd rfl (hline.mp rfl)
    refine ⟨s, ?_, hstored, hother⟩
    have hnodes : Json.member? (category .egresses) (Example.configuration "a?b")
        = some (.obj [Example.direct "a?b"]) := rfl
    rw [update, hnodes]
    show loadNodes _ _ _ _ 0 _ initial = _
    rw [loadNodes, Transfer.bind_of_ok hload]
    rfl
  · intro hloads
    have hres : Collection.resource .egresses Reference.platform (Example.answers 0)
        (Example.direct "a?b").1 i.request = .ok (.egress directEgress) :=
      Example.resource_direct _ rfl
    have hcuts : Cuts .egresses (Example.direct "a?b").1 :=
      ⟨by decide, by decide, Example.isTail⟩
    exact unrouted_initial.not_loaded Example.printable hcuts hres
      (hloads initial 0 (Example.direct "a?b") [] initial rfl rfl)

end Server

end Pichi
