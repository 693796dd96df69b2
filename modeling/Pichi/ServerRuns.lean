/-
# Runs of the server

What holds in every state of every run of the server, for any sequence of requests:

* `integrity_iff`: the route names entries of the tables and has a default, in
  exactly the runs in which no accepted `PUT /route` lacks a default;
* `failed_requests_change_nothing_iff`: a request that leaves by an exception changes
  nothing, in exactly the runs in which a router is only ever rebuilt from rules whose
  ranges are networks and whose patterns are regular expressions;
* `requests_survive_iff`: every request is answered or leaves by `system_error`, in
  exactly the runs in which no rebuild stops at a pattern first and no absent default is
  looked at;
* `live_router_up_to_date`: as long as requests are answered, the router is the one that
  would be built from the current tables.

Each of the first three comes with a run in which the property fails.
-/
import Pichi.ServerSteps

namespace Pichi

namespace Server

open EventLog (events_invariant events_forall_iff step_of_mem_events)

variable {p : Platform} {s s₁ : Server} {i : Arrival}

/-! ## Referential integrity -/

/-- The route has a default that is an egress, and names rules and egresses of the
tables. -/
def Integrity (s : Server) : Prop :=
  (∃ d, s.route.default = some d ∧ d ∈ s.egresses) ∧ s.route.Known s.egresses s.rules

/-- The request is a `PUT /route` whose body has no default and passes the checks. -/
def DropsDefault (p : Platform) (s : Server) (i : Arrival) : Prop :=
  ∃ route, Target.of i.request.target = .route ∧ i.request.method = .put
    ∧ parseBody p Route.parse i.request = .ok route ∧ route.default = none
    ∧ route.Known s.egresses s.rules

theorem integrity_of_consistent (hs : s.Consistent) (hd : s.route.default.isSome = true) :
    s.Integrity := by
  obtain ⟨d, hd⟩ := Option.isSome_iff_exists.mp hd
  exact ⟨⟨d, hd, hs.default d hd⟩, hs.known⟩

/-- A request that does not drop the default keeps it. -/
theorem default_handle (hs : s.route.default.isSome = true) (h : ¬DropsDefault p s i) :
    (handle p s i).2.route.default.isSome = true := by
  have hstep := handle_step p s i
  generalize (handle p s i).1 = out at hstep
  generalize (handle p s i).2 = s' at hstep
  cases hstep with
  | answer hout => exact hs
  | listeners hwt => exact hs
  | egresses hd hne hunused hother hwt => exact hs
  | rules hunused hother => exact hs
  | undefined hlook hd hkeys hwt => exact hs
  | rebuild hrebuild =>
      rw [finish_tables.2.2]
      cases hrebuild with
      | egress htarget hput hbody huse => exact hs
      | rule htarget hput hbody huse => exact hs
      | @route route htarget hput hbody hcheck =>
          by_contra hnone
          have hdefault : route.default = none := by simpa using hnone
          exact h ⟨route, htarget, hput, hbody, hdefault, (known_of_checkRoute hcheck).1⟩

/-- A request that drops the default leaves a route without one. -/
theorem default_handle_of_drops (h : DropsDefault p s i) :
    (handle p s i).2.route.default = none := by
  obtain ⟨route, htarget, hput, hbody, hnone, hknown⟩ := h
  have hcheck : checkRoute s route = .ok () :=
    checkRoute_eq_ok_iff.mpr ⟨hknown, by simp [hnone]⟩
  rw [handle_of_rebuilds (.route htarget hput hbody hcheck), finish_tables.2.2]
  exact hnone

/-- **Referential integrity**, and the one way to lose it. -/
theorem integrity_iff (p : Platform) (is : List Arrival) :
    (∀ s ∈ states p is, s.Integrity) ↔ ∀ e ∈ log p is, ¬DropsDefault p e.before e.input := by
  have hinit : initial.Consistent ∧ initial.route.default.isSome = true :=
    ⟨consistent_initial, rfl⟩
  have hrun : (∀ e ∈ log p is, e.after.Integrity) ↔
      ∀ e ∈ log p is, ¬DropsDefault p e.before e.input := by
    refine events_forall_iff (fun s => s.Consistent ∧ s.route.default.isSome = true)
      (fun s i => ¬DropsDefault p s i) _ (fun s i hs hC => ?_) (fun s i hs => ?_) hinit
    · exact ⟨consistent_handle hs.1, default_handle hs.2 hC⟩
    · constructor
      · rintro ⟨⟨d, hd, -⟩, -⟩ hdrops
        rw [default_handle_of_drops hdrops] at hd
        cases hd
      · intro hC
        exact integrity_of_consistent (consistent_handle hs.1) (default_handle hs.2 hC)
  rw [← hrun, states, List.forall_mem_cons, List.forall_mem_map]
  exact and_iff_right (integrity_of_consistent hinit.1 hinit.2)

/-- A `PUT` request. -/
def put (target body : String) : Arrival :=
  { request := { method := .put, target := lit target, body := lit body } }

/-- A rule with a range that is not a network is stored; a route that uses it and has no
default is then accepted, written, and answered with an error. -/
theorem integrity_counterexample :
    ¬∀ s ∈ states Reference.platform [put "/rules/bad" "\x7b\"range\":[\"x\"]\x7d",
      put "/route" "\x7b\"rules\":[[\"bad\",\"direct\"]]\x7d"], s.Integrity := by
  intro h
  have hnone : (states Reference.platform [put "/rules/bad" "\x7b\"range\":[\"x\"]\x7d",
      put "/route" "\x7b\"rules\":[[\"bad\",\"direct\"]]\x7d"]).any
      (fun s => s.route.default.isNone) = true := by decide +kernel
  obtain ⟨s, hs, hdefault⟩ := List.any_eq_true.mp hnone
  obtain ⟨⟨d, hd, -⟩, -⟩ := h s hs
  rw [hd] at hdefault
  cases hdefault

/-! ## Failed requests -/

/-- A request that leaves by an exception leaves everything as it was. -/
def Unchanged (e : EventLog.Event Server Arrival (Result Response)) : Prop :=
  ∀ x, e.output = .error (.thrown x) → e.after = e.before

/-- If the request rebuilds the router, then from rules that can be turned into matchers:
every range is a network and every pattern a regular expression. -/
def RebuildsValid (p : Platform) (s : Server) (i : Arrival) : Prop :=
  ∀ s₁, Rebuilds p s i s₁ → s₁.route.Builds p s₁.rules

/-- A rule that is not in use does not matter to the route. -/
theorem builds_of_lookup_eq {route : Route} {rules rules' : ValueMap Rule}
    (h : ∀ item ∈ route.rules, ∀ rn ∈ item.1, rules'.lookup rn = rules.lookup rn)
    (hb : route.Builds p rules) : route.Builds p rules' := by
  intro entry hentry rule hrule
  obtain ⟨item, hitem, he⟩ := List.mem_flatMap.mp hentry
  obtain ⟨rn, hrn, rfl⟩ := List.mem_map.mp he
  rw [h item hitem rn hrn] at hrule
  exact hb _ hentry rule hrule

/-- Valid rebuilds keep the rules of the route valid. -/
theorem builds_handle (hs : s.route.Builds p s.rules) (h : RebuildsValid p s i) :
    (handle p s i).2.route.Builds p (handle p s i).2.rules := by
  have hstep := handle_step p s i
  generalize (handle p s i).1 = out at hstep
  generalize (handle p s i).2 = s' at hstep
  cases hstep with
  | answer hout => exact hs
  | listeners hwt => exact hs
  | egresses hd hne hunused hother hwt => exact hs
  | undefined hlook hd hkeys hwt => exact hs
  | rules hunused hother =>
      exact builds_of_lookup_eq (fun item hitem rn hrn => hother _ (hunused item hitem rn hrn)) hs
  | rebuild hrebuild =>
      rw [finish_tables.2.1, finish_tables.2.2]
      exact h _ hrebuild

/-- A rebuild from consistent tables throws exactly when a rule of the route cannot be
turned into a matcher. -/
theorem finish_throws_iff (hs : s.Consistent) :
    (∃ x, (finish p s).1 = .error (.thrown x)) ↔ ¬s.route.Builds p s.rules := by
  rcases Router.make_cases (p := p) hs.known hs.default with
    ⟨hb, -, router, hmake⟩ | ⟨hb, -, hmake⟩ | ⟨hfirst, hmake⟩ | ⟨hb, -, hmake⟩
  · simp [finish_of_ok hmake, hb]
  · simp [finish_of_error hmake, hb]
  · simp [finish_of_error hmake, hfirst.not_builds, regexError]
  · simp [finish_of_error hmake, hb, semanticError]

/-- A request found in a state whose route builds leaves it unchanged when it fails,
exactly if it is no rebuild from a bad rule. -/
theorem unchanged_handle_iff (hs : s.Consistent) (hb : s.route.Builds p s.rules) :
    Unchanged ⟨s, i, (handle p s i).1, (handle p s i).2⟩ ↔ RebuildsValid p s i := by
  constructor
  · intro h s₁ hrebuild
    by_contra hnot
    obtain ⟨x, hx⟩ := (finish_throws_iff (consistent_of_rebuilds hs hrebuild)).mpr hnot
    -- a rebuild that throws leaves the tables it wrote; unchanged, they are the ones found
    have hafter : s₁ = s := by
      have hsame := h x (by rw [handle_of_rebuilds hrebuild]; exact hx)
      cases hmake : Router.make p s₁.egresses s₁.rules s₁.route with
      | ok router =>
          rw [finish_of_ok hmake] at hx
          cases hx
      | error f =>
          simpa [handle_of_rebuilds hrebuild, finish_of_error hmake] using hsame
    exact hnot (hafter ▸ hb)
  · intro h x hx
    have hstep := handle_step p s i
    simp only at hx ⊢
    generalize (handle p s i).1 = out at hstep hx
    generalize (handle p s i).2 = s' at hstep
    cases hstep with
    | answer hout => rfl
    | listeners hwt => cases hx
    | egresses hd hne hunused hother hwt => cases hx
    | rules hunused hother => cases hx
    | undefined hlook hd hkeys hwt => cases hx
    | rebuild hrebuild =>
        exact absurd (h _ hrebuild)
          ((finish_throws_iff (consistent_of_rebuilds hs hrebuild)).mp ⟨x, hx⟩)

/-- **Failed requests change nothing**, in exactly the runs in which routers are rebuilt
from valid rules.  A `PUT /route` that is accepted without a default is undefined behaviour and no
exception: such a request counts as one that did not fail, and the run goes on from the state in
which the route has no default. -/
theorem failed_requests_change_nothing_iff (p : Platform) (is : List Arrival) :
    (∀ e ∈ log p is, Unchanged e) ↔ ∀ e ∈ log p is, RebuildsValid p e.before e.input := by
  have hinit : initial.Consistent ∧ initial.route.Builds p initial.rules := by
    refine ⟨consistent_initial, ?_⟩
    intro entry hentry
    simp [initial, Route.entries] at hentry
  refine events_forall_iff (fun s => s.Consistent ∧ s.route.Builds p s.rules)
    (RebuildsValid p) Unchanged (fun s i hs hC => ?_) (fun s i hs => ?_) hinit
  · exact ⟨consistent_handle hs.1, builds_handle hs.2 hC⟩
  · exact unchanged_handle_iff hs.1 hs.2

/-- A rule is in use; it is replaced by one with a range that is not a network.  The
request is answered with an error, and the rule stays. -/
theorem failed_request_counterexample :
    ¬∀ e ∈ log Reference.platform [put "/rules/r" "\x7b\x7d",
      put "/route" "\x7b\"default\":\"direct\",\"rules\":[[\"r\",\"direct\"]]\x7d",
      put "/rules/r" "\x7b\"range\":[\"x\"]\x7d"], Unchanged e := by
  intro h
  have hfail : (log Reference.platform [put "/rules/r" "\x7b\x7d",
      put "/route" "\x7b\"default\":\"direct\",\"rules\":[[\"r\",\"direct\"]]\x7d",
      put "/rules/r" "\x7b\"range\":[\"x\"]\x7d"]).any (fun e =>
        (match e.output with
          | .error f => decide (f = .thrown (.systemError ⟨.pichi .semanticError, ""⟩))
          | .ok _ => false)
          && decide (e.after.rules.lookup (lit "r") ≠ e.before.rules.lookup (lit "r"))) = true := by
    decide +kernel
  obtain ⟨e, he, hboth⟩ := List.any_eq_true.mp hfail
  rw [Bool.and_eq_true, decide_eq_true_eq] at hboth
  obtain ⟨hthrown, hrules⟩ := hboth
  split at hthrown
  · rename_i f hf
    rw [of_decide_eq_true hthrown] at hf
    exact hrules (by rw [h e he _ hf])
  · cases hthrown

/-! ## Outcomes -/

/-- The request is answered, or leaves by `system_error`. -/
def Survived (e : EventLog.Event Server Arrival (Result Response)) : Prop :=
  (∃ resp, e.output = .ok resp) ∨ ∃ err, e.output = .error (.thrown (.systemError err))

/-- If the request rebuilds the router, then the first rule that cannot be turned into a
matcher, if any, has a bad range, and otherwise the route has a default; if it looks at the
default of the route found, there is one. -/
def Safe (p : Platform) (s : Server) (i : Arrival) : Prop :=
  (∀ s₁, Rebuilds p s i s₁ → ¬s₁.route.PatternFirst p s₁.rules
      ∧ (s₁.route.Builds p s₁.rules → s₁.route.default.isSome = true))
    ∧ (LooksAtDefault p i → s.route.default.isSome = true)

/-- The outcome of a rebuild from consistent tables. -/
theorem finish_survives_iff (hs : s.Consistent) (s₀ : Server) :
    Survived ⟨s₀, i, (finish p s).1, (finish p s).2⟩ ↔
      ¬s.route.PatternFirst p s.rules
        ∧ (s.route.Builds p s.rules → s.route.default.isSome = true) := by
  unfold Survived
  rcases Router.make_cases (p := p) hs.known hs.default with
    ⟨hb, hd, router, hmake⟩ | ⟨hb, hd, hmake⟩ | ⟨hfirst, hmake⟩ | ⟨hb, hfirst, hmake⟩
  -- one case for each way of building a router, in the order of `make_cases`
  · have hfirst : ¬s.route.PatternFirst p s.rules := fun h => h.not_builds hb
    simp [finish_of_ok hmake, hfirst, hd]
  · simp [finish_of_error hmake, hb, hd]
  · simp [finish_of_error hmake, hfirst, regexError]
  · simp [finish_of_error hmake, hfirst, hb, semanticError]

/-- Asking for the use of an egress without a default is undefined. -/
theorem handle_of_looksAtDefault (h : LooksAtDefault p i) (hd : s.route.default = none) :
    (handle p s i).1 = .error .undefinedBehaviour := by
  obtain ⟨ename, htarget, hdelete | ⟨hput, egress, hbody⟩⟩ := h
  · simp only [handle, htarget, handleEgress, hdelete, egressInUse_of_none hd]
  · have huse := egressInUse_of_none (s := { s with egresses := s.egresses.insert ename egress })
      hd ename
    simp only at huse
    simp only [handle, htarget, handleEgress, hput, hbody, huse]

theorem survived_handle_iff (hs : s.Consistent) :
    Survived ⟨s, i, (handle p s i).1, (handle p s i).2⟩ ↔ Safe p s i := by
  constructor
  · intro h
    refine ⟨fun s₁ hrebuild => ?_, fun hlook => ?_⟩
    · rw [handle_of_rebuilds hrebuild] at h
      exact (finish_survives_iff (consistent_of_rebuilds hs hrebuild) s).mp h
    · by_contra hnone
      have hd : s.route.default = none := by simpa using hnone
      rw [Survived, handle_of_looksAtDefault hlook hd] at h
      simp at h
  · rintro ⟨hrebuilds, hlooks⟩
    have hstep := handle_step p s i
    generalize (handle p s i).1 = out at hstep
    generalize (handle p s i).2 = s' at hstep
    cases hstep with
    | answer hout =>
        cases out with
        | ok resp => exact Or.inl ⟨resp, rfl⟩
        | error f =>
            obtain ⟨err, rfl⟩ := hout hs.wellTyped f rfl
            exact Or.inr ⟨err, rfl⟩
    | listeners hwt => exact Or.inl ⟨_, rfl⟩
    | egresses hd hne hunused hother hwt => exact Or.inl ⟨_, rfl⟩
    | rules hunused hother => exact Or.inl ⟨_, rfl⟩
    | rebuild hrebuild =>
        exact (finish_survives_iff (consistent_of_rebuilds hs hrebuild) s).mpr
          (hrebuilds _ hrebuild)
    | undefined hlook hd hkeys hwt =>
        have hsome := hlooks hlook
        rw [hd] at hsome
        cases hsome

/-- **Which requests the process survives.** -/
theorem requests_survive_iff (p : Platform) (is : List Arrival) :
    (∀ e ∈ log p is, Survived e) ↔ ∀ e ∈ log p is, Safe p e.before e.input :=
  events_forall_iff Consistent (Safe p) Survived (fun _ _ hs _ => consistent_handle hs)
    (fun _ _ hs => survived_handle_iff hs) consistent_initial

/-- A rule with a pattern that is not a regular expression is stored; the route that uses
it makes the constructor of the router leave by `std::regex_error`. -/
theorem requests_survive_counterexample :
    ¬∀ e ∈ log Reference.platform [put "/rules/r" "\x7b\"pattern\":[\"(\"]\x7d",
      put "/route" "\x7b\"default\":\"direct\",\"rules\":[[\"r\",\"direct\"]]\x7d"],
      Survived e := by
  intro h
  have hregex : (log Reference.platform [put "/rules/r" "\x7b\"pattern\":[\"(\"]\x7d",
      put "/route" "\x7b\"default\":\"direct\",\"rules\":[[\"r\",\"direct\"]]\x7d"]).any
      (fun e => match e.output with
        | .error f => decide (f = .thrown .regexError)
        | .ok _ => false) = true := by
    decide +kernel
  obtain ⟨e, he, hout⟩ := List.any_eq_true.mp hregex
  split at hout
  · rename_i f hf
    rw [of_decide_eq_true hout] at hf
    rcases h e he with ⟨resp, hresp⟩ | ⟨err, herr⟩
    · rw [hf] at hresp
      cases hresp
    · rw [hf] at herr
      cases herr
  · cases hout

/-! ## The live router -/

/-- The request is answered, and if it is a `PUT /route` then its body has a default. -/
def Answered (p : Platform) (s : Server) (i : Arrival) : Prop :=
  (∃ resp, (handle p s i).1 = .ok resp)
    ∧ (Target.of i.request.target = .route → i.request.method = .put →
      ∀ route, parseBody p Route.parse i.request = .ok route → route.default.isSome = true)

/-- The router in use is the one the current tables give. -/
def Fresh (p : Platform) (s : Server) : Prop :=
  Router.make p s.egresses s.rules s.route = .ok s.router

/-- A request that is answered keeps the router up to date: it rebuilds it, or changes
nothing the route names. -/
theorem fresh_handle (hs : Fresh p s) (h : Answered p s i) : Fresh p (handle p s i).2 := by
  obtain ⟨⟨resp, hresp⟩, -⟩ := h
  have hstep := handle_step p s i
  generalize (handle p s i).1 = out at hstep hresp
  generalize (handle p s i).2 = s' at hstep
  unfold Fresh at hs ⊢
  cases hstep with
  | answer hout => exact hs
  | listeners hwt => exact hs
  | egresses hd hne hunused hother hwt =>
      rw [← hs]
      refine Router.make_congr (fun _ _ _ _ => rfl) (fun item hitem => ?_) (fun d' hd' => ?_)
      · exact hother _ (hunused item hitem)
      · obtain rfl := Option.some.inj (hd.symm.trans hd')
        exact hother _ hne
  | rules hunused hother =>
      rw [← hs]
      refine Router.make_congr (fun item hitem rn hrn => ?_) (fun _ _ => rfl) (fun _ _ => rfl)
      exact hother _ (hunused item hitem rn hrn)
  | undefined hlook hd hkeys hwt => cases hresp
  | @rebuild s₁ hrebuild =>
      cases hmake : Router.make p s₁.egresses s₁.rules s₁.route with
      | ok router =>
          rw [finish_of_ok hmake]
          exact hmake
      | error f =>
          rw [finish_of_error hmake] at hresp
          cases hresp

/-- **The live router never lags behind the tables.**  In every state of a run in which
every request is answered and every route has a default, the router decides as one freshly
built from the tables does. -/
theorem live_router_up_to_date (p : Platform) (is : List Arrival)
    (h : ∀ e ∈ log p is, Answered p e.before e.input) :
    ∀ s ∈ states p is, ∃ fresh, Router.make p s.egresses s.rules s.route = .ok fresh
      ∧ ∀ db peer iname itype resolve, s.router.route p db peer iname itype resolve
        = fresh.route p db peer iname itype resolve := by
  have hinit : Fresh p initial := rfl
  have hfresh : ∀ s ∈ states p is, Fresh p s := by
    rw [states, List.forall_mem_cons, List.forall_mem_map]
    refine ⟨hinit, fun e he => ?_⟩
    exact (events_invariant (Fresh p) (Answered p) (fun _ _ => fresh_handle) hinit h e he).2
  intro s hs
  exact ⟨s.router, hfresh s hs, fun _ _ _ _ _ => rfl⟩

/-- A check that a request was answered, and that it gave the route a default if it put one. -/
def answeredCheck (p : Platform) (e : EventLog.Event Server Arrival (Result Response)) : Bool :=
  (match e.output with | .ok _ => true | _ => false)
    && match parseBody p Route.parse e.input.request with
      | .ok route => route.default.isSome || decide (Target.of e.input.request.target ≠ .route)
      | .error _ => true

theorem answered_of_check {is : List Arrival} (h : (log p is).all (answeredCheck p) = true) :
    ∀ e ∈ log p is, Answered p e.before e.input := by
  intro e he
  have hboth := List.all_eq_true.mp h e he
  rw [answeredCheck, Bool.and_eq_true] at hboth
  obtain ⟨hout, hdefault⟩ := hboth
  have hstep : handle p e.before e.input = (e.output, e.after) := step_of_mem_events he
  refine ⟨?_, fun htarget _ route hbody => ?_⟩
  · rw [hstep]
    split at hout
    · rename_i resp hresp
      exact ⟨resp, hresp⟩
    · cases hout
  · rw [hbody] at hdefault
    simpa [htarget] using hdefault

/-- Three requests that put a route with a rule together. -/
def Example.requests : List Arrival :=
  [put "/egresses/out" "\x7b\"type\":\"direct\"\x7d",
    put "/rules/r" "\x7b\"domain\":[\"example.com\"]\x7d",
    put "/route" "\x7b\"default\":\"direct\",\"rules\":[[\"r\",\"out\"]]\x7d"]

/-- They are answered, and the router is up to date at every point. -/
theorem live_router_up_to_date_example :
    (∀ e ∈ log Reference.platform Example.requests, Answered Reference.platform e.before e.input)
      ∧ ∀ s ∈ states Reference.platform Example.requests,
        ∃ fresh, Router.make Reference.platform s.egresses s.rules s.route = .ok fresh
          ∧ ∀ db peer iname itype resolve,
            s.router.route Reference.platform db peer iname itype resolve
              = fresh.route Reference.platform db peer iname itype resolve := by
  have hanswered : ∀ e ∈ log Reference.platform Example.requests,
      Answered Reference.platform e.before e.input := answered_of_check (by decide +kernel)
  exact ⟨hanswered, live_router_up_to_date _ _ hanswered⟩

end Server

end Pichi
