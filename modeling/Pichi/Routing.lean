/-
# Routing decisions

What `Router::route` computes, stated over the tables the router was built from.
`Rule.Matches` lists the kinds of conditions under which a rule accepts a connection,
`Routing.known` the addresses known at each position of the flattened route, and the
loop of the router is an instance of `LazyScan.scan` (`Router.routeFrom_eq_scan`).

**Main result** (`route_first_match`): the router answers with the first rule, in the
order of the flattened route, that matches under the addresses known when it is reached,
and with the default if there is none; the resolver is awaited at most once, exactly
when a domain name reaches a rule that needs it.
-/
import Pichi.LazyScan
import Pichi.Router
import Pichi.Reference

namespace Pichi

/-! ## When a rule matches -/

/-- The address is one of the hosts of the network that the range denotes. -/
def InRange (p : Platform) (range : Bytes) : Address → Prop
  | .v4 a => ∃ net, p.makeNetworkV4 range = some net ∧ inHosts (hostsV4 net) a.toNat = true
  | .v6 a => p.makeNetworkV4 range = none
      ∧ ∃ net, p.makeNetworkV6 range = some net ∧ inHosts (hostsV6 net) a.toNat = true

/-- The database has the address under that country. -/
def InCountry (db : Mmdb) (country : Bytes) (a : Address) : Prop :=
  ∃ lookup, db = some lookup ∧ lookup a = some (.utf8 country)

/-- The host is the domain, or ends with a dot and the domain. -/
def InDomain (domain host : Bytes) : Prop :=
  host = domain ∨ ∃ front, host = front ++ 46 :: domain

/-- The conditions under which a rule accepts a connection, given the addresses known
for the peer. -/
inductive Rule.Matches (p : Platform) (db : Mmdb) (peer : Endpoint) (iname : Bytes)
    (itype : AdapterType) (known : Option (List Address)) (rule : Rule) : Prop where
  | range {addresses : List Address} {a : Address} {r : Bytes}
      (hknown : known = some addresses) (ha : a ∈ addresses)
      (hr : r ∈ rule.range ++ rule.rangeNr) (h : InRange p r a)
  | country {addresses : List Address} {a : Address} {c : Bytes}
      (hknown : known = some addresses) (ha : a ∈ addresses)
      (hc : c ∈ rule.country ++ rule.countryNr) (h : InCountry db c a)
  | ingress (h : iname ∈ rule.ingress)
  | type (h : itype ∈ rule.type)
  | pattern {s : Bytes} (hs : s ∈ rule.pattern) (h : p.regexSearch s peer.host = true)
  | domain {d : Bytes} (hd : d ∈ rule.domain) (hne : dropDot d ≠ [])
      (htype : peer.type = .domainName) (hhost : peer.host ≠ [])
      (h : InDomain (toLowerStr (dropDot d)) (dropDot (toLowerStr peer.host)))

/-- A rule that makes the router resolve domain names. -/
def Rule.NeedsResolving (rule : Rule) : Prop := rule.range ≠ [] ∨ rule.country ≠ []

/-- The country codes of the database are texts, as the MaxMind format has it. -/
def Mmdb.Textual (db : Mmdb) : Prop :=
  ∀ lookup, db = some lookup → ∀ a, lookup a ≠ some .other

variable {p : Platform} {db : Mmdb} {peer : Endpoint} {iname : Bytes} {itype : AdapterType}

/-! ## The conditions of a matcher -/

/-- A search through a list of checks that all return. -/
theorem anyM_eq_ok {α : Type} {f : α → Checked Bool} {P : α → Prop} :
    ∀ {l : List α}, (∀ x ∈ l, ∃ b, f x = .ok b ∧ (b = true ↔ P x)) →
      ∃ b, l.anyM f = .ok b ∧ (b = true ↔ ∃ x ∈ l, P x) := by
  intro l
  induction l with
  | nil => intro _; exact ⟨false, rfl, by simp⟩
  | cons x l ih =>
      intro h
      obtain ⟨b, hb, hiff⟩ := h x (by simp)
      obtain ⟨b', hb', hiff'⟩ := ih fun y hy => h y (by simp [hy])
      cases b with
      | true =>
          refine ⟨true, ?_, by simpa using Or.inl (hiff.mp rfl)⟩
          simp [List.anyM, hb, bind, Except.bind, pure, Except.pure]
      | false =>
          have hx : ¬P x := fun hp => absurd (hiff.mpr hp) (by simp)
          refine ⟨b', ?_, ?_⟩
          · simp [List.anyM, hb, hb', bind, Except.bind]
          · rw [hiff']
            simp [hx]

theorem Mmdb.match_eq_ok (hdb : db.Textual) (a : Address) (c : Bytes) :
    ∃ b, db.match a c = .ok b ∧ (b = true ↔ InCountry db c a) := by
  unfold Mmdb.match InCountry
  cases hlookup : db with
  | none => exact ⟨false, rfl, by simp⟩
  | some lookup =>
      cases ha : lookup a with
      | none => exact ⟨false, by simp [ha], by simp [ha]⟩
      | some data =>
          cases data with
          | utf8 s => exact ⟨s = c, by simp [ha], by simp [ha]⟩
          | other => exact absurd ha (hdb lookup hlookup a)

theorem isSubdomain_iff {domain host : Bytes} :
    Matcher.isSubdomain domain host = true ↔ InDomain domain host := by
  unfold Matcher.isSubdomain InDomain
  simp only [List.length_reverse, Bool.and_eq_true, decide_eq_true_eq, Bool.or_eq_true,
    List.isEmpty_iff]
  constructor
  · rintro ⟨hsuffix, hdot⟩
    -- in reverse the host is the domain followed by what stands in front of it
    have hsplit : host = (host.reverse.drop domain.length).reverse ++ domain := by
      have h := List.take_append_drop domain.length host.reverse
      rw [← hsuffix] at h
      have h' := congrArg List.reverse h
      simpa using h'.symm
    cases hrest : host.reverse.drop domain.length with
    | nil =>
        rw [hrest] at hsplit
        exact Or.inl (by simpa using hsplit)
    | cons b rest =>
        rw [hrest] at hdot hsplit
        have hb : b = 46 := by simpa using hdot
        subst hb
        exact Or.inr ⟨rest.reverse, by simpa using hsplit⟩
  · rintro (rfl | ⟨front, rfl⟩)
    · simp
    · simp

/-- The networks of a list of ranges. -/
theorem mem_networks_iff {ranges : List Bytes} {ns : List (Network 4 ⊕ Network 16)}
    (h : ranges.mapM (makeNetwork p) = .ok ns) :
    (∀ net, Sum.inl net ∈ ns ↔ ∃ r ∈ ranges, p.makeNetworkV4 r = some net)
      ∧ ∀ net, Sum.inr net ∈ ns ↔
        ∃ r ∈ ranges, p.makeNetworkV4 r = none ∧ p.makeNetworkV6 r = some net := by
  have hall := mapM_eq_ok_iff.mp h
  induction hall with
  | nil => simp
  | @cons r n ranges ns hn hrest ih =>
      obtain ⟨ih4, ih6⟩ := ih (mapM_eq_ok_iff.mpr hrest)
      unfold makeNetwork Checked.fail at hn
      cases h4 : p.makeNetworkV4 r with
      | some n4 =>
          simp only [h4, Except.ok.injEq] at hn
          subst hn
          constructor
          · intro net
            simp [ih4, h4, eq_comm]
          · intro net
            simp [ih6, h4]
      | none =>
          cases h6 : p.makeNetworkV6 r with
          | none => simp [h4, h6] at hn
          | some n6 =>
              simp only [h4, h6, Except.ok.injEq] at hn
              subst hn
              constructor
              · intro net
                simp [ih4, h4]
              · intro net
                simp [ih6, h4, h6, eq_comm]

namespace Matcher

variable {rname ename : Bytes} {rule : Rule} {egress : Egress} {m : Matcher}

/-- The fields of a matcher that was built. -/
theorem of_make (h : make p rname rule ename egress = .ok m) :
    ∃ ns, (rule.range ++ rule.rangeNr).mapM (makeNetwork p) = .ok ns
      ∧ m = {
        rname := rname, ename := ename, egress := egress
        resolve := !rule.country.isEmpty || !rule.range.isEmpty
        ranges4 := ns.filterMap Sum.getLeft?
        ranges6 := ns.filterMap Sum.getRight?
        inames := rule.ingress, types := rule.type, patterns := rule.pattern
        domains := ((rule.domain.map dropDot).filter fun d => !d.isEmpty).map toLowerStr
        countries := rule.country ++ rule.countryNr } := by
  unfold make at h
  obtain ⟨ns, hns, h⟩ := bind_eq_ok_iff.mp h
  obtain ⟨ts, hts, h⟩ := bind_eq_ok_iff.mp h
  obtain ⟨-, rfl⟩ := patterns_eq_ok_iff.mp hts
  exact ⟨ns, Checked.lift_eq_ok_iff.mp hns, (Except.ok.inj h).symm⟩

theorem resolve_iff (h : make p rname rule ename egress = .ok m) :
    m.resolve = true ↔ rule.NeedsResolving := by
  obtain ⟨ns, -, rfl⟩ := of_make h
  simp [Rule.NeedsResolving, or_comm]

theorem matchRange_iff (h : make p rname rule ename egress = .ok m) (rs : List Address) :
    m.matchRange rs = true ↔ ∃ a ∈ rs, ∃ r ∈ rule.range ++ rule.rangeNr, InRange p r a := by
  obtain ⟨ns, hns, rfl⟩ := of_make h
  obtain ⟨h4, h6⟩ := mem_networks_iff hns
  unfold matchRange
  rw [List.any_eq_true]
  refine exists_congr fun a => and_congr_right fun _ => ?_
  cases a with
  | v4 a =>
      simp only [List.any_eq_true, List.mem_filterMap, Sum.getLeft?_eq_some_iff, exists_eq_right,
        h4, InRange]
      constructor
      · rintro ⟨net, ⟨r, hr, hnet⟩, hin⟩
        exact ⟨r, hr, net, hnet, hin⟩
      · rintro ⟨r, hr, net, hnet, hin⟩
        exact ⟨net, ⟨r, hr, hnet⟩, hin⟩
  | v6 a =>
      simp only [List.any_eq_true, List.mem_filterMap, Sum.getRight?_eq_some_iff, exists_eq_right,
        h6, InRange]
      constructor
      · rintro ⟨net, ⟨r, hr, hnot, hnet⟩, hin⟩
        exact ⟨r, hr, hnot, net, hnet, hin⟩
      · rintro ⟨r, hr, hnot, net, hnet, hin⟩
        exact ⟨net, ⟨r, hr, hnot, hnet⟩, hin⟩

theorem matchCountry_eq_ok (hdb : db.Textual) (h : make p rname rule ename egress = .ok m)
    (rs : List Address) :
    ∃ b, m.matchCountry db rs = .ok b
      ∧ (b = true ↔ ∃ a ∈ rs, ∃ c ∈ rule.country ++ rule.countryNr, InCountry db c a) := by
  obtain ⟨ns, -, rfl⟩ := of_make h
  exact anyM_eq_ok fun a _ => anyM_eq_ok fun c _ => Mmdb.match_eq_ok hdb a c

theorem matchDomain_iff (h : make p rname rule ename egress = .ok m) (peer : Endpoint) :
    m.matchDomain peer = true ↔ peer.type = .domainName ∧ peer.host ≠ [] ∧
      ∃ d ∈ rule.domain, dropDot d ≠ []
        ∧ InDomain (toLowerStr (dropDot d)) (dropDot (toLowerStr peer.host)) := by
  obtain ⟨ns, -, rfl⟩ := of_make h
  simp [matchDomain, isSubdomain_iff, and_assoc]

/-- The part of the test that looks at addresses. -/
theorem matchResolved_eq_ok (hdb : db.Textual) (h : make p rname rule ename egress = .ok m)
    (rs : Option (List Address)) :
    ∃ b, m.matchResolved db rs = .ok b
      ∧ (b = true ↔ ∃ addresses, rs = some addresses ∧ ∃ a ∈ addresses,
        (∃ r ∈ rule.range ++ rule.rangeNr, InRange p r a)
          ∨ ∃ c ∈ rule.country ++ rule.countryNr, InCountry db c a) := by
  cases rs with
  | none => exact ⟨false, rfl, by simp⟩
  | some addresses =>
      rw [matchResolved]
      by_cases hempty : addresses = []
      · exact ⟨false, by simp [hempty], by simp [hempty]⟩
      · obtain ⟨b, hb, hiff⟩ := matchCountry_eq_ok hdb h addresses
        by_cases hr : m.matchRange addresses = true
        · refine ⟨true, by simp [hempty, hr], ?_⟩
          obtain ⟨a, ha, hin⟩ := (matchRange_iff h _).mp hr
          simp only [true_iff]
          exact ⟨_, rfl, a, ha, Or.inl hin⟩
        · refine ⟨b, by simp [hempty, hr, hb], ?_⟩
          rw [hiff]
          constructor
          · rintro ⟨a, ha, hin⟩
            exact ⟨_, rfl, a, ha, Or.inr hin⟩
          · rintro ⟨_, heq, a, ha, hin⟩
            obtain rfl := Option.some.inj heq
            rcases hin with hin | hin
            · exact absurd ((matchRange_iff h _).mpr ⟨a, ha, hin⟩) hr
            · exact ⟨a, ha, hin⟩

/-- **A matcher decides whether its rule matches.** -/
theorem match_eq_ok (hdb : db.Textual) (h : make p rname rule ename egress = .ok m)
    (peer : Endpoint) (iname : Bytes) (itype : AdapterType) (rs : Option (List Address)) :
    ∃ b, m.match p db peer iname itype rs = .ok b
      ∧ (b = true ↔ rule.Matches p db peer iname itype rs) := by
  obtain ⟨b, hb, hiff⟩ := matchResolved_eq_ok hdb h rs
  refine ⟨_, by rw [Matcher.match, hb]; rfl, ?_⟩
  have hdomain := matchDomain_iff h peer
  obtain ⟨ns, -, hm⟩ := of_make h
  have hinames : m.inames = rule.ingress := by rw [hm]
  have htypes : m.types = rule.type := by rw [hm]
  have hpatterns : m.patterns = rule.pattern := by rw [hm]
  simp only [Bool.or_eq_true, hiff, hdomain, hinames, htypes, List.contains_iff_mem,
    matchPattern, hpatterns, List.any_eq_true]
  constructor
  · rintro ((((⟨as, hrs, a, ha, ⟨r, hr, hin⟩ | ⟨c, hc, hin⟩⟩ | hin) | hin) | ⟨s, hs, hin⟩) |
      ⟨htype, hhost, d, hd, hne, hin⟩)
    · exact .range hrs ha hr hin
    · exact .country hrs ha hc hin
    · exact .ingress hin
    · exact .type hin
    · exact .pattern hs hin
    · exact .domain hd hne htype hhost hin
  · intro hmatch
    cases hmatch with
    | range hrs ha hr hin => exact .inl (.inl (.inl (.inl ⟨_, hrs, _, ha, .inl ⟨_, hr, hin⟩⟩)))
    | country hrs ha hc hin => exact .inl (.inl (.inl (.inl ⟨_, hrs, _, ha, .inr ⟨_, hc, hin⟩⟩)))
    | ingress hin => exact .inl (.inl (.inl (.inr hin)))
    | type hin => exact .inl (.inl (.inr hin))
    | pattern hs hin => exact .inl (.inr ⟨_, hs, hin⟩)
    | domain hd hne htype hhost hin => exact .inr ⟨htype, hhost, _, hd, hne, hin⟩

end Matcher

/-! ## Positions of the flattened route -/

namespace Routing

/-- The addresses a resolver outcome stands for; a failure counts as none. -/
def outcome : Checked (List Address) → List Address
  | .ok addresses => addresses
  | .error _ => []

/-- The rule at position `i` of the flattened route. -/
def ruleAt (rules : ValueMap Rule) (route : Route) (i : ℕ) : Option Rule :=
  route.entries[i]?.bind fun entry => rules.lookup entry.1

/-- The rule at position `i` makes the router resolve domain names. -/
def ResolvesAt (rules : ValueMap Rule) (route : Route) (i : ℕ) : Prop :=
  ∃ rule, ruleAt rules route i = some rule ∧ rule.NeedsResolving

section Known

variable (p : Platform) (db : Mmdb) (peer : Endpoint) (iname : Bytes) (itype : AdapterType)
  (resolve : Checked (List Address)) (rules : ValueMap Rule) (route : Route)

open Classical in
/-- The addresses known when position `i` is reached: the address itself for an IP peer;
for a domain name nothing before the first rule that resolves, and what the resolver
answered from that rule on. -/
noncomputable def known (i : ℕ) : Option (List Address) :=
  if peer.type = .domainName then
    if ∃ k ≤ i, ResolvesAt rules route k then some (outcome resolve) else none
  else (p.makeAddress peer.host).map fun a => [a]

/-- The rule at position `i` matches under the addresses known there. -/
def MatchesAt (i : ℕ) : Prop :=
  ∃ rule, ruleAt rules route i = some rule
    ∧ rule.Matches p db peer iname itype (known p peer resolve rules route i)

end Known

end Routing

/-! ## The loop as a scan -/

namespace Router

open LazyScan

variable {resolve : Checked (List Address)}

/-- The test of the scan. -/
def accepts (p : Platform) (db : Mmdb) (peer : Endpoint) (iname : Bytes) (itype : AdapterType)
    (rs : Option (List Address)) (m : Matcher) : Bool :=
  match m.match p db peer iname itype rs with
  | .ok b => b
  | .error _ => false

/-- The decision for the matcher that was found, if any. -/
def decision (default : Decision) : Option Matcher → Decision
  | some m => (m.rname, m.ename, m.egress)
  | none => default

theorem resolveFor_eq (hres : ∀ e, resolve = .error e → e.code ≠ .pichi .misc) (m : Matcher)
    (rs : Option (List Address)) (awaited : ℕ) :
    resolveFor resolve m rs awaited
      = (.ok (obtain? Matcher.resolve (Routing.outcome resolve) rs m),
        awaited + if rs.isNone && m.resolve then 1 else 0) := by
  unfold resolveFor obtain?
  cases rs with
  | some as => simp
  | none =>
      by_cases hm : m.resolve = true
      · cases resolve with
        | ok as => simp [hm, Routing.outcome]
        | error e => simp [hm, hres e rfl, Routing.outcome]
      · simp [hm]

/-- **The loop of the router is a scan**, as long as every matcher answers. -/
theorem routeFrom_eq_scan (hres : ∀ e, resolve = .error e → e.code ≠ .pichi .misc)
    (default : Decision) :
    ∀ {ms : List Matcher} {rs : Option (List Address)} {awaited : ℕ},
      (∀ m ∈ ms, ∀ rs, ∃ b, m.match p db peer iname itype rs = .ok b) →
      routeFrom p db peer iname itype resolve default ms rs awaited
        = (.ok (decision default (scan Matcher.resolve (accepts p db peer iname itype)
              (Routing.outcome resolve) rs ms).1),
          awaited + (scan Matcher.resolve (accepts p db peer iname itype)
              (Routing.outcome resolve) rs ms).2) := by
  intro ms
  induction ms with
  | nil => intro rs awaited _; rfl
  | cons m ms ih =>
      intro rs awaited hms
      -- both loops obtain the addresses first and then test the matcher with them
      rw [routeFrom, resolveFor_eq hres, scan]
      obtain ⟨b, hb⟩ := hms m (by simp) (obtain? Matcher.resolve (Routing.outcome resolve) rs m)
      have haccepts : accepts p db peer iname itype
          (obtain? Matcher.resolve (Routing.outcome resolve) rs m) m = b := by
        rw [accepts, hb]
      simp only [hb, haccepts]
      cases b with
      | true => rfl
      | false =>
          simp only [ih fun m' hm' => hms m' (by simp [hm']), Bool.false_eq_true, if_false,
            Nat.add_assoc]

/-! ## The matchers of a router and the entries of the route -/

variable {egresses : ValueMap Egress} {rules : ValueMap Rule} {route : Route} {router : Router}

theorem of_parseEntry {entry : Bytes × Bytes} {m : Matcher}
    (h : parseEntry p egresses rules entry = .ok m) :
    ∃ rule egress, rules.lookup entry.1 = some rule ∧ egresses.lookup entry.2 = some egress
      ∧ Matcher.make p entry.1 rule entry.2 egress = .ok m := by
  have h' := h
  unfold parseEntry at h'
  obtain ⟨_, hr, h'⟩ := bind_eq_ok_iff.mp h'
  obtain ⟨_, he, -⟩ := bind_eq_ok_iff.mp h'
  have hr := Checked.assertTrue_eq_ok_iff.mp (Checked.lift_eq_ok_iff.mp hr)
  have he := Checked.assertTrue_eq_ok_iff.mp (Checked.lift_eq_ok_iff.mp he)
  obtain ⟨rule, hrule⟩ := Option.isSome_iff_exists.mp hr
  obtain ⟨egress, hegress⟩ := Option.isSome_iff_exists.mp he
  rw [parseEntry_of_lookup hrule hegress] at h
  exact ⟨rule, egress, hrule, hegress, h⟩

/-- The default of a router is the one of the route. -/
theorem default_of_make (h : make p egresses rules route = .ok router) :
    ∃ d egress, route.default = some d ∧ egresses.lookup d = some egress
      ∧ router.default = (lit "*", d, egress) := by
  unfold make at h
  obtain ⟨ms, -, h⟩ := bind_eq_ok_iff.mp h
  obtain ⟨d, hd, h⟩ := bind_eq_ok_iff.mp h
  obtain ⟨egress, he, h⟩ := bind_eq_ok_iff.mp h
  cases hdef : route.default with
  | none => rw [hdef] at hd; cases hd
  | some d' =>
      rw [hdef] at hd
      obtain rfl := Except.ok.inj hd
      cases hlookup : egresses.lookup d' with
      | none => simp [ValueMap.at, hlookup] at he
      | some egress' =>
          simp only [ValueMap.at, hlookup, Except.ok.injEq] at he
          subst he
          exact ⟨d', egress', rfl, hlookup, by rw [← Except.ok.inj h]⟩

/-- The matcher at a position is built from the entry at that position. -/
theorem matcher_at (h : make p egresses rules route = .ok router) (i : ℕ) :
    (router.matchers[i]? = none ∧ Routing.ruleAt rules route i = none)
      ∨ ∃ m rname ename rule egress, router.matchers[i]? = some m
        ∧ route.entries[i]? = some (rname, ename) ∧ Routing.ruleAt rules route i = some rule
        ∧ egresses.lookup ename = some egress
        ∧ Matcher.make p rname rule ename egress = .ok m := by
  unfold make at h
  obtain ⟨ms, hms, h⟩ := bind_eq_ok_iff.mp h
  obtain ⟨d, -, h⟩ := bind_eq_ok_iff.mp h
  obtain ⟨egress, -, h⟩ := bind_eq_ok_iff.mp h
  obtain rfl := Except.ok.inj h
  have hall := mapM_eq_ok_iff.mp hms
  -- the matchers are the image of the entries, position by position
  by_cases hi : i < route.entries.length
  · have hi' : i < ms.length := by rw [← hall.length_eq]; exact hi
    obtain ⟨rule, egress, hrule, hegress, hm⟩ := of_parseEntry (hall.get hi hi')
    refine Or.inr ⟨ms[i], _, _, rule, egress, by simp [hi'], List.getElem?_eq_getElem hi, ?_,
      hegress, hm⟩
    rw [Routing.ruleAt, List.getElem?_eq_getElem hi]
    exact hrule
  · refine Or.inl ⟨by rw [List.getElem?_eq_none]; rw [← hall.length_eq]; omega, ?_⟩
    rw [Routing.ruleAt, List.getElem?_eq_none (by omega)]
    rfl

theorem resolvesAt_iff (h : make p egresses rules route = .ok router) (i : ℕ) :
    (∃ m, router.matchers[i]? = some m ∧ m.resolve = true) ↔ Routing.ResolvesAt rules route i := by
  unfold Routing.ResolvesAt
  rcases matcher_at h i with ⟨hm, hrule⟩ | ⟨m, _, _, rule, _, hm, -, hrule, -, hmake⟩
  · simp [hm, hrule]
  · simp [hm, hrule, Matcher.resolve_iff hmake]

/-- Some element among the first `i + 1` satisfies the test. -/
theorem any_take_iff {α : Type} {f : α → Bool} {l : List α} {i : ℕ} :
    (l.take (i + 1)).any f = true ↔ ∃ k ≤ i, ∃ a, l[k]? = some a ∧ f a = true := by
  rw [List.any_eq_true]
  constructor
  · rintro ⟨a, ha, hf⟩
    obtain ⟨k, hk, rfl⟩ := List.getElem_of_mem ha
    rw [List.length_take] at hk
    refine ⟨k, by omega, _, ?_, hf⟩
    rw [List.getElem_take, List.getElem?_eq_getElem]
  · rintro ⟨k, hk, a, ha, hf⟩
    refine ⟨a, List.mem_of_getElem? (i := k) ?_, hf⟩
    rw [List.getElem?_take, if_pos (by omega)]
    exact ha

/-- What the scan starts with: the address itself for an IP peer. -/
def start (p : Platform) (peer : Endpoint) : Option (List Address) :=
  if peer.type = .domainName then none else (p.makeAddress peer.host).map fun a => [a]

/-- The scan knows at each position what the route says is known there. -/
theorem knownAt_eq_known (h : make p egresses rules route = .ok router)
    (hpeer : peer.type ≠ .domainName → (p.makeAddress peer.host).isSome = true) (i : ℕ) :
    knownAt Matcher.resolve (Routing.outcome resolve) (start p peer) router.matchers i
      = Routing.known p peer resolve rules route i := by
  have hany : (router.matchers.take (i + 1)).any Matcher.resolve = true
      ↔ ∃ k ≤ i, Routing.ResolvesAt rules route k := by
    rw [any_take_iff]
    exact exists_congr fun k => and_congr_right fun _ => resolvesAt_iff h k
  unfold knownAt Routing.known start
  by_cases htype : peer.type = .domainName
  · simp only [htype, if_true, Option.none_or]
    by_cases hk : ∃ k ≤ i, Routing.ResolvesAt rules route k
    · rw [if_pos (hany.mpr hk), if_pos hk]
    · rw [if_neg (mt hany.mp hk), if_neg hk]
  · obtain ⟨a, ha⟩ := Option.isSome_iff_exists.mp (hpeer htype)
    simp [htype, ha]

/-- The scan accepts at exactly the positions whose rule matches. -/
theorem passesAt_iff (hdb : db.Textual) (h : make p egresses rules route = .ok router)
    (hpeer : peer.type ≠ .domainName → (p.makeAddress peer.host).isSome = true) (i : ℕ) :
    PassesAt Matcher.resolve (accepts p db peer iname itype) (Routing.outcome resolve)
        (start p peer) router.matchers i
      ↔ Routing.MatchesAt p db peer iname itype resolve rules route i := by
  unfold PassesAt Routing.MatchesAt
  rw [knownAt_eq_known h hpeer]
  rcases matcher_at h i with ⟨hm, hrule⟩ | ⟨m, _, _, rule, _, hm, -, hrule, -, hmake⟩
  · simp [hm, hrule]
  · obtain ⟨b, hb, hiff⟩ := Matcher.match_eq_ok hdb hmake peer iname itype
      (Routing.known p peer resolve rules route i)
    simp [hm, hrule, accepts, hb, hiff]

/-- The scan needs the resolver where a rule does that no match comes before. -/
theorem neededAt_iff (hdb : db.Textual) (h : make p egresses rules route = .ok router)
    (hpeer : peer.type ≠ .domainName → (p.makeAddress peer.host).isSome = true)
    (hstart : start p peer = none) :
    NeededAt Matcher.resolve (accepts p db peer iname itype) (Routing.outcome resolve) none
        router.matchers
      ↔ ∃ i, Routing.ResolvesAt rules route i
        ∧ ∀ j < i, ¬Routing.MatchesAt p db peer iname itype resolve rules route j := by
  unfold NeededAt
  apply exists_congr
  intro i
  rw [← resolvesAt_iff h]
  simp only [← passesAt_iff hdb h hpeer, hstart]
  constructor
  · rintro ⟨m, hm, hneeds, hbefore⟩
    exact ⟨⟨m, hm, hneeds⟩, hbefore⟩
  · rintro ⟨⟨m, hm, hneeds⟩, hbefore⟩
    exact ⟨m, hm, hneeds, hbefore⟩

theorem matchers_answer (hdb : db.Textual) (h : make p egresses rules route = .ok router) :
    ∀ m ∈ router.matchers, ∀ rs, ∃ b, m.match p db peer iname itype rs = .ok b := by
  intro m hm rs
  obtain ⟨i, hi, rfl⟩ := List.getElem_of_mem hm
  rcases matcher_at h i with ⟨hnone, -⟩ | ⟨m', _, _, rule, _, hm', -, -, -, hmake⟩
  · rw [List.getElem?_eq_getElem hi] at hnone
    cases hnone
  · rw [List.getElem?_eq_getElem hi] at hm'
    obtain rfl := Option.some.inj hm'
    obtain ⟨b, hb, -⟩ := Matcher.match_eq_ok hdb hmake peer iname itype rs
    exact ⟨b, hb⟩

/-- The whole of `route` as a scan. -/
theorem route_eq_scan (hdb : db.Textual) (h : make p egresses rules route = .ok router)
    (hpeer : peer.type ≠ .domainName → (p.makeAddress peer.host).isSome = true)
    (hres : ∀ e, resolve = .error e → e.code ≠ .pichi .misc) :
    router.route p db peer iname itype resolve
      = (.ok (decision router.default (scan Matcher.resolve (accepts p db peer iname itype)
            (Routing.outcome resolve) (start p peer) router.matchers).1),
          (scan Matcher.resolve (accepts p db peer iname itype)
            (Routing.outcome resolve) (start p peer) router.matchers).2) := by
  unfold Router.route start
  by_cases htype : peer.type = .domainName
  · simp only [htype, if_true]
    rw [routeFrom_eq_scan hres _ (matchers_answer hdb h), Nat.zero_add]
  · obtain ⟨a, ha⟩ := Option.isSome_iff_exists.mp (hpeer htype)
    simp only [htype, if_false, ha, Option.map_some]
    rw [routeFrom_eq_scan hres _ (matchers_answer hdb h), Nat.zero_add]

/-- The router answers with the first rule that matches, or with the default. -/
theorem route_decides (hdb : db.Textual) (h : make p egresses rules route = .ok router)
    (hpeer : peer.type ≠ .domainName → (p.makeAddress peer.host).isSome = true)
    (hres : ∀ e, resolve = .error e → e.code ≠ .pichi .misc) :
    (∃ i rname ename egress, route.entries[i]? = some (rname, ename)
        ∧ egresses.lookup ename = some egress
        ∧ Routing.MatchesAt p db peer iname itype resolve rules route i
        ∧ (∀ j < i, ¬Routing.MatchesAt p db peer iname itype resolve rules route j)
        ∧ (router.route p db peer iname itype resolve).1 = .ok (rname, ename, egress))
      ∨ ((∀ i, ¬Routing.MatchesAt p db peer iname itype resolve rules route i)
        ∧ ∃ d egress, route.default = some d ∧ egresses.lookup d = some egress
          ∧ (router.route p db peer iname itype resolve).1 = .ok (lit "*", d, egress)) := by
  rw [route_eq_scan hdb h hpeer hres]
  cases hscan : (scan Matcher.resolve (accepts p db peer iname itype)
      (Routing.outcome resolve) (start p peer) router.matchers).1 with
  | some m =>
      -- the entry behind the matcher that was accepted
      obtain ⟨i, hi, hpass, hbefore⟩ := exists_of_scan_eq_some hscan
      rcases matcher_at h i with
        ⟨hnone, -⟩ | ⟨m', rname, ename, rule, egress, hm', hentry, -, hegress, hmake⟩
      · rw [hnone] at hi
        cases hi
      · rw [hm'] at hi
        obtain rfl := Option.some.inj hi
        obtain ⟨ns, -, hfields⟩ := Matcher.of_make hmake
        refine Or.inl ⟨i, rname, ename, egress, hentry, hegress,
          (passesAt_iff hdb h hpeer i).mp hpass, fun j hj => ?_, ?_⟩
        · rw [← passesAt_iff hdb h hpeer]
          exact hbefore j hj
        · rw [hfields]
          rfl
  | none =>
      obtain ⟨d, egress, hd, hegress, hdefault⟩ := default_of_make h
      refine Or.inr ⟨fun i => ?_, d, egress, hd, hegress, congrArg Except.ok hdefault⟩
      rw [← passesAt_iff hdb h hpeer]
      exact scan_eq_none_iff.mp hscan i

end Router

/-! ## The routing decision -/

open Classical in
/-- **The routing decision.**  For a router built from tables, a peer whose host text is an
address if its type says so, and a resolver that does not fail with `MISC`: the router
answers with the first rule of the flattened route that matches under the addresses known
there, or with the default; the resolver is awaited once if a domain name reaches a rule
that needs it with no earlier match, and not at all otherwise. -/
theorem route_first_match {egresses : ValueMap Egress} {rules : ValueMap Rule} {route : Route}
    {router : Router} {resolve : Checked (List Address)} (hdb : db.Textual)
    (h : Router.make p egresses rules route = .ok router)
    (hpeer : peer.type ≠ .domainName → (p.makeAddress peer.host).isSome = true)
    (hres : ∀ e, resolve = .error e → e.code ≠ .pichi .misc) :
    ((∃ i rname ename egress, route.entries[i]? = some (rname, ename)
          ∧ egresses.lookup ename = some egress
          ∧ Routing.MatchesAt p db peer iname itype resolve rules route i
          ∧ (∀ j < i, ¬Routing.MatchesAt p db peer iname itype resolve rules route j)
          ∧ (router.route p db peer iname itype resolve).1 = .ok (rname, ename, egress))
        ∨ ((∀ i, ¬Routing.MatchesAt p db peer iname itype resolve rules route i)
          ∧ ∃ d egress, route.default = some d ∧ egresses.lookup d = some egress
            ∧ (router.route p db peer iname itype resolve).1 = .ok (lit "*", d, egress)))
      ∧ (router.route p db peer iname itype resolve).2
        = if peer.type = .domainName ∧ ∃ i, Routing.ResolvesAt rules route i
              ∧ ∀ j < i, ¬Routing.MatchesAt p db peer iname itype resolve rules route j
          then 1 else 0 := by
  refine ⟨Router.route_decides hdb h hpeer hres, ?_⟩
  rw [Router.route_eq_scan hdb h hpeer hres]
  by_cases htype : peer.type = .domainName
  · -- a domain name starts with nothing known
    have hstart : Router.start p peer = none := by simp [Router.start, htype]
    rw [hstart, LazyScan.scan_count]
    simp only [Router.neededAt_iff hdb h hpeer hstart, htype, true_and]
  · obtain ⟨a, ha⟩ := Option.isSome_iff_exists.mp (hpeer htype)
    have hstart : Router.start p peer = some [a] := by simp [Router.start, htype, ha]
    rw [hstart, LazyScan.scan_count_of_known]
    simp [htype]

/-- A domain name that reaches a rule with a range. -/
theorem route_first_match_example :
    ∃ router, Router.make Reference.platform (AList.singleton (lit "direct") ⟨.direct, none, none,
          none, none, none⟩) (AList.singleton (lit "lan") { range := [lit "10.0.0.0/8"] })
          ⟨some (lit "direct"), [([lit "lan"], lit "direct")]⟩ = .ok router
      ∧ (router.route Reference.platform none ⟨.domainName, lit "example.com", 443⟩ (lit "in")
          .socks5 (.error ⟨.asio .hostNotFound, ""⟩)).2 = 1 := by
  cases h : Router.make Reference.platform (AList.singleton (lit "direct") ⟨.direct, none, none,
      none, none, none⟩) (AList.singleton (lit "lan") { range := [lit "10.0.0.0/8"] })
      ⟨some (lit "direct"), [([lit "lan"], lit "direct")]⟩ with
  | error f =>
      have hok : (Router.make Reference.platform (AList.singleton (lit "direct") ⟨.direct, none,
          none, none, none, none⟩) (AList.singleton (lit "lan") { range := [lit "10.0.0.0/8"] })
          ⟨some (lit "direct"), [([lit "lan"], lit "direct")]⟩).isOk = true := by decide +kernel
      rw [h] at hok
      cases hok
  | ok router =>
      refine ⟨router, rfl, ?_⟩
      have hdb : Mmdb.Textual none := by
        intro lookup hlookup
        cases hlookup
      have hres : ∀ e : SystemError, (.error ⟨.asio .hostNotFound, ""⟩ : Checked (List Address))
          = .error e → e.code ≠ .pichi .misc := by
        intro e he
        cases he
        decide
      rw [(route_first_match hdb h (by simp) hres).2, if_pos]
      refine ⟨rfl, 0, ⟨{ range := [lit "10.0.0.0/8"] }, ?_, Or.inl (by simp)⟩, by omega⟩
      decide +kernel

end Pichi
