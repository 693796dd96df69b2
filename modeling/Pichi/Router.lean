/-
# The router

`actor/router.cpp` and the lookup of `service/mmdb.cpp`: matchers are built from the
rules a route names, and a connection is given to the egress of the first matcher that
accepts it.  Building a router re-reads the texts of the rules, so it can fail in three
ways: by `system_error` on a range that is not a network, by `std::regex_error` on a
pattern that is not a regular expression, and by dereferencing an absent default.

`Router.make_cases` says exactly when each of these happens for tables that hold the names
the route uses, and `Router.make_congr` that only the entries of the tables that the route
names matter.
-/
import Pichi.VoAdapters
import Pichi.VoRoute

namespace Pichi

/-! ## Country lookup -/

/-- `service::Mmdb`: absent until a database is opened, then what it stores under
`country.iso_code` for each address it knows. -/
abbrev Mmdb := Option (Address → Option MmdbData)

/-- `Mmdb::match`. -/
def Mmdb.match (db : Mmdb) (a : Address) (country : Bytes) : Checked Bool :=
  match db with
  | none => .ok false
  | some lookup =>
    match lookup a with
    | none => .ok false
    | some (.utf8 code) => .ok (code = country)
    | some .other => Checked.fail .misc ""

/-- `unordered_map::at`. -/
def ValueMap.at {Value : Type} (m : ValueMap Value) (key : Bytes) : Result Value :=
  match m.lookup key with
  | some v => .ok v
  | none => .error (.thrown .outOfRange)

/-! ## Matchers -/

/-- `detail::Matcher`.  A compiled pattern is kept as its text. -/
structure Matcher where
  rname : Bytes
  ename : Bytes
  egress : Egress
  resolve : Bool
  ranges4 : List (Network 4)
  ranges6 : List (Network 16)
  inames : List Bytes
  types : List AdapterType
  patterns : List Bytes
  domains : List Bytes
  countries : List Bytes

/-- The text without a leading dot. -/
def dropDot (s : Bytes) : Bytes := if s.head? = some 46 then s.drop 1 else s

/-- The network a range of a rule denotes: an IPv4 network if it reads as one, else an
IPv6 network. -/
def makeNetwork (p : Platform) (range : Bytes) : Checked (Network 4 ⊕ Network 16) :=
  match p.makeNetworkV4 range with
  | some n4 => .ok (.inl n4)
  | none =>
    match p.makeNetworkV6 range with
    | some n6 => .ok (.inr n6)
    | none => Checked.fail .semanticError ""

/-- The constructor of `std::regex`. -/
def makeRegex (p : Platform) (pattern : Bytes) : Result Bytes :=
  if p.regexValid pattern then .ok pattern else .error (.thrown .regexError)

namespace Matcher

/-- The constructor. -/
def make (p : Platform) (rname : Bytes) (rule : Rule) (ename : Bytes) (egress : Egress) :
    Result Matcher := do
  let networks ← ((rule.range ++ rule.rangeNr).mapM (makeNetwork p)).lift
  let patterns ← rule.pattern.mapM (makeRegex p)
  return {
    rname := rname
    ename := ename
    egress := egress
    resolve := !rule.country.isEmpty || !rule.range.isEmpty
    ranges4 := networks.filterMap Sum.getLeft?
    ranges6 := networks.filterMap Sum.getRight?
    inames := rule.ingress
    types := rule.type
    patterns := patterns
    domains := ((rule.domain.map dropDot).filter fun d => !d.isEmpty).map toLowerStr
    countries := rule.country ++ rule.countryNr }

/-- `match_range`. -/
def matchRange (m : Matcher) (rs : List Address) : Bool :=
  rs.any fun
    | .v4 a => m.ranges4.any fun net => inHosts (hostsV4 net) a.toNat
    | .v6 a => m.ranges6.any fun net => inHosts (hostsV6 net) a.toNat

/-- The search for a country in `match`. -/
def matchCountry (m : Matcher) (db : Mmdb) (rs : List Address) : Checked Bool :=
  rs.anyM fun a => m.countries.anyM fun country => db.match a country

/-- `match_pattern`. -/
def matchPattern (m : Matcher) (p : Platform) (host : Bytes) : Bool :=
  m.patterns.any fun pattern => p.regexSearch pattern host

/-- The comparison of `match_domain`: `domain` is a suffix of `sub`, and what stands
in front of it ends with a dot. -/
def isSubdomain (domain sub : Bytes) : Bool :=
  let d := domain.reverse
  let s := sub.reverse
  let dot := (s.drop d.length).take 1
  d = s.take d.length && (dot.isEmpty || dot.head? = some 46)

/-- `match_domain`. -/
def matchDomain (m : Matcher) (peer : Endpoint) : Bool :=
  peer.type = .domainName && !peer.host.isEmpty &&
    m.domains.any fun domain => isSubdomain domain (dropDot (toLowerStr peer.host))

/-- The part of `match` that looks at the addresses of the peer; `rs` is absent as long as
nothing has been resolved. -/
def matchResolved (m : Matcher) (db : Mmdb) : Option (List Address) → Checked Bool
  | none => .ok false
  | some rs =>
    if rs.isEmpty then .ok false
    else if m.matchRange rs then .ok true
    else m.matchCountry db rs

/-- `match`. -/
def «match» (m : Matcher) (p : Platform) (db : Mmdb) (peer : Endpoint) (iname : Bytes)
    (type : AdapterType) (rs : Option (List Address)) : Checked Bool := do
  let resolved ← m.matchResolved db rs
  return resolved || m.inames.contains iname || m.types.contains type ||
    m.matchPattern p peer.host || m.matchDomain peer

end Matcher

/-! ## Routers -/

/-- What a router decides: the rule, the name of the egress, and the egress. -/
abbrev Decision := Bytes × Bytes × Egress

/-- `Router`; the executor is left out. -/
structure Router where
  matchers : List Matcher
  default : Decision

namespace Router

/-- The body of the loops of `parse_route`. -/
def parseEntry (p : Platform) (egresses : ValueMap Egress) (rules : ValueMap Rule)
    (entry : Bytes × Bytes) : Result Matcher := do
  (Checked.assertTrue (rules.lookup entry.1).isSome .misc "").lift
  (Checked.assertTrue (egresses.lookup entry.2).isSome .misc "").lift
  Matcher.make p entry.1 (← rules.at entry.1) entry.2 (← egresses.at entry.2)

/-- `parse_route`. -/
def parseRoute (p : Platform) (egresses : ValueMap Egress) (rules : ValueMap Rule)
    (route : Route) : Result (List Matcher) :=
  route.entries.mapM (parseEntry p egresses rules)

/-- The constructor; the matchers are built before the default is looked at. -/
def make (p : Platform) (egresses : ValueMap Egress) (rules : ValueMap Rule) (route : Route) :
    Result Router := do
  let matchers ← parseRoute p egresses rules route
  let default ← deref route.default
  return ⟨matchers, (lit "*", default, ← egresses.at default)⟩

/-- The addresses at hand for a matcher: the resolver is awaited when nothing has been
resolved yet and the matcher needs it.  A failure other than `MISC` counts as an empty
result. -/
def resolveFor (resolve : Checked (List Address)) (m : Matcher) (rs : Option (List Address))
    (awaited : ℕ) : Checked (Option (List Address)) × ℕ :=
  if rs.isNone && m.resolve then
    match resolve with
    | .ok addresses => (.ok (some addresses), awaited + 1)
    | .error e =>
      -- `MISC` is what the tests throw; only the code of the error is kept
      if e.code = .pichi .misc then (.error ⟨e.code, ""⟩, awaited + 1)
      else (.ok (some []), awaited + 1)
  else (.ok rs, awaited)

section Route

variable (p : Platform) (db : Mmdb) (peer : Endpoint) (iname : Bytes) (itype : AdapterType)
  (resolve : Checked (List Address))

/-- The loop of `route`; `awaited` counts how often the resolver has been awaited. -/
def routeFrom (default : Decision) :
    List Matcher → Option (List Address) → ℕ → Checked Decision × ℕ
  | [], _, awaited => (.ok default, awaited)
  | m :: ms, rs, awaited =>
    match resolveFor resolve m rs awaited with
    | (.error e, awaited) => (.error e, awaited)
    | (.ok rs, awaited) =>
      match m.match p db peer iname itype rs with
      | .error e => (.error e, awaited)
      | .ok true => (.ok (m.rname, m.ename, m.egress), awaited)
      | .ok false => routeFrom default ms rs awaited

/-- `route`.  The result comes with the number of times the resolver was awaited. -/
def route (router : Router) : Checked Decision × ℕ :=
  if peer.type = .domainName then
    routeFrom p db peer iname itype resolve router.default router.matchers none 0
  else
    match p.makeAddress peer.host with
    | some a =>
      routeFrom p db peer iname itype resolve router.default router.matchers (some [a]) 0
    | none => (.error ⟨.asio .invalidArgument, ""⟩, 0)

end Route

end Router

/-! ## When a matcher can be built -/

/-- Every range of the rule is an IPv4 or an IPv6 network. -/
def Rule.RangesValid (p : Platform) (rule : Rule) : Prop :=
  ∀ r ∈ rule.range ++ rule.rangeNr,
    (p.makeNetworkV4 r).isSome = true ∨ (p.makeNetworkV6 r).isSome = true

/-- Every pattern of the rule is a regular expression. -/
def Rule.PatternsValid (p : Platform) (rule : Rule) : Prop :=
  ∀ s ∈ rule.pattern, p.regexValid s = true

/-- The rule can be turned into a matcher. -/
def Rule.Buildable (p : Platform) (rule : Rule) : Prop :=
  rule.RangesValid p ∧ rule.PatternsValid p

variable {p : Platform}

theorem makeNetwork_eq_ok_iff {r : Bytes} :
    (∃ n, makeNetwork p r = .ok n) ↔
      (p.makeNetworkV4 r).isSome = true ∨ (p.makeNetworkV6 r).isSome = true := by
  unfold makeNetwork Checked.fail
  cases p.makeNetworkV4 r with
  | some n4 => simp
  | none => cases p.makeNetworkV6 r <;> simp

theorem makeRegex_eq_ok_iff {s t : Bytes} :
    makeRegex p s = .ok t ↔ p.regexValid s = true ∧ t = s := by
  unfold makeRegex
  split
  · rename_i h
    simp [h, eq_comm]
  · rename_i h
    simp [h]

theorem ranges_eq_ok_iff {rule : Rule} :
    (∃ ns, (rule.range ++ rule.rangeNr).mapM (makeNetwork p) = .ok ns) ↔
      rule.RangesValid p := by
  constructor
  · rintro ⟨ns, h⟩ r hr
    exact makeNetwork_eq_ok_iff.mp (exists_of_mapM_eq_ok h r hr)
  · intro h
    exact exists_mapM_eq_ok fun r hr => makeNetwork_eq_ok_iff.mpr (h r hr)

theorem patterns_eq_ok_iff {rule : Rule} {ts : List Bytes} :
    rule.pattern.mapM (makeRegex p) = .ok ts ↔ rule.PatternsValid p ∧ ts = rule.pattern := by
  rw [mapM_eq_ok_iff]
  simp only [makeRegex_eq_ok_iff]
  constructor
  · intro h
    have hts : ts = rule.pattern := by
      rw [← List.forall₂_eq_eq_eq]
      exact (h.imp fun _ _ h => h.2).flip.imp fun _ _ h => h
    subst hts
    refine ⟨fun s hs => ?_, rfl⟩
    obtain ⟨i, hi, rfl⟩ := List.getElem_of_mem hs
    exact (h.get hi hi).1
  · rintro ⟨h, rfl⟩
    rw [List.forall₂_same]
    exact fun s hs => ⟨h s hs, rfl⟩

/-- The fault of a range that is not a network. -/
def semanticError : Fault := .thrown (.systemError ⟨.pichi .semanticError, ""⟩)

/-- The fault of a pattern that is not a regular expression. -/
def regexError : Fault := .thrown .regexError

theorem makeNetwork_eq_error {r : Bytes} {e : SystemError} (h : makeNetwork p r = .error e) :
    e = ⟨.pichi .semanticError, ""⟩ := by
  unfold makeNetwork Checked.fail at h
  split at h
  · cases h
  · split at h
    · cases h
    · exact (Except.error.inj h).symm

theorem makeRegex_eq_error {s : Bytes} {f : Fault} (h : makeRegex p s = .error f) :
    f = regexError := by
  unfold makeRegex at h
  split at h
  · cases h
  · exact (Except.error.inj h).symm

namespace Matcher

variable {rname ename : Bytes} {rule : Rule} {egress : Egress}

/-- A rule with a bad range fails by `system_error`, whatever its patterns are. -/
theorem make_of_not_rangesValid (h : ¬rule.RangesValid p) :
    make p rname rule ename egress = .error semanticError := by
  unfold make
  cases hns : (rule.range ++ rule.rangeNr).mapM (makeNetwork p) with
  | ok ns => exact absurd (ranges_eq_ok_iff.mp ⟨ns, hns⟩) h
  | error e =>
      obtain ⟨_, _, _, _, _, he⟩ := mapM_eq_error_iff.mp hns
      rw [makeNetwork_eq_error he]
      rfl

/-- A rule with good ranges and a bad pattern fails by `std::regex_error`. -/
theorem make_of_not_patternsValid (hr : rule.RangesValid p) (h : ¬rule.PatternsValid p) :
    make p rname rule ename egress = .error regexError := by
  obtain ⟨ns, hns⟩ := ranges_eq_ok_iff.mpr hr
  unfold make
  rw [hns]
  cases hts : rule.pattern.mapM (makeRegex p) with
  | ok ts => exact absurd (patterns_eq_ok_iff.mp hts).1 h
  | error f =>
      obtain ⟨_, _, _, _, _, hf⟩ := mapM_eq_error_iff.mp hts
      rw [makeRegex_eq_error hf]
      rfl

theorem exists_make_eq_ok_iff :
    (∃ m, make p rname rule ename egress = .ok m) ↔ rule.Buildable p := by
  constructor
  · rintro ⟨m, hm⟩
    by_contra hnot
    by_cases hr : rule.RangesValid p
    · rw [make_of_not_patternsValid hr fun hp => hnot ⟨hr, hp⟩] at hm
      cases hm
    · rw [make_of_not_rangesValid hr] at hm
      cases hm
  · rintro ⟨hr, hp⟩
    obtain ⟨ns, hns⟩ := ranges_eq_ok_iff.mpr hr
    unfold make
    rw [hns, patterns_eq_ok_iff.mpr ⟨hp, rfl⟩]
    exact ⟨_, rfl⟩

end Matcher

/-! ## When a router can be built -/

namespace Route

/-- The tables hold every name in the rules of the route. -/
def Known (egresses : ValueMap Egress) (rules : ValueMap Rule) (route : Route) : Prop :=
  ∀ item ∈ route.rules, (∀ rname ∈ item.1, rname ∈ rules) ∧ item.2 ∈ egresses

/-- Every rule the route names can be turned into a matcher. -/
def Builds (p : Platform) (rules : ValueMap Rule) (route : Route) : Prop :=
  ∀ entry ∈ route.entries, ∀ rule, rules.lookup entry.1 = some rule → rule.Buildable p

/-- Going through the rules of the route in order, the first one that cannot be turned
into a matcher has valid ranges, so that it is one of its patterns that is not a regular
expression. -/
def PatternFirst (p : Platform) (rules : ValueMap Rule) (route : Route) : Prop :=
  ∃ pre entry post rule, route.entries = pre ++ entry :: post
    ∧ (∀ x ∈ pre, ∀ r, rules.lookup x.1 = some r → r.Buildable p)
    ∧ rules.lookup entry.1 = some rule ∧ rule.RangesValid p ∧ ¬rule.PatternsValid p

variable {egresses : ValueMap Egress} {rules : ValueMap Rule} {route : Route}

theorem Known.lookup (h : route.Known egresses rules) {entry : Bytes × Bytes}
    (he : entry ∈ route.entries) :
    ∃ rule egress, rules.lookup entry.1 = some rule ∧ egresses.lookup entry.2 = some egress := by
  obtain ⟨item, hitem, he⟩ := List.mem_flatMap.mp he
  obtain ⟨rname, hrname, rfl⟩ := List.mem_map.mp he
  have hrule := AList.lookup_isSome.mpr ((h item hitem).1 rname hrname)
  have hegress := AList.lookup_isSome.mpr (h item hitem).2
  obtain ⟨rule, hrule⟩ := Option.isSome_iff_exists.mp hrule
  obtain ⟨egress, hegress⟩ := Option.isSome_iff_exists.mp hegress
  exact ⟨rule, egress, hrule, hegress⟩

theorem PatternFirst.not_builds (h : route.PatternFirst p rules) : ¬route.Builds p rules := by
  obtain ⟨pre, entry, post, rule, hentries, -, hrule, -, hpat⟩ := h
  intro hb
  exact hpat (hb entry (by simp [hentries]) rule hrule).2

end Route

namespace Router

variable {egresses : ValueMap Egress} {rules : ValueMap Rule} {route : Route}

/-- With both names in the tables, an entry is built as its matcher is. -/
theorem parseEntry_of_lookup {entry : Bytes × Bytes} {rule : Rule} {egress : Egress}
    (hr : rules.lookup entry.1 = some rule) (he : egresses.lookup entry.2 = some egress) :
    parseEntry p egresses rules entry = Matcher.make p entry.1 rule entry.2 egress := by
  unfold parseEntry ValueMap.at
  rw [hr, he]
  rfl

theorem exists_parseEntry_eq_ok_iff (hk : route.Known egresses rules) {entry : Bytes × Bytes}
    (he : entry ∈ route.entries) :
    (∃ m, parseEntry p egresses rules entry = .ok m) ↔
      ∀ rule, rules.lookup entry.1 = some rule → rule.Buildable p := by
  obtain ⟨rule, egress, hr, heg⟩ := hk.lookup he
  rw [parseEntry_of_lookup hr heg, Matcher.exists_make_eq_ok_iff, hr]
  simp

theorem exists_parseRoute_eq_ok_iff (hk : route.Known egresses rules) :
    (∃ ms, parseRoute p egresses rules route = .ok ms) ↔ route.Builds p rules := by
  constructor
  · rintro ⟨ms, h⟩ entry he
    exact (exists_parseEntry_eq_ok_iff hk he).mp (exists_of_mapM_eq_ok h entry he)
  · intro h
    exact exists_mapM_eq_ok fun entry he => (exists_parseEntry_eq_ok_iff hk he).mpr (h entry he)

theorem parseRoute_of_patternFirst (hk : route.Known egresses rules)
    (h : route.PatternFirst p rules) :
    parseRoute p egresses rules route = .error regexError := by
  obtain ⟨pre, entry, post, rule, hentries, hpre, hrule, hranges, hpat⟩ := h
  have hmem : ∀ x ∈ pre ++ entry :: post, x ∈ route.entries := by simp [hentries]
  refine mapM_eq_error_iff.mpr ⟨pre, entry, post, hentries, fun x hx => ?_, ?_⟩
  · exact (exists_parseEntry_eq_ok_iff hk (hmem x (by simp [hx]))).mpr (hpre x hx)
  · obtain ⟨_, egress, -, heg⟩ := hk.lookup (hmem entry (by simp))
    rw [parseEntry_of_lookup hrule heg]
    exact Matcher.make_of_not_patternsValid hranges hpat

/-- A route that cannot be built fails at its first bad rule: by `std::regex_error` if
that is a matter of its patterns, else by `system_error`. -/
theorem parseRoute_of_not_builds (hk : route.Known egresses rules) (h : ¬route.Builds p rules)
    (hfirst : ¬route.PatternFirst p rules) :
    parseRoute p egresses rules route = .error semanticError := by
  cases hms : parseRoute p egresses rules route with
  | ok ms => exact absurd ((exists_parseRoute_eq_ok_iff hk).mp ⟨ms, hms⟩) h
  | error f =>
      obtain ⟨pre, entry, post, hentries, hpre, hf⟩ := mapM_eq_error_iff.mp hms
      have hmem : ∀ x ∈ pre ++ entry :: post, x ∈ route.entries := by simp [hentries]
      obtain ⟨rule, egress, hr, heg⟩ := hk.lookup (hmem entry (by simp))
      rw [parseEntry_of_lookup hr heg] at hf
      by_cases hranges : rule.RangesValid p
      · -- a failure with valid ranges would be the first bad pattern
        exfalso
        refine hfirst ⟨pre, entry, post, rule, hentries, fun x hx => ?_, hr, hranges, ?_⟩
        · exact (exists_parseEntry_eq_ok_iff hk (hmem x (by simp [hx]))).mp (hpre x hx)
        · intro hpat
          obtain ⟨m, hm⟩ := Matcher.exists_make_eq_ok_iff.mpr (And.intro hranges hpat)
          rw [hm] at hf
          cases hf
      · rw [Matcher.make_of_not_rangesValid hranges] at hf
        exact congrArg _ (Except.error.inj hf).symm

/-- **Every way of building a router**, for tables that hold the names the route uses. -/
theorem make_cases (hk : route.Known egresses rules)
    (hd : ∀ d, route.default = some d → d ∈ egresses) :
    (route.Builds p rules ∧ route.default.isSome = true
        ∧ ∃ router, make p egresses rules route = .ok router)
      ∨ (route.Builds p rules ∧ route.default = none
        ∧ make p egresses rules route = .error .undefinedBehaviour)
      ∨ (route.PatternFirst p rules ∧ make p egresses rules route = .error regexError)
      ∨ (¬route.Builds p rules ∧ ¬route.PatternFirst p rules
        ∧ make p egresses rules route = .error semanticError) := by
  unfold make
  by_cases hb : route.Builds p rules
  · obtain ⟨ms, hms⟩ := (exists_parseRoute_eq_ok_iff hk).mpr hb
    rw [hms]
    cases hdef : route.default with
    | none => exact Or.inr (Or.inl ⟨hb, rfl, rfl⟩)
    | some d =>
        obtain ⟨egress, hegress⟩ :=
          Option.isSome_iff_exists.mp (AList.lookup_isSome.mpr (hd d hdef))
        refine Or.inl ⟨hb, rfl, ⟨ms, (lit "*", d, egress)⟩, ?_⟩
        simp [deref, ValueMap.at, hegress, bind, Except.bind, pure, Except.pure]
  · by_cases hf : route.PatternFirst p rules
    · rw [parseRoute_of_patternFirst hk hf]
      exact Or.inr (Or.inr (Or.inl ⟨hf, rfl⟩))
    · rw [parseRoute_of_not_builds hk hb hf]
      exact Or.inr (Or.inr (Or.inr ⟨hb, hf, rfl⟩))

/-- **Only the entries the route names matter** to the router that is built. -/
theorem make_congr {egresses' : ValueMap Egress} {rules' : ValueMap Rule}
    (hr : ∀ item ∈ route.rules, ∀ rname ∈ item.1, rules'.lookup rname = rules.lookup rname)
    (he : ∀ item ∈ route.rules, egresses'.lookup item.2 = egresses.lookup item.2)
    (hd : ∀ d, route.default = some d → egresses'.lookup d = egresses.lookup d) :
    make p egresses' rules' route = make p egresses rules route := by
  have hparse : parseRoute p egresses' rules' route = parseRoute p egresses rules route := by
    -- the flattened entries carry exactly the names the hypotheses speak about
    apply mapM_congr
    intro entry hentry
    obtain ⟨item, hitem, hentry⟩ := List.mem_flatMap.mp hentry
    obtain ⟨rname, hrname, rfl⟩ := List.mem_map.mp hentry
    unfold parseEntry ValueMap.at
    rw [hr item hitem rname hrname, he item hitem]
  unfold make
  rw [hparse]
  cases hdef : route.default with
  | none => rfl
  | some d =>
      have hat : egresses'.at d = egresses.at d := by
        unfold ValueMap.at
        rw [hd d hdef]
      simp only [deref, bind, Except.bind, hat]

end Router

end Pichi
