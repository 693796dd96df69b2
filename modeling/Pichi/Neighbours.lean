/-
# Rules and their neighbours

A rule is inserted into the flattened route.  Even where it does not match itself, it can make
the router resolve the peer, and from then on every rule is tested with the addresses: also a
rule with `range_nr` or `country_nr`, which does not resolve by itself.

`Inserted` says that one route is another one with a rule more, `Exposed` finds the rule that
the insertion lets match, and `Leads` the egress a route leads to.  The results of a resolver
include the failure `MISC`, which only the tests throw and which `Router::route` passes on.

**Main result** (`same_egress_iff`): inserting a rule that does not match leaves the egress as
it was if and only if it does not disturb the rules behind it.
-/
import Pichi.Routing

namespace Pichi

/-! ## First positions -/

namespace Routing

/-- The egress of the first position that satisfies `P`, or the default. -/
def LeadsBy (P : ℕ → Prop) (route : Route) (ename : Bytes) : Prop :=
  (∃ i rname, P i ∧ (∀ j < i, ¬P j) ∧ route.entries[i]? = some (rname, ename))
    ∨ (∀ i, ¬P i) ∧ route.default = some ename

variable {P Q : ℕ → Prop} {route : Route} {ename : Bytes}

theorem LeadsBy.unique {e e' : Bytes} (h : LeadsBy P route e) (h' : LeadsBy P route e') :
    e = e' := by
  rcases h with ⟨i, rname, hi, hbefore, hentry⟩ | ⟨hnone, hdefault⟩
  · rcases h' with ⟨i', rname', hi', hbefore', hentry'⟩ | ⟨hnone, -⟩
    · have heq : i = i' := by
        rcases Nat.lt_trichotomy i i' with hlt | heq | hlt
        · exact absurd hi (hbefore' i hlt)
        · exact heq
        · exact absurd hi' (hbefore i' hlt)
      subst heq
      rw [hentry] at hentry'
      exact (Prod.mk.inj (Option.some.inj hentry')).2
    · exact absurd hi (hnone i)
  · rcases h' with ⟨i', rname', hi', -⟩ | ⟨-, hdefault'⟩
    · exact absurd hi' (hnone i')
    · exact Option.some.inj (hdefault.symm.trans hdefault')

/-- Predicates that agree up to the first position. -/
theorem before_iff_of_agree (h : ∀ k, (∀ i < k, ¬P i) → (Q k ↔ P k)) (k : ℕ) :
    (∀ i < k, ¬Q i) ↔ ∀ i < k, ¬P i := by
  induction k with
  | zero => simp
  | succ k ih =>
      simp only [Nat.forall_lt_succ_right, ih]
      refine and_congr_right fun hbefore => ?_
      rw [h k hbefore]

theorem leadsBy_congr (h : ∀ k, (∀ i < k, ¬P i) → (Q k ↔ P k)) :
    LeadsBy Q route ename ↔ LeadsBy P route ename := by
  have hbefore := before_iff_of_agree h
  have hfirst : ∀ i, (Q i ∧ ∀ j < i, ¬Q j) ↔ (P i ∧ ∀ j < i, ¬P j) := by
    intro i
    rw [hbefore i]
    exact and_congr_left (h i)
  have hnone : (∀ i, ¬Q i) ↔ ∀ i, ¬P i := by
    constructor
    · intro hQ i
      exact (hbefore (i + 1)).mp (fun j _ => hQ j) i (Nat.lt_succ_self i)
    · intro hP i
      exact (hbefore (i + 1)).mpr (fun j _ => hP j) i (Nat.lt_succ_self i)
  unfold LeadsBy
  rw [hnone]
  simp only [← and_assoc, hfirst]

/-! ## What a route leads to -/

section Request

variable (p : Platform) (db : Mmdb) (peer : Endpoint) (iname : Bytes) (itype : AdapterType)
  (resolve : Checked (List Address)) (rules : ValueMap Rule) (route : Route)

/-- The egress of the first rule that matches under the addresses known there, or the
default. -/
def Leads (ename : Bytes) : Prop :=
  LeadsBy (MatchesAt p db peer iname itype resolve rules route) route ename

/-- A rule that resolves is reached. -/
def Reached : Prop :=
  ∃ i, ResolvesAt rules route i ∧ ∀ j < i, ¬MatchesAt p db peer iname itype resolve rules route j

/-- The rule at position `i` matches under the addresses of the resolver. -/
def MatchesResolved (i : ℕ) : Prop :=
  ∃ rule, ruleAt rules route i = some rule
    ∧ rule.Matches p db peer iname itype (some (outcome resolve))

/-- Position `n` is reached without addresses. -/
def Blind (n : ℕ) : Prop :=
  ∀ j < n, ¬ResolvesAt rules route j ∧ ¬MatchesAt p db peer iname itype resolve rules route j

/-- No rule resolves up to position `i`, and from position `n` on it is the first that matches
under the addresses of the resolver. -/
def Exposed (n i : ℕ) : Prop :=
  n ≤ i ∧ (∀ k ≤ i, ¬ResolvesAt rules route k)
    ∧ MatchesResolved p db peer iname itype resolve rules route i
    ∧ ∀ j, n ≤ j → j < i → ¬MatchesResolved p db peer iname itype resolve rules route j

/-- The resolver fails with `MISC`. -/
def Misc : Prop := ∃ e, resolve = .error e ∧ e.code = .pichi .misc

/-- A rule inserted at position `n` does not disturb the rules behind it.  It can do so if it
is reached by a domain name of which no addresses are known, and resolves it.  Then the first
rule it exposes, if any, belongs to the egress the route leads to anyway; where resolving fails
with `MISC`, the route resolves anyway. -/
def Undisturbed (n : ℕ) (rule : Rule) : Prop :=
  peer.type = .domainName → rule.NeedsResolving →
    Blind p db peer iname itype resolve rules route n →
      (Misc resolve → Reached p db peer iname itype resolve rules route)
      ∧ (¬Misc resolve → ∀ i rname ename,
          Exposed p db peer iname itype resolve rules route n i →
          route.entries[i]? = some (rname, ename) →
          Leads p db peer iname itype resolve rules route ename)

end Request

/-- `route'` is `route` with a rule inserted at position `n` of the flattened route. -/
structure Inserted (rules : ValueMap Rule) (route route' : Route) (n : ℕ) (rule : Rule) :
    Prop where
  entries : ∃ pre entry post, pre.length = n ∧ route.entries = pre ++ post
    ∧ route'.entries = pre ++ entry :: post ∧ rules.lookup entry.1 = some rule
  default : route'.default = route.default

end Routing

/-- Both routers choose the same egress, or fail alike. -/
def Router.SameEgress (p : Platform) (db : Mmdb) (peer : Endpoint) (iname : Bytes)
    (itype : AdapterType) (resolve : Checked (List Address)) (router router' : Router) : Prop :=
  (router'.route p db peer iname itype resolve).1.map Prod.snd
    = (router.route p db peer iname itype resolve).1.map Prod.snd

/-! ## Positions of the longer route -/

namespace Routing

/-- Where position `k` is found after an insertion at position `n`. -/
def shift (n k : ℕ) : ℕ := if k < n then k else k + 1

theorem shift_of_lt {n k : ℕ} (h : k < n) : shift n k = k := if_pos h

theorem shift_of_le {n k : ℕ} (h : n ≤ k) : shift n k = k + 1 := if_neg (Nat.not_lt.mpr h)

theorem shift_lt_shift_iff {n i k : ℕ} : shift n i < shift n k ↔ i < k := by
  unfold shift
  split <;> split <;> omega

theorem lt_shift_iff {n k : ℕ} : n < shift n k ↔ n ≤ k := by
  unfold shift
  split <;> omega

/-- Every position is the new one or comes from one of the shorter route. -/
theorem eq_or_exists_shift (n j : ℕ) : j = n ∨ ∃ k, j = shift n k := by
  rcases Nat.lt_trichotomy j n with hlt | heq | hlt
  · exact Or.inr ⟨j, (shift_of_lt hlt).symm⟩
  · exact Or.inl heq
  · refine Or.inr ⟨j - 1, ?_⟩
    rw [shift_of_le (by omega)]
    omega

variable {rules : ValueMap Rule} {route route' : Route} {n : ℕ} {rule : Rule}

theorem Inserted.entries_shift (h : Inserted rules route route' n rule) (k : ℕ) :
    route'.entries[shift n k]? = route.entries[k]? := by
  obtain ⟨pre, entry, post, rfl, hentries, hentries', -⟩ := h.entries
  rw [hentries, hentries']
  by_cases hk : k < pre.length
  · rw [shift_of_lt hk, List.getElem?_append_left hk, List.getElem?_append_left hk]
  · rw [shift_of_le (Nat.not_lt.mp hk), List.getElem?_append_right (by omega),
      List.getElem?_append_right (by omega), show k + 1 - pre.length = k - pre.length + 1 by omega,
      List.getElem?_cons_succ]

theorem Inserted.ruleAt_shift (h : Inserted rules route route' n rule) (k : ℕ) :
    ruleAt rules route' (shift n k) = ruleAt rules route k := by
  rw [ruleAt, ruleAt, h.entries_shift]

theorem Inserted.ruleAt_self (h : Inserted rules route route' n rule) :
    ruleAt rules route' n = some rule := by
  obtain ⟨pre, entry, post, rfl, -, hentries', hrule⟩ := h.entries
  rw [ruleAt, hentries', List.getElem?_append_right (Nat.le_refl _), Nat.sub_self]
  exact hrule

theorem Inserted.resolvesAt_shift (h : Inserted rules route route' n rule) (k : ℕ) :
    ResolvesAt rules route' (shift n k) ↔ ResolvesAt rules route k := by
  rw [ResolvesAt, ResolvesAt, h.ruleAt_shift]

theorem Inserted.resolvesAt_self (h : Inserted rules route route' n rule) :
    ResolvesAt rules route' n ↔ rule.NeedsResolving := by
  simp [ResolvesAt, h.ruleAt_self]

/-- A rule resolves up to a position of the longer route. -/
theorem Inserted.exists_resolvesAt_iff (h : Inserted rules route route' n rule) (k : ℕ) :
    (∃ j ≤ shift n k, ResolvesAt rules route' j)
      ↔ (∃ i ≤ k, ResolvesAt rules route i) ∨ n ≤ k ∧ rule.NeedsResolving := by
  constructor
  · rintro ⟨j, hj, hresolves⟩
    rcases eq_or_exists_shift n j with rfl | ⟨i, rfl⟩
    · refine Or.inr ⟨?_, h.resolvesAt_self.mp hresolves⟩
      unfold shift at hj
      split at hj <;> omega
    · refine Or.inl ⟨i, ?_, (h.resolvesAt_shift i).mp hresolves⟩
      rw [← Nat.not_lt, shift_lt_shift_iff] at hj
      omega
  · rintro (⟨i, hi, hresolves⟩ | ⟨hn, hneeds⟩)
    · refine ⟨shift n i, ?_, (h.resolvesAt_shift i).mpr hresolves⟩
      rw [← Nat.not_lt, shift_lt_shift_iff]
      omega
    · exact ⟨n, Nat.le_of_lt (lt_shift_iff.mpr hn), h.resolvesAt_self.mpr hneeds⟩

/-! ## Matches of the longer route -/

section Matches

variable {p : Platform} {db : Mmdb} {peer : Endpoint} {iname : Bytes} {itype : AdapterType}
  {resolve : Checked (List Address)}

/-- Where both routes know the same, the same rules match. -/
theorem Inserted.matchesAt_shift_of_quiet (h : Inserted rules route route' n rule) {k : ℕ}
    (hquiet : peer.type ≠ .domainName ∨ ¬rule.NeedsResolving ∨ k < n
      ∨ ∃ i ≤ k, ResolvesAt rules route i) :
    MatchesAt p db peer iname itype resolve rules route' (shift n k)
      ↔ MatchesAt p db peer iname itype resolve rules route k := by
  have hknown : known p peer resolve rules route' (shift n k)
      = known p peer resolve rules route k := by
    unfold known
    by_cases htype : peer.type = .domainName
    · rw [if_pos htype, if_pos htype]
      have hiff : (∃ j ≤ shift n k, ResolvesAt rules route' j)
          ↔ ∃ i ≤ k, ResolvesAt rules route i := by
        rw [h.exists_resolvesAt_iff]
        refine or_iff_left_of_imp ?_
        rintro ⟨hn, hneeds⟩
        rcases hquiet with hne | hnot | hlt | hex
        · exact absurd htype hne
        · exact absurd hneeds hnot
        · omega
        · exact hex
      by_cases hex : ∃ i ≤ k, ResolvesAt rules route i
      · rw [if_pos hex, if_pos (hiff.mpr hex)]
      · rw [if_neg hex, if_neg (mt hiff.mp hex)]
    · rw [if_neg htype, if_neg htype]
  rw [MatchesAt, MatchesAt, h.ruleAt_shift, hknown]

/-- Behind a rule that resolves, every rule is tested with the addresses. -/
theorem Inserted.matchesAt_shift_of_resolved (h : Inserted rules route route' n rule) {k : ℕ}
    (htype : peer.type = .domainName) (hneeds : rule.NeedsResolving) (hn : n ≤ k) :
    MatchesAt p db peer iname itype resolve rules route' (shift n k)
      ↔ MatchesResolved p db peer iname itype resolve rules route k := by
  have hknown : known p peer resolve rules route' (shift n k) = some (outcome resolve) := by
    rw [known, if_pos htype, if_pos ((h.exists_resolvesAt_iff k).mpr (Or.inr ⟨hn, hneeds⟩))]
  rw [MatchesAt, MatchesResolved, h.ruleAt_shift, hknown]

/-- A rule that matches matches with the addresses, too. -/
theorem MatchesAt.resolved (htype : peer.type = .domainName) {k : ℕ}
    (h : MatchesAt p db peer iname itype resolve rules route k) :
    MatchesResolved p db peer iname itype resolve rules route k := by
  obtain ⟨rule, hrule, hmatches⟩ := h
  refine ⟨rule, hrule, ?_⟩
  rw [known, if_pos htype] at hmatches
  split at hmatches
  · exact hmatches
  · cases hmatches with
    | range hknown => cases hknown
    | country hknown => cases hknown
    | ingress h => exact .ingress h
    | type h => exact .type h
    | pattern hs h => exact .pattern hs h
    | domain hd hne htype hhost h => exact .domain hd hne htype hhost h

/-- With the addresses at hand the rule matches. -/
theorem MatchesResolved.matchesAt (htype : peer.type = .domainName) {k : ℕ}
    (h : MatchesResolved p db peer iname itype resolve rules route k)
    (hresolves : ∃ i ≤ k, ResolvesAt rules route i) :
    MatchesAt p db peer iname itype resolve rules route k := by
  obtain ⟨rule, hrule, hmatches⟩ := h
  refine ⟨rule, hrule, ?_⟩
  rwa [known, if_pos htype, if_pos hresolves]

/-- The new rule does not match: all that matches comes from the shorter route. -/
theorem Inserted.before_shift_iff (hno : ¬MatchesAt p db peer iname itype resolve rules route' n)
    (k : ℕ) :
    (∀ j < shift n k, ¬MatchesAt p db peer iname itype resolve rules route' j)
      ↔ ∀ i < k, ¬MatchesAt p db peer iname itype resolve rules route' (shift n i) := by
  constructor
  · intro h i hi
    exact h _ (shift_lt_shift_iff.mpr hi)
  · intro h j hj
    rcases eq_or_exists_shift n j with rfl | ⟨i, rfl⟩
    · exact hno
    · exact h i (shift_lt_shift_iff.mp hj)

/-- What the longer route leads to, in terms of the positions of the shorter one. -/
theorem Inserted.leads_iff (h : Inserted rules route route' n rule)
    (hno : ¬MatchesAt p db peer iname itype resolve rules route' n) {ename : Bytes} :
    Leads p db peer iname itype resolve rules route' ename
      ↔ LeadsBy (fun k => MatchesAt p db peer iname itype resolve rules route' (shift n k))
          route ename := by
  unfold Leads LeadsBy
  rw [h.default]
  constructor
  · rintro (⟨j, rname, hj, hbefore, hentry⟩ | ⟨hnone, hdefault⟩)
    · rcases eq_or_exists_shift n j with rfl | ⟨k, rfl⟩
      · exact absurd hj hno
      · rw [h.entries_shift] at hentry
        exact Or.inl ⟨k, rname, hj, (before_shift_iff hno k).mp hbefore, hentry⟩
    · exact Or.inr ⟨fun k => hnone _, hdefault⟩
  · rintro (⟨k, rname, hk, hbefore, hentry⟩ | ⟨hnone, hdefault⟩)
    · refine Or.inl ⟨shift n k, rname, hk, (before_shift_iff hno k).mpr hbefore, ?_⟩
      rw [h.entries_shift]
      exact hentry
    · refine Or.inr ⟨fun j => ?_, hdefault⟩
      rcases eq_or_exists_shift n j with rfl | ⟨k, rfl⟩
      · exact hno
      · exact hnone k

/-- When a rule that resolves is reached in the longer route. -/
theorem Inserted.reached_iff (h : Inserted rules route route' n rule)
    (hno : ¬MatchesAt p db peer iname itype resolve rules route' n) :
    Reached p db peer iname itype resolve rules route'
      ↔ (∃ k, ResolvesAt rules route k
          ∧ ∀ i < k, ¬MatchesAt p db peer iname itype resolve rules route' (shift n i))
        ∨ rule.NeedsResolving
          ∧ ∀ i < n, ¬MatchesAt p db peer iname itype resolve rules route i := by
  have hfront : (∀ i < n, ¬MatchesAt p db peer iname itype resolve rules route' i)
      ↔ ∀ i < n, ¬MatchesAt p db peer iname itype resolve rules route i := by
    refine forall₂_congr fun i hi => ?_
    have hquiet : MatchesAt p db peer iname itype resolve rules route' (shift n i)
        ↔ MatchesAt p db peer iname itype resolve rules route i :=
      h.matchesAt_shift_of_quiet (Or.inr (Or.inr (Or.inl hi)))
    rw [shift_of_lt hi] at hquiet
    rw [hquiet]
  constructor
  · rintro ⟨j, hresolves, hbefore⟩
    rcases eq_or_exists_shift n j with rfl | ⟨k, rfl⟩
    · exact Or.inr ⟨h.resolvesAt_self.mp hresolves, hfront.mp hbefore⟩
    · exact Or.inl ⟨k, (h.resolvesAt_shift k).mp hresolves, (before_shift_iff hno k).mp hbefore⟩
  · rintro (⟨k, hresolves, hbefore⟩ | ⟨hneeds, hbefore⟩)
    · exact ⟨shift n k, (h.resolvesAt_shift k).mpr hresolves, (before_shift_iff hno k).mpr hbefore⟩
    · exact ⟨n, h.resolvesAt_self.mpr hneeds, hfront.mpr hbefore⟩

/-- Unless the new rule resolves a domain name that comes without addresses, the routes agree
up to the first match. -/
theorem Inserted.agree_of_quiet (h : Inserted rules route route' n rule)
    (hquiet : ¬(peer.type = .domainName ∧ rule.NeedsResolving
      ∧ Blind p db peer iname itype resolve rules route n)) (k : ℕ)
    (hbefore : ∀ i < k, ¬MatchesAt p db peer iname itype resolve rules route i) :
    MatchesAt p db peer iname itype resolve rules route' (shift n k)
      ↔ MatchesAt p db peer iname itype resolve rules route k := by
  apply h.matchesAt_shift_of_quiet
  by_contra hcon
  push Not at hcon
  obtain ⟨htype, hneeds, hn, hresolves⟩ := hcon
  exact hquiet ⟨htype, hneeds, fun j hj => ⟨hresolves j (by omega), hbefore j (by omega)⟩⟩

theorem Inserted.leads_of_quiet (h : Inserted rules route route' n rule)
    (hno : ¬MatchesAt p db peer iname itype resolve rules route' n)
    (hquiet : ¬(peer.type = .domainName ∧ rule.NeedsResolving
      ∧ Blind p db peer iname itype resolve rules route n)) {ename : Bytes} :
    Leads p db peer iname itype resolve rules route' ename
      ↔ Leads p db peer iname itype resolve rules route ename := by
  rw [h.leads_iff hno]
  exact leadsBy_congr (h.agree_of_quiet hquiet)

theorem Inserted.reached_of_quiet (h : Inserted rules route route' n rule)
    (hno : ¬MatchesAt p db peer iname itype resolve rules route' n)
    (htype : peer.type = .domainName)
    (hquiet : ¬(peer.type = .domainName ∧ rule.NeedsResolving
      ∧ Blind p db peer iname itype resolve rules route n)) :
    Reached p db peer iname itype resolve rules route'
      ↔ Reached p db peer iname itype resolve rules route := by
  rw [h.reached_iff hno]
  simp only [before_iff_of_agree (h.agree_of_quiet hquiet)]
  refine or_iff_left_of_imp ?_
  rintro ⟨hneeds, hbefore⟩
  -- the new rule is reached and resolves, so a rule before it resolves, too
  have hearlier : ∃ j < n, ResolvesAt rules route j := by
    by_contra hcon
    push Not at hcon
    exact hquiet ⟨htype, hneeds, fun j hj => ⟨hcon j hj, hbefore j hj⟩⟩
  obtain ⟨j, hj, hresolves⟩ := hearlier
  exact ⟨j, hresolves, fun i hi => hbefore i (Nat.lt_trans hi hj)⟩

/-- Where the new rule resolves a domain name that comes without addresses, the longer route
leads to where the shorter one leads, unless it exposes a rule of another egress. -/
theorem Inserted.leads_of_blind (h : Inserted rules route route' n rule)
    (hno : ¬MatchesAt p db peer iname itype resolve rules route' n)
    (htype : peer.type = .domainName) (hneeds : rule.NeedsResolving)
    (hblind : Blind p db peer iname itype resolve rules route n) {e : Bytes}
    (hleads : Leads p db peer iname itype resolve rules route' e) :
    Leads p db peer iname itype resolve rules route e
      ↔ ∀ i rname ename, Exposed p db peer iname itype resolve rules route n i →
          route.entries[i]? = some (rname, ename) →
          Leads p db peer iname itype resolve rules route ename := by
  have hfront : ∀ k < n, ¬MatchesAt p db peer iname itype resolve rules route' (shift n k) := by
    intro k hk
    rw [h.matchesAt_shift_of_quiet (Or.inr (Or.inr (Or.inl hk)))]
    exact (hblind k hk).2
  have hback : ∀ k, n ≤ k → (MatchesAt p db peer iname itype resolve rules route' (shift n k)
      ↔ MatchesResolved p db peer iname itype resolve rules route k) := fun k hk =>
    h.matchesAt_shift_of_resolved htype hneeds hk
  have hbefore : ∀ k, (∀ j, n ≤ j → j < k →
      ¬MatchesResolved p db peer iname itype resolve rules route j) →
      ∀ j < k, ¬MatchesAt p db peer iname itype resolve rules route j := by
    intro k hk j hj hmatch
    by_cases hn : n ≤ j
    · exact hk j hn hj (hmatch.resolved htype)
    · exact (hblind j (Nat.lt_of_not_le hn)).2 hmatch
  constructor
  · rintro hshort i rname ename ⟨hn, -, hmatch, hfirst⟩ hentry
    have hexposed : Leads p db peer iname itype resolve rules route' ename := by
      rw [h.leads_iff hno]
      refine Or.inl ⟨i, rname, (hback i hn).mpr hmatch, fun j hj => ?_, hentry⟩
      by_cases hnj : n ≤ j
      · exact mt (hback j hnj).mp (hfirst j hnj hj)
      · exact hfront j (Nat.lt_of_not_le hnj)
    rwa [hexposed.unique hleads]
  · intro hexposed
    rw [h.leads_iff hno] at hleads
    rcases hleads with ⟨k, rname, hk, hfirst, hentry⟩ | ⟨hnone, hdefault⟩
    · have hn : n ≤ k := by
        by_contra hcon
        exact hfront k (Nat.lt_of_not_le hcon) hk
      have hresolved := (hback k hn).mp hk
      have hfirst' : ∀ j, n ≤ j → j < k →
          ¬MatchesResolved p db peer iname itype resolve rules route j := by
        intro j hj hjk
        rw [← hback j hj]
        exact hfirst j hjk
      by_cases hresolves : ∃ i ≤ k, ResolvesAt rules route i
      · exact Or.inl ⟨k, rname, hresolved.matchesAt htype hresolves, hbefore k hfirst', hentry⟩
      · push Not at hresolves
        exact hexposed k rname e ⟨hn, hresolves, hresolved, hfirst'⟩ hentry
    · refine Or.inr ⟨fun k => ?_, hdefault⟩
      refine hbefore (k + 1) (fun j hj _ => ?_) k (Nat.lt_succ_self k)
      rw [← hback j hj]
      exact hnone j

end Matches

end Routing

/-! ## The routers -/

namespace Router

open LazyScan Routing

variable {p : Platform} {db : Mmdb} {peer : Endpoint} {iname : Bytes} {itype : AdapterType}
  {resolve : Checked (List Address)} {egresses : ValueMap Egress} {rules : ValueMap Rule}
  {route route' : Route} {router router' : Router}

/-- With the addresses at hand the resolver does not matter. -/
theorem routeFrom_of_known (default : Decision) (resolve' : Checked (List Address)) :
    ∀ {ms : List Matcher} {addresses : List Address} {awaited : ℕ},
      routeFrom p db peer iname itype resolve default ms (some addresses) awaited
        = routeFrom p db peer iname itype resolve' default ms (some addresses) awaited := by
  intro ms
  induction ms with
  | nil => intro addresses awaited; rfl
  | cons m ms ih =>
      intro addresses awaited
      simp only [routeFrom, resolveFor, Option.isNone_some, Bool.false_and, Bool.false_eq_true,
        if_false, ih]

open Classical in
/-- A failure with `MISC` ends the loop at the first rule that resolves. -/
theorem routeFrom_of_misc {e : SystemError} (he : e.code = .pichi .misc) (default : Decision) :
    ∀ {ms : List Matcher} {awaited : ℕ},
      (∀ m ∈ ms, ∀ rs, ∃ b, m.match p db peer iname itype rs = .ok b) →
      (routeFrom p db peer iname itype (.error e) default ms none awaited).1
        = if NeededAt Matcher.resolve (accepts p db peer iname itype) [] none ms
          then .error ⟨.pichi .misc, ""⟩
          else (routeFrom p db peer iname itype (.ok []) default ms none awaited).1 := by
  intro ms
  induction ms with
  | nil =>
      intro awaited _
      rw [if_neg (by simp [NeededAt])]
      rfl
  | cons m ms ih =>
      intro awaited hms
      rw [neededAt_cons_iff]
      by_cases hm : m.resolve = true
      · simp [routeFrom, resolveFor, hm, he]
      · obtain ⟨b, hb⟩ := hms m (by simp) none
        have haccepts : accepts p db peer iname itype none m = b := by rw [accepts, hb]
        simp only [routeFrom, resolveFor, hm, Bool.and_false, Bool.false_eq_true, if_false, hb,
          haccepts, false_or]
        cases b with
        | true => simp
        | false => simp [ih fun m' hm' => hms m' (by simp [hm'])]

/-- A router that does not fail leads to an egress of the table. -/
theorem exists_leads (hdb : db.Textual) (h : make p egresses rules route = .ok router)
    (hpeer : peer.type ≠ .domainName → (p.makeAddress peer.host).isSome = true)
    (hres : ¬Misc resolve) :
    ∃ rname ename egress,
      (router.route p db peer iname itype resolve).1 = .ok (rname, ename, egress)
      ∧ Leads p db peer iname itype resolve rules route ename
      ∧ egresses.lookup ename = some egress := by
  have hres' : ∀ e, resolve = .error e → e.code ≠ .pichi .misc := fun e he hcode =>
    hres ⟨e, he, hcode⟩
  rcases @route_decides p db peer iname itype resolve _ _ _ _ hdb h hpeer hres' with
    ⟨i, rname, ename, egress, hentry, hegress, hmatch, hbefore, hroute⟩
      | ⟨hnone, d, egress, hd, hegress, hroute⟩
  · exact ⟨rname, ename, egress, hroute, Or.inl ⟨i, rname, hmatch, hbefore, hentry⟩, hegress⟩
  · exact ⟨_, d, egress, hroute, Or.inr ⟨hnone, hd⟩, hegress⟩

/-- What a router does with a domain name, for every outcome of the resolver. -/
theorem route_domain (hdb : db.Textual) (h : make p egresses rules route = .ok router)
    (htype : peer.type = .domainName) :
    (Misc resolve ∧ Reached p db peer iname itype resolve rules route
        ∧ (router.route p db peer iname itype resolve).1 = .error ⟨.pichi .misc, ""⟩)
      ∨ (Misc resolve → ¬Reached p db peer iname itype resolve rules route)
        ∧ ∃ rname ename egress,
          (router.route p db peer iname itype resolve).1 = .ok (rname, ename, egress)
          ∧ Leads p db peer iname itype resolve rules route ename
          ∧ egresses.lookup ename = some egress := by
  have hpeer : peer.type ≠ .domainName → (p.makeAddress peer.host).isSome = true := fun hne =>
    absurd htype hne
  by_cases hmisc : Misc resolve
  · obtain ⟨e, rfl, he⟩ := hmisc
    have hstart : start p peer = none := by simp [start, htype]
    have hneeded : NeededAt Matcher.resolve (accepts p db peer iname itype) [] none router.matchers
        ↔ Reached p db peer iname itype (.error e) rules route :=
      @neededAt_iff p db peer iname itype (.error e) _ _ _ _ hdb h hpeer hstart
    have hroute : (router.route p db peer iname itype (.error e)).1
        = (routeFrom p db peer iname itype (.error e) router.default router.matchers none 0).1 := by
      rw [Router.route, if_pos htype]
    rw [hroute, routeFrom_of_misc he _ (matchers_answer hdb h)]
    by_cases hreached : Reached p db peer iname itype (.error e) rules route
    · exact Or.inl ⟨⟨e, rfl, he⟩, hreached, if_pos (hneeded.mpr hreached)⟩
    · refine Or.inr ⟨fun _ => hreached, ?_⟩
      -- nothing is resolved: an empty answer of the resolver would do as well
      have hempty : ¬Misc (.ok []) := by
        rintro ⟨e, he, -⟩
        cases he
      obtain ⟨rname, ename, egress, hok, hleads, hegress⟩ :=
        @exists_leads p db peer iname itype (.ok []) _ _ _ _ hdb h hpeer hempty
      refine ⟨rname, ename, egress, ?_, hleads, hegress⟩
      rw [if_neg (mt hneeded.mp hreached), ← hok, Router.route, if_pos htype]
  · exact Or.inr ⟨fun hm => absurd hm hmisc, exists_leads hdb h hpeer hmisc⟩

/-- Routers that both choose an egress choose the same one if its name is the same. -/
theorem sameEgress_iff {rname rname' ename ename' : Bytes} {egress egress' : Egress}
    (h : (router.route p db peer iname itype resolve).1 = .ok (rname, ename, egress))
    (h' : (router'.route p db peer iname itype resolve).1 = .ok (rname', ename', egress'))
    (hegress : egresses.lookup ename = some egress)
    (hegress' : egresses.lookup ename' = some egress') :
    SameEgress p db peer iname itype resolve router router' ↔ ename' = ename := by
  rw [SameEgress, h, h']
  constructor
  · intro heq
    exact (Prod.mk.inj (Except.ok.inj heq)).1
  · rintro rfl
    obtain rfl := Option.some.inj (hegress.symm.trans hegress')
    rfl

/-- With an address nothing is resolved, and no rule can disturb another. -/
theorem sameEgress_of_address (hdb : db.Textual) (h : make p egresses rules route = .ok router)
    (h' : make p egresses rules route' = .ok router') {n : ℕ} {rule : Rule}
    (hins : Inserted rules route route' n rule)
    (hno : ¬MatchesAt p db peer iname itype resolve rules route' n)
    (hne : peer.type ≠ .domainName) : SameEgress p db peer iname itype resolve router router' := by
  cases ha : p.makeAddress peer.host with
  | none => simp [SameEgress, Router.route, hne, ha]
  | some a =>
      have hpeer : peer.type ≠ .domainName → (p.makeAddress peer.host).isSome = true := by
        simp [ha]
      have hempty : ¬Misc (.ok []) := by
        rintro ⟨e, he, -⟩
        cases he
      -- what the resolver would answer does not matter
      have hroute : ∀ r : Router, (r.route p db peer iname itype resolve).1
          = (r.route p db peer iname itype (.ok [])).1 := by
        intro r
        simp only [Router.route, hne, if_false, ha]
        rw [routeFrom_of_known r.default (.ok [])]
      have hno' : ¬MatchesAt p db peer iname itype (.ok []) rules route' n := by
        simpa [MatchesAt, known, hne] using hno
      obtain ⟨_, e, _, hok, hleads, hegress⟩ :=
        @exists_leads p db peer iname itype (.ok []) _ _ _ _ hdb h hpeer hempty
      obtain ⟨_, e', _, hok', hleads', hegress'⟩ :=
        @exists_leads p db peer iname itype (.ok []) _ _ _ _ hdb h' hpeer hempty
      rw [hins.leads_of_quiet hno' fun hblind => hne hblind.1] at hleads'
      apply (sameEgress_iff ((hroute _).trans hok) ((hroute _).trans hok') hegress hegress').mpr
      exact hleads'.unique hleads

/-- A rule that does not make the difference: it does not resolve, or comes behind one that
resolves or matches. -/
theorem sameEgress_of_quiet (hdb : db.Textual) (h : make p egresses rules route = .ok router)
    (h' : make p egresses rules route' = .ok router') {n : ℕ} {rule : Rule}
    (hins : Inserted rules route route' n rule)
    (hno : ¬MatchesAt p db peer iname itype resolve rules route' n)
    (htype : peer.type = .domainName)
    (hquiet : ¬(peer.type = .domainName ∧ rule.NeedsResolving
      ∧ Blind p db peer iname itype resolve rules route n)) :
    SameEgress p db peer iname itype resolve router router' := by
  have hreached := hins.reached_of_quiet hno htype hquiet
  rcases @route_domain p db peer iname itype resolve _ _ _ _ hdb h htype with
    ⟨hmisc, hr, hfail⟩ | ⟨hnot, _, e, _, hok, hleads, hegress⟩
  · rcases @route_domain p db peer iname itype resolve _ _ _ _ hdb h' htype with
      ⟨-, -, hfail'⟩ | ⟨hnot', -⟩
    · rw [SameEgress, hfail, hfail']
    · exact absurd (hreached.mpr hr) (hnot' hmisc)
  · rcases @route_domain p db peer iname itype resolve _ _ _ _ hdb h' htype with
      ⟨hmisc, hr', -⟩ | ⟨-, _, e', _, hok', hleads', hegress'⟩
    · exact absurd (hreached.mp hr') (hnot hmisc)
    · rw [hins.leads_of_quiet hno hquiet] at hleads'
      exact (sameEgress_iff hok hok' hegress hegress').mpr (hleads'.unique hleads)

/-- A rule that resolves a domain name that comes without addresses. -/
theorem sameEgress_iff_of_blind (hdb : db.Textual) (h : make p egresses rules route = .ok router)
    (h' : make p egresses rules route' = .ok router') {n : ℕ} {rule : Rule}
    (hins : Inserted rules route route' n rule)
    (hno : ¬MatchesAt p db peer iname itype resolve rules route' n)
    (htype : peer.type = .domainName) (hneeds : rule.NeedsResolving)
    (hblind : Blind p db peer iname itype resolve rules route n) :
    SameEgress p db peer iname itype resolve router router'
      ↔ (Misc resolve → Reached p db peer iname itype resolve rules route)
        ∧ (¬Misc resolve → ∀ i rname ename,
            Exposed p db peer iname itype resolve rules route n i →
            route.entries[i]? = some (rname, ename) →
            Leads p db peer iname itype resolve rules route ename) := by
  have hreached' : Reached p db peer iname itype resolve rules route' :=
    (hins.reached_iff hno).mpr (Or.inr ⟨hneeds, fun i hi => (hblind i hi).2⟩)
  rcases @route_domain p db peer iname itype resolve _ _ _ _ hdb h' htype with
    ⟨hmisc, -, hfail'⟩ | ⟨hnot', _, e', _, hok', hleads', hegress'⟩
  · -- the longer route fails at the new rule
    rcases @route_domain p db peer iname itype resolve _ _ _ _ hdb h htype with
      ⟨-, hreached, hfail⟩ | ⟨hnot, _, e, _, hok, -, -⟩
    · refine iff_of_true ?_ ⟨fun _ => hreached, fun hm => absurd hmisc hm⟩
      rw [SameEgress, hfail, hfail']
    · refine iff_of_false ?_ fun hc => hnot hmisc (hc.1 hmisc)
      rw [SameEgress, hok, hfail']
      simp [Except.map]
  · have hmisc : ¬Misc resolve := fun hm => hnot' hm hreached'
    rcases @route_domain p db peer iname itype resolve _ _ _ _ hdb h htype with
      ⟨hm, -, -⟩ | ⟨-, _, e, _, hok, hleads, hegress⟩
    · exact absurd hm hmisc
    · rw [sameEgress_iff hok hok' hegress hegress']
      have hsame := hins.leads_of_blind hno htype hneeds hblind hleads'
      constructor
      · rintro rfl
        exact ⟨fun hm => absurd hm hmisc, fun _ => hsame.mp hleads⟩
      · intro hc
        exact (hsame.mpr (hc.2 hmisc)).unique hleads

/-- **Rules and their neighbours.**  For all tables, routes and requests and every outcome of
the resolver: a rule that does not match is inserted at some position of the flattened route.
The egress stays the same if and only if the rule does not disturb the rules behind it. -/
theorem same_egress_iff (hdb : db.Textual) (h : make p egresses rules route = .ok router)
    (h' : make p egresses rules route' = .ok router') {n : ℕ} {rule : Rule}
    (hins : Inserted rules route route' n rule)
    (hno : ¬MatchesAt p db peer iname itype resolve rules route' n) :
    SameEgress p db peer iname itype resolve router router'
      ↔ Undisturbed p db peer iname itype resolve rules route n rule := by
  by_cases htype : peer.type = .domainName
  · by_cases hquiet : peer.type = .domainName ∧ rule.NeedsResolving
        ∧ Blind p db peer iname itype resolve rules route n
    · obtain ⟨-, hneeds, hblind⟩ := hquiet
      rw [sameEgress_iff_of_blind hdb h h' hins hno htype hneeds hblind]
      exact ⟨fun hc _ _ _ => hc, fun hu => hu htype hneeds hblind⟩
    · refine iff_of_true (sameEgress_of_quiet hdb h h' hins hno htype hquiet) ?_
      exact fun ht hn hb => absurd ⟨ht, hn, hb⟩ hquiet
  · refine iff_of_true (sameEgress_of_address hdb h h' hins hno htype) ?_
    exact fun ht => absurd ht htype

end Router

/-! ## An exposed rule -/

namespace Neighbours

open Routing

/-- Two egresses. -/
def egresses : ValueMap Egress :=
  [⟨lit "direct", ⟨.direct, none, none, none, none, none⟩⟩,
    ⟨lit "lan", ⟨.direct, none, none, none, none, none⟩⟩].toAList

/-- A rule that resolves, and one that is documented as not resolving. -/
def rules : ValueMap Rule :=
  [⟨lit "probe", { range := [lit "192.168.0.0/16"] }⟩,
    ⟨lit "ten", { rangeNr := [lit "10.0.0.0/8"] }⟩].toAList

def shorter : Route := ⟨some (lit "direct"), [([lit "ten"], lit "lan")]⟩

def longer : Route :=
  ⟨some (lit "direct"), [([lit "probe"], lit "direct"), ([lit "ten"], lit "lan")]⟩

theorem inserted : Inserted rules shorter longer 0 { range := [lit "192.168.0.0/16"] } where
  entries := ⟨[], (lit "probe", lit "direct"), [(lit "ten", lit "lan")], rfl, rfl, rfl, rfl⟩
  default := rfl

def peer : Endpoint := ⟨.domainName, lit "example.com", 443⟩

/-- The IPv4 address with these bytes. -/
def address (a b c d : UInt8) : Address := .v4 ⟨[a, b, c, d], rfl⟩

/-- A rule that has nothing but ranges does not match an address outside of them. -/
theorem not_matches {rule : Rule} {a : Address}
    (hrule : rule = { range := rule.range, rangeNr := rule.rangeNr })
    (hout : ∀ r ∈ rule.range ++ rule.rangeNr, ¬InRange Reference.platform r a) :
    ¬rule.Matches Reference.platform none peer (lit "in") .socks5 (some [a]) := by
  intro hmatches
  cases hmatches with
  | range hknown ha hr h =>
      obtain rfl := Option.some.inj hknown
      obtain rfl := List.mem_singleton.mp ha
      exact hout _ hr h
  | country hknown ha hc h =>
      obtain ⟨lookup, hlookup, -⟩ := h
      cases hlookup
  | ingress h => rw [hrule] at h; cases h
  | type h => rw [hrule] at h; cases h
  | pattern hs h => rw [hrule] at hs; cases hs
  | domain hd => rw [hrule] at hd; cases hd

/-- The addresses of a domain name behind a rule that resolves. -/
theorem known_of_resolves {rules : ValueMap Rule} {route : Route} {i : ℕ} {a : Address}
    (h : ResolvesAt rules route i) :
    known Reference.platform peer (.ok [a]) rules route i = some [a] := by
  have htype : peer.type = .domainName := rfl
  rw [known, if_pos htype, if_pos ⟨i, Nat.le_refl i, h⟩]
  rfl

theorem resolves_probe : ResolvesAt rules longer 0 :=
  inserted.resolvesAt_self.mpr (Or.inl (by simp))

/-- The first rule does not match an address outside of its range. -/
theorem not_matchesAt_probe {a : Address}
    (hout : ¬InRange Reference.platform (lit "192.168.0.0/16") a) :
    ¬MatchesAt Reference.platform none peer (lit "in") .socks5 (.ok [a]) rules longer 0 := by
  rintro ⟨rule, hrule, hmatches⟩
  rw [inserted.ruleAt_self] at hrule
  obtain rfl := Option.some.inj hrule
  rw [known_of_resolves resolves_probe] at hmatches
  exact not_matches rfl (by simpa using hout) hmatches

/-- An IPv4 address is not in a range that reads as an IPv4 network without it. -/
theorem not_inRange {r : Bytes} {a : AddressV4}
    (h : (Reference.platform.makeNetworkV4 r).any (fun net => inHosts (hostsV4 net) a.toNat)
      = false) : ¬InRange Reference.platform r (.v4 a) := by
  rintro ⟨net, hnet, hin⟩
  rw [hnet] at h
  simp [hin] at h

/-- The name of the egress that a router chooses. -/
def chosen (a : Address) (router : Router) : Option Bytes :=
  ((router.route Reference.platform none peer (lit "in") .socks5 (.ok [a])).1.map
    Prod.snd).toOption.map Prod.fst

/-- The domain name has an address that is in neither range. -/
theorem same_egress_example :
    ∃ router router', Router.make Reference.platform egresses rules shorter = .ok router
      ∧ Router.make Reference.platform egresses rules longer = .ok router'
      ∧ Router.SameEgress Reference.platform none peer (lit "in") .socks5
          (.ok [address 172 16 0 1]) router router' := by
  obtain ⟨router, h⟩ := exists_eq_ok_of_isOk
    (x := Router.make Reference.platform egresses rules shorter) (by decide +kernel)
  obtain ⟨router', h'⟩ := exists_eq_ok_of_isOk
    (x := Router.make Reference.platform egresses rules longer) (by decide +kernel)
  refine ⟨router, router', h, h', ?_⟩
  have hdb : Mmdb.Textual none := by
    intro lookup hlookup
    cases hlookup
  apply (Router.same_egress_iff hdb h h' inserted
    (not_matchesAt_probe (not_inRange (by decide +kernel)))).mpr
  refine fun _ _ _ => ⟨?_, fun _ i rname ename hexposed => ?_⟩
  · rintro ⟨e, he, -⟩
    cases he
  · obtain ⟨-, -, ⟨rule, hrule, hmatches⟩, -⟩ := hexposed
    cases i with
    | zero =>
        obtain rfl : _ = rule := Option.some.inj hrule
        exact absurd hmatches (not_matches rfl (by
          simpa using not_inRange (by decide +kernel)))
    | succ i => cases hrule

/-- The domain name has the address 10.1.2.3.  The rule that was inserted does not match it, but
makes the router resolve, and the rule behind it then matches. -/
theorem same_egress_counterexample :
    ∃ router router', Router.make Reference.platform egresses rules shorter = .ok router
      ∧ Router.make Reference.platform egresses rules longer = .ok router'
      ∧ Inserted rules shorter longer 0 { range := [lit "192.168.0.0/16"] }
      ∧ ¬MatchesAt Reference.platform none peer (lit "in") .socks5 (.ok [address 10 1 2 3]) rules
          longer 0
      ∧ chosen (address 10 1 2 3) router = some (lit "direct")
      ∧ chosen (address 10 1 2 3) router' = some (lit "lan")
      ∧ ¬Router.SameEgress Reference.platform none peer (lit "in") .socks5
          (.ok [address 10 1 2 3]) router router' := by
  obtain ⟨router, h⟩ := exists_eq_ok_of_isOk
    (x := Router.make Reference.platform egresses rules shorter) (by decide +kernel)
  obtain ⟨router', h'⟩ := exists_eq_ok_of_isOk
    (x := Router.make Reference.platform egresses rules longer) (by decide +kernel)
  have hshorter : (Router.make Reference.platform egresses rules shorter).toOption.bind
      (chosen (address 10 1 2 3)) = some (lit "direct") := by decide +kernel
  have hlonger : (Router.make Reference.platform egresses rules longer).toOption.bind
      (chosen (address 10 1 2 3)) = some (lit "lan") := by decide +kernel
  rw [h] at hshorter
  rw [h'] at hlonger
  refine ⟨router, router', h, h', inserted,
    not_matchesAt_probe (not_inRange (by decide +kernel)), hshorter, hlonger, fun hsame => ?_⟩
  have hchosen : chosen (address 10 1 2 3) router' = chosen (address 10 1 2 3) router := by
    rw [chosen, hsame]
    rfl
  have hname : some (lit "lan") = some (lit "direct") :=
    hlonger.symm.trans (hchosen.trans hshorter)
  exact absurd hname (by decide)

end Neighbours

end Pichi
