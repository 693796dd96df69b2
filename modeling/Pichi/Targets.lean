/-
# Names in targets

A resource of the API is addressed by a path and a name, which `Server::handle` takes out of
the target by a regular expression.  The expressions are greedy and differ in the characters
they allow: the name of an ingress has no slash, while the name of an egress or a rule may have
some, and keeps one at its end.

* `Target.exists_of_firstGroup`: what can be taken out of a target;
* `Target.of_ingress`, `Target.of_egress`, `Target.of_rule`: a name of that kind, put behind
  the path, is taken out again;
* `Collection.of_member`: so it is in front of a slash and a query, if these cannot be a part
  of the name;
* `Collection.of_path_cases`: a text behind the path is cut where the name can no longer be
  extended, or the target is that of no member.
-/
import Pichi.Server

namespace Pichi

open Backtrack (Pattern Cursor SubMatch)

namespace Target

variable {path : String} {cls : UInt8 → Bool} {target name : Bytes}

/-! ## What the expressions match -/

/-- A query or a fragment, or neither. -/
def IsQuery (q : Bytes) : Prop :=
  q = [] ∨ ∃ x w, q = x :: w ∧ (x = 63 ∨ x = 35) ∧ ∀ y ∈ w, y ≠ 10 ∧ y ≠ 13

/-- What may stand behind a name: a slash and a query, both optional. -/
def IsTail (t : Bytes) : Prop := IsQuery t ∨ ∃ q, t = 47 :: q ∧ IsQuery q

theorem isTail_nil : IsTail [] := Or.inl (Or.inl rfl)

/-- A tail starts with a slash, a question mark or a hash. -/
theorem IsTail.head {x : UInt8} {t : Bytes} (h : IsTail (x :: t)) : notSlash x = false := by
  rcases h with (h | ⟨y, w, h, hy, -⟩) | ⟨q, h, -⟩
  · cases h
  · cases h
    rcases hy with rfl | rfl
    · rfl
    · rfl
  · cases h
    rfl

/-- The group of the query is not the first one. -/
theorem of_matches_query {n : ℕ} {c c' : Cursor UInt8} (h : (query n).Matches c c')
    (hend : c'.rest = []) :
    IsQuery c.rest ∧ (c'.groups = c.groups ∨ ∃ sub, c'.groups = (n, sub) :: c.groups) := by
  rcases h with ⟨m, ⟨m', ⟨x, t, hrest, hx, rfl⟩, w, u, hw, hline, rfl⟩, rfl⟩ | rfl
  · refine ⟨Or.inr ⟨x, t, hrest, by simpa using hx, ?_⟩, Or.inr ⟨_, rfl⟩⟩
    rw [Cursor.advance_rest] at hw
    obtain rfl : u = [] := hend
    rw [hw, List.append_nil]
    intro y hy
    simpa using hline y hy
  · exact ⟨Or.inl hend, Or.inl rfl⟩

/-- Behind an optional slash and a query the target ends. -/
theorem of_matches_tail {n : ℕ} {c c' : Cursor UInt8}
    (h : (Pattern.seq (.opt (.sym 47)) (.seq (query n) .endOfInput)).Matches c c') :
    IsTail c.rest ∧ (c'.groups = c.groups ∨ ∃ sub, c'.groups = (n, sub) :: c.groups) := by
  obtain ⟨m, hslash, m', hquery, hend, rfl⟩ := h
  obtain ⟨hq, hgroups⟩ := of_matches_query hquery hend
  rcases hslash with hslash | rfl
  · obtain ⟨t, ht, rfl⟩ := Pattern.exists_of_matches_sym hslash
    rw [Cursor.advance_rest] at hq
    exact ⟨Or.inr ⟨t, ht, hq⟩, hgroups⟩
  · exact ⟨Or.inl hq, hgroups⟩

/-- What the expression of a collection matches. -/
theorem exists_of_collectionRegex (h : ((collectionRegex path).regexMatch target).isSome = true) :
    ∃ u, target = lit path ++ u ∧ IsTail u := by
  obtain ⟨groups, hgroups⟩ := Option.isSome_iff_exists.mp h
  obtain ⟨c, ⟨m, ⟨-, rfl⟩, m', hword, htail⟩, -, -⟩ :=
    Pattern.exists_of_regexMatch_eq_some hgroups
  obtain ⟨u, hu, rfl⟩ := Pattern.exists_of_matches_word hword
  exact ⟨u, hu, (of_matches_tail htail).1⟩

/-- **What is taken out of a target**: a part of it that is not empty and has the allowed
characters only, in front of a tail. -/
theorem exists_of_firstGroup (h : firstGroup (nameRegex path cls) target = some name) :
    ∃ t, target = lit path ++ 47 :: (name ++ t) ∧ name ≠ [] ∧ (∀ x ∈ name, cls x = true)
      ∧ IsTail t := by
  obtain ⟨groups, hgroups, hname⟩ := Option.map_eq_some_iff.mp h
  obtain ⟨c, ⟨m, ⟨-, rfl⟩, m₁, hword, m₂, hslash, m₃, ⟨m₄, hmany, rfl⟩, htail⟩, -, rfl⟩ :=
    Pattern.exists_of_regexMatch_eq_some hgroups
  obtain ⟨u, hu, rfl⟩ := Pattern.exists_of_matches_word hword
  obtain ⟨u₁, hu₁, rfl⟩ := Pattern.exists_of_matches_sym hslash
  obtain ⟨w, t, hw, hne, hcls, rfl⟩ := Pattern.exists_of_matches_many1 hmany
  obtain ⟨ht, hgroups'⟩ := of_matches_tail htail
  rw [Cursor.advance_rest] at hu₁ hw
  -- the first group is the run of allowed characters
  rw [Pattern.groups_close_advance 1 hw] at hgroups'
  have hlookup : ∃ n, c.groups.lookup 1 = some ⟨n, w⟩ := by
    rcases hgroups' with hsame | ⟨sub, hmore⟩
    · exact ⟨_, by rw [hsame]; rfl⟩
    · exact ⟨_, by rw [hmore]; rfl⟩
  obtain ⟨n, hlookup⟩ := hlookup
  rw [hlookup] at hname
  obtain rfl : w = name := hname
  have hu : target = lit path ++ u := hu
  exact ⟨t, by rw [hu, hu₁, hw], hne, hcls, ht⟩

/-- The name an expression takes out has only characters of the target. -/
theorem mem_of_firstGroup (h : firstGroup (nameRegex path cls) target = some name) {x : UInt8}
    (hx : x ∈ name) : x ∈ target := by
  obtain ⟨t, rfl, -⟩ := exists_of_firstGroup h
  simp [hx]

/-- A name of a resource: not empty, of the allowed characters, and without a NUL if the target
has none. -/
structure Names (cls : UInt8 → Bool) (target name : Bytes) : Prop where
  ne_nil : name ≠ []
  cls : ∀ x ∈ name, cls x = true
  mem : ∀ x ∈ name, x ∈ target

theorem names_of_firstGroup (h : firstGroup (nameRegex path cls) target = some name) :
    Names cls target name := by
  obtain ⟨-, -, hne, hcls, -⟩ := exists_of_firstGroup h
  exact ⟨hne, hcls, fun _ hx => mem_of_firstGroup h hx⟩

/-- The names that targets have, as `handle` finds them. -/
theorem names_of_of (target : Bytes) :
    (∀ name, of target = .ingress name → Names notSlash target name)
      ∧ (∀ name, of target = .egress name → Names notQuery target name)
      ∧ ∀ name, of target = .rule name → Names notQuery target name := by
  unfold of
  refine ⟨fun name h => ?_, fun name h => ?_, fun name h => ?_⟩
  -- only one of the branches gives a name of the kind in question
  · repeat' split at h
    all_goals cases h
    exact names_of_firstGroup ‹firstGroup ingressNameRegex target = some name›
  · repeat' split at h
    all_goals cases h
    exact names_of_firstGroup ‹firstGroup egressNameRegex target = some name›
  · repeat' split at h
    all_goals cases h
    exact names_of_firstGroup ‹firstGroup ruleNameRegex target = some name›

/-! ## Names that are taken out again -/

/-- An optional query is taken as a whole. -/
theorem exists_run_query (n : ℕ) {c : Cursor UInt8} (hq : IsQuery c.rest) :
    ∃ c' : Cursor UInt8, c'.rest = []
      ∧ (c'.groups = c.groups ∨ ∃ sub, c'.groups = (n, sub) :: c.groups)
      ∧ ∀ {α : Type} {k : Cursor UInt8 → Option α} {v : α}, k c' = some v →
        (query n).run c k = some v := by
  rcases hq with hnil | ⟨x, w, hrest, hx, hline⟩
  · refine ⟨c, hnil, Or.inl rfl, fun {α k v} hk => ?_⟩
    rw [query, Pattern.run, Pattern.run, Pattern.run, Pattern.run, hnil]
    exact hk
  · have hone : (x = 63 || x = 35) = true := by simpa using hx
    have hmany : ∀ y ∈ w, (y != 10 && y != 13) = true := by
      intro y hy
      simpa using hline y hy
    refine ⟨c.close n ((c.advance [x] w).advance w []), rfl, Or.inr ⟨_, rfl⟩, fun {α k v} hk => ?_⟩
    apply Pattern.run_opt_of_taken
    rw [Pattern.run, Pattern.run, Pattern.run, hrest]
    simp only [hone, if_true]
    exact Pattern.run_many_of_longest (t := []) (by simp) w _ (by simp) hmany hk

/-- A tail is consumed to its end. -/
theorem exists_run_tail (n : ℕ) {c : Cursor UInt8} (ht : IsTail c.rest) :
    ∃ c' : Cursor UInt8, c'.rest = []
      ∧ (c'.groups = c.groups ∨ ∃ sub, c'.groups = (n, sub) :: c.groups)
      ∧ ∀ {α : Type} {k : Cursor UInt8 → Option α} {v : α}, k c' = some v →
        (Pattern.seq (.opt (.sym 47)) (.seq (query n) .endOfInput)).run c k = some v := by
  rcases ht with hq | ⟨q, hrest, hq⟩
  · obtain ⟨c', hend, hgroups, hrun⟩ := exists_run_query n hq
    refine ⟨c', hend, hgroups, fun {α k v} hk => ?_⟩
    have hslash : c.rest.head? ≠ some 47 := by
      rcases hq with hnil | ⟨x, w, hrest, hx, -⟩
      · rw [hnil]
        simp
      · rw [hrest]
        rcases hx with rfl | rfl
        · simp
        · simp
    rw [Pattern.run, Pattern.run, Pattern.run_sym_of_head?_ne c hslash, Option.none_or, Pattern.run]
    apply hrun
    rw [Pattern.run_endOfInput hend, hk]
  · obtain ⟨c', hend, hgroups, hrun⟩ := exists_run_query n (c := c.advance [47] q) hq
    refine ⟨c', hend, hgroups, fun {α k v} hk => ?_⟩
    rw [Pattern.run]
    apply Pattern.run_opt_of_taken
    rw [Pattern.run_sym_cons c hrest, Pattern.run]
    apply hrun
    rw [Pattern.run_endOfInput hend, hk]

/-- The longest name of the right characters in front of a tail. -/
theorem firstGroup_nameRegex (path : String) {t : Bytes} (hne : name ≠ [])
    (hcls : ∀ x ∈ name, cls x = true) (ht : IsTail t) (hhead : ∀ x ∈ t.head?, cls x = false) :
    firstGroup (nameRegex path cls) (lit path ++ 47 :: (name ++ t)) = some name := by
  have hmatch : ∃ groups, (nameRegex path cls).regexMatch (lit path ++ 47 :: (name ++ t))
      = some groups ∧ (groups.lookup 1).map (·.text) = some name := by
    rw [Pattern.regexMatch, nameRegex, Pattern.run, Pattern.run_startOfInput, Pattern.run,
      Pattern.run_word (lit path) _ rfl, Pattern.run, Pattern.run_sym_cons _ rfl, Pattern.run,
      Pattern.run]
    -- the cursor behind the slash, and the one behind the name
    set c : Cursor UInt8 := ((Cursor.start (lit path ++ 47 :: (name ++ t))).advance (lit path)
      (47 :: (name ++ t))).advance [47] (name ++ t) with hc
    have hrest : c.rest = name ++ t := rfl
    have hgroups : (c.close 1 (c.advance name t)).groups = [(1, ⟨c.pos, name⟩)] := by
      rw [Pattern.groups_close_advance 1 hrest]
      rfl
    obtain ⟨c', hend, hgroups', hrun⟩ := exists_run_tail 2 (c := c.close 1 (c.advance name t)) ht
    refine ⟨c'.groups, ?_, ?_⟩
    · refine Pattern.run_many1_of_longest hhead c hrest hne hcls ?_
      apply hrun
      rw [hend]
      rfl
    · rw [hgroups] at hgroups'
      rcases hgroups' with hsame | ⟨sub, hmore⟩
      · rw [hsame]
        rfl
      · rw [hmore]
        rfl
  obtain ⟨groups, hmatch, hlookup⟩ := hmatch
  rw [firstGroup, hmatch, Option.map_some, hlookup]
  rfl

/-- The target of a name is not the one of the collection. -/
theorem collectionRegex_name (path : String) {x : UInt8} (u : Bytes) (hx : notQuery x = true) :
    ((collectionRegex path).regexMatch (lit path ++ 47 :: x :: u)).isSome = false := by
  rw [Bool.eq_false_iff]
  intro h
  obtain ⟨u', hu, htail⟩ := exists_of_collectionRegex h
  obtain rfl := List.append_cancel_left hu
  rcases htail with (h | ⟨y, w, h, hy, -⟩) | ⟨q, h, hq⟩
  · cases h
  · cases h
    revert hy
    decide
  · cases h
    rcases hq with h | ⟨y, w, h, hy, -⟩
    · cases h
    · cases h
      rcases hy with rfl | rfl <;> revert hx <;> decide

/-- Neither expression of another path matches. -/
theorem regexes_of_ne (path other : String) (cls : UInt8 → Bool)
    (h : ∀ u v, lit path ++ u ≠ lit other ++ v) (u : Bytes) :
    ((collectionRegex other).regexMatch (lit path ++ u)).isSome = false
      ∧ firstGroup (nameRegex other cls) (lit path ++ u) = none := by
  constructor
  · rw [Bool.eq_false_iff]
    intro hmatch
    obtain ⟨v, hv, -⟩ := exists_of_collectionRegex hmatch
    exact h u v hv
  · rw [Option.eq_none_iff_forall_ne_some]
    intro name hname
    obtain ⟨t, ht, -⟩ := exists_of_firstGroup hname
    exact h u _ ht

theorem notQuery_of_notSlash {x : UInt8} (h : notSlash x = true) : notQuery x = true := by
  simp only [notSlash, notQuery, Bool.and_eq_true] at h ⊢
  exact h.1

end Target

/-! ## Collections -/

/-- The collections of named resources. -/
inductive Collection : Type where
  | ingresses | egresses | rules
  deriving DecidableEq

namespace Collection

open Target

def path : Collection → String
  | .ingresses => "/ingresses"
  | .egresses => "/egresses"
  | .rules => "/rules"

/-- The characters of a name. -/
def cls : Collection → UInt8 → Bool
  | .ingresses => notSlash
  | .egresses => notQuery
  | .rules => notQuery

/-- The collection itself. -/
def whole : Collection → Target
  | .ingresses => .ingresses
  | .egresses => .egresses
  | .rules => .rules

/-- One of its resources. -/
def member : Collection → Bytes → Target
  | .ingresses, name => .ingress name
  | .egresses, name => .egress name
  | .rules, name => .rule name

variable {c : Collection} {name t u : Bytes}

theorem notQuery_of_cls {x : UInt8} (h : c.cls x = true) : notQuery x = true := by
  cases c with
  | ingresses => exact notQuery_of_notSlash h
  | egresses => exact h
  | rules => exact h

/-- The chain of matches behind the path of a collection: the expressions of the others do not
match. -/
theorem of_path (c : Collection) (u : Bytes) :
    of (lit c.path ++ 47 :: u)
      = if ((collectionRegex c.path).regexMatch (lit c.path ++ 47 :: u)).isSome then c.whole
        else match firstGroup (nameRegex c.path c.cls) (lit c.path ++ 47 :: u) with
          | some name => c.member name
          | none => .unknown := by
  have hroute : (routeRegex.regexMatch (lit c.path ++ 47 :: u)).isSome = false := by
    rw [Bool.eq_false_iff]
    intro h
    obtain ⟨groups, hgroups⟩ := Option.isSome_iff_exists.mp h
    obtain ⟨m, ⟨-, ⟨-, rfl⟩, m', hword, -⟩, -, -⟩ := Pattern.exists_of_regexMatch_eq_some hgroups
    obtain ⟨v, hv, -⟩ := Pattern.exists_of_matches_word hword
    have hv : lit c.path ++ 47 :: u = lit "/route" ++ v := hv
    cases c <;> simp [lit, path] at hv
  -- the expressions of the other collections, in the order of the chain
  cases c with
  | ingresses =>
      have hegress := regexes_of_ne "/ingresses" "/egresses" notQuery
        (by simp [lit]) (47 :: u)
      have hrule := regexes_of_ne "/ingresses" "/rules" notQuery
        (by simp [lit]) (47 :: u)
      simp only [path] at hroute
      simp only [path, whole, member, cls, of, ingressRegex, ingressNameRegex, egressRegex,
        egressNameRegex, ruleRegex, ruleNameRegex, hegress.1, hegress.2, hrule.1, hrule.2, hroute]
      cases firstGroup (nameRegex "/ingresses" notSlash) (lit "/ingresses" ++ 47 :: u) with
      | none => rfl
      | some name => rfl
  | egresses =>
      have hingress := regexes_of_ne "/egresses" "/ingresses" notSlash
        (by simp [lit]) (47 :: u)
      have hrule := regexes_of_ne "/egresses" "/rules" notQuery
        (by simp [lit]) (47 :: u)
      simp only [path] at hroute
      simp only [path, whole, member, cls, of, ingressRegex, ingressNameRegex, egressRegex,
        egressNameRegex, ruleRegex, ruleNameRegex, hingress.1, hingress.2, hrule.1, hrule.2, hroute]
      cases firstGroup (nameRegex "/egresses" notQuery) (lit "/egresses" ++ 47 :: u) with
      | none => rfl
      | some name => rfl
  | rules =>
      have hingress := regexes_of_ne "/rules" "/ingresses" notSlash
        (by simp [lit]) (47 :: u)
      have hegress := regexes_of_ne "/rules" "/egresses" notQuery
        (by simp [lit]) (47 :: u)
      simp only [path] at hroute
      simp only [path, whole, member, cls, of, ingressRegex, ingressNameRegex, egressRegex,
        egressNameRegex, ruleRegex, ruleNameRegex, hingress.1, hingress.2, hegress.1, hegress.2,
        hroute]
      cases firstGroup (nameRegex "/rules" notQuery) (lit "/rules" ++ 47 :: u) with
      | none => rfl
      | some name => rfl

/-- **A name in front of a tail is taken out again**, if it cannot be made longer. -/
theorem of_member (c : Collection) (hne : name ≠ []) (hcls : ∀ x ∈ name, c.cls x = true)
    (ht : IsTail t) (hhead : ∀ x ∈ t.head?, c.cls x = false) :
    of (lit c.path ++ 47 :: (name ++ t)) = c.member name := by
  obtain ⟨x, u, hname⟩ := List.exists_cons_of_ne_nil hne
  have hwhole : ((collectionRegex c.path).regexMatch (lit c.path ++ 47 :: (name ++ t))).isSome
      = false := by
    rw [hname]
    exact collectionRegex_name c.path (u ++ t) (notQuery_of_cls (hcls x (by simp [hname])))
  rw [of_path, hwhole, firstGroup_nameRegex c.path hne hcls ht hhead]
  rfl

/-- A query has no character of a name in front. -/
theorem not_isQuery_cons {x : UInt8} (hx : notQuery x = true) : ¬IsQuery (x :: t) := by
  rintro (h | ⟨y, w, h, hy, -⟩)
  · cases h
  · cases h
    rcases hy with rfl | rfl <;> revert hx <;> decide

/-- Where a shorter name is in front of a tail, the longest one is, too. -/
theorem isTail_of_append (c : Collection) {r : Bytes} (hr : ∀ x ∈ r, c.cls x = true)
    (h : IsTail (r ++ t)) : IsTail t := by
  cases r with
  | nil => exact h
  | cons x r =>
      have hx := notQuery_of_cls (hr x (by simp))
      rcases h with h | ⟨q, h, hq⟩
      · exact absurd h (not_isQuery_cons hx)
      · -- the slash was left to the tail
        obtain ⟨-, rfl⟩ := List.cons.inj h
        cases r with
        | nil => exact Or.inl hq
        | cons y r => exact absurd hq (not_isQuery_cons (notQuery_of_cls (hr y (by simp))))

/-- **What becomes of any target behind the path**: the longest name is taken out, if there is
one in front of a tail. -/
theorem of_path_cases (c : Collection) (u : Bytes) :
    (u.takeWhile c.cls ≠ [] ∧ IsTail (u.dropWhile c.cls)
        ∧ of (lit c.path ++ 47 :: u) = c.member (u.takeWhile c.cls))
      ∨ ¬(u.takeWhile c.cls ≠ [] ∧ IsTail (u.dropWhile c.cls))
        ∧ (of (lit c.path ++ 47 :: u) = c.whole ∨ of (lit c.path ++ 47 :: u) = .unknown) := by
  have hcls : ∀ x ∈ u.takeWhile c.cls, c.cls x = true := fun x hx => List.mem_takeWhile_imp hx
  by_cases hname : u.takeWhile c.cls ≠ [] ∧ IsTail (u.dropWhile c.cls)
  · refine Or.inl ⟨hname.1, hname.2, ?_⟩
    have hhead : ∀ x ∈ (u.dropWhile c.cls).head?, c.cls x = false := by
      intro x hx
      have hnot := List.head?_dropWhile_not c.cls u
      rw [Option.mem_def.mp hx] at hnot
      exact hnot
    have hof := of_member c hname.1 hcls hname.2 hhead
    rwa [List.takeWhile_append_dropWhile] at hof
  · refine Or.inr ⟨hname, ?_⟩
    rw [of_path]
    split
    · exact Or.inl rfl
    · cases hgroup : firstGroup (nameRegex c.path c.cls) (lit c.path ++ 47 :: u) with
      | none => exact Or.inr rfl
      | some name =>
          exfalso
          obtain ⟨t, ht, hne, hncls, htail⟩ := exists_of_firstGroup hgroup
          obtain rfl : u = name ++ t := (List.cons.inj (List.append_cancel_left ht)).2
          rw [List.takeWhile_append_of_pos hncls, List.dropWhile_append_of_pos hncls] at hname
          apply hname
          refine ⟨by simp [hne], ?_⟩
          have hsplit := List.takeWhile_append_dropWhile (p := c.cls) (l := t)
          rw [← hsplit] at htail
          exact isTail_of_append c (fun x hx => List.mem_takeWhile_imp hx) htail

end Collection

namespace Target

variable {name : Bytes}

/-- **The name of an ingress is taken out again.** -/
theorem of_ingress (hne : name ≠ []) (hcls : ∀ x ∈ name, notSlash x = true) :
    of (lit "/ingresses/" ++ name) = .ingress name := by
  have hof := Collection.of_member .ingresses hne hcls isTail_nil (by simp)
  rw [List.append_nil] at hof
  exact hof

/-- **The name of an egress is taken out again.** -/
theorem of_egress (hne : name ≠ []) (hcls : ∀ x ∈ name, notQuery x = true) :
    of (lit "/egresses/" ++ name) = .egress name := by
  have hof := Collection.of_member .egresses hne hcls isTail_nil (by simp)
  rw [List.append_nil] at hof
  exact hof

/-- **The name of a rule is taken out again.** -/
theorem of_rule (hne : name ≠ []) (hcls : ∀ x ∈ name, notQuery x = true) :
    of (lit "/rules/" ++ name) = .rule name := by
  have hof := Collection.of_member .rules hne hcls isTail_nil (by simp)
  rw [List.append_nil] at hof
  exact hof

end Target

end Pichi
