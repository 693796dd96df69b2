/-
# Authorities and URIs

`common/uri.cpp`: the two regular expressions that take a `host:port` or a URI apart, and
the structures filled from their captures.

Both expressions contain the same part, a host that is either a name or a bracketed IPv6
text, and an optional port; `authority` is that part, with the number of its first group and
the characters allowed in a name and in brackets.
-/
import Pichi.Backtrack
import Pichi.Endpoint

namespace Pichi

open Backtrack

/-! ## The expressions -/

/-- `\d`. -/
def isDigit (c : UInt8) : Bool := 48 ≤ c && c ≤ 57

/-- `[a-f0-9:.]`. -/
def isV6Char (c : UInt8) : Bool := 97 ≤ c && c ≤ 102 || isDigit c || c = 58 || c = 46

/-- `[^:/\[\]]`. -/
def isHostChar (c : UInt8) : Bool := c != 58 && c != 47 && c != 91 && c != 93

/-- `[^:/?#\[\]]`. -/
def isUriHostChar (c : UInt8) : Bool := isHostChar c && c != 63 && c != 35

/-- `(([name]+)|\[([v6]+)\])(:(\d+))?`, with groups from `n` on. -/
def authority (n : ℕ) (name v6 : UInt8 → Bool) : Pattern UInt8 :=
  .seq (.group n (.alt (.group (n + 1) (.many1 name))
      (.seq (.sym 91) (.seq (.group (n + 2) (.many1 v6)) (.sym 93)))))
    (.opt (.group (n + 3) (.seq (.sym 58) (.group (n + 4) (.many1 isDigit)))))

/-- A word of lower-case letters, in any case. -/
def wordIcase : Bytes → Pattern UInt8
  | [] => .eps
  | x :: w => .seq (.one fun c => toLower c == x) (wordIcase w)

/-- `HOST_REGEX`. -/
def hostRegex : Pattern UInt8 :=
  .seq .startOfInput (.seq (authority 1 isHostChar isV6Char) .endOfInput)

/-- `URI_REGEX`, which does not distinguish the case of letters. -/
def uriRegex : Pattern UInt8 :=
  .seq .startOfInput (.seq
    (.group 1 (.seq (wordIcase (lit "http")) (.opt (wordIcase (lit "s")))))
    (.seq (.word (lit "://")) (.seq
      (authority 2 isUriHostChar fun c => isV6Char (toLower c))
      (.seq
        (.opt (.group 7 (.seq (.sym 47) (.seq (.many fun c => c != 35 && c != 63)
          (.opt (.group 8 (.seq (.one fun c => c = 35 || c = 63)
            (.many fun c => c != 10 && c != 13))))))))
        .endOfInput))))

/-! ## The structures -/

/-- `std::cmatch`: the captures of a match. -/
abbrev Captures := List (ℕ × SubMatch UInt8)

/-- `r[n].matched`. -/
def Captures.matched (r : Captures) (n : ℕ) : Bool := (r.lookup n).isSome

/-- `r2sv(r[n])`; a group that took no part is empty. -/
def Captures.text (r : Captures) (n : ℕ) : Bytes := ((r.lookup n).map (·.text)).getD []

/-- `matching`.  The number of captures is the one of the expression. -/
def matching (s : Bytes) (re : Pattern UInt8) : Checked Captures :=
  match re.regexMatch s with
  | some r => .ok r
  | none => Checked.fail .badProto ""

/-- `HostAndPort`. -/
structure HostAndPort where
  host : Bytes
  port : Bytes
  deriving DecidableEq

/-- The constructor of `HostAndPort`. -/
def HostAndPort.make (s : Bytes) : Checked HostAndPort := do
  let r ← matching s hostRegex
  return {
    host := if r.matched 2 then r.text 2 else r.text 3
    port := if r.matched 4 then r.text 5 else lit "80" }

/-- `scheme2port`. -/
def scheme2port (scheme : Bytes) : Checked Bytes :=
  if toLowerStr scheme = lit "http" then .ok (lit "80")
  else if toLowerStr scheme = lit "https" then .ok (lit "443")
  else Checked.fail .badProto ""

/-- `Uri`. -/
structure Uri where
  all : Bytes
  scheme : Bytes
  host : Bytes
  port : Bytes
  suffix : Bytes
  path : Bytes
  query : Bytes
  deriving DecidableEq

/-- The constructor of `Uri`.  A group that took no part begins at the end of the text, so
that without a query the path is the whole suffix. -/
def Uri.make (s : Bytes) : Checked Uri := do
  let r ← matching s uriRegex
  let scheme := r.text 1
  let port ← if r.matched 5 then .ok (r.text 6) else scheme2port scheme
  let start (n : ℕ) : ℕ := ((r.lookup n).map (·.first)).getD s.length
  return {
    all := s
    scheme := scheme
    host := if r.matched 3 then r.text 3 else r.text 4
    port := port
    suffix := if r.matched 7 then r.text 7 else lit "/"
    path := if r.matched 7 then (r.text 7).take (start 8 - start 7) else lit "/"
    query := r.text 8 }

/-! ## Authorities of known shape -/

theorem HostAndPort.make_of_match {s : Bytes} {r : Captures} (h : hostRegex.regexMatch s = some r) :
    HostAndPort.make s = .ok {
      host := if r.matched 2 then r.text 2 else r.text 3
      port := if r.matched 4 then r.text 5 else lit "80" } := by
  rw [HostAndPort.make, matching, h]
  rfl

theorem HostAndPort.make_of_no_match {s : Bytes} (h : hostRegex.regexMatch s = none) :
    HostAndPort.make s = Checked.fail .badProto "" := by
  rw [HostAndPort.make, matching, h]
  rfl

/-- The optional port, where there is one. -/
theorem run_port {n : ℕ} {α : Type} {k : Cursor UInt8 → Option α} {v : α} {c : Cursor UInt8}
    {port t : Bytes} (hc : c.rest = 58 :: port ++ t) (hport : port ≠ [])
    (hdigits : ∀ x ∈ port, isDigit x = true) (ht : ∀ x ∈ t.head?, isDigit x = false)
    (hk : k ⟨c.pos + (58 :: port).length, t, (n, ⟨c.pos, 58 :: port⟩) ::
      (n + 1, ⟨c.pos + 1, port⟩) :: c.groups⟩ = some v) :
    (Pattern.opt (.group n (.seq (.sym 58) (.group (n + 1) (.many1 isDigit))))).run c k
      = some v := by
  apply Pattern.run_opt_of_taken
  rw [Pattern.run, Pattern.run, Pattern.run_sym_cons c (t := port ++ t) hc, Pattern.run]
  apply Pattern.run_many1_of_longest ht _ rfl hport hdigits
  show k (c.close n ((c.advance [58] (port ++ t)).close (n + 1)
    ⟨c.pos + 1 + port.length, t, c.groups⟩)) = some v
  have hinner := Pattern.close_advance (n + 1) (c := c.advance [58] (port ++ t)) rfl c.groups
  have houter := Pattern.close_advance n hc ((n + 1, ⟨c.pos + 1, port⟩) :: c.groups)
  have hpos : c.pos + (58 :: port).length = c.pos + 1 + port.length := by
    rw [List.length_cons]
    omega
  rw [Cursor.advance_pos, List.length_singleton] at hinner
  rw [hpos] at houter hk
  rw [hinner, houter, hk]

/-- A name and a port. -/
theorem run_authority_name {n : ℕ} {name v6 : UInt8 → Bool} {α : Type}
    {k : Cursor UInt8 → Option α} {v : α} {c : Cursor UInt8} {host port t : Bytes}
    (hc : c.rest = host ++ (58 :: port ++ t)) (hhost : host ≠ [])
    (hname : ∀ x ∈ host, name x = true)
    (hcolon : name 58 = false) (hport : port ≠ []) (hdigits : ∀ x ∈ port, isDigit x = true)
    (ht : ∀ x ∈ t.head?, isDigit x = false)
    (hk : k ⟨c.pos + host.length + (58 :: port).length, t,
      (n + 3, ⟨c.pos + host.length, 58 :: port⟩) :: (n + 4, ⟨c.pos + host.length + 1, port⟩) ::
      (n, ⟨c.pos, host⟩) :: (n + 1, ⟨c.pos, host⟩) :: c.groups⟩ = some v) :
    (authority n name v6).run c k = some v := by
  rw [authority, Pattern.run, Pattern.run]
  apply Pattern.run_alt_of_left
  rw [Pattern.run]
  -- the colon is outside the class, so that the greedy name is exactly the host
  apply Pattern.run_many1_of_longest (by simpa using hcolon) _ hc hhost hname
  show (Pattern.opt _).run (c.close n (c.close (n + 1)
    ⟨c.pos + host.length, 58 :: port ++ t, c.groups⟩)) k = some v
  rw [Pattern.close_advance (n + 1) hc, Pattern.close_advance n hc]
  exact run_port rfl hport hdigits ht hk

/-- A name and a port. -/
theorem HostAndPort.make_name {host port : Bytes} (hhost : host ≠ [])
    (hname : ∀ x ∈ host, isHostChar x = true) (hport : port ≠ [])
    (hdigits : ∀ x ∈ port, isDigit x = true) :
    HostAndPort.make (host ++ 58 :: port) = .ok ⟨host, port⟩ := by
  have hmatch : hostRegex.regexMatch (host ++ 58 :: port) = some
      [(4, ⟨0 + host.length, 58 :: port⟩), (5, ⟨0 + host.length + 1, port⟩), (1, ⟨0, host⟩),
        (2, ⟨0, host⟩)] := by
    rw [Pattern.regexMatch, hostRegex, Pattern.run, Pattern.run_startOfInput, Pattern.run]
    refine run_authority_name (t := []) (by simp [Cursor.start]) hhost hname rfl hport hdigits
      (by simp) ?_
    rw [Pattern.run_endOfInput rfl]
    rfl
  rw [HostAndPort.make_of_match hmatch]
  rfl

/-- The two kinds of hosts. -/
theorem host_cases {n : ℕ} {name v6 : UInt8 → Bool} {c c' : Cursor UInt8}
    (h : (Pattern.group n (.alt (.group (n + 1) (.many1 name))
      (.seq (.sym 91) (.seq (.group (n + 2) (.many1 v6)) (.sym 93))))).Matches c c') :
    (∃ host t, c.rest = host ++ t ∧ host ≠ [] ∧ (∀ x ∈ host, name x = true) ∧
      c' = ⟨c.pos + host.length, t, (n, ⟨c.pos, host⟩) :: (n + 1, ⟨c.pos, host⟩) :: c.groups⟩) ∨
    (∃ host t, c.rest = (91 :: host ++ [93]) ++ t ∧ host ≠ [] ∧ (∀ x ∈ host, v6 x = true) ∧
      c' = ⟨c.pos + (91 :: host ++ [93]).length, t, (n, ⟨c.pos, 91 :: host ++ [93]⟩) ::
        (n + 2, ⟨c.pos + 1, host⟩) :: c.groups⟩) := by
  obtain ⟨m, ⟨m', hmany, rfl⟩ | ⟨m₁, hopen, m₂, ⟨m₃, hmany, rfl⟩, hclose⟩, rfl⟩ := h
  · obtain ⟨host, t, hrest, hne, hname, rfl⟩ := Pattern.exists_of_matches_many1 hmany
    refine Or.inl ⟨host, t, hrest, hne, hname, ?_⟩
    show c.close n (c.close (n + 1) ⟨c.pos + host.length, t, c.groups⟩) = _
    rw [Pattern.close_advance (n + 1) hrest, Pattern.close_advance n hrest]
  · obtain ⟨t₁, hrest, rfl⟩ := Pattern.exists_of_matches_sym hopen
    obtain ⟨host, t₂, hrest₁, hne, hv6, rfl⟩ := Pattern.exists_of_matches_many1 hmany
    obtain ⟨t, hrest₂, rfl⟩ := Pattern.exists_of_matches_sym hclose
    simp only [Cursor.close_rest, Cursor.advance_rest] at hrest₁ hrest₂
    have hall : c.rest = (91 :: host ++ [93]) ++ t := by
      rw [hrest, hrest₁, hrest₂]
      simp
    refine Or.inr ⟨host, t, hall, hne, hv6, ?_⟩
    rw [← Pattern.close_advance n hall]
    have hinner : (c.advance [91] t₁).close (n + 2) ((c.advance [91] t₁).advance host t₂)
        = ⟨c.pos + 1 + host.length, t₂, (n + 2, ⟨c.pos + 1, host⟩) :: c.groups⟩ :=
      Pattern.close_advance (n + 2) hrest₁ c.groups
    rw [hinner]
    simp only [Cursor.advance, List.length_append, List.length_cons, List.length_nil]
    congr 2
    omega

/-- The port that is there, or none. -/
theorem port_cases {n : ℕ} {c c' : Cursor UInt8}
    (h : (Pattern.opt (.group n (.seq (.sym 58) (.group (n + 1) (.many1 isDigit))))).Matches c c') :
    (∃ port t, c.rest = 58 :: port ++ t ∧ port ≠ [] ∧ (∀ x ∈ port, isDigit x = true) ∧
      c' = ⟨c.pos + (58 :: port).length, t, (n, ⟨c.pos, 58 :: port⟩) ::
        (n + 1, ⟨c.pos + 1, port⟩) :: c.groups⟩) ∨ c' = c := by
  rcases h with ⟨m, ⟨m₁, hcolon, m₂, hmany, rfl⟩, rfl⟩ | rfl
  · obtain ⟨t₁, hrest, rfl⟩ := Pattern.exists_of_matches_sym hcolon
    obtain ⟨port, t, hrest₁, hne, hdigits, rfl⟩ := Pattern.exists_of_matches_many1 hmany
    rw [Cursor.advance_rest] at hrest₁
    have hall : c.rest = 58 :: port ++ t := by
      rw [hrest, hrest₁]
      rfl
    refine Or.inl ⟨port, t, hall, hne, hdigits, ?_⟩
    rw [← Pattern.close_advance n hall]
    have hinner : (c.advance [58] t₁).close (n + 1) ((c.advance [58] t₁).advance port t)
        = ⟨c.pos + 1 + port.length, t, (n + 1, ⟨c.pos + 1, port⟩) :: c.groups⟩ :=
      Pattern.close_advance (n + 1) hrest₁ c.groups
    rw [hinner, List.length_cons]
    congr 2
    omega
  · exact Or.inr rfl

/-- What is in brackets altogether has no port of its own. -/
theorem HostAndPort.of_make_brackets {x : Bytes} {hp : HostAndPort}
    (h : HostAndPort.make (91 :: x ++ [93]) = .ok hp) : hp = ⟨x, lit "80"⟩ := by
  cases hmatch : hostRegex.regexMatch (91 :: x ++ [93]) with
  | none =>
      rw [HostAndPort.make_of_no_match hmatch] at h
      cases h
  | some r =>
      rw [HostAndPort.make_of_match hmatch] at h
      obtain ⟨c, hmatches, hend, rfl⟩ := Pattern.exists_of_regexMatch_eq_some hmatch
      obtain ⟨c₀, ⟨-, rfl⟩, c₁, ⟨c₂, hhost, hport⟩, -, rfl⟩ := hmatches
      rcases host_cases hhost with ⟨host, t, hrest, hne, hname, -⟩ | ⟨host, t, hrest, -, -, rfl⟩
      · -- a name does not start with a bracket
        cases host with
        | nil => exact absurd rfl hne
        | cons y host =>
            obtain ⟨rfl, -⟩ := List.cons.inj hrest
            have hfalse := hname 91 (by simp)
            cases hfalse
      · rcases port_cases hport with ⟨port, t', hrest', hne, hdigits, rfl⟩ | rfl
        · -- a port would end in a digit, but the text ends in a bracket
          exfalso
          obtain ⟨port, d, rfl⟩ := (List.eq_nil_or_concat port).resolve_left hne
          obtain rfl : t' = [] := hend
          have hrest'' : t = 58 :: (port ++ [d]) := by simpa using hrest'
          have hlast : (91 :: x) ++ [93] = (91 :: host ++ [93] ++ 58 :: port) ++ [d] := by
            rw [hrest''] at hrest
            simpa [Cursor.start] using hrest
          have hd : 93 = d := by
            have hinj := (List.append_inj' hlast rfl).2
            simpa using hinj
          have hfalse := hdigits d (by simp)
          rw [← hd] at hfalse
          cases hfalse
        · have hnil : t = [] := hend
          subst hnil
          have hx : x = host := by
            rw [List.append_nil] at hrest
            have hinj : 91 :: x = 91 :: host := (List.append_inj' hrest rfl).1
            exact (List.cons.inj hinj).2
          cases h
          rw [hx]
          rfl

end Pichi
