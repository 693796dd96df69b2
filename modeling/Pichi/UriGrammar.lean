/-
# The grammar of URIs and authorities

What the two expressions of `common/uri.cpp` accept, as a grammar: a URI is written as its
parts, and `full` puts the parts together.  The matcher is sound and complete for the grammar,
so that `Uri` and `HostAndPort` accept exactly the texts of valid parts; and the captures of a
match are the parts.

* `Uri.make_grammar`: what `Uri` accepts, and what it takes the text apart to;
* `authorities_agree_iff`: a text without `/`, `?` and `#` is the same authority to
  `HostAndPort` and, behind `http://`, to `Uri`, unless it is a bracketed address with a
  capital letter: only one of the expressions ignores the case.
-/
import Pichi.Uri

namespace Pichi

open Backtrack

/-! ## Authorities -/

/-- A host: a name, or an address in brackets. -/
inductive Host : Type where
  | name (text : Bytes)
  | brackets (text : Bytes)

namespace Host

def text : Host → Bytes
  | .name text => text
  | .brackets text => text

/-- The host as it is written. -/
def full : Host → Bytes
  | .name text => text
  | .brackets text => 91 :: text ++ [93]

/-- The groups of a host at a position, with the number `n` for the whole. -/
def groups (n pos : ℕ) : Host → Captures
  | .name text => [(n, ⟨pos, text⟩), (n + 1, ⟨pos, text⟩)]
  | .brackets text => [(n, ⟨pos, 91 :: text ++ [93]⟩), (n + 2, ⟨pos + 1, text⟩)]

/-- A host of the given characters. -/
def Valid (name v6 : UInt8 → Prop) : Host → Prop
  | .name text => text ≠ [] ∧ ∀ x ∈ text, name x
  | .brackets text => text ≠ [] ∧ ∀ x ∈ text, v6 x

end Host

/-- A host, and a port if there is one. -/
structure Authority where
  host : Host
  port : Option Bytes

namespace Authority

/-- The port as it is written. -/
def portText : Option Bytes → Bytes
  | some port => 58 :: port
  | none => []

def portGroups (n pos : ℕ) : Option Bytes → Captures
  | some port => [(n, ⟨pos, 58 :: port⟩), (n + 1, ⟨pos + 1, port⟩)]
  | none => []

/-- The authority as it is written. -/
def full (a : Authority) : Bytes := a.host.full ++ portText a.port

def groups (n pos : ℕ) (a : Authority) : Captures :=
  portGroups (n + 3) (pos + a.host.full.length) a.port ++ a.host.groups n pos

structure Valid (name v6 : UInt8 → Prop) (a : Authority) : Prop where
  host : a.host.Valid name v6
  port : ∀ port ∈ a.port, port ≠ [] ∧ ∀ x ∈ port, isDigit x = true

variable {name v6 : UInt8 → Bool} {n : ℕ} {c c' : Cursor UInt8}

/-- What the expression of an authority consumes, and what it captures. -/
theorem exists_of_matches (h : (authority n name v6).Matches c c') :
    ∃ (a : Authority) (t : Bytes), a.Valid (name · = true) (v6 · = true) ∧ c.rest = a.full ++ t
      ∧ c' = ⟨c.pos + a.full.length, t, a.groups n c.pos ++ c.groups⟩ := by
  obtain ⟨m, hhost, hport⟩ := h
  have hm : ∃ (host : Host) (t : Bytes), host.Valid (name · = true) (v6 · = true)
      ∧ c.rest = host.full ++ t
      ∧ m = ⟨c.pos + host.full.length, t, host.groups n c.pos ++ c.groups⟩ := by
    rcases host_cases hhost with ⟨text, t, hrest, hne, hname, rfl⟩ | ⟨text, t, hrest, hne, hv6, rfl⟩
    · exact ⟨.name text, t, ⟨hne, hname⟩, hrest, rfl⟩
    · exact ⟨.brackets text, t, ⟨hne, hv6⟩, hrest, rfl⟩
  obtain ⟨host, t, hvalid, hrest, rfl⟩ := hm
  rcases port_cases hport with ⟨port, t', hrest', hne, hdigits, rfl⟩ | rfl
  · refine ⟨⟨host, some port⟩, t', ⟨hvalid, ?_⟩, ?_, ?_⟩
    · intro port' hport'
      cases hport'
      exact ⟨hne, hdigits⟩
    · have hrest' : t = 58 :: port ++ t' := hrest'
      rw [hrest, hrest', full, portText, List.append_assoc]
    · rw [full, portText, List.length_append, Nat.add_assoc]
      rfl
  · refine ⟨⟨host, none⟩, t, ⟨hvalid, by simp⟩, ?_, ?_⟩
    · rw [full, portText, List.append_nil]
      exact hrest
    · rw [full, portText, List.append_nil]
      rfl

/-- Every authority is consumed by its expression. -/
theorem exists_matches {a : Authority} {t : Bytes} (hvalid : a.Valid (name · = true) (v6 · = true))
    (hrest : c.rest = a.full ++ t) : ∃ c', (authority n name v6).Matches c c' ∧ c'.rest = t := by
  obtain ⟨host, port⟩ := a
  rw [full, List.append_assoc] at hrest
  have hhost : ∃ m, (Pattern.group n (.alt (.group (n + 1) (.many1 name))
      (.seq (.sym 91) (.seq (.group (n + 2) (.many1 v6)) (.sym 93))))).Matches c m
      ∧ m.rest = portText port ++ t := by
    cases host with
    | name text =>
        obtain ⟨hne, hname⟩ := hvalid.host
        exact ⟨_, ⟨_, Or.inl ⟨_, Pattern.matches_many1 hrest hne hname, rfl⟩, rfl⟩, rfl⟩
    | brackets text =>
        obtain ⟨hne, hv6⟩ := hvalid.host
        have hopen : c.rest = 91 :: (text ++ (93 :: (portText port ++ t))) := by
          rw [hrest, Host.full]
          simp
        exact ⟨_, ⟨_, Or.inr ⟨_, Pattern.matches_sym 91 hopen, _,
          ⟨_, Pattern.matches_many1 rfl hne hv6, rfl⟩, Pattern.matches_sym 93 rfl⟩, rfl⟩, rfl⟩
  obtain ⟨m, hm, hmrest⟩ := hhost
  cases port with
  | none => exact ⟨m, ⟨m, hm, Or.inr rfl⟩, hmrest⟩
  | some port =>
      obtain ⟨hne, hdigits⟩ := hvalid.port port rfl
      exact ⟨_, ⟨m, hm, Or.inl ⟨_, ⟨_, Pattern.matches_sym 58 hmrest, _,
        Pattern.matches_many1 rfl hne hdigits, rfl⟩, rfl⟩⟩, rfl⟩

/-! ### An authority has one reading -/

section Unique

variable {name v6 name' v6' : UInt8 → Prop} {a b : Authority}

/-- The character behind a name is not one of the name. -/
theorem takeWhile_name {text : Bytes} (hname : ∀ x ∈ text, x ≠ 58) (port : Option Bytes) :
    (text ++ portText port).takeWhile (· ≠ 58) = text := by
  have hpos : ∀ x ∈ text, decide (x ≠ 58) = true := fun x hx => decide_eq_true (hname x hx)
  rw [List.takeWhile_append_of_pos hpos]
  cases port with
  | none => simp [portText]
  | some port => simp [portText]

theorem takeWhile_brackets {text : Bytes} (hv6 : ∀ x ∈ text, x ≠ 93) (u : Bytes) :
    (text ++ 93 :: u).takeWhile (· ≠ 93) = text := by
  have hpos : ∀ x ∈ text, decide (x ≠ 93) = true := fun x hx => decide_eq_true (hv6 x hx)
  rw [List.takeWhile_append_of_pos hpos]
  simp

theorem portText_injective : Function.Injective portText := by
  rintro (_ | p) (_ | q) h
  · rfl
  · cases h
  · cases h
  · exact congrArg some (List.cons.inj h).2

/-- **Valid authorities that are written in the same way are the same**, whichever the characters
of the two expressions are, as long as a name has neither a colon nor a bracket, and what is in
brackets has none. -/
theorem eq_of_full_eq (ha : a.Valid name v6) (hb : b.Valid name' v6')
    (hcolon : ∀ x, name x → x ≠ 58) (hcolon' : ∀ x, name' x → x ≠ 58) (hopen : ∀ x, name x → x ≠ 91)
    (hopen' : ∀ x, name' x → x ≠ 91) (hclose : ∀ x, v6 x → x ≠ 93)
    (hclose' : ∀ x, v6' x → x ≠ 93) (h : a.full = b.full) : a = b := by
  obtain ⟨host, port⟩ := a
  obtain ⟨host', port'⟩ := b
  -- a name does not start with a bracket
  have hmixed : ∀ {text text' : Bytes} {p p' : Option Bytes}, text ≠ [] → (∀ x ∈ text, x ≠ 91) →
      text ++ portText p ≠ (91 :: text' ++ [93]) ++ portText p' := by
    intro text text' p p' hne hopen heq
    obtain ⟨x, w, rfl⟩ := List.exists_cons_of_ne_nil hne
    exact hopen x (by simp) (List.cons.inj heq).1
  have hhost : host = host' := by
    cases host with
    | name text =>
        cases host' with
        | name text' =>
            have htake := congrArg (List.takeWhile (· ≠ 58)) h
            simp only [full, Host.full] at htake
            rw [takeWhile_name fun x hx => hcolon x (ha.host.2 x hx),
              takeWhile_name fun x hx => hcolon' x (hb.host.2 x hx)] at htake
            rw [htake]
        | brackets text' =>
            exact absurd h (hmixed ha.host.1 fun x hx => hopen x (ha.host.2 x hx))
    | brackets text =>
        cases host' with
        | name text' =>
            exact absurd h.symm (hmixed hb.host.1 fun x hx => hopen' x (hb.host.2 x hx))
        | brackets text' =>
            have htail : (text ++ [93]) ++ portText port = (text' ++ [93]) ++ portText port' :=
              (List.cons.inj h).2
            rw [List.append_assoc, List.append_assoc] at htail
            have htake := congrArg (List.takeWhile (· ≠ 93)) htail
            rw [List.singleton_append, List.singleton_append,
              takeWhile_brackets fun x hx => hclose x (ha.host.2 x hx),
              takeWhile_brackets fun x hx => hclose' x (hb.host.2 x hx)] at htake
            rw [htake]
  subst hhost
  have hport : portText port = portText port' := List.append_cancel_left h
  rw [portText_injective hport]

end Unique

end Authority

/-! ## `HostAndPort` -/

theorem isHostChar_iff {x : UInt8} :
    isHostChar x = true ↔ x ≠ 58 ∧ x ≠ 47 ∧ x ≠ 91 ∧ x ≠ 93 := by
  simp [isHostChar, and_assoc]

theorem ne_of_isV6Char {x : UInt8} (h : isV6Char x = true) : x ≠ 93 := by
  rintro rfl
  exact absurd h (by decide)

theorem HostAndPort.exists_of_make {s : Bytes} {hp : HostAndPort}
    (h : HostAndPort.make s = .ok hp) :
    ∃ a : Authority, a.Valid (isHostChar · = true) (isV6Char · = true) ∧ a.full = s
      ∧ hp = ⟨a.host.text, a.port.getD (lit "80")⟩ := by
  cases hmatch : hostRegex.regexMatch s with
  | none =>
      rw [HostAndPort.make_of_no_match hmatch] at h
      cases h
  | some r =>
      rw [HostAndPort.make_of_match hmatch] at h
      obtain ⟨c, ⟨-, ⟨-, rfl⟩, m, hm, -, rfl⟩, hend, rfl⟩ :=
        Pattern.exists_of_regexMatch_eq_some hmatch
      obtain ⟨a, t, hvalid, hrest, rfl⟩ := Authority.exists_of_matches hm
      obtain rfl : t = [] := hend
      have hs : s = a.full := hrest.trans (List.append_nil _)
      refine ⟨a, hvalid, hs.symm, ?_⟩
      obtain ⟨host, port⟩ := a
      cases h
      -- the groups of the four shapes
      cases host <;> cases port <;> rfl

/-- **What `HostAndPort` accepts**, and what it makes of it. -/
theorem HostAndPort.make_eq_ok_iff {s : Bytes} {hp : HostAndPort} :
    HostAndPort.make s = .ok hp
      ↔ ∃ a : Authority, a.Valid (isHostChar · = true) (isV6Char · = true) ∧ a.full = s
        ∧ hp = ⟨a.host.text, a.port.getD (lit "80")⟩ := by
  refine ⟨HostAndPort.exists_of_make, ?_⟩
  rintro ⟨a, hvalid, hfull, rfl⟩
  have hmatch : (hostRegex.regexMatch s).isSome = true := by
    rw [Pattern.isSome_regexMatch_iff]
    obtain ⟨c, hc, hrest⟩ := Authority.exists_matches (n := 1) (c := Cursor.start s) (t := [])
      hvalid (by rw [List.append_nil, hfull]; rfl)
    exact ⟨c, ⟨_, ⟨rfl, rfl⟩, c, hc, hrest, rfl⟩, hrest⟩
  obtain ⟨r, hr⟩ := Option.isSome_iff_exists.mp hmatch
  have hmake := HostAndPort.make_of_match hr
  obtain ⟨b, hvalid', hfull', hb⟩ := HostAndPort.exists_of_make hmake
  have hab : a = b := Authority.eq_of_full_eq hvalid hvalid'
    (fun x hx => (isHostChar_iff.mp hx).1) (fun x hx => (isHostChar_iff.mp hx).1)
    (fun x hx => (isHostChar_iff.mp hx).2.2.1) (fun x hx => (isHostChar_iff.mp hx).2.2.1)
    (fun x hx => ne_of_isV6Char hx) (fun x hx => ne_of_isV6Char hx) (hfull.trans hfull'.symm)
  rw [hmake, hb, hab]

/-! ## URIs -/

/-- A character of a name in a URI: none of `:`, `/`, `?`, `#`, `[` and `]`. -/
def UriNameChar (x : UInt8) : Prop :=
  x ≠ 58 ∧ x ≠ 47 ∧ x ≠ 63 ∧ x ≠ 35 ∧ x ≠ 91 ∧ x ≠ 93

/-- A character in brackets: a hexadecimal digit in either case, a colon or a dot. -/
def UriV6Char (x : UInt8) : Prop :=
  (97 ≤ x ∧ x ≤ 102) ∨ (65 ≤ x ∧ x ≤ 70) ∨ (48 ≤ x ∧ x ≤ 57) ∨ x = 58 ∨ x = 46

theorem isUriHostChar_iff {x : UInt8} : isUriHostChar x = true ↔ UriNameChar x := by
  simp only [isUriHostChar, isHostChar, UriNameChar, Bool.and_eq_true, bne_iff_ne]
  constructor
  · rintro ⟨⟨⟨⟨⟨h₁, h₂⟩, h₃⟩, h₄⟩, h₅⟩, h₆⟩
    exact ⟨h₁, h₂, h₅, h₆, h₃, h₄⟩
  · rintro ⟨h₁, h₂, h₅, h₆, h₃, h₄⟩
    exact ⟨⟨⟨⟨⟨h₁, h₂⟩, h₃⟩, h₄⟩, h₅⟩, h₆⟩

theorem isV6Char_iff {x : UInt8} :
    isV6Char x = true ↔ (97 ≤ x ∧ x ≤ 102) ∨ (48 ≤ x ∧ x ≤ 57) ∨ x = 58 ∨ x = 46 := by
  simp [isV6Char, isDigit, or_assoc]

/-- Ignoring the case adds the capital letters. -/
theorem isV6Char_toLower_iff {x : UInt8} : isV6Char (toLower x) = true ↔ UriV6Char x := by
  rw [isV6Char_iff, UriV6Char, toLower]
  split
  · rename_i hupper
    have hadd : (x + 32).toNat = x.toNat + 32 := by
      have hle := UInt8.le_iff_toNat_le.mp hupper.2
      rw [UInt8.toNat_add]
      simp only [UInt8.reduceToNat] at hle ⊢
      omega
    simp only [UInt8.le_iff_toNat_le, ← UInt8.toNat_inj, hadd] at hupper ⊢
    simp only [UInt8.reduceToNat] at hupper ⊢
    omega
  · rename_i hupper
    simp only [UInt8.le_iff_toNat_le, ← UInt8.toNat_inj] at hupper ⊢
    simp only [UInt8.reduceToNat] at hupper ⊢
    omega

/-- `[^#?]`. -/
def isPathChar (x : UInt8) : Bool := x != 35 && x != 63

/-- A suffix starts with a slash, and has no line terminator behind the first `?` or `#`. -/
def IsSuffix (t : Bytes) : Prop :=
  t.head? = some 47 ∧ ∀ y ∈ (t.dropWhile isPathChar).tail, y ≠ 10 ∧ y ≠ 13

/-- The parts of a URI. -/
structure UriParts where
  scheme : Bytes
  authority : Authority
  suffix : Option Bytes

namespace UriParts

/-- The URI as it is written. -/
def full (u : UriParts) : Bytes :=
  u.scheme ++ (lit "://" ++ (u.authority.full ++ u.suffix.getD []))

/-- The parts are of the grammar: `http` or `https` in any case, an authority, and a suffix. -/
structure Valid (u : UriParts) : Prop where
  scheme : toLowerStr u.scheme = lit "http" ∨ toLowerStr u.scheme = lit "https"
  authority : u.authority.Valid UriNameChar UriV6Char
  suffix : ∀ t ∈ u.suffix, IsSuffix t

end UriParts

/-! ### The parts of the expression -/

theorem exists_of_matches_wordIcase {w : Bytes} {c c' : Cursor UInt8}
    (h : (wordIcase w).Matches c c') :
    ∃ v t, c.rest = v ++ t ∧ toLowerStr v = w ∧ c' = c.advance v t := by
  induction w generalizing c with
  | nil =>
      obtain rfl : c' = c := h
      exact ⟨[], c'.rest, rfl, rfl, rfl⟩
  | cons x w ih =>
      obtain ⟨m, ⟨y, t, hrest, hy, rfl⟩, hw⟩ := h
      obtain ⟨v, u, hrest', hlower, rfl⟩ := ih hw
      rw [Cursor.advance_rest] at hrest'
      refine ⟨y :: v, u, by rw [hrest, hrest', List.cons_append], ?_,
        Cursor.advance_advance _ _ _ _ _⟩
      show toLower y :: toLowerStr v = x :: w
      rw [beq_iff_eq.mp hy, hlower]

theorem matches_wordIcase (v : Bytes) {t : Bytes} : ∀ {c : Cursor UInt8}, c.rest = v ++ t →
    (wordIcase (toLowerStr v)).Matches c (c.advance v t) := by
  induction v with
  | nil =>
      intro c h
      obtain ⟨pos, rest, groups⟩ := c
      obtain rfl : rest = t := h
      rfl
  | cons x v ih =>
      intro c h
      refine ⟨c.advance [x] (v ++ t), ⟨x, v ++ t, h, beq_self_eq_true _, rfl⟩, ?_⟩
      rw [← Cursor.advance_advance c x v (v ++ t) t]
      exact ih rfl

/-- `(https?)`. -/
def schemePattern : Pattern UInt8 := .seq (wordIcase (lit "http")) (.opt (wordIcase (lit "s")))

theorem exists_of_matches_scheme {c c' : Cursor UInt8} (h : schemePattern.Matches c c') :
    ∃ v t, c.rest = v ++ t ∧ (toLowerStr v = lit "http" ∨ toLowerStr v = lit "https")
      ∧ c' = c.advance v t := by
  obtain ⟨m, hhttp, hs⟩ := h
  obtain ⟨v, t, hrest, hlower, rfl⟩ := exists_of_matches_wordIcase hhttp
  rcases hs with hs | rfl
  · obtain ⟨v', t', hrest', hlower', rfl⟩ := exists_of_matches_wordIcase hs
    rw [Cursor.advance_rest] at hrest'
    refine ⟨v ++ v', t', by rw [hrest, hrest', List.append_assoc], Or.inr ?_, ?_⟩
    · rw [toLowerStr, List.map_append]
      show toLowerStr v ++ toLowerStr v' = _
      rw [hlower, hlower']
      rfl
    · simp only [Cursor.advance, List.length_append, Nat.add_assoc]
  · exact ⟨v, t, hrest, Or.inl hlower, rfl⟩

theorem exists_matches_scheme {v t : Bytes} {c : Cursor UInt8} (hrest : c.rest = v ++ t)
    (h : toLowerStr v = lit "http" ∨ toLowerStr v = lit "https") :
    ∃ c', schemePattern.Matches c c' ∧ c'.rest = t := by
  rcases h with h | h
  · refine ⟨c.advance v t, ⟨c.advance v t, ?_, Or.inr rfl⟩, rfl⟩
    rw [← h]
    exact matches_wordIcase v hrest
  · have hsplit : v.map toLower = lit "http" ++ lit "s" := h
    obtain ⟨v₁, v₂, rfl, hv₁, hv₂⟩ := List.map_eq_append_iff.mp hsplit
    rw [List.append_assoc] at hrest
    refine ⟨(c.advance v₁ (v₂ ++ t)).advance v₂ t, ⟨c.advance v₁ (v₂ ++ t), ?_, Or.inl ?_⟩, rfl⟩
    · rw [← hv₁]
      exact matches_wordIcase v₁ hrest
    · rw [← hv₂]
      exact matches_wordIcase v₂ rfl

/-- `(/[^#?]*([#?].*)?)?`. -/
def suffixPattern : Pattern UInt8 :=
  .opt (.group 7 (.seq (.sym 47) (.seq (.many isPathChar)
    (.opt (.group 8 (.seq (.one fun c => c = 35 || c = 63) (.many fun c => c != 10 && c != 13)))))))

/-- The group of a query. -/
def queryGroups (pos : ℕ) (query : Bytes) : Captures :=
  if query = [] then [] else [(8, ⟨pos, query⟩)]

/-- The groups of a suffix. -/
def suffixGroups (pos : ℕ) : Option Bytes → Captures
  | some t => (7, ⟨pos, t⟩) :: queryGroups (pos + (t.takeWhile isPathChar).length)
      (t.dropWhile isPathChar)
  | none => []

theorem split_path {path : Bytes} (query : Bytes) (hpath : ∀ x ∈ path, isPathChar x = true)
    (hquery : ∀ x ∈ query.head?, isPathChar x = false) :
    (47 :: path ++ query).takeWhile isPathChar = 47 :: path
      ∧ (47 :: path ++ query).dropWhile isPathChar = query := by
  have hall : ∀ x ∈ 47 :: path, isPathChar x = true := by
    intro x hx
    rcases List.mem_cons.mp hx with rfl | hx
    · rfl
    · exact hpath x hx
  rw [List.takeWhile_append_of_pos hall, List.dropWhile_append_of_pos hall]
  cases query with
  | nil => simp
  | cons y w =>
      have hy := hquery y rfl
      simp [hy]

/-- `([#?].*)?`. -/
def queryPattern : Pattern UInt8 :=
  .opt (.group 8 (.seq (.one fun c => c = 35 || c = 63) (.many fun c => c != 10 && c != 13)))

theorem exists_of_matches_query {c c' : Cursor UInt8} (h : queryPattern.Matches c c') :
    ∃ query t : Bytes, (∀ x ∈ query.head?, isPathChar x = false)
      ∧ (∀ y ∈ query.tail, y ≠ 10 ∧ y ≠ 13) ∧ c.rest = query ++ t
      ∧ c' = ⟨c.pos + query.length, t, queryGroups c.pos query ++ c.groups⟩ := by
  rcases h with ⟨m, ⟨m₁, ⟨x, t₁, hx, hquest, rfl⟩, w, t, hw, hline, rfl⟩, rfl⟩ | rfl
  · rw [Cursor.advance_rest] at hw
    have hall : c.rest = x :: w ++ t := by
      rw [hx, hw]
      rfl
    refine ⟨x :: w, t, ?_, ?_, hall, ?_⟩
    · intro y hy
      cases hy
      simp only [Bool.or_eq_true, decide_eq_true_eq] at hquest
      rcases hquest with rfl | rfl <;> rfl
    · intro y hy
      simpa using hline y hy
    · rw [Cursor.advance_advance, queryGroups, if_neg (by simp)]
      exact Pattern.close_advance 8 hall _
  · exact ⟨[], c'.rest, by simp, by simp, rfl, rfl⟩

theorem exists_of_matches_suffix {c c' : Cursor UInt8} (h : suffixPattern.Matches c c') :
    ∃ (suffix : Option Bytes) (t : Bytes), (∀ u ∈ suffix, IsSuffix u)
      ∧ c.rest = suffix.getD [] ++ t
      ∧ c' = ⟨c.pos + (suffix.getD []).length, t, suffixGroups c.pos suffix ++ c.groups⟩ := by
  rcases h with ⟨m, ⟨m₁, hslash, m₂, ⟨path, t₁, hpath, hclass, rfl⟩, hquery⟩, rfl⟩ | rfl
  · obtain ⟨t₀, hrest, rfl⟩ := Pattern.exists_of_matches_sym hslash
    obtain ⟨query, t, hhead, hline, hrest₁, rfl⟩ := exists_of_matches_query hquery
    rw [Cursor.advance_rest] at hpath hrest₁
    obtain ⟨htake, hdrop⟩ := split_path query hclass hhead
    have hall : c.rest = (47 :: path ++ query) ++ t := by
      rw [hrest, hpath, hrest₁]
      simp
    refine ⟨some (47 :: path ++ query), t, ?_, hall, ?_⟩
    · intro u hu
      cases hu
      refine ⟨rfl, ?_⟩
      rw [hdrop]
      exact hline
    · -- the query is closed first, and then the suffix
      have hpos : ((c.advance [47] t₀).advance path t₁).pos = c.pos + (47 :: path).length := by
        rw [Cursor.advance_advance, Cursor.advance_pos]
      have hlength : c.pos + (47 :: path).length + query.length
          = c.pos + (47 :: path ++ query).length := by
        rw [List.length_append, Nat.add_assoc]
      rw [hpos, hlength, suffixGroups, htake, hdrop]
      exact Pattern.close_advance 7 hall _
  · exact ⟨none, c'.rest, by simp, rfl, rfl⟩

theorem exists_matches_suffix {suffix : Option Bytes} {c : Cursor UInt8}
    (hvalid : ∀ u ∈ suffix, IsSuffix u) (hrest : c.rest = suffix.getD []) :
    ∃ c', suffixPattern.Matches c c' ∧ c'.rest = [] := by
  cases suffix with
  | none => exact ⟨c, Or.inr rfl, hrest⟩
  | some u =>
      obtain ⟨hhead, hline⟩ := hvalid u rfl
      obtain ⟨v, rfl⟩ := List.head?_eq_some_iff.mp hhead
      have hrest : c.rest = 47 :: v := hrest
      have hdrop : (47 :: v).dropWhile isPathChar = v.dropWhile isPathChar := by
        rw [List.dropWhile_cons_of_pos rfl]
      rw [hdrop] at hline
      have hsplit : v = v.takeWhile isPathChar ++ v.dropWhile isPathChar :=
        List.takeWhile_append_dropWhile.symm
      have hmany : (Pattern.many isPathChar).Matches (c.advance [47] v)
          ((c.advance [47] v).advance (v.takeWhile isPathChar) (v.dropWhile isPathChar)) :=
        ⟨_, _, hsplit, fun x hx => List.mem_takeWhile_imp hx, rfl⟩
      cases hquery : v.dropWhile isPathChar with
      | nil =>
          rw [hquery] at hmany
          exact ⟨_, Or.inl ⟨_, ⟨_, Pattern.matches_sym 47 hrest, _, hmany, Or.inr rfl⟩, rfl⟩, rfl⟩
      | cons x w =>
          rw [hquery] at hmany hline
          have hx : (x = 35 || x = 63) = true := by
            have hnot := List.head?_dropWhile_not isPathChar v
            rw [hquery] at hnot
            have hnot : (x != 35 && x != 63) = false := hnot
            rw [Bool.and_eq_false_iff, bne_eq_false_iff_eq, bne_eq_false_iff_eq] at hnot
            rcases hnot with rfl | rfl <;> rfl
          have hw : ∀ y ∈ w, (y != 10 && y != 13) = true := by
            intro y hy
            simpa using hline y hy
          exact ⟨_, Or.inl ⟨_, ⟨_, Pattern.matches_sym 47 hrest, _, hmany, Or.inl
            ⟨_, ⟨_, ⟨x, w, rfl, hx, rfl⟩, w, [], by simp, hw, rfl⟩, rfl⟩⟩, rfl⟩, rfl⟩

theorem uriRegex_eq : uriRegex = .seq .startOfInput (.seq (.group 1 schemePattern)
    (.seq (.word (lit "://")) (.seq (authority 2 isUriHostChar fun c => isV6Char (toLower c))
      (.seq suffixPattern .endOfInput)))) := rfl

/-! ### What `Uri` accepts -/

/-- The classes of the expression are the ones of the grammar. -/
theorem Authority.valid_iff {a : Authority} :
    a.Valid (isUriHostChar · = true) (fun x => isV6Char (toLower x) = true)
      ↔ a.Valid UriNameChar UriV6Char := by
  have hname : (fun x => isUriHostChar x = true) = UriNameChar := by
    funext x
    exact propext isUriHostChar_iff
  have hv6 : (fun x => isV6Char (toLower x) = true) = UriV6Char := by
    funext x
    exact propext isV6Char_toLower_iff
  rw [hname, hv6]

namespace UriParts

/-- The captures in front of the suffix. -/
def frontGroups (u : UriParts) : Captures :=
  u.authority.groups 2 (u.scheme.length + 3) ++ [(1, ⟨0, u.scheme⟩)]

/-- The position of the suffix. -/
def suffixStart (u : UriParts) : ℕ := u.scheme.length + 3 + u.authority.full.length

/-- The captures of a URI. -/
def groups (u : UriParts) : Captures := suffixGroups u.suffixStart u.suffix ++ u.frontGroups

theorem exists_of_regexMatch {s : Bytes} {r : Captures} (h : uriRegex.regexMatch s = some r) :
    ∃ u : UriParts, u.Valid ∧ u.full = s ∧ r = u.groups := by
  obtain ⟨c, hc, hend, rfl⟩ := Pattern.exists_of_regexMatch_eq_some h
  rw [uriRegex_eq] at hc
  obtain ⟨-, ⟨-, rfl⟩, m₁, ⟨m₀, hscheme, rfl⟩, m₂, hword, m₃, hauthority, m₄, hsuffix, -, rfl⟩ := hc
  obtain ⟨scheme, t₁, hrest₁, hvalid₁, rfl⟩ := exists_of_matches_scheme hscheme
  obtain ⟨t₂, hrest₂, rfl⟩ := Pattern.exists_of_matches_word hword
  obtain ⟨a, t₃, hvalid₃, hrest₃, rfl⟩ := Authority.exists_of_matches hauthority
  obtain ⟨suffix, t, hvalid, hrest, rfl⟩ := exists_of_matches_suffix hsuffix
  simp only [Cursor.close_rest, Cursor.advance_rest] at hrest₂ hrest₃ hrest
  obtain rfl : t = [] := hend
  have hs : s = scheme ++ t₁ := hrest₁
  refine ⟨⟨scheme, a, suffix⟩, ⟨hvalid₁, Authority.valid_iff.mp hvalid₃, hvalid⟩, ?_, ?_⟩
  · rw [full, hs, hrest₂, hrest₃, hrest, List.append_nil]
  · have hgroups : ((Cursor.start s).close 1 ((Cursor.start s).advance scheme t₁)).groups
        = [(1, ⟨0, scheme⟩)] :=
      Pattern.groups_close_advance 1 hrest₁
    have hpos : 0 + scheme.length + (lit "://").length = scheme.length + 3 := by
      rw [Nat.zero_add]
      rfl
    simp only [Cursor.advance_pos, Cursor.close_pos, Cursor.advance_groups, hgroups]
    show suffixGroups (0 + scheme.length + (lit "://").length + a.full.length) suffix
      ++ (a.groups 2 (0 + scheme.length + (lit "://").length) ++ [(1, ⟨0, scheme⟩)]) = _
    rw [hpos]
    rfl

theorem isSome_regexMatch {u : UriParts} (h : u.Valid) :
    (uriRegex.regexMatch u.full).isSome = true := by
  rw [Pattern.isSome_regexMatch_iff, uriRegex_eq]
  obtain ⟨c₁, hc₁, hrest₁⟩ := exists_matches_scheme (c := Cursor.start u.full) rfl h.scheme
  have hc₂ := Pattern.matches_word (lit "://") (c := (Cursor.start u.full).close 1 c₁) hrest₁
  obtain ⟨c₃, hc₃, hrest₃⟩ := Authority.exists_matches (n := 2)
    (c := ((Cursor.start u.full).close 1 c₁).advance (lit "://")
      (u.authority.full ++ u.suffix.getD [])) (Authority.valid_iff.mpr h.authority) rfl
  obtain ⟨c₄, hc₄, hrest₄⟩ := exists_matches_suffix h.suffix hrest₃
  exact ⟨c₄, ⟨_, ⟨rfl, rfl⟩, _, ⟨c₁, hc₁, rfl⟩, _, hc₂, c₃, hc₃, c₄, hc₄, hrest₄, rfl⟩, hrest₄⟩

/-- The port of a scheme. -/
def defaultPort (u : UriParts) : Bytes :=
  if toLowerStr u.scheme = lit "http" then lit "80" else lit "443"

/-- What `Uri` makes of the parts. -/
def toUri (u : UriParts) : Uri where
  all := u.full
  scheme := u.scheme
  host := u.authority.host.text
  port := u.authority.port.getD u.defaultPort
  suffix := u.suffix.getD (lit "/")
  path := (u.suffix.getD (lit "/")).takeWhile isPathChar
  query := (u.suffix.getD (lit "/")).dropWhile isPathChar

variable {u : UriParts}

/-- The suffix has the groups seven and eight only. -/
theorem lookup_suffixGroups {k : ℕ} (h₇ : k ≠ 7) (h₈ : k ≠ 8) (pos : ℕ) (suffix : Option Bytes) :
    (suffixGroups pos suffix).lookup k = none := by
  rw [List.lookup_eq_none_iff]
  intro e he
  cases suffix with
  | none => cases he
  | some t =>
      rw [suffixGroups, queryGroups] at he
      split at he
      · rw [List.mem_singleton.mp he]
        exact bne_iff_ne.mpr h₇
      · rcases List.mem_cons.mp he with rfl | he
        · exact bne_iff_ne.mpr h₇
        · rw [List.mem_singleton.mp he]
          exact bne_iff_ne.mpr h₈

theorem lookup_groups {k : ℕ} (h₇ : k ≠ 7) (h₈ : k ≠ 8) (u : UriParts) :
    u.groups.lookup k = u.frontGroups.lookup k := by
  rw [groups, List.lookup_append, lookup_suffixGroups h₇ h₈, Option.none_or]

theorem lookup_seven (u : UriParts) :
    u.groups.lookup 7 = u.suffix.map fun t => ⟨u.suffixStart, t⟩ := by
  obtain ⟨scheme, ⟨host, port⟩, suffix⟩ := u
  cases suffix with
  | none => cases host <;> cases port <;> rfl
  | some t => rfl

theorem lookup_eight (u : UriParts) : u.groups.lookup 8
    = (queryGroups (u.suffixStart + ((u.suffix.getD []).takeWhile isPathChar).length)
      ((u.suffix.getD []).dropWhile isPathChar)).lookup 8 := by
  obtain ⟨scheme, ⟨host, port⟩, suffix⟩ := u
  have hfront : (frontGroups ⟨scheme, ⟨host, port⟩, suffix⟩).lookup 8 = none := by
    cases host <;> cases port <;> rfl
  rw [groups, List.lookup_append, hfront, Option.or_none]
  cases suffix with
  | none => rfl
  | some t => rfl

theorem scheme2port_eq (h : u.Valid) : scheme2port u.scheme = .ok u.defaultPort := by
  rw [scheme2port, defaultPort]
  split
  · rfl
  · rename_i hhttp
    rw [if_pos (h.scheme.resolve_left hhttp)]

theorem text_scheme (u : UriParts) : Captures.text u.groups 1 = u.scheme := by
  rw [Captures.text, lookup_groups (by decide) (by decide)]
  obtain ⟨scheme, ⟨host, port⟩, suffix⟩ := u
  cases host <;> cases port <;> rfl

theorem text_host (u : UriParts) :
    (if Captures.matched u.groups 3 then Captures.text u.groups 3 else Captures.text u.groups 4)
      = u.authority.host.text := by
  rw [Captures.matched, Captures.text, Captures.text, lookup_groups (by decide) (by decide),
    lookup_groups (by decide) (by decide)]
  obtain ⟨scheme, ⟨host, port⟩, suffix⟩ := u
  cases host <;> cases port <;> rfl

theorem text_port (u : UriParts) : Captures.matched u.groups 5 = u.authority.port.isSome
    ∧ Captures.text u.groups 6 = u.authority.port.getD [] := by
  rw [Captures.matched, Captures.text, lookup_groups (by decide) (by decide),
    lookup_groups (by decide) (by decide)]
  obtain ⟨scheme, ⟨host, port⟩, suffix⟩ := u
  cases host <;> cases port <;> exact ⟨rfl, rfl⟩

theorem text_suffix (u : UriParts) :
    (if Captures.matched u.groups 7 then Captures.text u.groups 7 else lit "/")
      = u.suffix.getD (lit "/") := by
  rw [Captures.matched, Captures.text, lookup_seven]
  cases u.suffix with
  | none => rfl
  | some t => rfl

theorem text_query (u : UriParts) :
    Captures.text u.groups 8 = (u.suffix.getD (lit "/")).dropWhile isPathChar := by
  rw [Captures.text, lookup_eight, queryGroups]
  cases u.suffix with
  | none => rfl
  | some t =>
      split
      · rename_i hnil
        exact hnil.symm
      · rfl

/-- The path ends where the query begins, or with the text. -/
theorem text_path (u : UriParts) :
    (if Captures.matched u.groups 7 then (Captures.text u.groups 7).take
        (((u.groups.lookup 8).map (·.first)).getD u.full.length
          - ((u.groups.lookup 7).map (·.first)).getD u.full.length) else lit "/")
      = (u.suffix.getD (lit "/")).takeWhile isPathChar := by
  rw [Captures.matched, Captures.text, lookup_seven, lookup_eight, queryGroups]
  cases hsuffix : u.suffix with
  | none => rfl
  | some t =>
      have hlength : u.full.length = u.suffixStart + t.length := by
        have hscheme : (lit "://").length = 3 := rfl
        rw [full, hsuffix, suffixStart]
        simp only [List.length_append, Option.getD_some, hscheme]
        omega
      simp only [Option.map_some, Option.isSome_some, if_true, Option.getD_some]
      split
      · rename_i hnil
        have hsplit := List.takeWhile_append_dropWhile (p := isPathChar) (l := t)
        rw [hnil, List.append_nil] at hsplit
        show t.take (u.full.length - u.suffixStart) = _
        rw [hlength, Nat.add_sub_cancel_left, List.take_length, hsplit]
      · show t.take (u.suffixStart + (t.takeWhile isPathChar).length - u.suffixStart) = _
        rw [Nat.add_sub_cancel_left]
        exact (List.prefix_iff_eq_take.mp (List.takeWhile_prefix isPathChar)).symm

/-- **What `Uri` makes of a match.** -/
theorem make_of_match (h : u.Valid) (hmatch : uriRegex.regexMatch u.full = some u.groups) :
    Uri.make u.full = .ok u.toUri := by
  rw [Uri.make, matching, hmatch]
  simp only [text_scheme, text_host, text_port, text_suffix, text_path, text_query,
    scheme2port_eq h, bind, Except.bind]
  cases hport : u.authority.port with
  | none =>
      simp [toUri, hport, pure, Except.pure]
  | some port =>
      simp [toUri, hport, pure, Except.pure]

end UriParts

/-- What an accepted text was taken apart to. -/
theorem Uri.exists_of_make {s : Bytes} {uri : Uri} (h : Uri.make s = .ok uri) :
    ∃ u : UriParts, u.Valid ∧ u.full = s ∧ uri = u.toUri := by
  cases hmatch : uriRegex.regexMatch s with
  | none =>
      rw [Uri.make, matching, hmatch] at h
      cases h
  | some r =>
      obtain ⟨u, hvalid, rfl, rfl⟩ := UriParts.exists_of_regexMatch hmatch
      rw [UriParts.make_of_match hvalid hmatch] at h
      exact ⟨u, hvalid, rfl, (Except.ok.inj h).symm⟩

/-- Every valid text is accepted. -/
theorem Uri.exists_make {u : UriParts} (h : u.Valid) : ∃ uri, Uri.make u.full = .ok uri := by
  obtain ⟨r, hr⟩ := Option.isSome_iff_exists.mp (UriParts.isSome_regexMatch h)
  obtain ⟨v, hvalid, hfull, rfl⟩ := UriParts.exists_of_regexMatch hr
  rw [← hfull] at hr ⊢
  exact ⟨_, UriParts.make_of_match hvalid hr⟩

/-- **`Uri` accepts its grammar, and takes a text apart without loss.**  The scheme, the host
(in its brackets), the port and the suffix put together are the text; a port that is not there
is the one of the scheme, and a suffix that is not there is a slash; and the suffix is the path
and the query. -/
theorem Uri.make_grammar (s : Bytes) :
    ((∃ uri, Uri.make s = .ok uri) ↔ ∃ u : UriParts, u.Valid ∧ u.full = s)
      ∧ ∀ uri, Uri.make s = .ok uri → ∃ u : UriParts, u.Valid ∧ u.full = s
        ∧ uri.all = s ∧ uri.scheme = u.scheme ∧ uri.host = u.authority.host.text
        ∧ (∀ port ∈ u.authority.port, uri.port = port)
        ∧ (u.authority.port = none → toLowerStr uri.scheme = lit "http" → uri.port = lit "80")
        ∧ (u.authority.port = none → toLowerStr uri.scheme = lit "https" → uri.port = lit "443")
        ∧ (∀ suffix ∈ u.suffix, uri.suffix = suffix)
        ∧ (u.suffix = none → uri.suffix = lit "/")
        ∧ uri.path ++ uri.query = uri.suffix
        ∧ ∀ x ∈ uri.path, x ≠ 63 ∧ x ≠ 35 := by
  constructor
  · constructor
    · rintro ⟨uri, huri⟩
      obtain ⟨u, hvalid, hfull, -⟩ := Uri.exists_of_make huri
      exact ⟨u, hvalid, hfull⟩
    · rintro ⟨u, hvalid, rfl⟩
      exact Uri.exists_make hvalid
  · intro uri huri
    obtain ⟨u, hvalid, rfl, rfl⟩ := Uri.exists_of_make huri
    refine ⟨u, hvalid, rfl, rfl, rfl, rfl, ?_, ?_, ?_, ?_, ?_, ?_, ?_⟩
    · intro port hport
      show u.authority.port.getD _ = port
      rw [Option.mem_def.mp hport, Option.getD_some]
    · intro hport hhttp
      have hhttp : toLowerStr u.scheme = lit "http" := hhttp
      show u.authority.port.getD u.defaultPort = _
      rw [hport, Option.getD_none, UriParts.defaultPort, if_pos hhttp]
    · intro hport hhttps
      have hnot : toLowerStr u.scheme ≠ lit "http" := by
        have hhttps : toLowerStr u.scheme = lit "https" := hhttps
        rw [hhttps]
        decide
      show u.authority.port.getD u.defaultPort = _
      rw [hport, Option.getD_none, UriParts.defaultPort, if_neg hnot]
    · intro suffix hsuffix
      show u.suffix.getD _ = suffix
      rw [Option.mem_def.mp hsuffix, Option.getD_some]
    · intro hsuffix
      show u.suffix.getD _ = _
      rw [hsuffix, Option.getD_none]
    · exact List.takeWhile_append_dropWhile
    · intro x hx
      have hpath : isPathChar x = true := List.mem_takeWhile_imp hx
      simp only [isPathChar, Bool.and_eq_true, bne_iff_ne] at hpath
      exact hpath.symm

/-! ## The two readings of an authority -/

/-- The two constructors agree on an authority: both accept it and find the same host and port in
it, or neither does. -/
def AuthoritiesAgree (a : Bytes) : Prop :=
  ((∃ hp, HostAndPort.make a = .ok hp) ↔ ∃ uri, Uri.make (lit "http://" ++ a) = .ok uri)
    ∧ ∀ hp uri, HostAndPort.make a = .ok hp → Uri.make (lit "http://" ++ a) = .ok uri →
      hp.host = uri.host ∧ hp.port = uri.port

/-- A bracketed address with a capital letter, with or without a port. -/
def CapitalAddress (a : Bytes) : Prop :=
  ∃ (text : Bytes) (port : Option Bytes),
    (⟨.brackets text, port⟩ : Authority).Valid UriNameChar UriV6Char
      ∧ (⟨.brackets text, port⟩ : Authority).full = a ∧ ∃ x ∈ text, 65 ≤ x ∧ x ≤ 70

section Agreement

variable {a : Bytes}

theorem toLowerStr_http : toLowerStr (lit "http") = lit "http" := by
  decide

/-- What `Uri` makes of an authority behind `http://`. -/
theorem Uri.exists_of_make_authority (ha : ∀ x ∈ a, x ≠ 47 ∧ x ≠ 63 ∧ x ≠ 35) {uri : Uri}
    (h : Uri.make (lit "http://" ++ a) = .ok uri) :
    ∃ b : Authority, b.Valid UriNameChar UriV6Char ∧ b.full = a ∧ uri.host = b.host.text
      ∧ uri.port = b.port.getD (lit "80") := by
  obtain ⟨⟨scheme, b, suffix⟩, hvalid, hfull, rfl⟩ := Uri.exists_of_make h
  simp only [UriParts.full] at hfull
  have hscheme : scheme = lit "http" ∧ b.full ++ suffix.getD [] = a := by
    rcases hvalid.scheme with hhttp | hhttps
    · have hlength : scheme.length = (lit "http").length := by
        have hmap := congrArg List.length hhttp
        rwa [toLowerStr, List.length_map] at hmap
      have hlit : lit "http://" = lit "http" ++ lit "://" := by decide
      rw [hlit, List.append_assoc] at hfull
      obtain ⟨hs, hrest⟩ := List.append_inj hfull hlength
      exact ⟨hs, List.append_cancel_left hrest⟩
    · -- the fifth character is a colon
      exfalso
      have hlength : scheme.length = (lit "http:").length := by
        have hmap := congrArg List.length hhttps
        have hfive : (lit "https").length = (lit "http:").length := by decide
        rwa [toLowerStr, List.length_map, hfive] at hmap
      have hlit : lit "http://" = lit "http:" ++ lit "//" := by decide
      rw [hlit, List.append_assoc] at hfull
      obtain ⟨hs, -⟩ := List.append_inj hfull hlength
      have hhttps : toLowerStr scheme = lit "https" := hhttps
      rw [hs] at hhttps
      exact absurd hhttps (by decide)
  obtain ⟨rfl, hrest⟩ := hscheme
  have hsuffix : suffix = none := by
    cases suffix with
    | none => rfl
    | some t =>
        obtain ⟨v, rfl⟩ := List.head?_eq_some_iff.mp (hvalid.suffix t rfl).1
        have hmem : 47 ∈ a := by
          rw [← hrest]
          simp
        exact absurd rfl (ha 47 hmem).1
  subst hsuffix
  rw [Option.getD_none, List.append_nil] at hrest
  refine ⟨b, hvalid.authority, hrest, rfl, ?_⟩
  show b.port.getD (UriParts.defaultPort _) = _
  rw [UriParts.defaultPort, if_pos toLowerStr_http]

theorem Uri.exists_make_authority {b : Authority} (h : b.Valid UriNameChar UriV6Char) :
    ∃ uri, Uri.make (lit "http://" ++ b.full) = .ok uri := by
  have hvalid : (⟨lit "http", b, none⟩ : UriParts).Valid :=
    ⟨Or.inl toLowerStr_http, h, by simp⟩
  obtain ⟨uri, huri⟩ := Uri.exists_make hvalid
  have hfull : (⟨lit "http", b, none⟩ : UriParts).full = lit "http://" ++ b.full := by
    have hlit : lit "http" ++ lit "://" = lit "http://" := by decide
    rw [UriParts.full, Option.getD_none, List.append_nil, ← List.append_assoc, hlit]
  rw [hfull] at huri
  exact ⟨uri, huri⟩

/-- The two readings are the same one. -/
theorem Authority.eq_of_readings {b b' : Authority}
    (hb : b.Valid (isHostChar · = true) (isV6Char · = true)) (hb' : b'.Valid UriNameChar UriV6Char)
    (h : b.full = b'.full) : b = b' := by
  refine Authority.eq_of_full_eq hb hb' (fun x hx => (isHostChar_iff.mp hx).1) (fun x hx => hx.1)
    (fun x hx => (isHostChar_iff.mp hx).2.2.1) (fun x hx => hx.2.2.2.2.1)
    (fun x hx => ne_of_isV6Char hx) ?_ h
  rintro x hx rfl
  exact absurd hx (by unfold UriV6Char; decide)

theorem Authority.uriValid_of_hostValid {b : Authority}
    (ha : ∀ x ∈ b.full, x ≠ 47 ∧ x ≠ 63 ∧ x ≠ 35)
    (hb : b.Valid (isHostChar · = true) (isV6Char · = true)) : b.Valid UriNameChar UriV6Char := by
  obtain ⟨host, port⟩ := b
  refine ⟨?_, hb.port⟩
  cases host with
  | name text =>
      obtain ⟨hne, hname⟩ := hb.host
      refine ⟨hne, fun x hx => ?_⟩
      obtain ⟨h₁, h₂, h₃, h₄⟩ := isHostChar_iff.mp (hname x hx)
      obtain ⟨-, h₅, h₆⟩ := ha x (List.mem_append_left _ hx)
      exact ⟨h₁, h₂, h₅, h₆, h₃, h₄⟩
  | brackets text =>
      obtain ⟨hne, hv6⟩ := hb.host
      refine ⟨hne, fun x hx => ?_⟩
      rcases isV6Char_iff.mp (hv6 x hx) with h | h
      · exact Or.inl h
      · exact Or.inr (Or.inr h)

theorem Authority.hostValid_of_uriValid {b : Authority} (hb : b.Valid UriNameChar UriV6Char)
    (h : ¬CapitalAddress b.full) : b.Valid (isHostChar · = true) (isV6Char · = true) := by
  obtain ⟨host, port⟩ := b
  refine ⟨?_, hb.port⟩
  cases host with
  | name text =>
      obtain ⟨hne, hname⟩ := hb.host
      refine ⟨hne, fun x hx => ?_⟩
      obtain ⟨h₁, h₂, -, -, h₃, h₄⟩ := hname x hx
      exact isHostChar_iff.mpr ⟨h₁, h₂, h₃, h₄⟩
  | brackets text =>
      obtain ⟨hne, hv6⟩ := hb.host
      refine ⟨hne, fun x hx => isV6Char_iff.mpr ?_⟩
      rcases hv6 x hx with hlower | hcapital | hother
      · exact Or.inl hlower
      · exact absurd ⟨text, port, hb, rfl, x, hx, hcapital⟩ h
      · exact Or.inr hother

end Agreement

/-- **When the two readings of an authority agree.**  For every text without `/`, `?` and `#`:
if and only if it is not a bracketed address with a capital letter. -/
theorem authorities_agree_iff {a : Bytes} (ha : ∀ x ∈ a, x ≠ 47 ∧ x ≠ 63 ∧ x ≠ 35) :
    AuthoritiesAgree a ↔ ¬CapitalAddress a := by
  constructor
  · rintro ⟨haccepts, -⟩ ⟨text, port, hvalid, rfl, x, hx, hcapital⟩
    obtain ⟨hp, hhp⟩ := haccepts.mpr (Uri.exists_make_authority hvalid)
    obtain ⟨b, hb, hfull, -⟩ := HostAndPort.make_eq_ok_iff.mp hhp
    obtain rfl := Authority.eq_of_readings hb hvalid hfull
    -- the class of `HostAndPort` has no capital letters
    have hv6 := isV6Char_iff.mp (hb.host.2 x hx)
    simp only [UInt8.le_iff_toNat_le, ← UInt8.toNat_inj] at hv6 hcapital
    simp only [UInt8.reduceToNat] at hv6 hcapital
    omega
  · intro hcapital
    refine ⟨⟨?_, ?_⟩, ?_⟩
    · rintro ⟨hp, hhp⟩
      obtain ⟨b, hb, rfl, -⟩ := HostAndPort.make_eq_ok_iff.mp hhp
      exact Uri.exists_make_authority (Authority.uriValid_of_hostValid ha hb)
    · rintro ⟨uri, huri⟩
      obtain ⟨b, hb, rfl, -⟩ := Uri.exists_of_make_authority ha huri
      exact ⟨_, HostAndPort.make_eq_ok_iff.mpr
        ⟨b, Authority.hostValid_of_uriValid hb hcapital, rfl, rfl⟩⟩
    · intro hp uri hhp huri
      obtain ⟨b, hb, hfull, rfl⟩ := HostAndPort.make_eq_ok_iff.mp hhp
      obtain ⟨b', hb', hfull', hhost, hport⟩ := Uri.exists_of_make_authority ha huri
      obtain rfl := Authority.eq_of_readings hb hb' (hfull.trans hfull'.symm)
      exact ⟨hhost.symm, hport.symm⟩

/-- A name with a port. -/
theorem authorities_agree_iff_example : AuthoritiesAgree (lit "a:8") := by
  refine (authorities_agree_iff ?_).mpr ?_
  · intro x hx
    have hx : x ∈ [97, 58, 56] := hx
    simp only [List.mem_cons, List.not_mem_nil, or_false] at hx
    rcases hx with rfl | rfl | rfl <;> decide
  · rintro ⟨text, port, -, hfull, -⟩
    exact absurd (List.cons.inj hfull).1 (by decide)

/-- `[FE80::1]` is a host to `Uri`, and not one to `HostAndPort`. -/
theorem authorities_agree_counterexample :
    HostAndPort.make (lit "[FE80::1]") = .error ⟨.pichi .badProto, ""⟩
      ∧ (∃ uri, Uri.make (lit "http://[FE80::1]") = .ok uri)
      ∧ ¬AuthoritiesAgree (lit "[FE80::1]") := by
  have hhost : HostAndPort.make (lit "[FE80::1]") = .error ⟨.pichi .badProto, ""⟩ := by
    decide +kernel
  have huri : ∃ uri, Uri.make (lit "http://[FE80::1]") = .ok uri :=
    exists_eq_ok_of_isOk (by decide +kernel)
  refine ⟨hhost, huri, ?_⟩
  rintro ⟨haccepts, -⟩
  have hlit : lit "http://" ++ lit "[FE80::1]" = lit "http://[FE80::1]" := by decide +kernel
  rw [hlit] at haccepts
  obtain ⟨hp, hhp⟩ := haccepts.mpr huri
  rw [hhost] at hhp
  cases hhp

end Pichi
