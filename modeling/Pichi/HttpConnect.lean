/-
# HTTP egress and HTTP ingress

The request that `HttpEgress::connect` writes for an endpoint, read by
`HttpIngress::continue_read_remote`.

* `authenticate_basic`: the credential of the egress is found among those of the ingress
  exactly when it is one of them;
* `remote_of_name`: a destination that is no IPv6 address comes out as it went in;
* `remote_of_ipv6`: an IPv6 destination is written as `[host:port]`, so that the ingress
  takes the port for a part of the host, and its own default for the port.
-/
import Pichi.EndpointCodec
import Pichi.Http

namespace Pichi

open Backtrack

namespace Http

/-! ## Authentication -/

/-- A word in any case is consumed. -/
theorem run_wordIcase {α : Type} {t : Bytes} {k : Cursor UInt8 → Option α} :
    ∀ (w : Bytes) (c : Cursor UInt8), c.rest = w ++ t →
      (wordIcase (toLowerStr w)).run c k = k (c.advance w t) := by
  intro w
  induction w with
  | nil =>
      intro c hc
      obtain ⟨pos, rest, groups⟩ := c
      simp_all [wordIcase, toLowerStr, Pattern.run, Cursor.advance]
  | cons x w ih =>
      intro c hc
      rw [toLowerStr, List.map_cons, wordIcase, Pattern.run, Pattern.run, hc, List.cons_append]
      simp only [beq_self_eq_true, if_true]
      rw [← toLowerStr, ih _ rfl, Cursor.advance_advance]

theorem isBasicChar_toLower {c : UInt8} (h : Platform.isBase64Char c = true) :
    isBasicChar (toLower c) = true := by
  have hall : ∀ n : Fin 256, Platform.isBase64Char (UInt8.ofNat n) = true →
      isBasicChar (toLower (UInt8.ofNat n)) = true := by
    decide +kernel
  have hc := hall ⟨c.toNat, c.toNat_lt⟩
  rw [UInt8.ofNat_toNat] at hc
  exact hc h

/-- At most two `=` at the end. -/
theorem run_padding {α : Type} {k : Cursor UInt8 → Option α} {v : α} {n : ℕ} {c : Cursor UInt8}
    (hn : n ≤ 2) (hc : c.rest = List.replicate n 61)
    (hk : k ⟨c.pos + n, [], c.groups⟩ = some v) :
    (Pattern.opt (.seq (.sym 61) (.opt (.sym 61)))).run c k = some v := by
  match n, hn with
  | 0, _ =>
      have hself : (⟨c.pos + 0, [], c.groups⟩ : Cursor UInt8) = c := by
        rw [List.replicate_zero] at hc
        rw [← hc]
        rfl
      rw [hself] at hk
      rw [Pattern.run, Pattern.run, Pattern.run_sym_of_head?_ne c (by simp [hc]), hk]
      rfl
  | 1, _ =>
      apply Pattern.run_opt_of_taken
      rw [Pattern.run, Pattern.run_sym_cons c hc, Pattern.run,
        Pattern.run_sym_of_head?_ne _ (by simp), Option.none_or]
      exact hk
  | 2, _ =>
      apply Pattern.run_opt_of_taken
      rw [Pattern.run, Pattern.run_sym_cons c (t := [61]) hc]
      apply Pattern.run_opt_of_taken
      rw [Pattern.run_sym_cons _ (t := []) rfl, ← hk]
      rfl

/-- **The credential of the egress.** -/
theorem authenticate_basic {p : Platform} (hp : p.Base64Text) {u pw : Bytes} {req : Request}
    (hreq : req.find .proxyAuthorization = some (lit "Basic " ++ genAuth p u pw))
    (credentials : List Bytes) :
    authenticate req credentials = .ok (credentials.contains (genAuth p u pw)) := by
  obtain ⟨body, n, hauth, hne, hchars, hn⟩ := hp (u ++ 58 :: pw) (by simp)
  have hmatch : basicAuthPattern.regexMatch (lit "Basic " ++ genAuth p u pw)
      = some [(1, ⟨6, genAuth p u pw⟩)] := by
    rw [genAuth, hauth, Pattern.regexMatch, basicAuthPattern, Pattern.run,
      Pattern.run_startOfInput, Pattern.run]
    rw [show lit "basic " = toLowerStr (lit "Basic ") by decide, run_wordIcase _ _ rfl, Pattern.run,
      Pattern.run]
    refine Pattern.run_many1_of_longest ?_ _ rfl hne
      (fun x hx => isBasicChar_toLower (hchars x hx)) ?_
    · intro x hx
      rw [List.eq_of_mem_replicate (List.mem_of_mem_head? hx)]
      rfl
    · apply run_padding hn rfl
      have hsix : (lit "Basic ").length = 6 := rfl
      simp only [Cursor.close, Cursor.advance, Cursor.start, hsix, List.isEmpty_nil, if_true,
        Option.some.injEq, List.cons.injEq, Prod.mk.injEq, SubMatch.mk.injEq, and_true, true_and]
      apply List.take_of_length_le
      rw [List.length_append, List.length_replicate]
      omega
  rw [authenticate, hreq]
  simp only [hmatch]
  rfl

/-! ## Destinations -/

/-- The hosts in question: an IPv4 literal, an IPv6 literal without a scope, or a name of
letters, digits, `-`, `_` and `.`. -/
inductive InScope (p : Platform) (host : Bytes) : Prop where
  | ipv4 (haddress : (p.makeAddressV4 host).isSome)
      (hliteral : ∀ c ∈ host, isDigit c = true ∨ c = 46)
  | ipv6 (haddress : (p.makeAddressV6 host).isSome) (hscope : 37 ∉ host)
  | name (hname : ∀ c ∈ host,
      65 ≤ c ∧ c ≤ 90 ∨ 97 ≤ c ∧ c ≤ 122 ∨ isDigit c = true ∨ c = 45 ∨ c = 95 ∨ c = 46)

/-- Credentials that match, or none on both sides. -/
def Matching : Option UpIngressCredential → Option UpEgressCredential → Prop
  | none, none => True
  | some cred, some up => cred.credential.lookup up.credential.1 = some up.credential.2
  | _, _ => False

section Connect

variable {p : Platform} {host : Bytes} {port : UInt16} {e : Endpoint}

/-- A host in question that is no IPv6 address has none of the characters that end it. -/
theorem InScope.isHostChar (h : InScope p host) (hv6 : ¬ ∃ a, p.makeAddressV6 host = some a) :
    ∀ c ∈ host, Pichi.isHostChar c = true := by
  intro c hc
  by_contra hchar
  have hcases : c = 58 ∨ c = 47 ∨ c = 91 ∨ c = 93 := by
    by_contra hnone
    push Not at hnone
    exact hchar (by simp [Pichi.isHostChar, hnone])
  cases h with
  | ipv4 _ hliteral =>
      have hdigit := hliteral c hc
      rcases hcases with rfl | rfl | rfl | rfl <;> revert hdigit <;> decide
  | ipv6 haddress _ => exact hv6 (Option.isSome_iff_exists.mp haddress)
  | name hname =>
      have hletter := hname c hc
      rcases hcases with rfl | rfl | rfl | rfl <;> revert hletter <;> decide

theorem InScope.no_percent (h : InScope p host) : 37 ∉ host := by
  intro hc
  cases h with
  | ipv4 _ hliteral =>
      rcases hliteral 37 hc with h | h <;> revert h <;> decide
  | ipv6 _ hscope => exact hscope hc
  | name hname => exact absurd (hname 37 hc) (by decide)

theorem method_connectRequest (credential : Bytes) :
    (connectRequest credential e).method = .connect := by
  unfold connectRequest
  split <;> rfl

theorem target_connectRequest (credential : Bytes) :
    (connectRequest credential e).target = connectTarget e := by
  unfold connectRequest
  split <;> rfl

theorem find_connectRequest {credential : Bytes} (h : credential ≠ []) :
    (connectRequest credential e).find .proxyAuthorization = some credential := by
  simp only [connectRequest, h, if_false, Request.set, Request.find]
  rfl

/-- Matching credentials are accepted. -/
theorem authenticate_of_matching (hp : p.Base64Text) {cred : Option UpIngressCredential}
    {up : Option UpEgressCredential} (hcred : Matching cred up)
    (hsome : genCredentials p cred ≠ []) :
    authenticate (connectRequest (genCredential p up) e) (genCredentials p cred) = .ok true := by
  cases cred with
  | none => exact absurd rfl hsome
  | some cred =>
      cases up with
      | none => exact hcred.elim
      | some up =>
          have hmem : genAuth p up.credential.1 up.credential.2 ∈ genCredentials p (some cred) :=
            List.mem_map.mpr ⟨⟨_, _⟩, AList.mem_lookup_iff.mp hcred, rfl⟩
          have hfind : (connectRequest (genCredential p (some up)) e).find .proxyAuthorization
              = some (lit "Basic " ++ genAuth p up.credential.1 up.credential.2) :=
            find_connectRequest (by simp [genCredential, lit])
          rw [authenticate_basic hp hfind, List.contains_iff_mem.mpr hmem]

/-- What the ingress makes of the request, once the credentials were dealt with. -/
theorem continueReadRemote_connect (hp : p.Base64Text) {cred : Option UpIngressCredential}
    {up : Option UpEgressCredential} (hcred : Matching cred up) (upgrade : Bool)
    (cache : FlatBuffer UInt8) :
    (continueReadRemote p (genCredentials p cred)
        ⟨connectRequest (genCredential p up) e, upgrade, cache⟩).1
      = (do
        let hp ← HostAndPort.make (connectTarget e)
        makeEndpointText p hp.host hp.port) := by
  have hremote : (remoteOf p ⟨connectRequest (genCredential p up) e, upgrade, cache⟩).1
      = (do
        let hp ← HostAndPort.make (connectTarget e)
        makeEndpointText p hp.host hp.port) := by
    rw [remoteOf, if_pos (method_connectRequest _), target_connectRequest]
  rw [continueReadRemote]
  split
  · exact hremote
  · rename_i hsome
    rw [authenticate_of_matching hp hcred hsome]
    exact hremote

/-- A destination that is no IPv6 address comes out as it went in. -/
theorem remote_of_name (he : makeEndpoint p host port = .ok e) (hhost : InScope p host)
    (htype : e.type ≠ .ipv6) :
    (do
      let hp ← HostAndPort.make (connectTarget e)
      makeEndpointText p hp.host hp.port) = .ok e := by
  obtain ⟨hne, rfl, rfl, -⟩ := makeEndpoint_eq_ok_iff.mp he
  have hv6 : ¬ ∃ a, p.makeAddressV6 e.host = some a := by
    rw [← type_eq_ipv6_iff he]
    exact htype
  have hdigits : ∀ c ∈ decimal e.port.toNat, isDigit c = true := by
    intro c hc
    have hdigit := digit_of_mem_decimal hc
    simp only [isDigit, Bool.and_eq_true, decide_eq_true_eq, UInt8.le_iff_toNat_le]
    exact hdigit
  rw [connectTarget, if_neg htype,
    HostAndPort.make_name hne (hhost.isHostChar hv6) (decimal_ne_nil _) hdigits]
  exact (makeEndpointText_decimal p e.host e.port).trans he

/-- An IPv6 destination does not come out: its port is taken for a part of the host. -/
theorem remote_of_ipv6 (hp : p.GroupText) (he : makeEndpoint p host port = .ok e)
    (hscope : 37 ∉ host) (htype : e.type = .ipv6) {e' : Endpoint}
    (hremote : (do
      let hp ← HostAndPort.make (connectTarget e)
      makeEndpointText p hp.host hp.port) = .ok e') : ¬ SameEndpoint p e e' := by
  rintro ⟨-, hport, haddress⟩
  obtain ⟨a, ha⟩ := (type_eq_ipv6_iff he).mp htype
  obtain ⟨-, rfl, rfl, -⟩ := makeEndpoint_eq_ok_iff.mp he
  rw [connectTarget, if_pos htype] at hremote
  obtain ⟨hp', hmake, hremote⟩ := bind_eq_ok_iff.mp hremote
  rw [HostAndPort.of_make_brackets hmake] at hremote
  have hmake' : makeEndpoint p (e.host ++ 58 :: decimal e.port.toNat) 80 = .ok e' := by
    rw [← hremote]
    exact (makeEndpointText_decimal p _ 80).symm
  obtain ⟨-, hhost', hport', -⟩ := makeEndpoint_eq_ok_iff.mp hmake'
  rw [htype] at haddress
  have hport80 : e.port = 80 := hport.symm.trans hport'
  rw [hport80] at hhost'
  -- the default port is the right one for port 80, but then the host has a group too many
  apply hp e.host a hscope ha
  rw [← ha, ← haddress, hhost']
  rfl

/-- The ingress understands the request of the egress: it returns the same destination. -/
def Agrees (p : Platform) (cred : Option UpIngressCredential) (up : Option UpEgressCredential)
    (e : Endpoint) : Prop :=
  ∀ (upgrade : Bool) (cache : FlatBuffer UInt8), ∃ e',
    (continueReadRemote p (genCredentials p cred)
      ⟨connectRequest (genCredential p up) e, upgrade, cache⟩).1 = .ok e' ∧ SameEndpoint p e e'

/-- **HTTP egress and ingress agree exactly on what is not IPv6.**  For every endpoint made
from one of the hosts in question, any port, and credentials that match or are absent: the
ingress returns the endpoint the egress was asked for if and only if its type is not IPv6. -/
theorem connect_agrees_iff (hgroup : p.GroupText) (hbase64 : p.Base64Text)
    (he : makeEndpoint p host port = .ok e) (hhost : InScope p host)
    {cred : Option UpIngressCredential} {up : Option UpEgressCredential}
    (hcred : Matching cred up) : Agrees p cred up e ↔ e.type ≠ .ipv6 := by
  constructor
  · intro hagrees htype
    obtain ⟨e', hremote, hsame⟩ := hagrees false {}
    rw [continueReadRemote_connect hbase64 hcred] at hremote
    exact remote_of_ipv6 hgroup he hhost.no_percent htype hremote hsame
  · intro htype upgrade cache
    refine ⟨e, ?_, rfl, rfl, ?_⟩
    · rw [continueReadRemote_connect hbase64 hcred]
      exact remote_of_name he hhost htype
    · cases e.type <;> rfl

end Connect

/-- A name, with credentials. -/
theorem connect_agrees_example :
    Agrees Reference.platform (some ⟨[⟨lit "user", lit "pw"⟩].toAList⟩)
      (some ⟨(lit "user", lit "pw")⟩) ⟨.domainName, lit "example.com", 443⟩ := by
  have he : makeEndpoint Reference.platform (lit "example.com") 443
      = .ok ⟨.domainName, lit "example.com", 443⟩ := by decide
  have hcred : Matching (some ⟨[⟨lit "user", lit "pw"⟩].toAList⟩)
      (some ⟨(lit "user", lit "pw")⟩) := by
    show AList.lookup (lit "user") ([⟨lit "user", lit "pw"⟩].toAList : ValueMap Bytes)
      = some (lit "pw")
    decide
  exact (connect_agrees_iff Reference.platform_groupText Reference.platform_base64Text he
    (.name (by decide +kernel)) hcred).mpr (by decide)

/-- An IPv6 literal: the ingress returns a name with the port in it. -/
theorem connect_agrees_counterexample :
    makeEndpoint Reference.platform (lit "0000:0000:0000:0000:0000:0000:0000:0001") 443
        = .ok ⟨.ipv6, lit "0000:0000:0000:0000:0000:0000:0000:0001", 443⟩
      ∧ ¬ Agrees Reference.platform none none
        ⟨.ipv6, lit "0000:0000:0000:0000:0000:0000:0000:0001", 443⟩ := by
  refine ⟨by decide +kernel, fun hagrees => ?_⟩
  obtain ⟨e', hremote, hsame⟩ := hagrees false {}
  have hname : (continueReadRemote Reference.platform (genCredentials Reference.platform none)
      ⟨connectRequest (genCredential Reference.platform none)
        ⟨.ipv6, lit "0000:0000:0000:0000:0000:0000:0000:0001", 443⟩, false, {}⟩).1
      = .ok ⟨.domainName, lit "0000:0000:0000:0000:0000:0000:0000:0001:443", 80⟩ := by
    decide +kernel
  rw [hname] at hremote
  cases hremote
  exact absurd hsame.1 (by decide)

end Http

end Pichi
