/-
# Who a dual ingress lets in

A dual ingress hands its configuration to an HTTP or to a SOCKS5 ingress, whichever the first
byte of the connection asks for.  The SOCKS5 ingress looks the user name up in the map of the
configuration and compares the password; the HTTP ingress joins every pair of the map by a
colon, encodes it, and asks whether the text the client sent is among the results.  Joining is
not injective: `a:b` with `c` and `a` with `b:c` give the same text.

**Main result** (`dual_agrees_iff`): for every map and every pair the configuration accepts,
both ingresses let the pair in exactly when the map has it, if and only if the map has the pair
or none of its entries is the pair with the colon somewhere else.
-/
import Pichi.Adapters
import Pichi.HttpConnect
import Pichi.Socks5Handshake

namespace Pichi

open Duplex

/-! ## Joined pairs -/

/-- The same text, cut at another colon. -/
def Shifted (a b : Bytes × Bytes) : Prop :=
  ∃ s, a.1 = b.1 ++ 58 :: s ∧ b.2 = s ++ 58 :: a.2 ∨ b.1 = a.1 ++ 58 :: s ∧ a.2 = s ++ 58 :: b.2

/-- Two pairs are joined to the same text exactly when they are equal or one is the other with
the colon somewhere else. -/
theorem join_eq_join_iff {a b : Bytes × Bytes} :
    a.1 ++ 58 :: a.2 = b.1 ++ 58 :: b.2 ↔ a = b ∨ Shifted a b := by
  obtain ⟨u, pw⟩ := a
  obtain ⟨u', pw'⟩ := b
  constructor
  · intro h
    simp only at h
    rcases List.append_eq_append_iff.mp h with ⟨t, rfl, ht⟩ | ⟨t, rfl, ht⟩
    · cases t with
      | nil =>
          cases ht
          exact Or.inl (by simp)
      | cons x s =>
          obtain ⟨rfl, rfl⟩ := List.cons.inj ht
          exact Or.inr ⟨s, Or.inr ⟨rfl, rfl⟩⟩
    · cases t with
      | nil =>
          cases ht
          exact Or.inl (by simp)
      | cons x s =>
          obtain ⟨rfl, rfl⟩ := List.cons.inj ht
          exact Or.inr ⟨s, Or.inl ⟨rfl, rfl⟩⟩
  · rintro (h | ⟨s, ⟨hu, hpw⟩ | ⟨hu, hpw⟩⟩)
    · cases h
      rfl
    · simp only at hu hpw
      rw [hu, hpw, List.append_assoc, List.cons_append]
    · simp only at hu hpw
      rw [hu, hpw, List.append_assoc, List.cons_append]

/-! ## The two ingresses -/

/-- Both delegates of a dual ingress get the credentials of its configuration. -/
theorem dualDelegate_of_credential {Context Socket : Type} (p : Platform) {vo : Ingress}
    {cred : UpIngressCredential} (h : vo.credential = some (.up cred)) (first : UInt8)
    (underlying : Layer Context Socket) :
    dualDelegate p vo first underlying = .ok (if first = 0x05
      then .socks5 cred.credential underlying
      else .http (Http.genCredentials p (some cred)) underlying) := by
  have hup : upCredential vo = .ok (some cred) := by
    rw [upCredential, h]
    rfl
  unfold dualDelegate
  split
  · rw [socks5Ingress, hup]
    rfl
  · rw [httpIngress, hup]
    rfl

/-- `HttpIngress` lets in who sends the value that `HttpEgress` generates. -/
def HttpAccepts (p : Platform) (cred : UpIngressCredential) (up : UpEgressCredential)
    (remote : Endpoint) : Prop :=
  Http.authenticate (Http.connectRequest (Http.genCredential p (some up)) remote)
    (Http.genCredentials p (some cred)) = .ok true

/-- `Socks5Ingress` lets in who sends the message that `Socks5Egress` generates. -/
def Socks5Accepts (cred : UpIngressCredential) (up : UpEgressCredential) : Prop :=
  ∃ data, Socks5.genData { type := .socks5, credential := some (.up up) } = .ok data
    ∧ (Socks5.authenticate cred.credential).outcome data = some (.ok ())

/-- The HTTP ingress lets in whoever has the joined text of an entry. -/
theorem httpAccepts_iff {p : Platform} (hp : p.Base64Text)
    (hinj : Function.Injective p.base64Encode) {cred : UpIngressCredential}
    {up : UpEgressCredential} {remote : Endpoint} :
    HttpAccepts p cred up remote ↔ ∃ u pw, cred.credential.lookup u = some pw
      ∧ ((u, pw) = up.credential ∨ Shifted (u, pw) up.credential) := by
  have hfind : (Http.connectRequest (Http.genCredential p (some up)) remote).find
      .proxyAuthorization
        = some (lit "Basic " ++ Http.genAuth p up.credential.1 up.credential.2) :=
    Http.find_connectRequest (by simp [Http.genCredential, lit])
  rw [HttpAccepts, Http.authenticate_basic hp hfind, Except.ok.injEq, List.contains_iff_mem,
    Http.genCredentials, List.mem_map]
  constructor
  · rintro ⟨⟨u, pw⟩, hmem, hauth⟩
    exact ⟨u, pw, AList.mem_lookup_iff.mpr hmem, join_eq_join_iff.mp (hinj hauth)⟩
  · rintro ⟨u, pw, hlookup, hjoin⟩
    exact ⟨⟨u, pw⟩, AList.mem_lookup_iff.mp hlookup,
      congrArg p.base64Encode (join_eq_join_iff (a := (u, pw)) |>.mpr hjoin)⟩

/-- A reader that finds what it reads, before the rest of a program. -/
theorem outcome_ofReader_bind {α β : Type} (f : α → Proc UInt8 Fault β) {a : α} {rest : Bytes} :
    ∀ (r : Transfer.Reader UInt8 Fault α) (u : Bytes), r.run fromBytes u = (.ok a, rest) →
      (Proc.ofReader r >>= f).outcome u = (f a).outcome rest := by
  intro r
  induction r with
  | ret b =>
      intro u h
      cases h
      rfl
  | fail e =>
      intro u h
      cases h
  | read n k ih =>
      intro u h
      obtain ⟨w, s, rfl, rfl, hrun⟩ := exists_of_run_read_fromBytes h
      rw [Proc.ofReader, Proc.read_bind, Proc.outcome_read_append]
      exact ih w s hrun

/-- The SOCKS5 ingress lets in the entries of the map. -/
theorem socks5Accepts_iff {cred : UpIngressCredential} {up : UpEgressCredential}
    (hu : 1 ≤ up.credential.1.length ∧ up.credential.1.length ≤ 255)
    (hpw : 1 ≤ up.credential.2.length ∧ up.credential.2.length ≤ 255) :
    Socks5Accepts cred up ↔ cred.credential.lookup up.credential.1 = some up.credential.2 := by
  obtain ⟨⟨u, pw⟩⟩ := up
  have hcarries : ∃ data, Socks5.genData
      { type := .socks5, credential := some (.up ⟨(u, pw)⟩) } = .ok data
        ∧ Socks5.Carries data (some (u, pw)) := by
    apply Socks5.exists_carries
    · rfl
    · rintro _ _ ⟨⟩
      exact ⟨hu, hpw⟩
  obtain ⟨data, hdata, -, hread⟩ := hcarries
  have houtcome : (Socks5.authenticate cred.credential).outcome data
      = some (if cred.credential.lookup u = some pw then .ok ()
          else .error (.thrown (.systemError ⟨.pichi .unauthenticated, ""⟩))) := by
    rw [Socks5.authenticate, outcome_ofReader_bind _ _ data hread]
    by_cases hlookup : cred.credential.lookup u = some pw
    · simp only [hlookup, decide_true, if_true, Socks5.check_assertTrue_of_true]
      rfl
    · simp only [hlookup, decide_false, if_false, Socks5.check_assertTrue_of_false]
      rfl
  constructor
  · rintro ⟨data', hdata', haccepts⟩
    rw [hdata] at hdata'
    cases hdata'
    rw [houtcome] at haccepts
    by_contra hlookup
    rw [if_neg hlookup] at haccepts
    cases haccepts
  · intro hlookup
    exact ⟨data, hdata, by rw [houtcome, if_pos hlookup]⟩

/-! ## Agreement -/

/-- Both ingresses let in the same users: those of the map. -/
def SameUsers (p : Platform) (cred : UpIngressCredential) (up : UpEgressCredential) : Prop :=
  ∀ remote, (HttpAccepts p cred up remote ↔ Socks5Accepts cred up)
    ∧ (HttpAccepts p cred up remote
        ↔ cred.credential.lookup up.credential.1 = some up.credential.2)
    ∧ (Socks5Accepts cred up ↔ cred.credential.lookup up.credential.1 = some up.credential.2)

/-- **Who a dual ingress lets in.**  For every map of credentials and every pair of 1 to 255
bytes that the configuration accepts: both ingresses let in the same users, those of the map,
if and only if the map has the pair or has no entry that is the pair with the colon somewhere
else. -/
theorem dual_agrees_iff {p : Platform} (hp : p.Base64Text)
    (hinj : Function.Injective p.base64Encode) {v w : Json} {cred : UpIngressCredential}
    {up : UpEgressCredential} (_hcred : UpIngressCredential.parse v = .ok cred)
    (_hup : UpEgressCredential.parse w = .ok up)
    (hu : 1 ≤ up.credential.1.length ∧ up.credential.1.length ≤ 255)
    (hpw : 1 ≤ up.credential.2.length ∧ up.credential.2.length ≤ 255) :
    SameUsers p cred up ↔ cred.credential.lookup up.credential.1 = some up.credential.2
      ∨ ∀ u pw, cred.credential.lookup u = some pw → ¬Shifted (u, pw) up.credential := by
  have hsocks5 : Socks5Accepts cred up
      ↔ cred.credential.lookup up.credential.1 = some up.credential.2 := socks5Accepts_iff hu hpw
  constructor
  · intro hsame
    by_contra hshifted
    push Not at hshifted
    obtain ⟨hlookup, u, pw, hentry, hshift⟩ := hshifted
    obtain ⟨-, hhttp, -⟩ := hsame ⟨.domainName, [], 0⟩
    exact hlookup (hhttp.mp ((httpAccepts_iff hp hinj).mpr ⟨u, pw, hentry, Or.inr hshift⟩))
  · intro hcond remote
    have hhttp : HttpAccepts p cred up remote
        ↔ cred.credential.lookup up.credential.1 = some up.credential.2 := by
      rw [httpAccepts_iff hp hinj]
      constructor
      · rintro ⟨u, pw, hentry, hpair | hshift⟩
        · rw [← hpair]
          exact hentry
        · rcases hcond with hlookup | hnone
          · exact hlookup
          · exact absurd hshift (hnone u pw hentry)
      · intro hlookup
        exact ⟨_, _, hlookup, Or.inl rfl⟩
    exact ⟨hhttp.trans hsocks5.symm, hhttp, hsocks5⟩

/-- A map with a single entry, as the configuration gives it. -/
def oneUserJson (u pw : String) : Json :=
  .arr [Socks5.credentialJson (lit u) (lit pw)]

/-- A user name without a colon. -/
theorem dual_agrees_example :
    SameUsers Reference.platform ⟨[⟨lit "user", lit "pw"⟩].toAList⟩ ⟨(lit "user", lit "pw")⟩ :=
  (dual_agrees_iff Reference.platform_base64Text Reference.base64Encode_injective
    (v := oneUserJson "user" "pw") (w := Socks5.credentialJson (lit "user") (lit "pw")) rfl rfl
    (by decide) (by decide)).mpr (Or.inl (by decide))

/-- The map has the user `a:b` with the password `c`; the user `a` with the password `b:c`
is let in by HTTP and turned away by SOCKS5. -/
theorem dual_agrees_counterexample :
    UpIngressCredential.parse (oneUserJson "a:b" "c") = .ok ⟨[⟨lit "a:b", lit "c"⟩].toAList⟩
      ∧ UpEgressCredential.parse (Socks5.credentialJson (lit "a") (lit "b:c"))
        = .ok ⟨(lit "a", lit "b:c")⟩
      ∧ HttpAccepts Reference.platform ⟨[⟨lit "a:b", lit "c"⟩].toAList⟩ ⟨(lit "a", lit "b:c")⟩
        ⟨.domainName, lit "example.com", 443⟩
      ∧ ¬Socks5Accepts ⟨[⟨lit "a:b", lit "c"⟩].toAList⟩ ⟨(lit "a", lit "b:c")⟩
      ∧ ¬SameUsers Reference.platform ⟨[⟨lit "a:b", lit "c"⟩].toAList⟩ ⟨(lit "a", lit "b:c")⟩ := by
  have hhttp : HttpAccepts Reference.platform ⟨[⟨lit "a:b", lit "c"⟩].toAList⟩
      ⟨(lit "a", lit "b:c")⟩ ⟨.domainName, lit "example.com", 443⟩ := by
    unfold HttpAccepts
    decide +kernel
  have hsocks5 : ¬Socks5Accepts ⟨[⟨lit "a:b", lit "c"⟩].toAList⟩ ⟨(lit "a", lit "b:c")⟩ := by
    rw [socks5Accepts_iff (by decide) (by decide)]
    decide
  exact ⟨rfl, rfl, hhttp, hsocks5, fun hsame => hsocks5 ((hsame _).1.mp hhttp)⟩

end Pichi
