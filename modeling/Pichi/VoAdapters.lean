/-
# Configuration values: ingresses and egresses

`vo/ingress.cpp` and `vo/egress.cpp`.  The credential and the option of an adapter are
optional variants, of which each adapter type uses one alternative.  Reading a
variant through `std::get` throws `std::bad_variant_access` for the wrong alternative,
so writing an adapter back is a `Result`; `Ingress.WellTyped` and `Egress.WellTyped` say
that the alternatives fit the type, which parsing establishes (`Ingress.wellTyped_of_parse`,
`Egress.wellTyped_of_parse`) and under which writing fails by `system_error` at most
(`Ingress.toJson_fault`, `Egress.toJson_fault`).
-/
import Pichi.VoOptions

namespace Pichi

/-! ## Variants -/

/-- `Ingress::Credential`. -/
inductive IngressCredential : Type where
  | up (c : UpIngressCredential)
  | trojan (c : TrojanIngressCredential)

/-- `Ingress::Options`. -/
inductive IngressOption : Type where
  | tunnel (o : TunnelOption)
  | ss (o : ShadowsocksOption)
  | trojan (o : TrojanOption)

/-- `Egress::Credential`. -/
inductive EgressCredential : Type where
  | up (c : UpEgressCredential)
  | trojan (c : TrojanEgressCredential)

/-- `Egress::Option`. -/
inductive EgressOption : Type where
  | reject (o : RejectOption)
  | ss (o : ShadowsocksOption)

/-- The failure of `std::get` on the wrong alternative. -/
def badVariant {α : Type} : Result α := .error (.thrown .badVariantAccess)

/-- `std::get<UpIngressCredential>`. -/
def IngressCredential.getUp : IngressCredential → Result UpIngressCredential
  | up c => .ok c
  | _ => badVariant

/-- `std::get<TrojanIngressCredential>`. -/
def IngressCredential.getTrojan : IngressCredential → Result TrojanIngressCredential
  | trojan c => .ok c
  | _ => badVariant

/-- `std::get<TunnelOption>`. -/
def IngressOption.getTunnel : IngressOption → Result TunnelOption
  | tunnel o => .ok o
  | _ => badVariant

/-- `std::get<ShadowsocksOption>`. -/
def IngressOption.getSs : IngressOption → Result ShadowsocksOption
  | ss o => .ok o
  | _ => badVariant

/-- `std::get<TrojanOption>`. -/
def IngressOption.getTrojan : IngressOption → Result TrojanOption
  | trojan o => .ok o
  | _ => badVariant

/-- `std::get<UpEgressCredential>`. -/
def EgressCredential.getUp : EgressCredential → Result UpEgressCredential
  | up c => .ok c
  | _ => badVariant

/-- `std::get<TrojanEgressCredential>`. -/
def EgressCredential.getTrojan : EgressCredential → Result TrojanEgressCredential
  | trojan c => .ok c
  | _ => badVariant

/-- `std::get<RejectOption>`. -/
def EgressOption.getReject : EgressOption → Result RejectOption
  | reject o => .ok o
  | _ => badVariant

/-- `std::get<ShadowsocksOption>`. -/
def EgressOption.getSs : EgressOption → Result ShadowsocksOption
  | ss o => .ok o
  | _ => badVariant

/-- `assertTrue(o.has_value())`, and then `*o`. -/
def assertValue {α : Type} : Option α → Checked α
  | some a => .ok a
  | none => Checked.fail .misc ""

/-- The member of an optional part, if there is one. -/
def optionalMember {α : Type} (key : String) (o : Option α) (toJson : α → Result Json) :
    Result (List (Bytes × Json)) :=
  match o with
  | some a => do return [field key (← toJson a)]
  | none => .ok []

/-! ## Ingresses -/

/-- `vo::Ingress`; `name` is the internal `name_`. -/
structure Ingress where
  type : AdapterType
  bind : List Endpoint := []
  credential : Option IngressCredential := none
  opt : Option IngressOption := none
  tls : Option TlsIngressOption := none
  websocket : Option WebsocketOption := none
  name : Bytes := []

namespace Ingress

/-- The part of `parse<Ingress>` that depends on the adapter type. -/
def parseParts (p : Platform) (v : Json) (ingress : Ingress) : Checked Ingress :=
  match ingress.type with
  | .tunnel => do
    let opt ← TunnelOption.parse p (← v.require "option" Msg.missingOptionField)
    return { ingress with opt := some (.tunnel opt) }
  | .http | .socks5 | .dual => do
    let tls ← v.optional "tls" TlsIngressOption.parse
    let credential ← v.optional "credentials" UpIngressCredential.parse
    return { ingress with tls := tls, credential := credential.map .up }
  | .ss => do
    let opt ← ShadowsocksOption.parse (← v.require "option" Msg.missingOptionField)
    return { ingress with opt := some (.ss opt) }
  | .trojan => do
    -- all members have to be there before the first of them is parsed
    let credential ← v.require "credentials" Msg.missingCredField
    let option ← v.require "option" Msg.missingOptionField
    let tls ← v.require "tls" Msg.missingTlsField
    let credential ← TrojanIngressCredential.parse credential
    let opt ← TrojanOption.parse p option
    let tls ← TlsIngressOption.parse tls
    let websocket ← v.optional "websocket" WebsocketOption.parse
    return { ingress with
      credential := some (.trojan credential), opt := some (.trojan opt), tls := some tls,
      websocket := websocket }
  | .transp => return ingress
  | .direct | .reject => Checked.fail .badJson Msg.atInvalid

/-- `parse<Ingress>`. -/
def parse (p : Platform) (v : Json) : Checked Ingress := do
  v.assertObject Msg.objTypeError
  let type ← parseAdapterType (← v.require "type" Msg.missingTypeField)
  Checked.assertFalse (type = .direct) .badJson Msg.atInvalid
  Checked.assertFalse (type = .reject) .badJson Msg.atInvalid
  let bind ← (← v.require "bind" Msg.missingBindField).items
  Checked.assertFalse bind.isEmpty .badJson Msg.arySizeError
  let bind ← bind.mapM (Endpoint.parse p)
  parseParts p v { type := type, bind := bind }

/-- The members of `toJson(Ingress)` that depend on the adapter type. -/
def partsToJson (ingress : Ingress) : Result (List (Bytes × Json)) :=
  match ingress.type with
  | .tunnel => do
    let opt ← (← (assertValue ingress.opt).lift).getTunnel
    return [field "option" (← opt.toJson.lift)]
  | .http | .socks5 | .dual => do
    let tls ← optionalMember "tls" ingress.tls fun t => .ok t.toJson
    let credential ← optionalMember "credentials" ingress.credential fun c => do
      (← c.getUp).toJson.lift
    return tls ++ credential
  | .ss => do
    let opt ← (← (assertValue ingress.opt).lift).getSs
    return [field "option" opt.toJson]
  | .trojan => do
    let opt ← (assertValue ingress.opt).lift
    let tls ← (assertValue ingress.tls).lift
    let credential ← (assertValue ingress.credential).lift
    let opt ← opt.getTrojan
    let credential ← (← credential.getTrojan).toJson.lift
    let websocket ← optionalMember "websocket" ingress.websocket fun w => .ok w.toJson
    return [field "option" opt.toJson, field "tls" tls.toJson, field "credentials" credential]
      ++ websocket
  | .transp => .ok []
  | .direct | .reject => Checked.lift (Checked.fail .misc "")

/-- `toJson(Ingress)`. -/
def toJson (ingress : Ingress) : Result Json := do
  (Checked.assertFalse (ingress.type = .direct) .misc "").lift
  (Checked.assertFalse (ingress.type = .reject) .misc "").lift
  (Checked.assertFalse ingress.bind.isEmpty .misc "").lift
  let parts ← partsToJson ingress
  return .obj (field "type" (nameToJson ingress.type.name) ::
    field "bind" (.arr (ingress.bind.map Endpoint.toJson)) :: parts)

end Ingress

/-! ## Egresses -/

/-- `vo::Egress`. -/
structure Egress where
  type : AdapterType
  server : Option Endpoint := none
  credential : Option EgressCredential := none
  opt : Option EgressOption := none
  tls : Option TlsEgressOption := none
  websocket : Option WebsocketOption := none

namespace Egress

/-- The part of `parse<Egress>` that depends on the adapter type. -/
def parseParts (p : Platform) (v : Json) (egress : Egress) : Checked Egress :=
  match egress.type with
  | .direct => return egress
  | .reject => do
    let opt ← RejectOption.parse (← v.require "option" Msg.missingOptionField)
    return { egress with opt := some (.reject opt) }
  | .http | .socks5 => do
    let server ← Endpoint.parse p (← v.require "server" Msg.missingServerField)
    let credential ← v.optional "credential" UpEgressCredential.parse
    let tls ← v.optional "tls" TlsEgressOption.parse
    return { egress with server := some server, credential := credential.map .up, tls := tls }
  | .ss => do
    let server ← v.require "server" Msg.missingServerField
    let option ← v.require "option" Msg.missingOptionField
    let server ← Endpoint.parse p server
    let opt ← ShadowsocksOption.parse option
    return { egress with server := some server, opt := some (.ss opt) }
  | .trojan => do
    let server ← v.require "server" Msg.missingServerField
    let credential ← v.require "credential" Msg.missingCredField
    let tls ← v.require "tls" Msg.missingTlsField
    let server ← Endpoint.parse p server
    let credential ← TrojanEgressCredential.parse credential
    let tls ← TlsEgressOption.parse tls
    let websocket ← v.optional "websocket" WebsocketOption.parse
    return { egress with
      server := some server, credential := some (.trojan credential), tls := some tls,
      websocket := websocket }
  | .tunnel | .transp | .dual => Checked.fail .badJson Msg.atInvalid

/-- `parse<Egress>`. -/
def parse (p : Platform) (v : Json) : Checked Egress := do
  v.assertObject Msg.objTypeError
  let type ← parseAdapterType (← v.require "type" Msg.missingTypeField)
  parseParts p v { type := type }

/-- The members of `toJson(Egress)` that depend on the adapter type. -/
def partsToJson (egress : Egress) : Result (List (Bytes × Json)) :=
  match egress.type with
  | .direct => .ok []
  | .reject => do
    let opt ← (← (assertValue egress.opt).lift).getReject
    return [field "option" (← opt.toJson.lift)]
  | .http | .socks5 => do
    let server ← (assertValue egress.server).lift
    let credential ← optionalMember "credential" egress.credential fun c => do
      return (← c.getUp).toJson
    let tls ← optionalMember "tls" egress.tls fun t => .ok t.toJson
    return field "server" server.toJson :: credential ++ tls
  | .ss => do
    let server ← (assertValue egress.server).lift
    let opt ← (← (assertValue egress.opt).lift).getSs
    return [field "server" server.toJson, field "option" opt.toJson]
  | .trojan => do
    let server ← (assertValue egress.server).lift
    let credential ← (assertValue egress.credential).lift
    let tls ← (assertValue egress.tls).lift
    let credential ← credential.getTrojan
    let websocket ← optionalMember "websocket" egress.websocket fun w => .ok w.toJson
    return [field "server" server.toJson, field "credential" credential.toJson,
      field "tls" tls.toJson] ++ websocket
  | .tunnel | .transp | .dual => Checked.lift (Checked.fail .misc "")

/-- `toJson(Egress)`. -/
def toJson (egress : Egress) : Result Json := do
  (Checked.assertFalse (egress.type = .tunnel) .misc "").lift
  (Checked.assertFalse (egress.type = .transp) .misc "").lift
  let parts ← partsToJson egress
  return .obj (field "type" (nameToJson egress.type.name) :: parts)

end Egress

/-! ## Faults that are system errors -/

/-- A computation that leaves by `system_error` only. -/
def OnlySystemError {α : Type} (x : Result α) : Prop :=
  ∀ f, x = .error f → ∃ e, f = .thrown (.systemError e)

namespace OnlySystemError

variable {α β : Type}

theorem ok (a : α) : OnlySystemError (.ok a : Result α) := by
  intro f h
  cases h

theorem lift (x : Checked α) : OnlySystemError x.lift := by
  intro f h
  cases x with
  | ok a => cases h
  | error e =>
      rw [Checked.lift_error] at h
      exact ⟨e, (Except.error.inj h).symm⟩

theorem bind {x : Result α} {k : α → Result β} (hx : OnlySystemError x)
    (hk : ∀ a, x = .ok a → OnlySystemError (k a)) : OnlySystemError (x >>= k) := by
  intro f h
  cases x with
  | ok a => exact hk a rfl f h
  | error g =>
      have hgf : g = f := Except.error.inj h
      exact hx f (by rw [hgf])

theorem optionalMember {key : String} {o : Option α} {toJson : α → Result Json}
    (h : ∀ a, o = some a → OnlySystemError (toJson a)) :
    OnlySystemError (optionalMember key o toJson) := by
  cases o with
  | none => exact ok _
  | some a => exact bind (h a rfl) fun j _ => ok _

end OnlySystemError

/-! ## Parsed adapters hold the alternatives of their type -/

/-- The variant alternatives an ingress holds are those its type uses. -/
def Ingress.WellTyped (ingress : Ingress) : Prop :=
  match ingress.type with
  | .tunnel => ∀ o, ingress.opt = some o → ∃ t, o = .tunnel t
  | .http | .socks5 | .dual => ∀ c, ingress.credential = some c → ∃ u, c = .up u
  | .ss => ∀ o, ingress.opt = some o → ∃ s, o = .ss s
  | .trojan =>
      (∀ o, ingress.opt = some o → ∃ t, o = .trojan t)
        ∧ ∀ c, ingress.credential = some c → ∃ t, c = .trojan t
  | .transp | .direct | .reject => True

/-- The variant alternatives an egress holds are those its type uses. -/
def Egress.WellTyped (egress : Egress) : Prop :=
  match egress.type with
  | .reject => ∀ o, egress.opt = some o → ∃ r, o = .reject r
  | .http | .socks5 => ∀ c, egress.credential = some c → ∃ u, c = .up u
  | .ss => ∀ o, egress.opt = some o → ∃ s, o = .ss s
  | .trojan => ∀ c, egress.credential = some c → ∃ t, c = .trojan t
  | .direct | .tunnel | .transp | .dual => True

theorem exists_up_of_map {α β : Type} {f : α → β} {o : Option α} {c : β}
    (h : o.map f = some c) : ∃ u, c = f u := by
  obtain ⟨u, -, rfl⟩ := Option.map_eq_some_iff.mp h
  exact ⟨u, rfl⟩

theorem Ingress.parseParts_wellTyped {p : Platform} {v : Json} {ingress parsed : Ingress}
    (h : parseParts p v ingress = .ok parsed) : parsed.WellTyped := by
  unfold parseParts at h
  cases htype : ingress.type <;> simp only [htype, bind_eq_ok_iff, pure, Except.pure,
    Except.ok.injEq] at h
  case tunnel =>
    obtain ⟨_, -, _, -, rfl⟩ := h
    simp [WellTyped]
  case ss =>
    obtain ⟨_, -, _, -, rfl⟩ := h
    simp [WellTyped]
  case trojan =>
    obtain ⟨_, -, _, -, _, -, _, -, _, -, _, -, _, -, rfl⟩ := h
    simp [WellTyped]
  case transp =>
    subst h
    simp [WellTyped, htype]
  case direct => cases h
  case reject => cases h
  all_goals
    -- the types that share a branch, with optional credentials
    obtain ⟨_, -, c, -, rfl⟩ := h
    simp only [WellTyped]
    exact fun _ hc => exists_up_of_map hc

theorem Ingress.wellTyped_of_parse {p : Platform} {v : Json} {ingress : Ingress}
    (h : Ingress.parse p v = .ok ingress) : ingress.WellTyped := by
  simp only [Ingress.parse, bind_eq_ok_iff] at h
  obtain ⟨_, -, _, -, _, -, _, -, _, -, _, -, _, -, _, -, _, -, h⟩ := h
  exact parseParts_wellTyped h

theorem Egress.parseParts_wellTyped {p : Platform} {v : Json} {egress parsed : Egress}
    (h : parseParts p v egress = .ok parsed) : parsed.WellTyped := by
  unfold parseParts at h
  cases htype : egress.type <;> simp only [htype, bind_eq_ok_iff, pure, Except.pure,
    Except.ok.injEq] at h
  case direct =>
    subst h
    simp [WellTyped, htype]
  case reject =>
    obtain ⟨_, -, _, -, rfl⟩ := h
    simp [WellTyped]
  case ss =>
    obtain ⟨_, -, _, -, _, -, _, -, rfl⟩ := h
    simp [WellTyped]
  case trojan =>
    obtain ⟨_, -, _, -, _, -, _, -, _, -, _, -, _, -, rfl⟩ := h
    simp [WellTyped]
  case tunnel => cases h
  case transp => cases h
  case dual => cases h
  all_goals
    -- the types that share a branch, with an optional credential
    obtain ⟨_, -, _, -, c, -, _, -, rfl⟩ := h
    simp only [WellTyped]
    exact fun _ hc => exists_up_of_map hc

theorem Egress.wellTyped_of_parse {p : Platform} {v : Json} {egress : Egress}
    (h : Egress.parse p v = .ok egress) : egress.WellTyped := by
  simp only [Egress.parse, bind_eq_ok_iff] at h
  obtain ⟨_, -, _, -, _, -, h⟩ := h
  exact parseParts_wellTyped h

/-! ## Writing well-typed adapters -/

theorem Checked.lift_eq_ok_iff {α : Type} {x : Checked α} {a : α} :
    x.lift = .ok a ↔ x = .ok a := by
  cases x <;> simp

theorem assertValue_eq_ok_iff {α : Type} {o : Option α} {a : α} :
    assertValue o = .ok a ↔ o = some a := by
  cases o <;> simp [assertValue, Checked.fail]

/-- Writing a well-typed ingress fails by `system_error` at most. -/
theorem Ingress.toJson_fault {ingress : Ingress} (h : ingress.WellTyped) :
    OnlySystemError ingress.toJson := by
  refine .bind (.lift _) fun _ _ => .bind (.lift _) fun _ _ => .bind (.lift _) fun _ _ =>
    .bind ?_ fun _ _ => .ok _
  unfold partsToJson
  unfold WellTyped at h
  cases htype : ingress.type <;> simp only [htype] at h ⊢
  case tunnel =>
    refine .bind (.lift _) fun o ho => ?_
    obtain ⟨t, rfl⟩ := h o (assertValue_eq_ok_iff.mp (Checked.lift_eq_ok_iff.mp ho))
    exact .bind (.ok t) fun _ _ => .bind (.lift _) fun _ _ => .ok _
  case ss =>
    refine .bind (.lift _) fun o ho => ?_
    obtain ⟨s, rfl⟩ := h o (assertValue_eq_ok_iff.mp (Checked.lift_eq_ok_iff.mp ho))
    exact .bind (.ok s) fun _ _ => .ok _
  case trojan =>
    refine .bind (.lift _) fun o ho => .bind (.lift _) fun t _ => .bind (.lift _) fun c hc => ?_
    obtain ⟨t', rfl⟩ := h.1 o (assertValue_eq_ok_iff.mp (Checked.lift_eq_ok_iff.mp ho))
    obtain ⟨c', rfl⟩ := h.2 c (assertValue_eq_ok_iff.mp (Checked.lift_eq_ok_iff.mp hc))
    exact .bind (.ok t') fun _ _ => .bind (.ok c') fun _ _ => .bind (.lift _) fun _ _ =>
      .bind (.optionalMember fun _ _ => .ok _) fun _ _ => .ok _
  case transp => exact .ok _
  case direct => exact .lift _
  case reject => exact .lift _
  all_goals
    refine .bind (.optionalMember fun _ _ => .ok _) fun _ _ =>
      .bind (.optionalMember fun c hc => ?_) fun _ _ => .ok _
    obtain ⟨u, rfl⟩ := h c hc
    exact .bind (.ok u) fun _ _ => .lift _

/-- Writing a well-typed egress fails by `system_error` at most. -/
theorem Egress.toJson_fault {egress : Egress} (h : egress.WellTyped) :
    OnlySystemError egress.toJson := by
  refine .bind (.lift _) fun _ _ => .bind (.lift _) fun _ _ => .bind ?_ fun _ _ => .ok _
  unfold partsToJson
  unfold WellTyped at h
  cases htype : egress.type <;> simp only [htype] at h ⊢
  case direct => exact .ok _
  case reject =>
    refine .bind (.lift _) fun o ho => ?_
    obtain ⟨r, rfl⟩ := h o (assertValue_eq_ok_iff.mp (Checked.lift_eq_ok_iff.mp ho))
    exact .bind (.ok r) fun _ _ => .bind (.lift _) fun _ _ => .ok _
  case ss =>
    refine .bind (.lift _) fun _ _ => .bind (.lift _) fun o ho => ?_
    obtain ⟨s, rfl⟩ := h o (assertValue_eq_ok_iff.mp (Checked.lift_eq_ok_iff.mp ho))
    exact .bind (.ok s) fun _ _ => .ok _
  case trojan =>
    refine .bind (.lift _) fun _ _ => .bind (.lift _) fun c hc => .bind (.lift _) fun _ _ => ?_
    obtain ⟨t, rfl⟩ := h c (assertValue_eq_ok_iff.mp (Checked.lift_eq_ok_iff.mp hc))
    exact .bind (.ok t) fun _ _ => .bind (.optionalMember fun _ _ => .ok _) fun _ _ => .ok _
  case tunnel => exact .lift _
  case transp => exact .lift _
  case dual => exact .lift _
  all_goals
    refine .bind (.lift _) fun _ _ => .bind (.optionalMember fun c hc => ?_) fun _ _ =>
      .bind (.optionalMember fun _ _ => .ok _) fun _ _ => .ok _
    obtain ⟨u, rfl⟩ := h c hc
    exact .bind (.ok u) fun _ _ => .ok _

end Pichi
