/-
# Configuration values survive being written and read again

What `GET` shows can be sent back by `PUT`: for each of `vo::Ingress`, `vo::Egress`,
`vo::Rule` and `vo::Route`, what `parse` has accepted, `toJson` writes and `parse` reads
back as the same value.

The encoder and the decoder of a type are separate switches, so the argument runs through
the parts: `Rereads parse write` says that a value `parse` has returned is returned again
from what `write` makes of it.  It holds of the scalars, is kept by arrays and by optional
members, and each option follows from its members.  The credentials of an ingress
are unordered containers; they come back with the same entries, in whatever order the
container is walked through.

**Main result** (`configuration_survives`): what was read is written without a failure, and
what was written is read as the same value.
-/
import Pichi.Reference
import Pichi.VoAdapters
import Pichi.VoRoute

namespace Pichi

/-! ## Members of a written object -/

section Lookup

variable {key other : String} {v : Json} {o : Option Json} {members : List (Bytes × Json)}

theorem member?_obj : (Json.obj members).member? key = members.lookup (lit key) := rfl

theorem lookup_field : (field key v :: members).lookup (lit key) = some v := by
  rw [field, List.lookup_cons_self]

theorem lookup_field_ne (h : lit key ≠ lit other) :
    (field other v :: members).lookup (lit key) = members.lookup (lit key) := by
  rw [field, List.lookup_cons, beq_false_of_ne h]

/-- A member that is written if there is something to write. -/
theorem lookup_option : (o.toList.map (field key)).lookup (lit key) = o := by
  cases o with
  | none => rfl
  | some v => exact lookup_field

theorem lookup_option_ne (h : lit key ≠ lit other) :
    (o.toList.map (field other)).lookup (lit key) = none := by
  cases o with
  | none => rfl
  | some v => exact lookup_field_ne h

end Lookup

/-- The writer of an optional string, as a member that may be there. -/
theorem optionalField_eq (key : String) (s : Option Bytes) :
    optionalField key s = (s.map stringToJson).toList.map (field key) := by
  cases s <;> rfl

/-- The writer of a list that is left out when it is empty. -/
theorem listField_eq {α : Type} (key : String) (items : List α) (toJson : α → Json) :
    Rule.listField key items toJson
      = (if items.isEmpty then none else some (Json.arr (items.map toJson))).toList.map
          (field key) := by
  unfold Rule.listField
  split <;> rfl

/-! ## Reading back -/

/-- What `parse` has returned, it returns again from what is written for it. -/
def Rereads {α : Type} (parse : Json → Checked α) (write : α → Json) : Prop :=
  ∀ v a, parse v = .ok a → parse (write a) = .ok a

namespace Rereads

variable {α : Type} {parse : Json → Checked α} {write : α → Json}

/-- The elements of an array are read back, in any order. -/
theorem mapM_perm (h : Rereads parse write) {l : List Json} {items items' : List α}
    (hl : l.mapM parse = .ok items) (hperm : items'.Perm items) :
    (items'.map write).mapM parse = .ok items' := by
  rw [mapM_eq_ok_iff, List.forall₂_map_left_iff, List.forall₂_same]
  intro a ha
  obtain ⟨v, -, hv⟩ := exists_of_mem_mapM hl (hperm.mem_iff.mp ha)
  exact h v a hv

theorem mapM (h : Rereads parse write) {l : List Json} {items : List α}
    (hl : l.mapM parse = .ok items) : (items.map write).mapM parse = .ok items :=
  h.mapM_perm hl (List.Perm.refl items)

/-- An optional member is read back, present or absent. -/
theorem optional (h : Rereads parse write) {v w : Json} {key : String} {o : Option α}
    (ho : v.optional key parse = .ok o) (hw : w.member? key = o.map write) :
    w.optional key parse = .ok o := by
  rw [Json.optional_eq_ok_iff] at ho ⊢
  obtain ⟨-, rfl⟩ | ⟨m, a, -, ha, rfl⟩ := ho
  · exact Or.inl ⟨hw, rfl⟩
  · exact Or.inr ⟨write a, a, hw, h m a ha, rfl⟩

end Rereads

/-! ## Scalars -/

/-- A string that was read has no NUL, so it is read back whole. -/
theorem rereads_string : Rereads parseString stringToJson := by
  intro v s h
  obtain ⟨raw, -, rfl, hne⟩ := parseString_eq_ok_iff.mp h
  refine parseString_eq_ok_iff.mpr ⟨cString raw, rfl, ?_, hne⟩
  rw [cString, cString, List.takeWhile_idem]

theorem parseUInt16_toNat (n : UInt16) : parseUInt16 (.int n.toNat) = .ok n := by
  have hn := n.toNat_lt
  simp only [parseUInt16, bind_eq_ok_iff, Checked.assertTrue_eq_ok_iff, Bool.and_eq_true,
    decide_eq_true_eq, pure, Except.pure, Int.toNat_natCast, UInt16.ofNat_toNat]
  exact ⟨(), ⟨by omega, by omega⟩, (), by omega, (), by omega, trivial⟩

theorem parseBool_bool (b : Bool) : parseBool (.bool b) = .ok b := rfl

theorem parseAdapterType_name (t : AdapterType) :
    parseAdapterType (nameToJson t.name) = .ok t := by
  cases t <;> rfl

theorem parseCryptoMethod_name (m : CryptoMethod) :
    parseCryptoMethod (nameToJson m.name) = .ok m := by
  cases m <;> rfl

theorem parseDelayMode_name (m : DelayMode) : parseDelayMode (nameToJson m.name) = .ok m := by
  cases m <;> rfl

theorem parseBalanceType_name (b : BalanceType) :
    parseBalanceType (nameToJson b.name) = .ok b := by
  cases b <;> rfl

/-! ## Endpoints and options -/

/-- A member that has to be there. -/
theorem require_obj {key msg : String} {members : List (Bytes × Json)} {m : Json}
    (h : members.lookup (lit key) = some m) : (Json.obj members).require key msg = .ok m :=
  Json.require_eq_ok_iff.mpr h

/-- The type of an endpoint is found from its host, so it comes back with it. -/
theorem rereads_endpoint (p : Platform) : Rereads (Endpoint.parse p) Endpoint.toJson := by
  intro v e h
  simp only [Endpoint.parse, bind_eq_ok_iff] at h
  obtain ⟨-, -, host, -, port, -, s, hs, n, -, h⟩ := h
  obtain ⟨hne, rfl, rfl, htype⟩ := makeEndpoint_eq_ok_iff.mp h
  simp only [Endpoint.parse, bind_eq_ok_iff]
  exact ⟨(), rfl, _, require_obj rfl, _, require_obj rfl, _, rereads_string host _ hs, _,
    parseUInt16_toNat _, makeEndpoint_eq_ok_iff.mpr ⟨hne, rfl, rfl, htype⟩⟩

theorem rereads_shadowsocksOption :
    Rereads ShadowsocksOption.parse ShadowsocksOption.toJson := by
  intro v opt h
  simp only [ShadowsocksOption.parse, bind_eq_ok_iff, pure, Except.pure, Except.ok.injEq] at h ⊢
  obtain ⟨-, -, password, -, method, -, pw, hpw, m, -, rfl⟩ := h
  exact ⟨(), rfl, _, require_obj rfl, _, require_obj rfl, _, rereads_string password pw hpw, _,
    parseCryptoMethod_name m, rfl⟩

theorem rereads_trojanOption (p : Platform) :
    Rereads (TrojanOption.parse p) TrojanOption.toJson := by
  intro v opt h
  simp only [TrojanOption.parse, bind_eq_ok_iff, pure, Except.pure, Except.ok.injEq] at h ⊢
  obtain ⟨-, -, remote, -, e, he, rfl⟩ := h
  exact ⟨(), rfl, _, require_obj rfl, _, rereads_endpoint p remote e he, rfl⟩

theorem rereads_tlsIngressOption : Rereads TlsIngressOption.parse TlsIngressOption.toJson := by
  intro v opt h
  simp only [TlsIngressOption.parse, bind_eq_ok_iff, pure, Except.pure, Except.ok.injEq] at h ⊢
  obtain ⟨-, -, certFile, -, keyFile, -, cert, hcert, key, hkey, rfl⟩ := h
  exact ⟨(), rfl, _, require_obj rfl, _, require_obj rfl, _, rereads_string certFile cert hcert,
    _, rereads_string keyFile key hkey, rfl⟩

theorem rereads_websocketOption : Rereads WebsocketOption.parse WebsocketOption.toJson := by
  intro v opt h
  simp only [WebsocketOption.parse, bind_eq_ok_iff, pure, Except.pure, Except.ok.injEq] at h ⊢
  obtain ⟨-, -, path, -, s, hs, host, hhost, rfl⟩ := h
  have hlookup : (WebsocketOption.toJson ⟨s, host⟩).member? "host" = host.map stringToJson := by
    rw [WebsocketOption.toJson, member?_obj, lookup_field_ne (by decide), optionalField_eq,
      lookup_option]
  exact ⟨(), rfl, _, require_obj rfl, _, rereads_string path s hs, _,
    rereads_string.optional hhost hlookup, rfl⟩

section TlsEgress

variable (opt : TlsEgressOption)

theorem tlsEgress_insecure : opt.toJson.member? "insecure" = some (.bool opt.insecure) := by
  rw [TlsEgressOption.toJson, List.cons_append, member?_obj, lookup_field]

theorem tlsEgress_sni : opt.toJson.member? "sni" = opt.sni.map stringToJson := by
  unfold TlsEgressOption.toJson
  split <;>
  simp (disch := decide) only [member?_obj, optionalField_eq, List.cons_append, lookup_field_ne,
    List.lookup_append, List.lookup_nil, lookup_option, lookup_option_ne, Option.or_none]

theorem tlsEgress_caFile (h : opt.insecure = false) :
    opt.toJson.member? "ca_file" = opt.caFile.map stringToJson := by
  simp (disch := decide) only [TlsEgressOption.toJson, h, Bool.false_eq_true, if_false,
    member?_obj, optionalField_eq, List.cons_append, lookup_field_ne, List.lookup_append,
    lookup_option, lookup_option_ne, Option.or_none, Option.none_or]

theorem tlsEgress_serverName (h : opt.insecure = false) :
    opt.toJson.member? "server_name" = opt.serverName.map stringToJson := by
  simp (disch := decide) only [TlsEgressOption.toJson, h, Bool.false_eq_true, if_false,
    member?_obj, optionalField_eq, List.cons_append, lookup_field_ne, List.lookup_append,
    lookup_option, lookup_option_ne, Option.none_or]

end TlsEgress

/-- Without verification there is no CA file and no server name to come back. -/
theorem rereads_tlsEgressOption : Rereads TlsEgressOption.parse TlsEgressOption.toJson := by
  intro v opt h
  simp only [TlsEgressOption.parse, bind_eq_ok_iff, pure, Except.pure] at h ⊢
  obtain ⟨-, -, insecure, -, sni, hsni, h⟩ := h
  have hinsecure : opt.toJson.optional "insecure" parseBool = .ok (some opt.insecure) :=
    Json.optional_eq_ok_iff.mpr
      (Or.inr ⟨_, _, tlsEgress_insecure opt, parseBool_bool _, rfl⟩)
  cases hflag : insecure.getD false with
  | true =>
      simp only [hflag, if_true, Except.ok.injEq] at h
      subst h
      exact ⟨(), rfl, _, hinsecure, sni, rereads_string.optional hsni (tlsEgress_sni _), rfl⟩
  | false =>
      simp only [hflag, Bool.false_eq_true, if_false, bind_eq_ok_iff, Except.ok.injEq] at h
      obtain ⟨caFile, hca, serverName, hserver, rfl⟩ := h
      refine ⟨(), rfl, _, hinsecure, sni, rereads_string.optional hsni (tlsEgress_sni _), ?_⟩
      simp only [Option.getD_some, Bool.false_eq_true, if_false, bind_eq_ok_iff]
      exact ⟨caFile, rereads_string.optional hca (tlsEgress_caFile _ rfl), serverName,
        rereads_string.optional hserver (tlsEgress_serverName _ rfl), rfl⟩

/-- A tunnel that was read has a destination, so it is written. -/
theorem reread_tunnelOption {p : Platform} {v : Json} {opt : TunnelOption}
    (h : TunnelOption.parse p v = .ok opt) :
    ∃ j, opt.toJson = .ok j ∧ TunnelOption.parse p j = .ok opt := by
  have hne : opt.destinations.isEmpty = false := by
    simpa using TunnelOption.destinations_ne_nil h
  refine ⟨_, bind_eq_ok_iff.mpr ⟨(), Checked.assertFalse_eq_ok_iff.mpr hne, rfl⟩, ?_⟩
  simp only [TunnelOption.parse, bind_eq_ok_iff, pure, Except.pure, Except.ok.injEq] at h ⊢
  obtain ⟨-, -, -, -, items, -, -, -, -, -, destinations, hmap, balance, -, rfl⟩ := h
  refine ⟨(), rfl, _, require_obj rfl, _, rfl, (), ?_, _, require_obj rfl, _,
    (rereads_endpoint p).mapM hmap, _, parseBalanceType_name balance, rfl⟩
  rw [Checked.assertFalse_eq_ok_iff, List.isEmpty_map]
  exact hne

/-- The delay is there in the mode that has one, and in its range. -/
theorem reread_rejectOption {v : Json} {opt : RejectOption} (h : RejectOption.parse v = .ok opt) :
    ∃ j, opt.toJson = .ok j ∧ RejectOption.parse j = .ok opt := by
  simp only [RejectOption.parse, bind_eq_ok_iff] at h
  obtain ⟨-, -, m, -, mode, -, h⟩ := h
  cases mode with
  | random =>
      cases h
      refine ⟨_, rfl, ?_⟩
      simp only [RejectOption.parse, bind_eq_ok_iff]
      exact ⟨(), rfl, _, require_obj rfl, _, parseDelayMode_name .random, rfl⟩
  | fixed =>
      simp only [bind_eq_ok_iff, Checked.assertTrue_eq_ok_iff, decide_eq_true_eq, pure,
        Except.pure, Except.ok.injEq] at h
      obtain ⟨delay, -, -, hle, rfl⟩ := h
      have hdelay : Checked.assertTrue (delay.getD 0 ≤ 300) .misc "" = .ok () :=
        Checked.assertTrue_eq_ok_iff.mpr (decide_eq_true hle)
      refine ⟨_, bind_eq_ok_iff.mpr ⟨(), hdelay, rfl⟩, ?_⟩
      simp only [RejectOption.parse, bind_eq_ok_iff]
      refine ⟨(), rfl, _, require_obj rfl, _, parseDelayMode_name .fixed, ?_⟩
      simp only [bind_eq_ok_iff, Checked.assertTrue_eq_ok_iff, decide_eq_true_eq]
      exact ⟨some (delay.getD 0), Json.optional_eq_ok_iff.mpr
        (Or.inr ⟨_, _, rfl, parseUInt16_toNat _, rfl⟩), (), hle, rfl⟩

/-! ## Credentials -/

theorem rereads_upEgressCredential :
    Rereads UpEgressCredential.parse UpEgressCredential.toJson := by
  intro v cred h
  simp only [UpEgressCredential.parse, bind_eq_ok_iff, pure, Except.pure, Except.ok.injEq] at h ⊢
  obtain ⟨-, -, username, -, password, -, un, hun, pw, hpw, rfl⟩ := h
  exact ⟨(), rfl, _, require_obj rfl, _, require_obj rfl, _, rereads_string username un hun, _,
    rereads_string password pw hpw, rfl⟩

theorem rereads_trojanEgressCredential :
    Rereads TrojanEgressCredential.parse TrojanEgressCredential.toJson := by
  intro v cred h
  simp only [TrojanEgressCredential.parse, bind_eq_ok_iff, pure, Except.pure,
    Except.ok.injEq] at h ⊢
  obtain ⟨-, -, password, -, pw, hpw, rfl⟩ := h
  exact ⟨(), rfl, _, require_obj rfl, _, rereads_string password pw hpw, rfl⟩

section Accumulate

variable {Value : Type}

/-- One entry of a container of credentials. -/
abbrev Entry (Value : Type) := Sigma fun _ : Bytes => Value

/-- A new key is put in front of the entries. -/
theorem insertNew_eq_ok_iff {sum out : ValueMap Value} {e : Entry Value} :
    insertNew sum e.1 e.2 = .ok out ↔ out.entries = e :: sum.entries := by
  rw [insertNew, bind_eq_ok_iff]
  have hnew : Checked.assertFalse (sum.lookup e.1).isSome .semanticError Msg.duplicatedItems
      = .ok () ↔ e.1 ∉ sum := by
    rw [Checked.assertFalse_eq_ok_iff, Option.isSome_eq_false_iff, Option.isNone_iff_eq_none,
      AList.lookup_eq_none]
  constructor
  · rintro ⟨_, he, h⟩
    cases h
    exact AList.entries_insert_of_notMem (hnew.mp he)
  · intro h
    have hnodup := out.nodupKeys
    rw [h] at hnodup
    have he : e.1 ∉ sum := List.notMem_keys_of_nodupKeys_cons hnodup
    refine ⟨(), hnew.mpr he, congrArg Except.ok (AList.ext ?_)⟩
    rw [AList.entries_insert_of_notMem he, h]

/-- **An accumulation of entries.**  It returns exactly when every item is read and no key
occurs twice; the last entry comes first. -/
theorem foldlM_insertNew_eq_ok_iff {read : Json → Checked (Entry Value)} {out : ValueMap Value} :
    ∀ {items : List Json} {sum : ValueMap Value},
      items.foldlM (fun sum item => read item >>= fun e => insertNew sum e.1 e.2) sum = .ok out ↔
        ∃ es, items.mapM read = .ok es ∧ out.entries = es.reverse ++ sum.entries := by
  intro items
  induction items with
  | nil =>
      intro sum
      simp only [List.foldlM_nil, List.mapM_nil, pure, Except.pure, Except.ok.injEq,
        exists_eq_left', List.reverse_nil, List.nil_append]
      exact ⟨fun h => by rw [h], fun h => AList.ext h.symm⟩
  | cons item items ih =>
      intro sum
      rw [List.foldlM_cons, List.mapM_cons, bind_eq_ok_iff]
      constructor
      · rintro ⟨sum', hsum', h⟩
        obtain ⟨e, he, hinsert⟩ := bind_eq_ok_iff.mp hsum'
        obtain ⟨es, hes, hout⟩ := ih.mp h
        refine ⟨e :: es, bind_eq_ok_iff.mpr ⟨e, he, bind_eq_ok_iff.mpr ⟨es, hes, rfl⟩⟩, ?_⟩
        rw [hout, insertNew_eq_ok_iff.mp hinsert, List.reverse_cons, List.append_assoc,
          List.singleton_append]
      · rintro ⟨es, hes, hout⟩
        obtain ⟨e, he, hes⟩ := bind_eq_ok_iff.mp hes
        obtain ⟨es', hes', h⟩ := bind_eq_ok_iff.mp hes
        cases h
        rw [List.reverse_cons, List.append_assoc, List.singleton_append] at hout
        have hnodup : (e :: sum.entries).NodupKeys := by
          have hall := out.nodupKeys
          rw [hout] at hall
          exact hall.sublist (List.sublist_append_right _ _)
        exact ⟨⟨e :: sum.entries, hnodup⟩, bind_eq_ok_iff.mpr ⟨e, he, insertNew_eq_ok_iff.mpr rfl⟩,
          ih.mpr ⟨es', hes', hout⟩⟩

/-- A container of credentials is read from a non-empty array, each item on its own. -/
theorem accumulateArray_eq_ok_iff {read : Json → Checked (Entry Value)} {v : Json}
    {out : ValueMap Value} :
    accumulateArray v ∅ (fun sum item => read item >>= fun e => insertNew sum e.1 e.2) = .ok out ↔
      ∃ items es, v = .arr items ∧ items ≠ [] ∧ items.mapM read = .ok es
        ∧ out.entries = es.reverse := by
  simp only [accumulateArray, bind_eq_ok_iff, Json.items_eq_ok_iff, Checked.assertFalse_eq_ok_iff,
    foldlM_insertNew_eq_ok_iff, AList.empty_entries, List.append_nil, List.isEmpty_eq_false_iff]
  constructor
  · rintro ⟨items, hv, -, hne, es, hes, hout⟩
    exact ⟨items, es, hv, hne, hes, hout⟩
  · rintro ⟨items, es, hv, hne, hes, hout⟩
    exact ⟨items, hv, (), hne, es, hes, hout⟩

/-- Two containers with the same entries, in any order. -/
def SameEntries (a b : ValueMap Value) : Prop := a.entries.Perm b.entries

/-- The entries of a container are what was read from the items, in some order. -/
theorem exists_read_of_accumulateArray {read : Json → Checked (Entry Value)} {v : Json}
    {cred cred' : ValueMap Value}
    (h : accumulateArray v ∅ (fun sum item => read item >>= fun e => insertNew sum e.1 e.2)
      = .ok cred)
    (hsame : SameEntries cred' cred) :
    ∃ items es, v = .arr items ∧ items.mapM read = .ok es ∧ cred'.entries.Perm es
      ∧ cred'.entries.isEmpty = false := by
  obtain ⟨items, es, rfl, hne, hes, hentries⟩ := accumulateArray_eq_ok_iff.mp h
  have hperm : cred'.entries.Perm es := by
    rw [SameEntries, hentries] at hsame
    exact hsame.trans (List.reverse_perm es)
  refine ⟨items, es, rfl, hes, hperm, ?_⟩
  have hlen := (mapM_eq_ok_iff.mp hes).length_eq
  rw [← List.length_pos_iff] at hne
  rw [List.isEmpty_eq_false_iff, ← List.length_pos_iff, hperm.length_eq]
  omega

/-- **Containers survive, in any order.**  Whatever the order in which the entries of a
container are written, they are read back as the same container. -/
theorem reread_accumulateArray {read : Json → Checked (Entry Value)}
    {write : Entry Value → Json} (hread : Rereads read write) {v : Json}
    {cred cred' : ValueMap Value}
    (h : accumulateArray v ∅ (fun sum item => read item >>= fun e => insertNew sum e.1 e.2)
      = .ok cred)
    (hsame : SameEntries cred' cred) :
    cred'.entries.isEmpty = false ∧ ∃ out,
      accumulateArray (.arr (cred'.entries.map write)) ∅
          (fun sum item => read item >>= fun e => insertNew sum e.1 e.2) = .ok out
        ∧ SameEntries out cred := by
  obtain ⟨items, es, -, hes, hperm, hne⟩ := exists_read_of_accumulateArray h hsame
  refine ⟨hne, ⟨cred'.entries.reverse, ?_⟩, ?_, ?_⟩
  · exact (List.perm_nodupKeys (List.reverse_perm _)).mpr cred'.nodupKeys
  · exact accumulateArray_eq_ok_iff.mpr ⟨_, cred'.entries, rfl, by simpa using hne,
      hread.mapM_perm hes hperm, rfl⟩
  · exact (List.reverse_perm _).trans hsame

end Accumulate

/-- One item of the credentials of an HTTP or SOCKS5 ingress. -/
def readUp (item : Json) : Checked (Entry Bytes) := do
  item.assertObject Msg.objTypeError
  let username ← item.require "username" Msg.missingUnField
  let password ← item.require "password" Msg.missingPwField
  return ⟨← parseString username, ← parseString password⟩

/-- One item of the credentials of a Trojan ingress. -/
def readTrojan (item : Json) : Checked (Entry Unit) := do
  item.assertObject Msg.objTypeError
  let password ← item.require "password" Msg.missingPwField
  return ⟨← parseString password, ()⟩

theorem UpIngressCredential.parse_eq (v : Json) :
    UpIngressCredential.parse v = do
      return ⟨← accumulateArray v ∅ fun sum item => do
        let e ← readUp item
        insertNew sum e.1 e.2⟩ := by
  simp only [UpIngressCredential.parse, readUp, bind_assoc, pure_bind]

theorem TrojanIngressCredential.parse_eq (v : Json) :
    TrojanIngressCredential.parse v = do
      return ⟨← accumulateArray v ∅ fun sum item => do
        let e ← readTrojan item
        insertNew sum e.1 e.2⟩ := by
  simp only [TrojanIngressCredential.parse, readTrojan, bind_assoc, pure_bind]

theorem rereads_readUp : Rereads readUp fun e => upToJson (e.1, e.2) := by
  intro item e h
  simp only [readUp, bind_eq_ok_iff, pure, Except.pure, Except.ok.injEq] at h ⊢
  obtain ⟨-, -, username, -, password, -, un, hun, pw, hpw, rfl⟩ := h
  exact ⟨(), rfl, _, require_obj rfl, _, require_obj rfl, _, rereads_string username un hun, _,
    rereads_string password pw hpw, rfl⟩

theorem rereads_readTrojan : Rereads readTrojan fun e => trojanToJson e.1 := by
  intro item e h
  simp only [readTrojan, bind_eq_ok_iff, pure, Except.pure, Except.ok.injEq] at h ⊢
  obtain ⟨-, -, password, -, pw, hpw, rfl⟩ := h
  exact ⟨(), rfl, _, require_obj rfl, _, rereads_string password pw hpw, rfl⟩

theorem reread_upIngressCredential {v : Json} {cred cred' : UpIngressCredential}
    (h : UpIngressCredential.parse v = .ok cred)
    (hsame : SameEntries cred'.credential cred.credential) :
    ∃ j out, cred'.toJson = .ok j ∧ UpIngressCredential.parse j = .ok out
      ∧ SameEntries out.credential cred.credential := by
  rw [UpIngressCredential.parse_eq, bind_eq_ok_iff] at h
  obtain ⟨entries, h, hcred⟩ := h
  cases hcred
  obtain ⟨hne, out, hout, hsame'⟩ := reread_accumulateArray rereads_readUp h hsame
  refine ⟨_, ⟨out⟩, bind_eq_ok_iff.mpr ⟨(), Checked.assertFalse_eq_ok_iff.mpr hne, rfl⟩, ?_,
    hsame'⟩
  rw [UpIngressCredential.parse_eq, bind_eq_ok_iff]
  exact ⟨out, hout, rfl⟩

theorem reread_trojanIngressCredential {v : Json} {cred cred' : TrojanIngressCredential}
    (h : TrojanIngressCredential.parse v = .ok cred)
    (hsame : SameEntries cred'.credential cred.credential) :
    ∃ j out, cred'.toJson = .ok j ∧ TrojanIngressCredential.parse j = .ok out
      ∧ SameEntries out.credential cred.credential := by
  rw [TrojanIngressCredential.parse_eq, bind_eq_ok_iff] at h
  obtain ⟨entries, h, hcred⟩ := h
  cases hcred
  obtain ⟨hne, out, hout, hsame'⟩ := reread_accumulateArray rereads_readTrojan h hsame
  refine ⟨_, ⟨out⟩, bind_eq_ok_iff.mpr ⟨(), Checked.assertFalse_eq_ok_iff.mpr hne, rfl⟩, ?_,
    hsame'⟩
  rw [TrojanIngressCredential.parse_eq, bind_eq_ok_iff]
  exact ⟨out, hout, rfl⟩

/-! ## Rules and the route -/

/-- The member an array is written to, which is left out when the array is empty. -/
def writtenArray (items : List Json) : Option Json :=
  if items.isEmpty then none else some (.arr items)

namespace Rereads

variable {α : Type} {parse : Json → Checked α} {write : α → Json} {v w : Json} {key : String}
  {items : List α}

theorem mapM_of_parseArray (h : Rereads parse write) (hv : parseArray v key parse = .ok items) :
    (items.map write).mapM parse = .ok items := by
  unfold parseArray at hv
  split at hv
  · cases hv
    rfl
  · obtain ⟨l, -, hl⟩ := bind_eq_ok_iff.mp hv
    exact h.mapM hl

/-- An array member is read back. -/
theorem parseArray (h : Rereads parse write) (hv : parseArray v key parse = .ok items)
    (hw : w.member? key = some (.arr (items.map write))) :
    Pichi.parseArray w key parse = .ok items := by
  unfold Pichi.parseArray
  rw [hw]
  exact h.mapM_of_parseArray hv

/-- An array member is read back, also when it was left out. -/
theorem parseArray_written (h : Rereads parse write)
    (hv : Pichi.parseArray v key parse = .ok items)
    (hw : w.member? key = writtenArray (items.map write)) :
    Pichi.parseArray w key parse = .ok items := by
  cases items with
  | nil =>
      unfold Pichi.parseArray
      rw [hw]
      rfl
  | cons a items => exact h.parseArray hv hw

end Rereads

namespace Rule

variable {v : Json} {rule : Rule}

/-- The lists of a rule under the names of their members, as they are written. -/
def table (rule : Rule) : List (String × List Json) :=
  [("range", rule.range.map stringToJson), ("range_nr", rule.rangeNr.map stringToJson),
    ("ingress_name", rule.ingress.map stringToJson),
    ("ingress_type", rule.type.map fun t => nameToJson t.name),
    ("pattern", rule.pattern.map stringToJson), ("domain", rule.domain.map stringToJson),
    ("country", rule.country.map stringToJson), ("country_nr", rule.countryNr.map stringToJson)]

theorem toJson_eq (rule : Rule) :
    rule.toJson
      = .obj (rule.table.flatMap fun m => (writtenArray m.2).toList.map (field m.1)) := by
  simp only [toJson, table, listField_eq, writtenArray, List.flatMap_cons, List.flatMap_nil,
    List.append_nil, List.append_assoc, List.isEmpty_map]

/-- In a list of members with different names, each is found under its name. -/
theorem lookup_flatMap {key : String} {items : List Json} {table : List (String × List Json)}
    (hnodup : ((table.map Prod.fst).map lit).Nodup) (hmem : (key, items) ∈ table) :
    (table.flatMap fun m => (writtenArray m.2).toList.map (field m.1)).lookup (lit key)
      = writtenArray items := by
  induction table with
  | nil => cases hmem
  | cons m table ih =>
      rw [List.map_cons, List.map_cons, List.nodup_cons] at hnodup
      rw [List.flatMap_cons, List.lookup_append]
      rcases List.mem_cons.mp hmem with rfl | hmem
      · rw [lookup_option]
        have hrest : (table.flatMap fun m => (writtenArray m.2).toList.map (field m.1)).lookup
            (lit key) = none := by
          rw [List.lookup_eq_none_iff]
          intro entry hentry
          obtain ⟨m, hm, hentry⟩ := List.mem_flatMap.mp hentry
          obtain ⟨j, -, rfl⟩ := List.mem_map.mp hentry
          refine bne_iff_ne.mpr fun heq => hnodup.1 ?_
          rw [heq]
          exact List.mem_map_of_mem (List.mem_map_of_mem hm)
        rw [hrest, Option.or_none]
      · have hne : lit key ≠ lit m.1 := by
          intro heq
          apply hnodup.1
          rw [← heq]
          exact List.mem_map_of_mem (List.mem_map_of_mem (f := Prod.fst) hmem)
        rw [lookup_option_ne hne, Option.none_or]
        exact ih hnodup.2 hmem

/-- The names of the members of a rule. -/
def keys : List String :=
  ["range", "range_nr", "ingress_name", "ingress_type", "pattern", "domain", "country",
    "country_nr"]

theorem map_fst_table (rule : Rule) : rule.table.map Prod.fst = keys := rfl

theorem member?_toJson {key : String} {items : List Json} (h : (key, items) ∈ rule.table) :
    rule.toJson.member? key = writtenArray items := by
  rw [toJson_eq, member?_obj]
  apply lookup_flatMap _ h
  rw [map_fst_table]
  decide

/-- A rule is read list by list. -/
theorem parse_eq_ok_iff :
    parse v = .ok rule ↔ v.isObject = true
      ∧ parseArray v "range" parseString = .ok rule.range
      ∧ parseArray v "range_nr" parseString = .ok rule.rangeNr
      ∧ parseArray v "ingress_name" parseString = .ok rule.ingress
      ∧ parseArray v "ingress_type" parseAdapterType = .ok rule.type
      ∧ parseArray v "pattern" parseString = .ok rule.pattern
      ∧ parseArray v "domain" parseString = .ok rule.domain
      ∧ parseArray v "country" parseString = .ok rule.country
      ∧ parseArray v "country_nr" parseString = .ok rule.countryNr := by
  simp only [parse, bind_eq_ok_iff, Json.assertObject_eq_ok_iff, pure, Except.pure,
    Except.ok.injEq]
  constructor
  · rintro ⟨-, hobj, _, h1, _, h2, _, h3, _, h4, _, h5, _, h6, _, h7, _, h8, rfl⟩
    exact ⟨hobj, h1, h2, h3, h4, h5, h6, h7, h8⟩
  · rintro ⟨hobj, h1, h2, h3, h4, h5, h6, h7, h8⟩
    exact ⟨(), hobj, _, h1, _, h2, _, h3, _, h4, _, h5, _, h6, _, h7, _, h8, rfl⟩

end Rule

theorem rereads_adapterType : Rereads parseAdapterType fun t => nameToJson t.name :=
  fun _ t _ => parseAdapterType_name t

theorem rereads_rule : Rereads Rule.parse Rule.toJson := by
  intro v rule h
  obtain ⟨-, hrange, hrangeNr, hingress, htype, hpattern, hdomain, hcountry, hcountryNr⟩ :=
    Rule.parse_eq_ok_iff.mp h
  have hstring : ∀ {key items}, parseArray v key parseString = .ok items →
      (key, items.map stringToJson) ∈ rule.table →
      parseArray rule.toJson key parseString = .ok items :=
    fun hv hmem => rereads_string.parseArray_written hv (Rule.member?_toJson hmem)
  refine Rule.parse_eq_ok_iff.mpr ⟨rfl, hstring hrange ?_, hstring hrangeNr ?_,
    hstring hingress ?_, rereads_adapterType.parseArray_written htype (Rule.member?_toJson ?_),
    hstring hpattern ?_, hstring hdomain ?_, hstring hcountry ?_, hstring hcountryNr ?_⟩
  all_goals simp [Rule.table]

namespace Route

/-- One element of `rules` as it is written. -/
def itemToJson (item : List Bytes × Bytes) : Json :=
  .arr (item.1.map stringToJson ++ [stringToJson item.2])

/-- An element of `rules` is its rule names and its egress, all of them strings. -/
theorem parseItem_eq_ok_iff {v : Json} {item : List Bytes × Bytes} :
    parseItem v = .ok item ↔ ∃ names egress, v = .arr (names ++ [egress]) ∧ names ≠ []
      ∧ names.mapM parseString = .ok item.1 ∧ parseString egress = .ok item.2 := by
  simp only [parseItem, bind_eq_ok_iff, Json.items_eq_ok_iff, Checked.assertTrue_eq_ok_iff,
    decide_eq_true_eq, pure, Except.pure, Except.ok.injEq]
  constructor
  · rintro ⟨array, rfl, -, hlen, names, hnames, egress, hegress, rfl⟩
    have hne : array ≠ [] := by
      rintro rfl
      simp at hlen
    refine ⟨array.dropLast, array.getLastD .null, ?_, ?_, hnames, hegress⟩
    · rw [List.getLastD_eq_getLast?, List.getLast?_eq_getLast_of_ne_nil hne, Option.getD_some,
        List.dropLast_concat_getLast]
    · intro hnil
      have := congrArg List.length hnil
      rw [List.length_dropLast, List.length_nil] at this
      omega
  · rintro ⟨names, egress, rfl, hne, hnames, hegress⟩
    have hpos := List.length_pos_iff.mpr hne
    refine ⟨_, rfl, (), ?_, item.1, ?_, item.2, ?_, rfl⟩
    · rw [List.length_append, List.length_singleton]
      omega
    · rw [List.dropLast_concat]
      exact hnames
    · rw [List.getLastD_concat]
      exact hegress

/-- A route is read member by member. -/
theorem parse_eq_ok_iff {v : Json} {route : Route} :
    parse v = .ok route ↔ v.isObject = true
      ∧ v.optional "default" parseString = .ok route.default
      ∧ parseArray v "rules" parseItem = .ok route.rules := by
  simp only [parse, bind_eq_ok_iff, Json.assertObject_eq_ok_iff, pure, Except.pure,
    Except.ok.injEq]
  constructor
  · rintro ⟨-, hobj, _, hdefault, _, hrules, rfl⟩
    exact ⟨hobj, hdefault, hrules⟩
  · rintro ⟨hobj, hdefault, hrules⟩
    exact ⟨(), hobj, _, hdefault, _, hrules, rfl⟩

/-- A route that was read with a default is written. -/
theorem toJson_of_parse {v : Json} {route : Route} {default : Bytes} (h : parse v = .ok route)
    (hdefault : route.default = some default) :
    route.toJson = .ok (.obj [field "default" (stringToJson default),
      field "rules" (.arr (route.rules.map itemToJson))]) := by
  obtain ⟨-, h, -⟩ := parse_eq_ok_iff.mp h
  rw [hdefault, Json.optional_eq_ok_iff] at h
  obtain ⟨-, h⟩ | ⟨m, a, -, ha, h⟩ := h
  · cases h
  · cases h
    obtain ⟨raw, -, -, hne⟩ := parseString_eq_ok_iff.mp ha
    unfold toJson
    rw [hdefault]
    exact bind_eq_ok_iff.mpr ⟨(), Checked.assertFalse_eq_ok_iff.mpr (by simpa using hne), rfl⟩

end Route

theorem rereads_routeItem : Rereads Route.parseItem Route.itemToJson := by
  intro v item h
  obtain ⟨names, egress, -, hne, hnames, hegress⟩ := Route.parseItem_eq_ok_iff.mp h
  refine Route.parseItem_eq_ok_iff.mpr ⟨_, _, rfl, ?_, rereads_string.mapM hnames,
    rereads_string egress _ hegress⟩
  have hlen := (mapM_eq_ok_iff.mp hnames).length_eq
  have hpos := List.length_pos_iff.mpr hne
  rw [← List.length_pos_iff, List.length_map]
  omega

theorem reread_route {v : Json} {route : Route} (h : Route.parse v = .ok route)
    (hdefault : route.default.isSome = true) :
    ∃ j, route.toJson = .ok j ∧ Route.parse j = .ok route := by
  obtain ⟨default, hdefault⟩ := Option.isSome_iff_exists.mp hdefault
  refine ⟨_, Route.toJson_of_parse h hdefault, ?_⟩
  obtain ⟨-, hd, hrules⟩ := Route.parse_eq_ok_iff.mp h
  refine Route.parse_eq_ok_iff.mpr ⟨rfl, rereads_string.optional hd ?_,
    rereads_routeItem.parseArray hrules rfl⟩
  rw [hdefault]
  rfl

/-! ## Egresses -/

/-- A part that may be missing is written to a member that may be missing. -/
theorem optionalMember_ok {α : Type} (key : String) (o : Option α) (toJson : α → Json) :
    optionalMember key o (fun a => .ok (toJson a))
      = .ok ((o.map toJson).toList.map (field key)) := by
  cases o <;> rfl

namespace Egress

variable {p : Platform} {v : Json} {egress : Egress}

/-- The parts that go with the type come back from the members they are written to. -/
theorem reread_parts {type : AdapterType} (head : Json)
    (h : parseParts p v { type := type } = .ok egress) :
    egress.type = type ∧ type ≠ .tunnel ∧ type ≠ .transp ∧ ∃ parts, egress.partsToJson = .ok parts
      ∧ parseParts p (.obj (field "type" head :: parts)) { type := type } = .ok egress := by
  unfold parseParts at h
  cases type <;> simp only [bind_eq_ok_iff, pure, Except.pure, Except.ok.injEq] at h
  case direct =>
    subst h
    exact ⟨rfl, by decide, by decide, [], rfl, rfl⟩
  case reject =>
    obtain ⟨option, -, opt, hopt, rfl⟩ := h
    obtain ⟨j, hj, hreread⟩ := reread_rejectOption hopt
    refine ⟨rfl, by decide, by decide, [field "option" j], ?_, ?_⟩
    · simp only [partsToJson, bind_eq_ok_iff]
      exact ⟨_, rfl, opt, rfl, j, Checked.lift_eq_ok_iff.mpr hj, rfl⟩
    · simp only [parseParts, bind_eq_ok_iff]
      exact ⟨j, require_obj rfl, opt, hreread, rfl⟩
  case ss =>
    obtain ⟨server, -, option, -, e, he, opt, hopt, rfl⟩ := h
    refine ⟨rfl, by decide, by decide, [field "server" e.toJson, field "option" opt.toJson],
      rfl, ?_⟩
    simp only [parseParts, bind_eq_ok_iff]
    exact ⟨_, require_obj rfl, _, require_obj rfl, e, rereads_endpoint p server e he, opt,
      rereads_shadowsocksOption option opt hopt, rfl⟩
  case trojan =>
    obtain ⟨server, -, credential, -, tls, -, e, he, cred, hcred, t, ht, websocket, hws, rfl⟩ := h
    refine ⟨rfl, by decide, by decide, [field "server" e.toJson, field "credential" cred.toJson,
      field "tls" t.toJson] ++ (websocket.map WebsocketOption.toJson).toList.map
        (field "websocket"), ?_, ?_⟩
    · simp only [partsToJson, bind_eq_ok_iff]
      exact ⟨e, rfl, _, rfl, t, rfl, cred, rfl, _, optionalMember_ok _ _ _, rfl⟩
    · simp only [parseParts, bind_eq_ok_iff]
      refine ⟨_, require_obj rfl, _, require_obj rfl, _, require_obj rfl, e,
        rereads_endpoint p server e he, cred, rereads_trojanEgressCredential credential cred hcred,
        t, rereads_tlsEgressOption tls t ht, websocket,
        rereads_websocketOption.optional hws ?_, rfl⟩
      simp (disch := decide) only [member?_obj, List.cons_append, List.nil_append,
        lookup_field_ne, lookup_option]
  case tunnel => cases h
  case transp => cases h
  case dual => cases h
  all_goals
    -- the types that share a branch
    obtain ⟨server, -, e, he, cred, hcred, tls, htls, rfl⟩ := h
    refine ⟨rfl, by decide, by decide, field "server" e.toJson ::
      ((cred.map UpEgressCredential.toJson).toList.map (field "credential")
        ++ (tls.map TlsEgressOption.toJson).toList.map (field "tls")), ?_, ?_⟩
    · simp only [partsToJson, bind_eq_ok_iff]
      refine ⟨e, rfl, _, ?_, _, optionalMember_ok _ _ _, rfl⟩
      cases cred <;> rfl
    · simp only [parseParts, bind_eq_ok_iff]
      refine ⟨_, require_obj rfl, e, rereads_endpoint p server e he, cred,
        rereads_upEgressCredential.optional hcred ?_, tls,
        rereads_tlsEgressOption.optional htls ?_, rfl⟩
      · simp (disch := decide) only [member?_obj, lookup_field_ne, List.lookup_append,
          lookup_option, lookup_option_ne, Option.or_none]
      · simp (disch := decide) only [member?_obj, lookup_field_ne, List.lookup_append,
          lookup_option, lookup_option_ne, Option.none_or]

/-- **An egress that was read is written, and read back as it was.** -/
theorem reread (h : Egress.parse p v = .ok egress) :
    ∃ j, egress.toJson = .ok j ∧ Egress.parse p j = .ok egress := by
  simp only [Egress.parse, bind_eq_ok_iff] at h
  obtain ⟨-, -, m, -, type, -, h⟩ := h
  obtain ⟨rfl, htunnel, htransp, parts, hparts, hreread⟩ :=
    reread_parts (nameToJson type.name) h
  refine ⟨.obj (field "type" (nameToJson egress.type.name) :: parts), ?_, ?_⟩
  · simp only [Egress.toJson, bind_eq_ok_iff]
    exact ⟨(), by simp [htunnel, Checked.assertFalse, Checked.assertTrue], (),
      by simp [htransp, Checked.assertFalse, Checked.assertTrue], parts, hparts, rfl⟩
  · simp only [Egress.parse, bind_eq_ok_iff]
    exact ⟨(), rfl, _, require_obj lookup_field, egress.type, parseAdapterType_name _, hreread⟩

end Egress

/-! ## Ingresses -/

/-- The same alternative, with the same entries. -/
def IngressCredential.Same : IngressCredential → IngressCredential → Prop
  | up a, up b => SameEntries a.credential b.credential
  | trojan a, trojan b => SameEntries a.credential b.credential
  | _, _ => False

/-- Equality of ingresses, the internal name aside; the credentials are unordered. -/
structure Ingress.Same (a b : Ingress) : Prop where
  type : a.type = b.type
  bind : a.bind = b.bind
  credential : Option.Rel IngressCredential.Same a.credential b.credential
  opt : a.opt = b.opt
  tls : a.tls = b.tls
  websocket : a.websocket = b.websocket

namespace Ingress

variable {p : Platform} {v : Json} {ingress ingress' : Ingress}

theorem Same.refl (ingress : Ingress) : ingress.Same ingress := by
  refine ⟨rfl, rfl, ?_, rfl, rfl, rfl⟩
  cases ingress.credential with
  | none => exact .none
  | some c => cases c <;> exact .some (List.Perm.refl _)

theorem exists_up_of_rel {o : Option IngressCredential} {c : UpIngressCredential}
    (h : Option.Rel IngressCredential.Same o (some (.up c))) :
    ∃ c', o = some (.up c') ∧ SameEntries c'.credential c.credential := by
  cases h with
  | @some a _ h =>
      cases a with
      | up c' => exact ⟨c', rfl, h⟩
      | trojan c' => exact h.elim

theorem exists_trojan_of_rel {o : Option IngressCredential} {c : TrojanIngressCredential}
    (h : Option.Rel IngressCredential.Same o (some (.trojan c))) :
    ∃ c', o = some (.trojan c') ∧ SameEntries c'.credential c.credential := by
  cases h with
  | @some a _ h =>
      cases a with
      | up c' => exact h.elim
      | trojan c' => exact ⟨c', rfl, h⟩

/-- The optional credentials of an HTTP or SOCKS5 ingress come back, in any order. -/
theorem reread_credentials {cred : Option UpIngressCredential} {o : Option IngressCredential}
    (h : v.optional "credentials" UpIngressCredential.parse = .ok cred)
    (hsame : Option.Rel IngressCredential.Same o (cred.map .up)) :
    ∃ (written : Option Json) (out : Option UpIngressCredential),
      optionalMember "credentials" o (fun c => do (← c.getUp).toJson.lift)
          = .ok (written.toList.map (field "credentials"))
        ∧ Option.Rel IngressCredential.Same (out.map .up) (cred.map .up)
        ∧ ∀ w : Json, w.member? "credentials" = written →
          w.optional "credentials" UpIngressCredential.parse = .ok out := by
  rw [Json.optional_eq_ok_iff] at h
  obtain ⟨-, rfl⟩ | ⟨m, c, -, hc, rfl⟩ := h
  · cases hsame
    exact ⟨none, none, rfl, .none, fun w hw => Json.optional_eq_ok_iff.mpr (Or.inl ⟨hw, rfl⟩)⟩
  · obtain ⟨c', rfl, hentries⟩ := exists_up_of_rel hsame
    obtain ⟨j, out, hj, hout, hsame'⟩ := reread_upIngressCredential hc hentries
    refine ⟨some j, some out, ?_, .some hsame', fun w hw =>
      Json.optional_eq_ok_iff.mpr (Or.inr ⟨j, out, hw, hout, rfl⟩)⟩
    exact bind_eq_ok_iff.mpr ⟨j, Checked.lift_eq_ok_iff.mpr hj, rfl⟩

/-- The parts of a Trojan ingress, whose credentials come back in any order. -/
theorem reread_trojan {bind : List Endpoint} {credentials option tls : Json}
    {cred : TrojanIngressCredential} {opt : TrojanOption} {t : TlsIngressOption}
    {websocket : Option WebsocketOption} (head tail : Json)
    (hws : v.optional "websocket" WebsocketOption.parse = .ok websocket)
    (hcred : TrojanIngressCredential.parse credentials = .ok cred)
    (hoption : TrojanOption.parse p option = .ok opt) (ht : TlsIngressOption.parse tls = .ok t)
    (hsame : ingress'.Same ⟨.trojan, bind, some (.trojan cred), some (.trojan opt), some t,
      websocket, []⟩) :
    ∃ parts reread, ingress'.partsToJson = .ok parts
      ∧ parseParts p (.obj (field "type" head :: field "bind" tail :: parts))
          { type := .trojan, bind := bind } = .ok reread
      ∧ reread.Same ⟨.trojan, bind, some (.trojan cred), some (.trojan opt), some t,
        websocket, []⟩ := by
  have htype : ingress'.type = .trojan := hsame.type
  have hopt : ingress'.opt = some (.trojan opt) := hsame.opt
  have htls : ingress'.tls = some t := hsame.tls
  have hwebsocket : ingress'.websocket = websocket := hsame.websocket
  obtain ⟨cred', hcred', hsame'⟩ := exists_trojan_of_rel hsame.credential
  obtain ⟨j, out, hj, hout, hsame''⟩ := reread_trojanIngressCredential hcred hsame'
  refine ⟨[field "option" opt.toJson, field "tls" t.toJson, field "credentials" j]
      ++ (websocket.map WebsocketOption.toJson).toList.map (field "websocket"),
    ⟨.trojan, bind, some (.trojan out), some (.trojan opt), some t, websocket, []⟩, ?_, ?_,
    ⟨rfl, rfl, .some hsame'', rfl, rfl, rfl⟩⟩
  · simp only [partsToJson, htype, hopt, htls, hcred', hwebsocket, bind_eq_ok_iff]
    exact ⟨_, rfl, t, rfl, _, rfl, opt, rfl, cred', rfl, j, Checked.lift_eq_ok_iff.mpr hj, _,
      optionalMember_ok _ _ _, rfl⟩
  · simp only [parseParts, bind_eq_ok_iff]
    refine ⟨_, require_obj rfl, _, require_obj rfl, _, require_obj rfl, out, hout, opt,
      rereads_trojanOption p option opt hoption, t, rereads_tlsIngressOption tls t ht, websocket,
      rereads_websocketOption.optional hws ?_, rfl⟩
    simp (disch := decide) only [member?_obj, List.cons_append, List.nil_append,
      lookup_field_ne, lookup_option]

/-- The parts that go with the type come back from the members they are written to. -/
theorem reread_parts {type : AdapterType} {bind : List Endpoint} (head tail : Json)
    (h : parseParts p v { type := type, bind := bind } = .ok ingress)
    (hsame : ingress'.Same ingress) :
    ingress.type = type ∧ ingress.bind = bind ∧ ∃ parts reread,
      ingress'.partsToJson = .ok parts
        ∧ parseParts p (.obj (field "type" head :: field "bind" tail :: parts))
            { type := type, bind := bind } = .ok reread
        ∧ reread.Same ingress := by
  unfold parseParts at h
  cases type <;> simp only [bind_eq_ok_iff, pure, Except.pure, Except.ok.injEq] at h
  case tunnel =>
    obtain ⟨option, -, opt, hoption, rfl⟩ := h
    obtain ⟨j, hj, hreread⟩ := reread_tunnelOption hoption
    have htype : ingress'.type = .tunnel := hsame.type
    have hopt : ingress'.opt = some (.tunnel opt) := hsame.opt
    refine ⟨rfl, rfl, [field "option" j], _, ?_, ?_, Same.refl _⟩
    · simp only [partsToJson, htype, hopt, bind_eq_ok_iff]
      exact ⟨_, rfl, opt, rfl, j, Checked.lift_eq_ok_iff.mpr hj, rfl⟩
    · simp only [parseParts, bind_eq_ok_iff]
      exact ⟨j, require_obj rfl, opt, hreread, rfl⟩
  case ss =>
    obtain ⟨option, -, opt, hoption, rfl⟩ := h
    have htype : ingress'.type = .ss := hsame.type
    have hopt : ingress'.opt = some (.ss opt) := hsame.opt
    refine ⟨rfl, rfl, [field "option" opt.toJson], _, ?_, ?_, Same.refl _⟩
    · simp only [partsToJson, htype, hopt]
      rfl
    · simp only [parseParts, bind_eq_ok_iff]
      exact ⟨_, require_obj rfl, opt, rereads_shadowsocksOption option opt hoption, rfl⟩
  case trojan =>
    obtain ⟨credentials, -, option, -, tls, -, cred, hcred, opt, hoption, t, ht, websocket, hws,
      rfl⟩ := h
    exact ⟨rfl, rfl, reread_trojan head tail hws hcred hoption ht hsame⟩
  case transp =>
    subst h
    have htype : ingress'.type = .transp := hsame.type
    refine ⟨rfl, rfl, [], _, ?_, rfl, Same.refl _⟩
    simp only [partsToJson, htype]
  case direct => cases h
  case reject => cases h
  all_goals
    -- the types that share a branch, with optional credentials
    obtain ⟨tls, hoptional, cred, hcred, rfl⟩ := h
    have htype := hsame.type
    have htls : ingress'.tls = tls := hsame.tls
    obtain ⟨written, out, hwritten, hout, hreread⟩ := reread_credentials hcred hsame.credential
    refine ⟨rfl, rfl, (tls.map TlsIngressOption.toJson).toList.map (field "tls")
        ++ written.toList.map (field "credentials"),
      { type := _, bind := bind, tls := tls, credential := out.map .up }, ?_, ?_,
      ⟨rfl, rfl, hout, rfl, rfl, rfl⟩⟩
    · simp only [partsToJson, htype, htls, bind_eq_ok_iff]
      exact ⟨_, optionalMember_ok _ _ _, _, hwritten, rfl⟩
    · simp only [parseParts, bind_eq_ok_iff]
      refine ⟨tls, rereads_tlsIngressOption.optional hoptional ?_, out, hreread _ ?_, rfl⟩
      · simp (disch := decide) only [member?_obj, lookup_field_ne, List.lookup_append,
          lookup_option, lookup_option_ne, Option.or_none]
      · simp (disch := decide) only [member?_obj, lookup_field_ne, List.lookup_append,
          lookup_option, lookup_option_ne, Option.none_or]

/-- **An ingress that was read is written, and read back as it was**, in whatever order its
credentials are written. -/
theorem reread (h : Ingress.parse p v = .ok ingress) (hsame : ingress'.Same ingress) :
    ∃ j out, ingress'.toJson = .ok j ∧ Ingress.parse p j = .ok out ∧ out.Same ingress := by
  simp only [Ingress.parse, bind_eq_ok_iff, Checked.assertFalse_eq_ok_iff] at h
  obtain ⟨-, -, m, -, type, -, -, hdirect, -, hreject, -, -, items, -, -, hne, bind, hbind, h⟩ := h
  have hne' : bind.isEmpty = false := by
    have hlen := (mapM_eq_ok_iff.mp hbind).length_eq
    rw [List.isEmpty_eq_false_iff, ← List.length_pos_iff] at hne ⊢
    omega
  obtain ⟨rfl, rfl, parts, out, hparts, hreread, hout⟩ := reread_parts
    (nameToJson ingress'.type.name) (.arr (ingress'.bind.map Endpoint.toJson)) h hsame
  refine ⟨.obj (field "type" (nameToJson ingress'.type.name) ::
    field "bind" (.arr (ingress'.bind.map Endpoint.toJson)) :: parts), out, ?_, ?_, hout⟩
  · simp only [Ingress.toJson, bind_eq_ok_iff, Checked.lift_eq_ok_iff,
      Checked.assertFalse_eq_ok_iff, hsame.type, hsame.bind]
    exact ⟨(), hdirect, (), hreject, (), hne', parts, hparts, rfl⟩
  · simp only [Ingress.parse, bind_eq_ok_iff, Checked.assertFalse_eq_ok_iff]
    rw [hsame.type, hsame.bind] at hreread ⊢
    exact ⟨(), rfl, _, require_obj rfl, _, parseAdapterType_name _, (), hdirect, (), hreject, _,
      require_obj rfl, _, rfl, (), by rw [List.isEmpty_map]; exact hne', _,
      (rereads_endpoint p).mapM hbind, hreread⟩

end Ingress

/-! ## The whole configuration -/

/-- **Configuration values survive a `GET`/`PUT` cycle.**  What was read is written without
a failure, and what was written is read as the same value, field for field.  The writer may
walk through the credentials of an ingress in any order. -/
theorem configuration_survives (p : Platform) (v : Json) :
    (∀ ingress, Ingress.parse p v = .ok ingress → ∀ ingress' : Ingress, ingress'.Same ingress →
        ∃ j out, ingress'.toJson = .ok j ∧ Ingress.parse p j = .ok out ∧ out.Same ingress)
      ∧ (∀ egress, Egress.parse p v = .ok egress →
        ∃ j, egress.toJson = .ok j ∧ Egress.parse p j = .ok egress)
      ∧ (∀ rule, Rule.parse v = .ok rule → Rule.parse rule.toJson = .ok rule)
      ∧ ∀ route, Route.parse v = .ok route → route.default.isSome = true →
        ∃ j, route.toJson = .ok j ∧ Route.parse j = .ok route :=
  ⟨fun _ h _ hsame => Ingress.reread h hsame, fun _ h => Egress.reread h,
    fun rule h => rereads_rule v rule h, fun _ h hdefault => reread_route h hdefault⟩

/-- A Shadowsocks ingress, and a route with one rule. -/
theorem configuration_survives_example :
    (∃ j out, Ingress.toJson ⟨.ss, [⟨.domainName, lit "localhost", 8388⟩], none,
          some (.ss ⟨lit "pw", .aes128Gcm⟩), none, none, []⟩ = .ok j
        ∧ Ingress.parse Reference.platform j = .ok out
        ∧ out.Same ⟨.ss, [⟨.domainName, lit "localhost", 8388⟩], none,
          some (.ss ⟨lit "pw", .aes128Gcm⟩), none, none, []⟩)
      ∧ ∃ j, Route.toJson ⟨some (lit "direct"), [([lit "cn"], lit "proxy")]⟩ = .ok j
        ∧ Route.parse j = .ok ⟨some (lit "direct"), [([lit "cn"], lit "proxy")]⟩ := by
  refine ⟨(configuration_survives Reference.platform (.obj [
      field "type" (nameToJson "ss"),
      field "bind" (.arr [.obj [field "host" (.str (lit "localhost")), field "port" (.int 8388)]]),
      field "option" (.obj [field "method" (nameToJson "aes-128-gcm"),
        field "password" (.str (lit "pw"))])])).1 _ ?_ _ (Ingress.Same.refl _),
    (configuration_survives Reference.platform (.obj [
      field "rules" (.arr [.arr [.str (lit "cn"), .str (lit "proxy")]]),
      field "default" (.str (lit "direct"))])).2.2.2 _ ?_ rfl⟩
  · rfl
  · rfl

end Pichi
