/-
# What is written is what was read, up to the first NUL

rapidjson counts the length of its strings, and `toJson` hands it the whole of a
`std::string`.  `parse<std::string>` and the parsers of the enumerations go through a
`char const*` instead, so what they see of a string ends at its first NUL.

Hence the document a client sends and the one it gets back hold the same strings exactly
when no string the type keeps contains a NUL (`reads_back_iff`): for the lists of a rule,
the route with its default, and the credentials of an ingress.  A string that is cut short
is a different name or password, accepted without an error
(`reads_back_counterexample`).
-/
import Pichi.VoRoundTrip

namespace Pichi

/-! ## Looking into a document -/

namespace Json

/-- The bytes of a string. -/
def text : Json → Bytes
  | str s => s
  | _ => []

/-- The items of an array. -/
def list : Json → List Json
  | arr items => items
  | _ => []

/-- The string under a name. -/
def textAt (v : Json) (key : String) : Bytes := ((v.member? key).getD .null).text

/-- The items of the array under a name; a member that is not there has none. -/
def itemsAt (v : Json) (key : String) : List Json := ((v.member? key).getD .null).list

/-- An object whose members all have one of these names. -/
def OnlyMembers (keys : List String) : Json → Prop
  | obj members => ∀ m ∈ members, m.1 ∈ keys.map lit
  | _ => False

end Json

/-! ## Strings -/

/-- What is written for a value that was read is the document it was read from, exactly when
that document is `clean`. -/
def Verbatim {α : Type} (parse : Json → Checked α) (write : α → Json) (clean : Json → Prop) :
    Prop :=
  ∀ v a, parse v = .ok a → (write a = v ↔ clean v)

/-- A string without a NUL. -/
def NulFree (v : Json) : Prop := 0 ∉ v.text

instance (v : Json) : Decidable (NulFree v) := inferInstanceAs (Decidable (0 ∉ v.text))

theorem verbatim_string : Verbatim parseString stringToJson NulFree := by
  intro v s h
  obtain ⟨raw, rfl, rfl, -⟩ := parseString_eq_ok_iff.mp h
  rw [stringToJson, Json.str.injEq, cString_eq_self_iff]
  rfl

/-- The name of an enumerator is compared with what precedes the first NUL. -/
theorem parseName_eq_ok {α : Type} {names : List (String × α)} {msg : String} {v : Json} {a : α}
    (h : parseName names msg v = .ok a) :
    ∃ raw name, v = .str raw ∧ (name, a) ∈ names ∧ cString raw = lit name := by
  unfold parseName at h
  split at h
  · rename_i raw
    split at h
    · rename_i entry hentry
      cases h
      exact ⟨raw, entry.1, rfl, List.mem_of_find?_eq_some hentry,
        by simpa using List.find?_some hentry⟩
    · cases h
  · cases h

theorem verbatim_adapterType :
    Verbatim parseAdapterType (fun t => nameToJson t.name) NulFree := by
  intro v t h
  obtain ⟨raw, name, rfl, hmem, hname⟩ := parseName_eq_ok h
  obtain ⟨t', -, heq⟩ := List.mem_map.mp hmem
  cases heq
  show Json.str (lit t.name) = .str raw ↔ 0 ∉ raw
  rw [← hname, Json.str.injEq, cString_eq_self_iff]

namespace Verbatim

variable {α : Type} {parse : Json → Checked α} {write : α → Json} {clean : Json → Prop}

/-- An array is written as it was read exactly when all of its items are clean. -/
theorem mapM (h : Verbatim parse write clean) {l : List Json} {items : List α}
    (hl : l.mapM parse = .ok items) : items.map write = l ↔ ∀ v ∈ l, clean v := by
  rw [mapM_eq_ok_iff] at hl
  induction hl with
  | nil => simp
  | cons ha _ ih =>
      rw [List.map_cons, List.cons.injEq, ih, h _ _ ha, List.forall_mem_cons]

theorem parseArray (h : Verbatim parse write clean) {v : Json} {key : String} {items : List α}
    (hv : parseArray v key parse = .ok items) :
    items.map write = v.itemsAt key ↔ ∀ m ∈ v.itemsAt key, clean m := by
  unfold Pichi.parseArray at hv
  unfold Json.itemsAt
  split at hv
  · rename_i hnone
    cases hv
    simp [hnone, Json.list]
  · rename_i m hm
    obtain ⟨l, hitems, hl⟩ := bind_eq_ok_iff.mp hv
    rw [Json.items_eq_ok_iff] at hitems
    rw [hm, hitems]
    exact h.mapM hl

end Verbatim

/-! ## Rules -/

namespace Rule

/-- The lists of a rule are written as they were sent; a list without items is left out,
and nothing else is written. -/
structure ReadBack (v out : Json) : Prop where
  same : ∀ key ∈ keys, out.member? key = writtenArray (v.itemsAt key)
  only : out.OnlyMembers keys

/-- No string of a list of the rule contains a NUL. -/
def NulFree (v : Json) : Prop := ∀ key ∈ keys, ∀ m ∈ v.itemsAt key, Pichi.NulFree m

instance (v : Json) : Decidable (NulFree v) :=
  inferInstanceAs (Decidable (∀ key ∈ keys, ∀ m ∈ v.itemsAt key, Pichi.NulFree m))

theorem writtenArray_inj {a b : List Json} : writtenArray a = writtenArray b ↔ a = b := by
  unfold writtenArray
  cases a <;> cases b <;> simp

theorem onlyMembers_toJson (rule : Rule) : rule.toJson.OnlyMembers keys := by
  rw [toJson_eq]
  intro entry hentry
  obtain ⟨m, hm, hentry⟩ := List.mem_flatMap.mp hentry
  obtain ⟨j, -, rfl⟩ := List.mem_map.mp hentry
  exact List.mem_map_of_mem (List.mem_map_of_mem (f := Prod.fst) hm)

/-- Each list on its own. -/
theorem table_eq_iff {v : Json} {rule : Rule} (h : Rule.parse v = .ok rule) :
    ∀ m ∈ rule.table, m.2 = v.itemsAt m.1 ↔ ∀ item ∈ v.itemsAt m.1, Pichi.NulFree item := by
  obtain ⟨-, hrange, hrangeNr, hingress, htype, hpattern, hdomain, hcountry, hcountryNr⟩ :=
    parse_eq_ok_iff.mp h
  simp only [table, List.forall_mem_cons, List.not_mem_nil, false_implies, implies_true, and_true]
  exact ⟨verbatim_string.parseArray hrange, verbatim_string.parseArray hrangeNr,
    verbatim_string.parseArray hingress, verbatim_adapterType.parseArray htype,
    verbatim_string.parseArray hpattern, verbatim_string.parseArray hdomain,
    verbatim_string.parseArray hcountry, verbatim_string.parseArray hcountryNr⟩

theorem readBack_iff {v : Json} {rule : Rule} (h : Rule.parse v = .ok rule) :
    ReadBack v rule.toJson ↔ NulFree v := by
  have hkeys : ∀ {q : String → Prop}, (∀ key ∈ keys, q key) ↔ ∀ m ∈ rule.table, q m.1 := by
    intro q
    rw [← map_fst_table rule, List.forall_mem_map]
  have hsame : (∀ key ∈ keys, rule.toJson.member? key = writtenArray (v.itemsAt key))
      ↔ NulFree v := by
    rw [NulFree, hkeys, hkeys]
    apply forall₂_congr
    intro m hm
    have hmember : rule.toJson.member? m.1 = writtenArray m.2 := member?_toJson hm
    rw [hmember, writtenArray_inj]
    exact table_eq_iff h m hm
  exact ⟨fun hread => hsame.mp hread.same, fun hfree => ⟨hsame.mpr hfree, onlyMembers_toJson rule⟩⟩

end Rule

/-! ## The route -/

namespace Route

/-- The default and the rules are written as they were sent, and nothing else is.  A route
that is sent without rules is written with an empty list of them. -/
structure ReadBack (v out : Json) : Prop where
  default : out.member? "default" = v.member? "default"
  rules : out.itemsAt "rules" = v.itemsAt "rules"
  only : out.OnlyMembers ["default", "rules"]

/-- Neither the default nor a name in the rules contains a NUL. -/
def NulFree (v : Json) : Prop :=
  0 ∉ v.textAt "default" ∧ ∀ item ∈ v.itemsAt "rules", ∀ name ∈ item.list, Pichi.NulFree name

theorem verbatim_item :
    Verbatim parseItem itemToJson fun item => ∀ name ∈ item.list, Pichi.NulFree name := by
  intro v item h
  obtain ⟨names, egress, rfl, -, hnames, hegress⟩ := parseItem_eq_ok_iff.mp h
  rw [itemToJson, Json.arr.injEq]
  show _ ↔ ∀ name ∈ names ++ [egress], Pichi.NulFree name
  rw [← List.concat_eq_append, ← List.concat_eq_append, List.concat_inj, List.concat_eq_append,
    verbatim_string.mapM hnames, verbatim_string egress _ hegress, List.forall_mem_append,
    List.forall_mem_singleton]

theorem readBack_iff {v : Json} {route : Route} (h : Route.parse v = .ok route)
    (hdefault : route.default.isSome = true) :
    ∃ out, route.toJson = .ok out ∧ (ReadBack v out ↔ NulFree v) := by
  obtain ⟨default, hdefault⟩ := Option.isSome_iff_exists.mp hdefault
  refine ⟨_, toJson_of_parse h hdefault, ?_⟩
  obtain ⟨-, hd, hrules⟩ := parse_eq_ok_iff.mp h
  rw [hdefault, Json.optional_eq_ok_iff] at hd
  obtain ⟨-, hd⟩ | ⟨m, a, hm, ha, hd⟩ := hd
  · cases hd
  · cases hd
    have hsame : some (stringToJson default) = v.member? "default" ↔ 0 ∉ v.textAt "default" := by
      rw [Json.textAt, hm, Option.some.injEq]
      exact verbatim_string m default ha
    constructor
    · intro hread
      exact ⟨hsame.mp hread.default, (verbatim_item.parseArray hrules).mp hread.rules⟩
    · intro hfree
      refine ⟨hsame.mpr hfree.1, (verbatim_item.parseArray hrules).mpr hfree.2, ?_⟩
      intro entry hentry
      rcases List.mem_pair.mp hentry with rfl | rfl
      · exact List.mem_cons_self
      · exact List.mem_cons_of_mem _ List.mem_cons_self

end Route

/-! ## Credentials -/

section Credentials

/-- The members of an object under the given names. -/
def Json.pick (keys : List String) (v : Json) : List (Option Json) := keys.map v.member?

/-- The credentials are written as they were sent, as a set, and with no other members. -/
structure CredentialsReadBack (keys : List String) (v out : Json) : Prop where
  same : ∀ c, c ∈ out.list.map (Json.pick keys) ↔ c ∈ v.list.map (Json.pick keys)
  only : ∀ item ∈ out.list, item.OnlyMembers keys

/-- None of the strings under the given names contains a NUL. -/
def ItemNulFree (keys : List String) (item : Json) : Prop := ∀ key ∈ keys, 0 ∉ item.textAt key

/-- No credential contains a NUL. -/
def CredentialsNulFree (keys : List String) (v : Json) : Prop :=
  ∀ item ∈ v.list, ItemNulFree keys item

variable {keys : List String}

/-- Whether an item is free of NULs is seen from the members it is picked for. -/
theorem itemNulFree_congr {a b : Json} (h : a.pick keys = b.pick keys) :
    ItemNulFree keys a ↔ ItemNulFree keys b := by
  apply forall₂_congr
  intro key hkey
  have hmember : a.member? key = b.member? key := List.map_inj_left.mp h key hkey
  rw [Json.textAt, Json.textAt, hmember]

variable {Value : Type} {read : Json → Checked (Entry Value)} {write : Entry Value → Json}

/-- **Credentials are read back exactly when none of them contains a NUL**, if that holds of
each item on its own. -/
theorem credentialsReadBack_iff
    (hwrite : ∀ item e, read item = .ok e → ItemNulFree keys (write e))
    (hread : ∀ item e, read item = .ok e → ItemNulFree keys item →
      (write e).pick keys = item.pick keys)
    (honly : ∀ e, (write e).OnlyMembers keys) {items : List Json} {es es' : List (Entry Value)}
    (hitems : items.mapM read = .ok es) (hperm : es'.Perm es) :
    CredentialsReadBack keys (.arr items) (.arr (es'.map write))
      ↔ CredentialsNulFree keys (.arr items) := by
  constructor
  · intro hback item hitem
    -- some written item has these members, and what is written has no NUL
    obtain ⟨w, hw, hpick⟩ := List.mem_map.mp
      ((hback.same (item.pick keys)).mpr (List.mem_map_of_mem hitem))
    obtain ⟨e, he, rfl⟩ := List.mem_map.mp hw
    obtain ⟨item', -, hitem'⟩ := exists_of_mem_mapM hitems (hperm.mem_iff.mp he)
    exact (itemNulFree_congr hpick).mp (hwrite item' e hitem')
  · intro hfree
    rw [mapM_eq_ok_iff] at hitems
    refine ⟨fun c => ?_, ?_⟩
    · have hsame : (es.map write).map (Json.pick keys) = items.map (Json.pick keys) := by
        apply List.ext_getElem
        · simp [hitems.length_eq]
        · intro i hi hi'
          rw [List.length_map] at hi'
          have hget := hitems.get hi' (by rw [← hitems.length_eq]; exact hi')
          simp only [List.getElem_map]
          exact hread _ _ hget (hfree _ (List.getElem_mem hi'))
      show c ∈ (es'.map write).map (Json.pick keys) ↔ c ∈ items.map (Json.pick keys)
      rw [← hsame]
      exact ((hperm.map write).map (Json.pick keys)).mem_iff
    · intro item hitem
      obtain ⟨e, -, rfl⟩ := List.mem_map.mp hitem
      exact honly e

end Credentials

/-- A string that was read has no NUL. -/
theorem nul_not_mem_of_parseString {v : Json} {s : Bytes} (h : parseString v = .ok s) : 0 ∉ s := by
  obtain ⟨raw, -, rfl, -⟩ := parseString_eq_ok_iff.mp h
  intro hmem
  simpa using List.mem_takeWhile_imp hmem

/-- A string member without a NUL is what was read from it. -/
theorem member?_of_nulFree {item m : Json} {key : String} {s : Bytes}
    (hm : item.member? key = some m) (hs : parseString m = .ok s) (hfree : 0 ∉ item.textAt key) :
    item.member? key = some (stringToJson s) := by
  rw [Json.textAt, hm] at hfree
  rw [hm, (verbatim_string m s hs).mpr hfree]

/-- The names of the members of a pair of credentials. -/
def upKeys : List String := ["username", "password"]

/-- The name of the member of a Trojan credential. -/
def trojanKeys : List String := ["password"]

theorem itemNulFree_upToJson {item : Json} {e : Entry Bytes} (h : readUp item = .ok e) :
    ItemNulFree upKeys (upToJson (e.1, e.2)) := by
  simp only [readUp, bind_eq_ok_iff, pure, Except.pure, Except.ok.injEq] at h
  obtain ⟨-, -, username, -, password, -, un, hun, pw, hpw, rfl⟩ := h
  simp only [ItemNulFree, upKeys, List.forall_mem_cons, List.not_mem_nil, false_implies,
    implies_true, and_true]
  exact ⟨nul_not_mem_of_parseString hun, nul_not_mem_of_parseString hpw⟩

theorem pick_upToJson {item : Json} {e : Entry Bytes} (h : readUp item = .ok e)
    (hfree : ItemNulFree upKeys item) : (upToJson (e.1, e.2)).pick upKeys = item.pick upKeys := by
  simp only [readUp, bind_eq_ok_iff, Json.require_eq_ok_iff, pure, Except.pure,
    Except.ok.injEq] at h
  obtain ⟨-, -, username, hu, password, hp, un, hun, pw, hpw, rfl⟩ := h
  simp only [Json.pick, upKeys, List.map_cons, List.map_nil,
    member?_of_nulFree hu hun (hfree _ (by decide)),
    member?_of_nulFree hp hpw (hfree _ (by decide))]
  rfl

theorem onlyMembers_upToJson (pair : Bytes × Bytes) : (upToJson pair).OnlyMembers upKeys := by
  intro entry hentry
  rcases List.mem_pair.mp hentry with rfl | rfl
  · exact List.mem_cons_self
  · exact List.mem_cons_of_mem _ List.mem_cons_self

theorem itemNulFree_trojanToJson {item : Json} {e : Entry Unit} (h : readTrojan item = .ok e) :
    ItemNulFree trojanKeys (trojanToJson e.1) := by
  simp only [readTrojan, bind_eq_ok_iff, pure, Except.pure, Except.ok.injEq] at h
  obtain ⟨-, -, password, -, pw, hpw, rfl⟩ := h
  simp only [ItemNulFree, trojanKeys, List.forall_mem_singleton]
  exact nul_not_mem_of_parseString hpw

theorem pick_trojanToJson {item : Json} {e : Entry Unit} (h : readTrojan item = .ok e)
    (hfree : ItemNulFree trojanKeys item) :
    (trojanToJson e.1).pick trojanKeys = item.pick trojanKeys := by
  simp only [readTrojan, bind_eq_ok_iff, Json.require_eq_ok_iff, pure, Except.pure,
    Except.ok.injEq] at h
  obtain ⟨-, -, password, hp, pw, hpw, rfl⟩ := h
  simp only [Json.pick, trojanKeys, List.map_cons, List.map_nil,
    member?_of_nulFree hp hpw (hfree _ (by decide))]
  rfl

theorem onlyMembers_trojanToJson (password : Bytes) :
    (trojanToJson password).OnlyMembers trojanKeys := by
  intro entry hentry
  rw [List.mem_singleton.mp hentry]
  exact List.mem_cons_self

theorem UpIngressCredential.readBack_iff {v : Json} {cred cred' : UpIngressCredential}
    (h : UpIngressCredential.parse v = .ok cred)
    (hsame : SameEntries cred'.credential cred.credential) :
    ∃ out, cred'.toJson = .ok out
      ∧ (CredentialsReadBack upKeys v out ↔ CredentialsNulFree upKeys v) := by
  rw [UpIngressCredential.parse_eq, bind_eq_ok_iff] at h
  obtain ⟨entries, h, hcred⟩ := h
  cases hcred
  obtain ⟨items, es, rfl, hes, hperm, hne⟩ := exists_read_of_accumulateArray h hsame
  refine ⟨_, bind_eq_ok_iff.mpr ⟨(), Checked.assertFalse_eq_ok_iff.mpr hne, rfl⟩, ?_⟩
  exact credentialsReadBack_iff (fun _ _ he => itemNulFree_upToJson he)
    (fun _ _ he hfree => pick_upToJson he hfree) (fun e => onlyMembers_upToJson (e.1, e.2))
    hes hperm

theorem TrojanIngressCredential.readBack_iff {v : Json} {cred cred' : TrojanIngressCredential}
    (h : TrojanIngressCredential.parse v = .ok cred)
    (hsame : SameEntries cred'.credential cred.credential) :
    ∃ out, cred'.toJson = .ok out
      ∧ (CredentialsReadBack trojanKeys v out ↔ CredentialsNulFree trojanKeys v) := by
  rw [TrojanIngressCredential.parse_eq, bind_eq_ok_iff] at h
  obtain ⟨entries, h, hcred⟩ := h
  cases hcred
  obtain ⟨items, es, rfl, hes, hperm, hne⟩ := exists_read_of_accumulateArray h hsame
  refine ⟨_, bind_eq_ok_iff.mpr ⟨(), Checked.assertFalse_eq_ok_iff.mpr hne, rfl⟩, ?_⟩
  exact credentialsReadBack_iff (fun _ _ he => itemNulFree_trojanToJson he)
    (fun _ _ he hfree => pick_trojanToJson he hfree) (fun e => onlyMembers_trojanToJson e.1)
    hes hperm

/-! ## What is read back -/

/-- **What is read back is what was written exactly when no string that is kept contains a
NUL**, for a rule, for a route with a default and for the credentials of an ingress, in
whatever order these are walked through. -/
theorem reads_back_iff (v : Json) :
    (∀ rule, Rule.parse v = .ok rule → (Rule.ReadBack v rule.toJson ↔ Rule.NulFree v))
      ∧ (∀ route, Route.parse v = .ok route → route.default.isSome = true →
        ∃ out, route.toJson = .ok out ∧ (Route.ReadBack v out ↔ Route.NulFree v))
      ∧ (∀ cred, UpIngressCredential.parse v = .ok cred →
        ∀ cred' : UpIngressCredential, SameEntries cred'.credential cred.credential →
          ∃ out, cred'.toJson = .ok out
            ∧ (CredentialsReadBack upKeys v out ↔ CredentialsNulFree upKeys v))
      ∧ ∀ cred, TrojanIngressCredential.parse v = .ok cred →
        ∀ cred' : TrojanIngressCredential, SameEntries cred'.credential cred.credential →
          ∃ out, cred'.toJson = .ok out
            ∧ (CredentialsReadBack trojanKeys v out ↔ CredentialsNulFree trojanKeys v) :=
  ⟨fun _ h => Rule.readBack_iff h, fun _ h hdefault => Route.readBack_iff h hdefault,
    fun _ h _ hsame => UpIngressCredential.readBack_iff h hsame,
    fun _ h _ hsame => TrojanIngressCredential.readBack_iff h hsame⟩

/-- A rule of one domain, and a list without items, which is not written. -/
theorem reads_back_iff_example :
    Rule.ReadBack (.obj [field "range" (.arr []), field "domain" (.arr [.str (lit "a.example")])])
      (Rule.toJson ⟨[], [], [], [], [lit "a.example"], [], [], []⟩) := by
  refine ((reads_back_iff _).1 _ rfl).mpr ?_
  decide

/-- A domain with a NUL in it is accepted, and shown without what follows the NUL. -/
theorem reads_back_counterexample :
    Rule.parse (.obj [field "domain" (.arr [.str (lit "a\x00b")])])
        = .ok ⟨[], [], [], [], [lit "a"], [], [], []⟩
      ∧ ¬ Rule.ReadBack (.obj [field "domain" (.arr [.str (lit "a\x00b")])])
        (Rule.toJson ⟨[], [], [], [], [lit "a"], [], [], []⟩) := by
  refine ⟨rfl, fun hread => ?_⟩
  have hsame := hread.same "domain" (by decide)
  injection hsame with hsame
  injection hsame with hsame
  injection hsame with hsame
  injection hsame with hsame
  exact absurd hsame (by decide)

end Pichi
