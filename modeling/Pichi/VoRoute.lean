/-
# Configuration values: rules and the route

`vo/rule.cpp` and `vo/route.cpp`.  A rule is a list of conditions; the route is a list
of rule names with the egress they lead to, and a default egress.  The parser of a route
accepts a document without a default, the writer does not.
-/
import Pichi.VoOptions

namespace Pichi

/-- `parseArray` of `vo/parse.hpp`: the converted items of an optional array member. -/
def parseArray {α : Type} (root : Json) (key : String) (convert : Json → Checked α) :
    Checked (List α) :=
  match root.member? key with
  | none => .ok []
  | some v => do (← v.items).mapM convert

/-! ## Rules -/

/-- `vo::Rule`. -/
structure Rule where
  range : List Bytes := []
  ingress : List Bytes := []
  type : List AdapterType := []
  pattern : List Bytes := []
  domain : List Bytes := []
  country : List Bytes := []
  rangeNr : List Bytes := []
  countryNr : List Bytes := []
  deriving DecidableEq

namespace Rule

/-- `parse<Rule>`. -/
def parse (v : Json) : Checked Rule := do
  v.assertObject Msg.objTypeError
  let range ← parseArray v "range" parseString
  let rangeNr ← parseArray v "range_nr" parseString
  let ingress ← parseArray v "ingress_name" parseString
  let type ← parseArray v "ingress_type" parseAdapterType
  let pattern ← parseArray v "pattern" parseString
  let domain ← parseArray v "domain" parseString
  let country ← parseArray v "country" parseString
  let countryNr ← parseArray v "country_nr" parseString
  return ⟨range, ingress, type, pattern, domain, country, rangeNr, countryNr⟩

/-- The member of a non-empty list. -/
def listField {α : Type} (key : String) (items : List α) (toJson : α → Json) :
    List (Bytes × Json) :=
  if items.isEmpty then [] else [field key (.arr (items.map toJson))]

/-- `toJson(Rule)`. -/
def toJson (rule : Rule) : Json :=
  .obj (listField "range" rule.range stringToJson
    ++ listField "range_nr" rule.rangeNr stringToJson
    ++ listField "ingress_name" rule.ingress stringToJson
    ++ listField "ingress_type" rule.type (fun t => nameToJson t.name)
    ++ listField "pattern" rule.pattern stringToJson
    ++ listField "domain" rule.domain stringToJson
    ++ listField "country" rule.country stringToJson
    ++ listField "country_nr" rule.countryNr stringToJson)

end Rule

/-! ## The route -/

/-- `vo::Route`. -/
structure Route where
  default : Option Bytes := none
  rules : List (List Bytes × Bytes) := []
  deriving DecidableEq

namespace Route

/-- One element of `rules`: rule names, and last the name of an egress. -/
def parseItem (v : Json) : Checked (List Bytes × Bytes) := do
  let array ← v.items
  Checked.assertTrue (2 ≤ array.length) .badJson Msg.arySizeError
  let names ← array.dropLast.mapM parseString
  return (names, ← parseString (array.getLastD .null))

/-- `parse<Route>`. -/
def parse (v : Json) : Checked Route := do
  v.assertObject Msg.objTypeError
  let default ← v.optional "default" parseString
  let rules ← parseArray v "rules" parseItem
  return ⟨default, rules⟩

/-- `toJson(Route)`; a default is required when sending to clients. -/
def toJson (route : Route) : Checked Json :=
  match route.default with
  | none => Checked.fail .misc ""
  | some default => do
    Checked.assertFalse default.isEmpty .misc ""
    return .obj [field "default" (stringToJson default),
      field "rules" (.arr (route.rules.map fun item =>
        .arr (item.1.map stringToJson ++ [stringToJson item.2])))]

/-- The rule names of the route and their egresses, flattened from left to right. -/
def entries (route : Route) : List (Bytes × Bytes) :=
  route.rules.flatMap fun item => item.1.map fun rname => (rname, item.2)

end Route

end Pichi
