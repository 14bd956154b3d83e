import FormulaPath.Datatype
import FormulaPath.Element

/-!
A schema answers the questions that the resolution of a path asks about types. It is a record of
functions, so a property proved for every schema holds wherever the answers come from.
-/
namespace FormulaPath

/-- The questions about types that the resolution of a path asks. -/
structure Schema where
  /-- The type of a name. -/
  datatype? : String → Option Datatype
  /-- The attributes of a structural type, inherited ones included. -/
  attributes : String → List Attribute
  /-- The associations of a structural type, inherited ones included. -/
  associations : String → List Association
  /-- The product type that configures a policy type. -/
  productType? : String → Option String
  /-- The policy type that a product type configures. -/
  policyType? : String → Option String
  /-- The catalogue of product components. -/
  components : List Component
  /-- Whether the first type is the second or one of its subtypes. -/
  isSubtype : String → String → Bool
  /-- The enumeration of a name. -/
  enumType? : String → Option EnumType

namespace Schema

/-- The schema in which the names of `aliases` stand for the given types; the first entry of a name
counts, and every other answer stays. -/
def withAliases (s : Schema) (aliases : List (String × Datatype)) : Schema :=
  { s with datatype? := fun name => (aliases.lookup name).or (s.datatype? name) }

@[simp] theorem withAliases_nil (s : Schema) : s.withAliases [] = s := rfl

end Schema

end FormulaPath
