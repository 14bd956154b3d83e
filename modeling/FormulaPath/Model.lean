import FormulaPath.Distinct
import FormulaPath.Schema

/-!
A model is a list of declarations: value types, structural types with their members, enumerations
and product components. A later declaration of a structural type or an enumeration replaces an
earlier one of the same name; `Model.schema` answers the questions of a schema from them.

Supertypes may be missing or form a cycle. The walk along them drops each type it meets from the
declarations that are left, so it visits a type once and ends.
-/
namespace FormulaPath

/-- Whether a structural type describes policies or products. -/
inductive StructuralKind where
  | policy
  | product
deriving DecidableEq, Repr

/-- A structural type with the members that it declares itself. -/
structure StructuralType where
  name : String
  kind : StructuralKind
  supertype : Option String
  /-- The product type of a policy type, or the policy type of a product type. -/
  counterpart : Option String
  attributes : List Attribute
  associations : List Association
deriving DecidableEq, Repr

namespace StructuralType

/-- The type with one more attribute, which it owns. -/
def addAttribute (t : StructuralType) (a : Attribute) : StructuralType :=
  { t with attributes := t.attributes ++ [{ a with owner := t.name }] }

def addAssociation (t : StructuralType) (a : Association) : StructuralType :=
  { t with associations := t.associations ++ [{ a with owner := t.name }] }

def datatype (t : StructuralType) : Datatype :=
  match t.kind with
  | .policy => .policy t.name
  | .product => .product t.name

end StructuralType

/-- The declared types, enumerations and components. Of two structural types or two enumerations
with one name the first in the list counts. -/
structure Model where
  valueTypes : List String
  types : List StructuralType
  enums : List EnumType
  components : List Component
deriving DecidableEq, Repr

namespace Model

def empty : Model := ⟨[], [], [], []⟩

def addValueType (m : Model) (name : String) : Model :=
  { m with valueTypes := name :: m.valueTypes }

/-- Declares a structural type, in place of an earlier one with its name. -/
def addType (m : Model) (t : StructuralType) : Model := { m with types := t :: m.types }

/-- Declares an enumeration, in place of an earlier one with its name. -/
def addEnum (m : Model) (e : EnumType) : Model := { m with enums := e :: m.enums }

def addComponent (m : Model) (c : Component) : Model := { m with components := m.components ++ [c] }

/-- The first declaration of a name among `types`. -/
def declared? (types : List StructuralType) (name : String) : Option StructuralType :=
  types.find? (·.name == name)

def without (types : List StructuralType) (name : String) : List StructuralType :=
  types.filter (·.name != name)

theorem name_of_declared? {types : List StructuralType} {name : String} {t : StructuralType}
    (h : declared? types name = some t) : t.name = name := by
  simpa using List.find?_some h

theorem length_without_lt {types : List StructuralType} {name : String} {t : StructuralType}
    (h : declared? types name = some t) : (without types name).length < types.length := by
  refine List.length_filter_lt_length_iff_exists.mpr ⟨t, List.mem_of_find?_eq_some h, ?_⟩
  simp [name_of_declared? h]

/-- The type of a name and its supertypes, nearest first. -/
def ancestors (types : List StructuralType) (name : String) : List StructuralType :=
  match _found : declared? types name with
  | none => []
  | some t =>
    match t.supertype with
    | none => [t]
    | some parent => t :: ancestors (without types name) parent
termination_by types.length
decreasing_by exact length_without_lt _found

def type? (m : Model) (name : String) : Option StructuralType := declared? m.types name

def enumType? (m : Model) (name : String) : Option EnumType := m.enums.find? (·.name == name)

/-- The type of a name: value types come before enumerations, and those before structural types. -/
def datatype? (m : Model) (name : String) : Option Datatype :=
  if m.valueTypes.contains name then some (.value name)
  else if (m.enumType? name).isSome then some (.enum name)
  else (m.type? name).map StructuralType.datatype

/-- The attributes of a type; of two with one name the nearest counts. -/
def attributes (m : Model) (name : String) : List Attribute :=
  keepFirst Attribute.name ((ancestors m.types name).flatMap StructuralType.attributes)

/-- The associations of a type; of two with one name the nearest counts. -/
def associations (m : Model) (name : String) : List Association :=
  keepFirst Association.name ((ancestors m.types name).flatMap StructuralType.associations)

/-- The counterpart of the nearest type of one kind that has one. -/
def counterpart? (m : Model) (kind : StructuralKind) (name : String) : Option String :=
  ((ancestors m.types name).filter (·.kind == kind)).findSome? StructuralType.counterpart

/-- Whether the type `sub` is `super` or reaches it along supertypes. -/
def isSubtype (m : Model) (sub super : String) : Bool :=
  (ancestors m.types sub).any (·.name == super)

def schema (m : Model) : Schema where
  datatype? := m.datatype?
  attributes := m.attributes
  associations := m.associations
  productType? := m.counterpart? .policy
  policyType? := m.counterpart? .product
  components := m.components
  isSubtype := m.isSubtype
  enumType? := m.enumType?

end Model

end FormulaPath
