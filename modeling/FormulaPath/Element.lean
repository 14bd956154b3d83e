/-!
The elements that a path can refer to: parameters of the formula, members of structural types,
product components, enumerations and their values. Each element has a name, a key that tells it
apart from elements of other owners, and may carry a label and a description.
-/
namespace FormulaPath

/-- A parameter of a formula, with the name of its declared type if there is one. -/
structure Parameter where
  name : String
  datatype : Option String
  label : Option String
  description : Option String
deriving DecidableEq, Repr

structure Attribute where
  name : String
  /-- The name of the declaring type. -/
  owner : String
  /-- The name of the attribute's type. -/
  datatype : String
  /-- Whether the default value of the attribute can be asked for. -/
  hasDefault : Bool
  label : Option String
  description : Option String
deriving DecidableEq, Repr

structure Association where
  name : String
  /-- The name of the declaring type. -/
  owner : String
  /-- The name of the target type. -/
  target : String
  /-- The largest number of targets; of a qualified association, for each qualifier. -/
  maxCardinality : Nat
  /-- Whether the targets are told apart by a qualifier. -/
  qualified : Bool
  label : Option String
  description : Option String
deriving DecidableEq, Repr

namespace Association

def unbounded : Nat := 4294967295

/-- Whether more than one target remains once a qualifier is given. -/
def isMany (a : Association) : Bool := decide (1 < a.maxCardinality)

/-- Whether there can be more than one target without a qualifier. -/
def isManyUnqualified (a : Association) : Bool := a.qualified || a.isMany

end Association

/-- A product component: an entry of the catalogue that a qualifier can name. -/
structure Component where
  /-- The name that qualifiers use. -/
  name : String
  /-- The full name under which the component is kept. -/
  qualifiedName : String
  runtimeId : Option String
  /-- The name of the component's product type. -/
  productType : String
  description : Option String
deriving DecidableEq, Repr

structure EnumValue where
  /-- The name that formulas use. -/
  id : String
  /-- The name shown to a reader. -/
  name : String
deriving DecidableEq, Repr

structure EnumType where
  name : String
  values : List EnumValue
  description : Option String
deriving DecidableEq, Repr

/-- The first value with the given name in formulas. -/
def EnumType.value? (e : EnumType) (id : String) : Option EnumValue :=
  e.values.find? (·.id == id)

/-- Anything that a filter or a label refers to. -/
inductive Element where
  | param (p : Parameter)
  | attr (a : Attribute)
  | assoc (a : Association)
  | component (c : Component)
  | enumType (e : EnumType)
  | enumValue (e : EnumType) (v : EnumValue)
deriving DecidableEq, Repr

namespace Element

def name : Element → String
  | param p => p.name
  | attr a => a.name
  | assoc a => a.name
  | component c => c.name
  | enumType e => e.name
  | enumValue _ v => v.id

/-- The name of a member, behind its owner if there is one. -/
def memberKey (owner name : String) : String := if owner.isEmpty then name else owner ++ "." ++ name

/-- The key of the element: behind the owner for members, the full name for components. -/
def key : Element → String
  | param p => p.name
  | attr a => memberKey a.owner a.name
  | assoc a => memberKey a.owner a.name
  | component c => c.qualifiedName
  | enumType e => e.name
  | enumValue e v => e.name ++ "." ++ v.id

def label : Element → Option String
  | param p => p.label
  | attr a => a.label
  | assoc a => a.label
  | component _ => none
  | enumType _ => none
  | enumValue _ v => some v.name

def description : Element → Option String
  | param p => p.description
  | attr a => a.description
  | assoc a => a.description
  | component c => c.description
  | enumType e => e.description
  | enumValue _ _ => none

end Element

end FormulaPath
