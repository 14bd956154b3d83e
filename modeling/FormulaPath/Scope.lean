import FormulaPath.Distinct
import FormulaPath.Trail

/-!
What a part of a path can name at its place: the attributes that may be found on a type, the
enumerations of the formula, and the components that a qualifier can choose from.
-/
namespace FormulaPath.Scope

/-- The attributes that a type shows beside its own: on the type that owns the formula those that
the formula adds, on another policy type those of its product type. -/
def borrowedAttributes (env : Environment) (t : Datatype) : List Attribute :=
  if env.isFormulaType t then env.signature.matchingAttributes
  else
    match t with
    | .policy name =>
      if env.options.productAttributes then
        ((env.schema.productType? name).map env.schema.attributes).getD []
      else []
    | _ => []

/-- The attributes of a type: its own, and those borrowed ones whose name is not yet taken. -/
def allAttributes (env : Environment) (t : Datatype) : List Attribute :=
  let own := env.schema.attributes t.name
  own ++ keepFirst Attribute.name
    ((borrowedAttributes env t).filter fun a => !own.any (·.name == a.name))

def readableAttributes (env : Environment) (t : Datatype) : List Attribute :=
  (allAttributes env t).filter fun a => env.filter.allows (.attr a) .value

def mayReadDefault (env : Environment) (a : Attribute) : Bool :=
  a.hasDefault && env.filter.allows (.attr a) .defaultValue

/-- Whether formulas may read an attribute in the given way, once they find it. -/
def mayRead (env : Environment) (a : Attribute) : Access → Bool
  | .value => true
  | .defaultValue => mayReadDefault env a

def availableEnums (env : Environment) : List EnumType :=
  env.signature.enumTypes.filterMap env.schema.enumType?

def components (env : Environment) (a : Association) : List Component :=
  match env.schema.productType? a.target with
  | none => []
  | some productType =>
    env.schema.components.filter fun c => env.schema.isSubtype c.productType productType

/-- The type that a component configures, or else the target of the association. -/
def subject? (env : Environment) (a : Association) (c : Component) : Option Datatype :=
  ((env.schema.policyType? c.productType).bind env.schema.datatype?).or
    (env.schema.datatype? a.target)

end FormulaPath.Scope
