import FormulaPath.Scope

/-!
The rules that give a part of a path its meaning. For a part at its place a rule declines, or it
decides that the part means something or that it cannot mean anything. The first rule that decides
counts, so a parameter hides an attribute of its name, and an attribute hides an association.
-/
namespace FormulaPath

inductive Rule where
  | param
  | attr
  | assoc
  | enumeration
  | bracket
deriving DecidableEq, Repr

namespace Rule

def inOrder : List Rule := [.param, .attr, .assoc, .enumeration, .bracket]

/-- What a name gets from its type: a meaning, or none if the type is not known. -/
def named (text : String) (t : Option Datatype) (meaning : Datatype → Meaning) : Meaning :=
  match t with
  | some t => meaning t
  | none => .invalid (.undefined text)

def paramMeaning? (env : Environment) (trail : Trail) (text : String) : Option Meaning :=
  if !trail.isEmpty || isBracketText text then none
  else (env.signature.parameter? text).map fun p =>
    named text (p.datatype.bind env.schema.datatype?) (.ofParameter p)

/-- The name of an attribute, or of its default value. -/
def attrMeaning? (env : Environment) (trail : Trail) (text : String) : Option Meaning :=
  if isBracketText text then none
  else do
    let t ← trail.memberType? env
    let (name, access) := env.options.readName text
    let a ← (Scope.readableAttributes env t).find? (·.name == name)
    if Scope.mayRead env a access then
      some (named text (env.schema.datatype? a.datatype) fun t =>
        .ofAttribute a access t trail.isList)
    else some (.invalid (.undefined text))

def assocMeaning? (env : Environment) (trail : Trail) (text : String) : Option Meaning :=
  if isBracketText text then none
  else do
    let t ← trail.memberType? env
    let a ← (env.schema.associations t.name).find? (·.name == text)
    some (named text (env.schema.datatype? a.target) fun t => .ofAssociation a t trail.isList)

/-- At the start of a path the name of an enumeration, and after it the name of a value. -/
def enumMeaning? (env : Environment) (trail : Trail) (text : String) : Option Meaning :=
  if isBracketText text then none
  else if trail.isEmpty then
    ((Scope.availableEnums env).find? (·.name == text)).map .ofEnumClass
  else trail.enumClass?.map fun e =>
    match e.value? text with
    | some v => .ofEnumValue e v
    | none => .invalid (.undefined text)

/-- Whether an index may follow: after a qualifier if that selects many, and after an association
that has many targets for each qualifier or follows a list. -/
def allowsIndex (a : Association) (current : Node) : Bool :=
  match current.referent? with
  | some (.qualifier _ _ _) => current.isList
  | _ => a.isMany || current.isList

def indexMeaning? (trail : Trail) (a : Association) (text : String) (position : Nat) :
    Option Meaning := do
  let current ← trail.head?
  if allowsIndex a current then
    let t ← current.datatype?
    some (.ofIndex position t)
  else some (.invalid (.noIndex a.name text))

/-- What a qualifier behind the association `a` selects: the first component of the name counts, and
it has to have a runtime id. -/
def selected? (env : Environment) (trail : Trail) (a : Association) (name : String) :
    Option Meaning := do
  let c ← (Scope.components env a).find? (·.name == name)
  let runtimeId ← c.runtimeId
  let t ← Scope.subject? env a c
  some (.ofQualifier name runtimeId c t (a.isMany || trail.isListBefore))

def qualifierMeaning (env : Environment) (trail : Trail) (a : Association) (text name : String) :
    Meaning :=
  (selected? env trail a name).getD (.invalid (.unknownQualifier a.name text))

/-- Behind an association, a qualifier or an index in brackets. -/
def bracketMeaning? (env : Environment) (trail : Trail) (text : String) : Option Meaning :=
  if !isBracketText text then none
  else do
    let (a, _) ← trail.association?
    match Bracket.ofText text with
    | .index position => indexMeaning? trail a text position
    | .qualifier name => some (qualifierMeaning env trail a text name)
    | .malformed => some (.invalid (.unknownQualifier a.name text))

def meaning? : Rule → Environment → Trail → String → Option Meaning
  | param => paramMeaning?
  | attr => attrMeaning?
  | assoc => assocMeaning?
  | enumeration => enumMeaning?
  | bracket => bracketMeaning?

/-- What the first rule that does not decline decides about a part. -/
def decide? (env : Environment) (trail : Trail) (text : String) : Option Meaning :=
  inOrder.findSome? fun rule => rule.meaning? env trail text

end Rule

end FormulaPath
