import FormulaPath.Proposal
import FormulaPath.Resolution

/-!
The suggestions for a path that is being typed. All parts but the last have to resolve; the last is
what was typed of a part, and each rule gives candidates for it.
-/
namespace FormulaPath

def indexHelp : String := "Selects one element of the list by its position, starting at 0."

def qualifierHelp : String := "Selects the elements configured by the named product component."

def typedLabel (text type : String) : String := text ++ " - " ++ type

/-- The label for a step along an association, which says whether many targets are reached. -/
def stepLabel (text : String) (a : Association) (many : Bool) : String :=
  typedLabel text (if many then "list of " ++ a.target else a.target)

namespace Rule

def paramCandidates (env : Environment) (trail : Trail) : List Candidate :=
  if !trail.isEmpty then []
  else env.signature.parameters.map fun p => {
    text := p.name
    label := match p.datatype with
      | some t => typedLabel p.name t
      | none => p.name
    description := env.texts.describe (.param p)
    category := .param }

/-- An attribute, and its default value if it may be read and there is a suffix to ask for it. -/
def attributeCandidates (env : Environment) (a : Attribute) : List Candidate :=
  let candidate (text : String) : Candidate :=
    ⟨text, typedLabel text a.datatype, env.texts.describe (.attr a), .attr⟩
  if !env.options.defaultSuffix.isEmpty && Scope.mayReadDefault env a then
    [candidate a.name, candidate (env.options.writeName a.name .defaultValue)]
  else [candidate a.name]

def attrCandidates (env : Environment) (trail : Trail) : List Candidate :=
  match trail.memberType? env with
  | none => []
  | some t => (Scope.readableAttributes env t).flatMap (attributeCandidates env)

/-- The ways to take a step along an association: its name if it has one target, and else its name
with an index; and its name with a qualifier if it has one. -/
def associationCandidates (env : Environment) (list : Bool) (a : Association) : List Candidate :=
  let description := env.texts.describe (.assoc a)
  let indexed := a.name ++ env.options.indexPlaceholder
  let qualified := a.name ++ env.options.qualifierPlaceholder
  let direct : Candidate :=
    if a.isManyUnqualified then
      ⟨indexed, stepLabel indexed a false, indexHelp ++ "\n" ++ description, .assoc⟩
    else ⟨a.name, stepLabel a.name a list, description, .assoc⟩
  if a.qualified then
    [direct, ⟨qualified, stepLabel qualified a (a.isMany || list),
      qualifierHelp ++ "\n" ++ description, .assoc⟩]
  else [direct]

def assocCandidates (env : Environment) (trail : Trail) : List Candidate :=
  match trail.memberType? env with
  | none => []
  | some t => (env.schema.associations t.name).flatMap (associationCandidates env trail.isList)

/-- At the start of a path the enumerations, and behind one its values. -/
def enumCandidates (env : Environment) (trail : Trail) : List Candidate :=
  if trail.isEmpty then
    (Scope.availableEnums env).map fun e =>
      ⟨e.name, e.name, env.texts.describe (.enumType e), .enumClass⟩
  else
    match trail.enumClass? with
    | none => []
    | some e => e.values.map fun v =>
      let shown := (env.texts.label (.enumValue e v)).getD v.name
      ⟨v.id, v.id ++ "(" ++ shown ++ ")", env.texts.describe (.enumValue e v), .enumValue⟩

/-- Whether a qualifier can still be completed: a bracket is open, and neither the quoted name nor
the bracket is closed. -/
def isOpenQualifier (typed : String) : Bool :=
  isBracketText typed && decide (typed.toList.count '"' < 2) && typed.toList.getLast? != some ']'

/-- Behind an association, the components that a qualifier can name. -/
def bracketCandidates (env : Environment) (trail : Trail) (typed : String) : List Candidate :=
  if !isOpenQualifier typed then []
  else
    match trail.association? with
    | none => []
    | some (a, _) =>
      ((Scope.components env a).filter (·.runtimeId.isSome)).map fun c =>
        ⟨Bracket.qualifierText c.name, typedLabel c.name c.productType,
          env.texts.describe (.component c), .qualifier⟩

def candidates (rule : Rule) (env : Environment) (trail : Trail) (typed : String) :
    List Candidate :=
  match rule with
  | param => paramCandidates env trail
  | attr => attrCandidates env trail
  | assoc => assocCandidates env trail
  | enumeration => enumCandidates env trail
  | bracket => bracketCandidates env trail typed

def proposals (rule : Rule) (env : Environment) (trail : Trail) (typed : String) : List Proposal :=
  Proposal.collect typed (rule.candidates env trail typed)

end Rule

/-- The proposals of all rules for what was typed behind a trail, as they are listed. -/
def proposalsAt (env : Environment) (trail : Trail) (typed : String) : List Proposal :=
  let sorted := Proposal.sort (Rule.inOrder.flatMap fun rule => rule.proposals env trail typed)
  match env.options.maxProposals with
  | some max => sorted.take max
  | none => sorted

/-- The proposals for a path that is being typed. -/
def proposals (env : Environment) (path : String) : List Proposal :=
  let parts := Path.split path
  match settle? env [] parts.dropLast, parts.getLast? with
  | some trail, some part =>
    if part.separator = .missing then [] else proposalsAt env trail part.text
  | _, _ => []

end FormulaPath
