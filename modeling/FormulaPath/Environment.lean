import FormulaPath.Options
import FormulaPath.Schema
import FormulaPath.Texts

/-!
The surroundings of a formula: its signature, the types it sees, and the host's filter, texts and
options. Resolution and proposals read them and change nothing.
-/
namespace FormulaPath

/-- What the formula itself contributes. -/
structure Signature where
  name : String
  parameters : List Parameter
  /-- The name of the type that owns the formula. -/
  formulaType : Option String
  /-- Attributes that the formula adds to those of its own type. -/
  matchingAttributes : List Attribute
  /-- The names of the enumerations that the formula may use. -/
  enumTypes : List String
deriving DecidableEq, Repr

namespace Signature

def empty : Signature := ⟨"", [], none, [], []⟩

def parameter? (s : Signature) (name : String) : Option Parameter :=
  s.parameters.find? (·.name == name)

end Signature

/-- The surroundings in which a path is read. -/
structure Environment where
  schema : Schema
  signature : Signature
  filter : Filter
  texts : Texts
  options : Options

namespace Environment

def formulaType? (env : Environment) : Option Datatype :=
  env.signature.formulaType.bind env.schema.datatype?

/-- Whether a type has the name of the type that owns the formula and is no list. -/
def isFormulaType (env : Environment) (t : Datatype) : Bool :=
  env.signature.formulaType.any fun name => !t.isList && t.name == name

end Environment

end FormulaPath
