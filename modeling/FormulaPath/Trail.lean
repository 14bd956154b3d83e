import FormulaPath.Environment
import FormulaPath.Node

/-!
The nodes that a path has passed, the latest first. The next part is read in their light: they give
the type whose members it can name, whether the path is list valued, and the association that a
bracket belongs to.
-/
namespace FormulaPath

abbrev Trail := List Node

namespace Trail

def isList (trail : Trail) : Bool := trail.head?.any Node.isList

/-- The type whose members the next part can name: that of the latest node without its list, or at
the start of a path the type that owns the formula. -/
def currentType? (env : Environment) (trail : Trail) : Option Datatype :=
  match trail with
  | [] => env.formulaType?
  | node :: _ => node.datatype?.map Datatype.element

def memberType? (env : Environment) (trail : Trail) : Option Datatype :=
  (currentType? env trail).filter Datatype.hasMembers

/-- The association that a bracket belongs to, and the trail before it: the latest node, or the one
before a run of qualifiers. -/
def association? : Trail → Option (Association × Trail)
  | [] => none
  | node :: before =>
    match node.referent? with
    | some (.assoc a) => some (a, before)
    | some (.qualifier _ _ _) => association? before
    | _ => none

/-- Whether the path was list valued before the association that a bracket belongs to. -/
def isListBefore (trail : Trail) : Bool := (association? trail).any fun (_, before) => isList before

def enumClass? : Trail → Option EnumType
  | [] => none
  | node :: _ =>
    match node.referent? with
    | some (.enumClass e) => some e
    | _ => none

end Trail

end FormulaPath
