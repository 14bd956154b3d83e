import FormulaPath.Element

/-!
A formula reads an attribute's value or its default value. A filter decides, for each element and
each way to read it, whether formulas may do so.
-/
namespace FormulaPath

/-- What a formula reads of an attribute. -/
inductive Access where
  | value
  | defaultValue
deriving DecidableEq, Repr

/-- The rule that tells which elements formulas may read, and how. -/
structure Filter where
  allows : Element → Access → Bool

namespace Filter

def everything : Filter := ⟨fun _ _ => true⟩

/-- The filter that denies the listed pairs of a key and an access, and allows all else. -/
def denying (denied : List (String × Access)) : Filter :=
  ⟨fun element access => !denied.contains (element.key, access)⟩

end Filter

end FormulaPath
