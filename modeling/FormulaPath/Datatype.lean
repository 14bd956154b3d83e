/-!
The type of a path: a plain value, a structural type with members, an enumeration or its values, or
a list of one of these. A path that crosses a to-many step is list valued, and `asList` never puts a
list into a list.
-/
namespace FormulaPath

/-- The type of the value that a path denotes. -/
inductive Datatype where
  /-- A plain value such as an amount or a text. -/
  | value (name : String)
  /-- A policy type, with attributes and associations. -/
  | policy (name : String)
  /-- A product type, which configures a policy type. -/
  | product (name : String)
  /-- A value of an enumeration. -/
  | enum (name : String)
  /-- The enumeration itself, named in a formula. -/
  | enumClass (name : String)
  /-- A list of elements of one type. -/
  | list (element : Datatype)
deriving DecidableEq, Repr

namespace Datatype

def isList : Datatype → Bool
  | list _ => true
  | _ => false

/-- The type as a list; a list stays as it is. -/
def asList (t : Datatype) : Datatype := if t.isList then t else list t

def asListIf (t : Datatype) (many : Bool) : Datatype := if many then t.asList else t

/-- The type under all list layers. -/
def element : Datatype → Datatype
  | list t => t.element
  | t => t

/-- Whether the type itself owns attributes and associations. -/
def hasMembers : Datatype → Bool
  | policy _ | product _ => true
  | _ => false

/-- The name of the type under all list layers. -/
def name : Datatype → String
  | value n | policy n | product n | enum n | enumClass n => n
  | list t => t.name

/-- The type as shown to a reader. -/
def display : Datatype → String
  | list t => "List<" ++ t.display ++ ">"
  | t => t.name

@[simp] theorem isList_list (t : Datatype) : (list t).isList = true := rfl

@[simp] theorem isList_asList (t : Datatype) : t.asList.isList = true := by
  cases t <;> rfl

@[simp] theorem isList_element (t : Datatype) : t.element.isList = false := by
  induction t with
  | list t ih => exact ih
  | _ => rfl

@[simp] theorem asList_asList (t : Datatype) : t.asList.asList = t.asList := by
  cases t <;> rfl

@[simp] theorem asListIf_true (t : Datatype) : t.asListIf true = t.asList := rfl

@[simp] theorem asListIf_false (t : Datatype) : t.asListIf false = t := rfl

theorem isList_asListIf (t : Datatype) (many : Bool) :
    (t.asListIf many).isList = (t.isList || many) := by
  cases many <;> simp

@[simp] theorem element_asList (t : Datatype) : t.asList.element = t.element := by
  cases t <;> rfl

end Datatype

end FormulaPath
