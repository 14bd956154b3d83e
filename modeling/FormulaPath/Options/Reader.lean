import FormulaPath.Json.Value
import FormulaPath.Options

/-!
Options from a JSON text. An object gives them by key: other keys are ignored, and a known key may
stand only once. An array gives the first of them in order. What is not given keeps its standard.
-/
namespace FormulaPath.Options

open Json (Piece Value)

/-- The number of proposal limits that can be written. -/
def limitCount : Nat := 18446744073709551616

def text? : Value → Option String
  | .string ps => Piece.decode? ps
  | _ => none

def flag? : Value → Option Bool
  | .bool b => some b
  | _ => none

def limit? : Value → Option (Option Nat)
  | .null => some none
  | .number (some n) => if n < limitCount then some (some n) else none
  | _ => none

/-- The values given for the options: for each option a list of them, in its order. -/
structure Given where
  defaultSuffix : List Value
  productAttributes : List Value
  indexPlaceholder : List Value
  qualifierPlaceholder : List Value
  maxProposals : List Value

/-- The option that at most one value gives. -/
def one? {α : Type} (read : Value → Option α) (standard : α) : List Value → Option α
  | [] => some standard
  | [v] => read v
  | _ => none

def ofGiven? (g : Given) : Option Options := do
  let defaultSuffix ← one? text? standard.defaultSuffix g.defaultSuffix
  let productAttributes ← one? flag? standard.productAttributes g.productAttributes
  let indexPlaceholder ← one? text? standard.indexPlaceholder g.indexPlaceholder
  let qualifierPlaceholder ← one? text? standard.qualifierPlaceholder g.qualifierPlaceholder
  let maxProposals ← one? limit? standard.maxProposals g.maxProposals
  some ⟨defaultSuffix, productAttributes, indexPlaceholder, qualifierPlaceholder, maxProposals⟩

/-- The values behind one key of an object. -/
def valuesOf (key : String) (members : List (String × Value)) : List Value :=
  (members.filter (·.1 == key)).map (·.2)

def givenByKey (members : List (String × Value)) : Given where
  defaultSuffix := valuesOf "default_value_suffix" members
  productAttributes := valuesOf "product_attributes" members
  indexPlaceholder := valuesOf "index_placeholder" members
  qualifierPlaceholder := valuesOf "qualifier_placeholder" members
  maxProposals := valuesOf "max_proposals" members

/-- What an array gives, by place. -/
def givenByPlace (items : List Value) : Given where
  defaultSuffix := items[0]?.toList
  productAttributes := items[1]?.toList
  indexPlaceholder := items[2]?.toList
  qualifierPlaceholder := items[3]?.toList
  maxProposals := items[4]?.toList

def ofValue? : Value → Option Options
  | .object members => do
    let members ← members.mapM fun (key, v) => (Piece.decode? key).map fun key => (key, v)
    ofGiven? (givenByKey members)
  | .array items => if items.length ≤ 5 then ofGiven? (givenByPlace items) else none
  | _ => none

def ofJson? (text : String) : Option Options := (Value.ofText? text).bind ofValue?

end FormulaPath.Options
