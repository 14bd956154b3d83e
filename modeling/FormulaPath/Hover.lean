import FormulaPath.Line
import FormulaPath.Resolution

/-!
What an editor shows for the part of a path under an offset. Parts behind the first that does not
resolve have no node of their own; for them the last node of the chain is shown.
-/
namespace FormulaPath

structure Hover where
  contents : String
  region : Region
  datatype : Option Datatype
  problem : Option Problem
deriving DecidableEq, Repr

namespace Hover

def bold (name : String) : String := "**" ++ name ++ "**"

def code (text : String) : String := "\x60" ++ text ++ "\x60"

/-- What is said about the thing that a part refers to. -/
def subject : Referent → String
  | .param p => "parameter " ++ bold p.name
  | .attr a access =>
    (if access = .defaultValue then "default value of " else "") ++
      "attribute " ++ bold (a.owner ++ "." ++ a.name)
  | .assoc a => "association " ++ bold (a.owner ++ "." ++ a.name)
  | .qualifier name runtimeId _ => "qualifier " ++ bold name ++ " (" ++ code runtimeId ++ ")"
  | .index position => "element " ++ bold (toString position)
  | .enumClass e => "enumeration " ++ bold e.name
  | .enumValue e v => "value " ++ bold (e.name ++ "." ++ v.id) ++ " (" ++ v.name ++ ")"

def describe : Meaning → String
  | .resolved referent t => subject referent ++ ": " ++ code t.display
  | .empty => ""
  | .invalid problem => problem.message.display

/-- Whether a node lies at an offset of the path; its end counts. -/
def touches (node : Node) (offset : Nat) : Bool :=
  node.region.contains offset || node.region.stop == offset

/-- The node of a chain that is shown for an offset of the path. -/
def nodeAt? (chain : List Node) (offset : Nat) : Option Node :=
  (chain.find? (touches · offset)).or chain.getLast?

end Hover

/-- What is shown for an offset of a line. -/
def hover [Text.NameClass] (env : Environment) (line : String) (offset : Nat) :
    Except Fault (Option Hover) :=
  match Line.pathAt? line offset with
  | none => .ok none
  | some (start, path) => do
    let inside ← distance start offset
    match Hover.nodeAt? (resolve env path) inside with
    | none => .ok none
    | some node => do
      let region ← node.region.shift start
      .ok (some ⟨Hover.describe node.meaning, region, node.datatype?, node.problem?⟩)

end FormulaPath
