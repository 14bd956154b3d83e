import FormulaPath.Line
import FormulaPath.Suggestion

/-!
Completions for an editor: the proposals for the path at a caret, each with the region of the line
that it replaces and with its place in the list. Places are counted in 32 bits, and a list that is
too long for this is a fault.
-/
namespace FormulaPath

/-- A proposal as an editor shows and applies it. -/
structure Completion where
  label : String
  category : Category
  documentation : Option String
  /-- The text that takes the place of the region. -/
  insert : String
  replace : Region
  /-- The place in the list, from zero. -/
  priority : UInt32
deriving DecidableEq, Repr

namespace Completion

def replacing (replace : Region) (p : Proposal) (priority : UInt32) : Completion where
  label := p.label
  category := p.category
  documentation := if p.description.isEmpty then none else some p.description
  insert := p.text
  replace := replace
  priority := priority

/-- The completion of the typed part that starts at an offset of the line. -/
def ofProposal (p : Proposal) (start : Nat) (priority : UInt32) : Except Fault Completion := do
  let stop ← advance start p.typed.utf8ByteSize
  let replace ← Region.ofBounds start stop
  .ok (replacing replace p priority)

/-- The place behind another one, if 32 bits can hold it. -/
def nextPriority (priority : UInt32) : Except Fault UInt32 :=
  if priority.toNat + 1 < UInt32.size then .ok (priority + 1) else .error .overflow

theorem nextPriority_of_lt {priority : UInt32} (h : priority.toNat + 1 < UInt32.size) :
    nextPriority priority = .ok (priority + 1) := if_pos h

/-- The completions of proposals from a place of the list on. A place is only taken once the one
behind it is known, so the last one there is cannot be taken. -/
def ofProposals (start : Nat) (priority : UInt32) :
    List Proposal → Except Fault (List Completion)
  | [] => .ok []
  | p :: ps => do
    let next ← nextPriority priority
    let item ← ofProposal p start priority
    let items ← ofProposals start next ps
    .ok (item :: items)

/-- A typed part that ends within the offsets has a completion, and it replaces that part. -/
theorem ofProposal_of_le {p : Proposal} {start : Nat} (priority : UInt32)
    (h : start + p.typed.utf8ByteSize ≤ offsetLimit) :
    ofProposal p start priority =
      .ok (replacing (Region.span start p.typed.utf8ByteSize) p priority) := by
  simp [ofProposal, advance_of_le h, Region.ofBounds_add, bind, Except.bind]

end Completion

/-- The completions at a caret of a line. -/
def completions [Text.NameClass] (env : Environment) (line : String) (caret : Nat) :
    Except Fault (List Completion) :=
  match Line.pathBefore? line caret with
  | none => .ok []
  | some (_, typed) =>
    match proposals env typed with
    | [] => .ok []
    | first :: rest => do
      let start ← distance first.typed.utf8ByteSize caret
      Completion.ofProposals start 0 (first :: rest)

end FormulaPath
