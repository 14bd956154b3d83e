import FormulaPath.Category
import FormulaPath.Text.LowerCase

/-!
Proposals for a part that is being typed. A candidate is offered when its text starts with what was
typed, up to case. Proposals are listed by kind, then by text up to case, and ties are broken by all
that is left, so that the order of the list does not depend on the order in which they were found.
-/
namespace FormulaPath

/-- Something that a part can be completed to. -/
structure Candidate where
  text : String
  label : String
  description : String
  category : Category
deriving DecidableEq, Repr

/-- A candidate that fits what was typed. -/
structure Proposal extends Candidate where
  typed : String
deriving DecidableEq, Repr

def Candidate.fits (c : Candidate) (typed : String) : Bool :=
  Text.startsUpToCase c.text typed

namespace Proposal

/-- The proposals that candidates give for what was typed, in the same order. -/
def collect (typed : String) (candidates : List Candidate) : List Proposal :=
  (candidates.filter (·.fits typed)).map fun c => ⟨c, typed⟩

def cmp : Proposal → Proposal → Ordering :=
  compareLex (compareOn (·.category.rank)) <|
  compareLex (compareOn (Text.lower ·.text)) <|
  compareLex (compareOn (·.text)) <|
  compareLex (compareOn (·.label)) <|
  compareLex (compareOn (·.description)) <|
  compareOn (·.typed)

def le (p q : Proposal) : Bool := (cmp p q).isLE

def sort (ps : List Proposal) : List Proposal := ps.mergeSort le

/-- The rest of `full`, if `front` is its first part. -/
def afterFront? (front full : List Char) : Option (List Char) :=
  if front.isPrefixOf full then some (full.drop front.length) else none

/-- The characters of `text` behind those whose lower case is exactly `lowered`, and none if there
are no such characters. -/
def remainderFrom (lowered : List Char) : List Char → List Char
  | [] => []
  | c :: cs =>
    if lowered.isEmpty then c :: cs
    else
      match afterFront? (Text.lowerChar c) lowered with
      | some rest => remainderFrom rest cs
      | none => []

/-- What is still to be typed of the text, or nothing if the typed part ends inside a character. -/
def remainder (p : Proposal) : String :=
  String.ofList (remainderFrom (Text.lower p.typed) p.text.toList)

end Proposal

end FormulaPath
