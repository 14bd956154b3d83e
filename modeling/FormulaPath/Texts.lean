import FormulaPath.Element

/-!
The texts shown for an element. They come with the element, unless a host supplies others for its
key; a supplied entry without a text means that the element has none.
-/
namespace FormulaPath

/-- The source of labels and descriptions. -/
structure Texts where
  label : Element → Option String
  description : Element → Option String

namespace Texts

def stored : Texts := ⟨Element.label, Element.description⟩

/-- The texts supplied for keys, and the stored ones for all other keys. -/
def supplied (labels descriptions : List (String × Option String)) : Texts where
  label element := (labels.lookup element.key).getD element.label
  description element := (descriptions.lookup element.key).getD element.description

/-- The label of an element, or its name if there is no label, and then its description. -/
def describe (texts : Texts) (element : Element) : String :=
  let heading := ((texts.label element).filter (!·.isEmpty)).getD element.name
  match (texts.description element).filter (!·.isEmpty) with
  | some description => heading ++ " - " ++ description
  | none => heading

end Texts

end FormulaPath
