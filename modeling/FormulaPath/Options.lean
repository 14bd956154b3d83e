import FormulaPath.Access

/-!
The options of resolution and proposals, and the suffix that turns the name of an attribute into the
name of its default value.
-/
namespace FormulaPath

/-- The choices that a host makes for resolution and proposals. -/
structure Options where
  /-- What follows an attribute's name to ask for its default value; nothing turns this off. -/
  defaultSuffix : String
  /-- Whether a policy type shows the attributes of its product type. -/
  productAttributes : Bool
  /-- What follows an association's name when an index is proposed. -/
  indexPlaceholder : String
  /-- What follows an association's name when a qualifier is proposed. -/
  qualifierPlaceholder : String
  /-- The largest number of proposals. -/
  maxProposals : Option Nat
deriving DecidableEq, Repr

namespace Options

/-- The options of a host that makes no choice. -/
def standard : Options where
  defaultSuffix := "@default"
  productAttributes := true
  indexPlaceholder := "[0]"
  qualifierPlaceholder := "[\"\"]"
  maxProposals := none

/-- The text before a final `suffix`. -/
def dropSuffix? (suffix text : String) : Option String :=
  if suffix.toList.isSuffixOf text.toList then
    some (String.ofList (text.toList.take (text.toList.length - suffix.toList.length)))
  else none

/-- The name of the attribute that a text asks for, and what it asks of it. -/
def readName (o : Options) (text : String) : String × Access :=
  if o.defaultSuffix.isEmpty then (text, .value)
  else
    match dropSuffix? o.defaultSuffix text with
    | some name => (name, .defaultValue)
    | none => (text, .value)

/-- The text that asks for an attribute. -/
def writeName (o : Options) (name : String) : Access → String
  | .value => name
  | .defaultValue => name ++ o.defaultSuffix

theorem dropSuffix?_eq_some_iff {suffix text name : String} :
    dropSuffix? suffix text = some name ↔ text = name ++ suffix := by
  unfold dropSuffix?
  constructor
  · intro h
    split at h
    next hs =>
      obtain ⟨front, hfront⟩ := List.isSuffixOf_iff_suffix.mp hs
      simp only [Option.some.injEq] at h
      have htake : text.toList.take (text.toList.length - suffix.toList.length) = front := by
        rw [← hfront]
        simp
      rw [htake] at h
      apply String.toList_injective
      rw [String.toList_append, ← h, String.toList_ofList, hfront]
    next => cases h
  · intro h
    subst h
    have hs : suffix.toList.isSuffixOf (name ++ suffix).toList = true := by
      rw [List.isSuffixOf_iff_suffix, String.toList_append]
      exact List.suffix_append _ _
    rw [if_pos hs]
    simp [String.toList_append]

end Options

end FormulaPath
