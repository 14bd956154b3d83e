import FormulaPath.Path
import FormulaPath.Text.Decimal

/-!
The content of a bracket part: a quoted qualifier, an index in decimal digits, or neither. An index
has to fit into 64 bits.
-/
namespace FormulaPath

inductive Bracket where
  | qualifier (name : String)
  | index (position : Nat)
  | malformed
deriving DecidableEq, Repr

namespace Bracket

/-- The number of indices that can be written. -/
def indexCount : Nat := 18446744073709551616

/-- The characters between a first `opening` and a last `closing`. -/
def between? (opening closing : Char) : List Char → Option (List Char)
  | [] => none
  | c :: cs => if c = opening ∧ cs.getLast? = some closing then some cs.dropLast else none

/-- The index that the characters write, if they are digits and the number is not too large. -/
def index? (cs : List Char) : Option Nat :=
  if !cs.isEmpty && cs.all Char.isDigit && decide (Text.decimal cs < indexCount) then
    some (Text.decimal cs)
  else none

/-- What the text of a bracket part says. -/
def ofText (text : String) : Bracket :=
  match between? '[' ']' text.toList with
  | none => .malformed
  | some inside =>
    match between? '"' '"' inside with
    | some name => .qualifier (String.ofList name)
    | none =>
      match index? inside with
      | some position => .index position
      | none => .malformed

def qualifierText (name : String) : String := "[\"" ++ name ++ "\"]"

theorem toList_qualifierText (name : String) :
    (qualifierText name).toList = '[' :: '"' :: (name.toList ++ ['"', ']']) := by
  simp [qualifierText, String.toList_append]

def indexText (position : Nat) : String := "[" ++ toString position ++ "]"

theorem between?_eq_some_iff {opening closing : Char} {cs inside : List Char} :
    between? opening closing cs = some inside ↔ cs = opening :: (inside ++ [closing]) := by
  cases cs with
  | nil => simp [between?]
  | cons c cs =>
    simp only [between?, List.cons.injEq]
    constructor
    · intro h
      split at h
      next hc =>
        obtain ⟨rfl, hlast⟩ := hc
        obtain ⟨front, rfl⟩ := List.getLast?_eq_some_iff.mp hlast
        simp only [List.dropLast_concat, Option.some.injEq] at h
        exact ⟨rfl, by rw [h]⟩
      next => cases h
    · intro h
      obtain ⟨rfl, rfl⟩ := h
      simp

@[simp] theorem ofText_qualifierText (name : String) :
    ofText (qualifierText name) = .qualifier name := by
  have houter : between? '[' ']' (qualifierText name).toList =
      some ('"' :: (name.toList ++ ['"'])) := by
    rw [between?_eq_some_iff, toList_qualifierText]
    simp
  have hinner : between? '"' '"' ('"' :: (name.toList ++ ['"'])) = some name.toList :=
    between?_eq_some_iff.mpr rfl
  simp [ofText, houter, hinner]

theorem ofText_eq_qualifier {text name : String} (h : ofText text = .qualifier name) :
    text = qualifierText name := by
  unfold ofText at h
  split at h
  · cases h
  next inside houter =>
    split at h
    next chars hinner =>
      cases h
      apply String.toList_injective
      rw [between?_eq_some_iff.mp houter, between?_eq_some_iff.mp hinner, toList_qualifierText]
      simp
    next => split at h <;> cases h

theorem index?_eq_some_iff {cs : List Char} {position : Nat} :
    index? cs = some position ↔ cs ≠ [] ∧ cs.all Char.isDigit = true ∧
      Text.decimal cs = position ∧ position < indexCount := by
  unfold index?
  constructor
  · intro h
    split at h
    next hdigits =>
      obtain rfl := Option.some.inj h
      simpa [and_assoc] using hdigits
    next => cases h
  · rintro ⟨hne, hdigits, rfl, hlt⟩
    simp [hne, hdigits, hlt]

theorem ofText_eq_index {text : String} {position : Nat} (h : ofText text = .index position) :
    ∃ digits, text.toList = '[' :: (digits ++ [']']) ∧ index? digits = some position := by
  unfold ofText at h
  split at h
  · cases h
  next inside houter =>
    refine ⟨inside, between?_eq_some_iff.mp houter, ?_⟩
    split at h
    · cases h
    · split at h
      next hindex =>
        cases h
        exact hindex
      next => cases h

theorem lt_of_ofText_eq_index {text : String} {position : Nat}
    (h : ofText text = .index position) : position < indexCount := by
  obtain ⟨digits, -, hindex⟩ := ofText_eq_index h
  exact (index?_eq_some_iff.mp hindex).2.2.2

theorem toList_indexText (position : Nat) :
    (indexText position).toList = '[' :: (Nat.toDigits 10 position ++ [']']) := by
  simp [indexText, String.toList_append]

/-- Digits in a bracket write an index. -/
theorem ofText_of_index? {text : String} {digits : List Char} {position : Nat}
    (htext : text.toList = '[' :: (digits ++ [']'])) (hindex : index? digits = some position) :
    ofText text = .index position := by
  have houter : between? '[' ']' text.toList = some digits := between?_eq_some_iff.mpr htext
  have hinner : between? '"' '"' digits = none := by
    rw [Option.eq_none_iff_forall_ne_some]
    intro inside hinside
    rw [between?_eq_some_iff] at hinside
    have hdigits := List.all_eq_true.mp (index?_eq_some_iff.mp hindex).2.1
    have hquote := hdigits '"' (by simp [hinside])
    simp at hquote
  simp [ofText, houter, hinner, hindex]

/-- An index is read back from its plain digits. -/
theorem ofText_indexText {position : Nat} (h : position < indexCount) :
    ofText (indexText position) = .index position := by
  have hdigits : ∀ c ∈ Nat.toDigits 10 position, c.isDigit = true :=
    fun c hc => Nat.isDigit_of_mem_toDigits (by decide) (by decide) hc
  apply ofText_of_index? (toList_indexText position)
  exact index?_eq_some_iff.mpr
    ⟨Nat.toDigits_ne_nil, List.all_eq_true.mpr hdigits, Text.decimal_toDigits position, h⟩

end Bracket

end FormulaPath
