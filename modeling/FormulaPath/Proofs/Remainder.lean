import FormulaPath.Proposal

/-!
# What is still to be typed

The text of a proposal may divide into a front that agrees with what was typed up to case, and a
rest. A character never becomes empty in lower case, so there is at most one such division: a longer
front has a longer lower case. Following the characters of the text finds it
(`remainderFrom_append`), and comes back with nothing if what was typed ends inside the lower case
of a character or is not found at all (`remainderFrom_cases`).
-/
namespace FormulaPath.Proposal

theorem afterFront?_eq_some_iff {front full rest : List Char} :
    afterFront? front full = some rest ↔ full = front ++ rest := by
  unfold afterFront?
  split
  next h =>
    obtain ⟨tail,rfl⟩ := List.isPrefixOf_iff_prefix.mp h
    simp
  next h =>
    constructor
    · nofun
    · rintro rfl
      simp at h

/-- Behind a front with the given lower case stands the rest. -/
theorem remainderFrom_append (front rest : List Char) :
    remainderFrom (front.flatMap Text.lowerChar) (front ++ rest) = rest := by
  induction front with
  | nil => cases rest <;> rfl
  | cons c front ih =>
      have hlowered : ((c :: front).flatMap Text.lowerChar).isEmpty = false := by
        simp [Text.lowerChar_ne_nil]
      have hafter : afterFront? (Text.lowerChar c) ((c :: front).flatMap Text.lowerChar) =
          some (front.flatMap Text.lowerChar) := afterFront?_eq_some_iff.mpr rfl
      rw [List.cons_append,remainderFrom,hlowered,hafter]
      exact ih

/-- What comes back is empty or the rest behind a front with the given lower case. -/
theorem remainderFrom_cases (lowered text : List Char) :
    remainderFrom lowered text = [] ∨ ∃ front, text = front ++ remainderFrom lowered text ∧
      front.flatMap Text.lowerChar = lowered := by
  fun_induction remainderFrom lowered text with
  | case1 => exact Or.inl rfl
  | case2 lowered c cs hempty => exact Or.inr ⟨[],rfl,(List.isEmpty_iff.mp hempty).symm⟩
  | case3 lowered c cs _ rest hafter ih =>
      rcases ih with hnone | ⟨front,htext,hfront⟩
      · exact Or.inl hnone
      · refine Or.inr ⟨c :: front,congrArg (c :: ·) htext,?_⟩
        rw [List.flatMap_cons,hfront]
        exact (afterFront?_eq_some_iff.mp hafter).symm
  | case4 => exact Or.inl rfl

variable {p : Proposal} {front rest : String}

/-- The text divides into a front that agrees with what was typed up to case, and a rest. -/
structure Divides (p : Proposal) (front rest : String) : Prop where
  text : p.text = front ++ rest
  typed : Text.lower front = Text.lower p.typed

theorem Divides.remainder (h : p.Divides front rest) : p.remainder = rest := by
  apply String.toList_injective
  rw [Proposal.remainder,String.toList_ofList,h.text,String.toList_append,← h.typed]
  exact remainderFrom_append front.toList rest.toList

theorem Divides.unique {front' rest' : String} (h : p.Divides front rest)
    (h' : p.Divides front' rest') : front = front' ∧ rest = rest' := by
  have hrest : rest = rest' := h.remainder.symm.trans h'.remainder
  subst hrest
  have htext : front.toList ++ rest.toList = front'.toList ++ rest.toList := by
    rw [← String.toList_append,← String.toList_append,← h.text,h'.text]
  exact ⟨String.toList_injective (List.append_cancel_right htext),rfl⟩

theorem exists_divides_of_remainder (h : p.remainder ≠ "") :
    ∃ front, p.Divides front p.remainder := by
  rcases remainderFrom_cases (Text.lower p.typed) p.text.toList with hnone | ⟨front,htext,hfront⟩
  · rw [remainder,hnone] at h
    exact absurd rfl h
  · refine ⟨String.ofList front,?_,?_⟩
    · apply String.toList_injective
      rw [String.toList_append,String.toList_ofList,remainder,String.toList_ofList]
      exact htext
    · rw [Text.lower,String.toList_ofList,hfront]

theorem Divides.lower_text (h : p.Divides front rest) :
    Text.lower p.text = Text.lower (p.typed ++ rest) := by
  rw [h.text,Text.lower_append,Text.lower_append,h.typed]

/-- The text of a proposal has at most one division, and what is still to be typed is its rest, or
nothing if there is none. So a text that is still to be typed completes what was typed up to case,
and a text with a division starts with what was typed up to case. -/
theorem remainder_exact (p : Proposal) :
    (∀ front rest front' rest', p.Divides front rest → p.Divides front' rest' →
        front = front' ∧ rest = rest') ∧
      (∀ front rest, p.Divides front rest → p.remainder = rest) ∧
      ((¬ ∃ front rest, p.Divides front rest) → p.remainder = "") ∧
      (p.remainder ≠ "" → Text.lower (p.typed ++ p.remainder) = Text.lower p.text) ∧
      ((∃ front rest, p.Divides front rest) → Text.startsUpToCase p.text p.typed = true) := by
  refine ⟨fun _ _ _ _ h h' => h.unique h',fun _ _ h => h.remainder,?_,?_,?_⟩
  · intro hnone
    apply Decidable.byContradiction
    intro h
    obtain ⟨front,hfront⟩ := exists_divides_of_remainder h
    exact hnone ⟨front,p.remainder,hfront⟩
  · intro h
    obtain ⟨front,hfront⟩ := exists_divides_of_remainder h
    exact hfront.lower_text.symm
  · rintro ⟨front,rest,h⟩
    rw [Text.startsUpToCase_iff,h.lower_text,Text.lower_append]
    exact List.prefix_append _ _

theorem remainder_exact_sharp :
    let p : Proposal := ⟨⟨"\u1E9Etra\u00DFe", "", "", .attr⟩, "\u00DF"⟩
    p.Divides "\u1E9E" "tra\u00DFe" ∧ p.remainder = "tra\u00DFe" := by
  intro p
  have hdivides : p.Divides "\u1E9E" "tra\u00DFe" := ⟨by decide +kernel,by decide +kernel⟩
  exact ⟨hdivides,(remainder_exact p).2.1 _ _ hdivides⟩

/-- A typed part that ends inside the lower case of the dotted capital leaves no rest. -/
example : Text.startsUpToCase "\u0130x" "i" = true ∧
    remainder ⟨⟨"\u0130x", "", "", .attr⟩, "i"⟩ = "" := by decide +kernel

end FormulaPath.Proposal
