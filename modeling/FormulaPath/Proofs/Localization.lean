import FormulaPath.Proofs.Offer
import FormulaPath.Proofs.ProposalOrder

/-!
# Changing the language

The texts of a host reach an author as labels and descriptions of proposals. Both are keys of the
order, and the list is cut off behind sorting, so a label can decide which of two proposals is still
shown. It decides between proposals of one kind and one text only, and these are the same once the
wording is taken away. Taking it away therefore commutes with sorting (`sort_unworded`), and what is
left of the candidates does not depend on the texts (`candidates_unworded`).
-/
namespace FormulaPath
open FormulaPath.Path

/-- The same surroundings with texts in another language. -/
def Environment.withTexts (env : Environment) (texts : Texts) : Environment :=
  { env with texts := texts }

/-- The candidate without the words that are shown for it. -/
def Candidate.unworded (c : Candidate) : Candidate := { c with label := "", description := "" }

namespace Proposal

/-- The proposal without the words that are shown for it. -/
def unworded (p : Proposal) : Proposal := ⟨p.toCandidate.unworded, p.typed⟩

theorem collect_unworded (typed : String) (cs : List Candidate) :
    (collect typed cs).map unworded = collect typed (cs.map Candidate.unworded) := by
  simp only [collect, List.filter_map, List.map_map]
  rfl

/-- The wording breaks ties only: without it a proposal still stands in front of those that it stood
in front of. -/
theorem le_unworded {p q : Proposal} (htyped : p.typed = q.typed) (h : le p q = true) :
    le p.unworded q.unworded = true := by
  have hlabel : compareOn (fun p : Proposal => p.label) p.unworded q.unworded = .eq := by
    simp [compareOn, unworded, Candidate.unworded]
  have hdescription :
      compareOn (fun p : Proposal => p.description) p.unworded q.unworded = .eq := by
    simp [compareOn, unworded, Candidate.unworded]
  have hrest : (compareOn Proposal.typed p.unworded q.unworded).isLE = true := by
    simp [compareOn, unworded, htyped]
  simp only [le, cmp, compareLex, Ordering.isLE_then_iff_or] at h ⊢
  -- Kind, lower case and text are compared first, and they are as before.
  refine h.imp_right (And.imp_right (Or.imp_right (And.imp_right (Or.imp_right
    (And.imp_right ?_)))))
  intro _
  exact Or.inr ⟨hlabel,Or.inr ⟨hdescription,hrest⟩⟩

/-- Proposals for one and the same text can be sorted with or without their wording. -/
theorem sort_unworded {ps : List Proposal} {typed : String} (h : ∀ p ∈ ps, p.typed = typed) :
    (sort ps).map unworded = sort (ps.map unworded) := by
  have hsort : sort ((ps.filter fun _ => true).map unworded) =
      ((sort ps).filter fun _ => true).map unworded :=
    sort_map_filter fun p hp q hq => le_unworded ((h p hp).trans (h q hq).symm)
  simpa using hsort.symm

end Proposal

section Languages
variable (env : Environment) (texts : Texts)

theorem memberType?_withTexts (trail : Trail) :
    trail.memberType? (env.withTexts texts) = trail.memberType? env := rfl

theorem partNode_withTexts (trail : Trail) (part : Part) :
    partNode (env.withTexts texts) trail part = partNode env trail part := rfl

/-- What the parts in front refer to has nothing to do with the texts. -/
theorem settle?_withTexts (trail : Trail) (parts : List Part) :
    settle? (env.withTexts texts) trail parts = settle? env trail parts := by
  induction parts generalizing trail with
  | nil => rfl
  | cons part parts ih => simp only [settle?, partNode_withTexts, ih]

theorem attributeCandidates_unworded (a : Attribute) :
    (Rule.attributeCandidates (env.withTexts texts) a).map Candidate.unworded =
      (Rule.attributeCandidates env a).map Candidate.unworded := by
  simp only [Rule.attributeCandidates, apply_ite (List.map Candidate.unworded)]
  rfl

theorem associationCandidates_unworded (list : Bool) (a : Association) :
    (Rule.associationCandidates (env.withTexts texts) list a).map Candidate.unworded =
      (Rule.associationCandidates env list a).map Candidate.unworded := by
  simp only [Rule.associationCandidates, apply_ite (List.map Candidate.unworded), List.map_cons,
    List.map_nil, apply_ite Candidate.unworded]
  rfl

/-- Up to the wording a rule offers the same in every language. -/
theorem candidates_unworded (rule : Rule) (trail : Trail) (typed : String) :
    (rule.candidates (env.withTexts texts) trail typed).map Candidate.unworded =
      (rule.candidates env trail typed).map Candidate.unworded := by
  cases rule with
  | param =>
      simp only [Rule.candidates, Rule.paramCandidates, apply_ite (List.map Candidate.unworded),
        List.map_map]
      rfl
  | attr =>
      simp only [Rule.candidates, Rule.attrCandidates, memberType?_withTexts]
      cases trail.memberType? env with
      | none => rfl
      | some owner =>
          simp only [List.map_flatMap, attributeCandidates_unworded]
          rfl
  | assoc =>
      simp only [Rule.candidates, Rule.assocCandidates, memberType?_withTexts]
      cases trail.memberType? env with
      | none => rfl
      | some owner =>
          simp only [List.map_flatMap, associationCandidates_unworded]
          rfl
  | enumeration =>
      simp only [Rule.candidates, Rule.enumCandidates, apply_ite (List.map Candidate.unworded),
        List.map_map]
      cases trail.enumClass? with
      | none => rfl
      | some e =>
          simp only [List.map_map]
          rfl
  | bracket =>
      simp only [Rule.candidates, Rule.bracketCandidates,
        apply_ite (List.map Candidate.unworded)]
      cases trail.association? with
      | none => rfl
      | some found =>
          simp only [List.map_map]
          rfl

/-- Behind one trail the lists agree up to the wording, also where they are cut off. -/
theorem proposalsAt_unworded (trail : Trail) (typed : String) :
    (proposalsAt (env.withTexts texts) trail typed).map Proposal.unworded =
      (proposalsAt env trail typed).map Proposal.unworded := by
  have hfound : ∀ env : Environment,
      ∀ p ∈ Rule.inOrder.flatMap (fun rule => rule.proposals env trail typed),
        p.typed = typed := by
    intro env p hp
    obtain ⟨rule,-,hp⟩ := List.mem_flatMap.mp hp
    exact (mem_collect_iff.mp hp).2.2
  have hsorted : (Proposal.sort (Rule.inOrder.flatMap fun rule =>
        rule.proposals (env.withTexts texts) trail typed)).map Proposal.unworded =
      (Proposal.sort (Rule.inOrder.flatMap fun rule =>
        rule.proposals env trail typed)).map Proposal.unworded := by
    rw [Proposal.sort_unworded (hfound (env.withTexts texts)),Proposal.sort_unworded (hfound env)]
    simp only [List.map_flatMap, Rule.proposals, Proposal.collect_unworded, candidates_unworded]
  have hoptions : (env.withTexts texts).options = env.options := rfl
  unfold proposalsAt
  rw [hoptions]
  cases env.options.maxProposals with
  | none => exact hsorted
  | some max => simp only [List.map_take, hsorted]

end Languages

/-- Changing the language changes neither what is offered nor in which order: place by place the
proposals have the same kind, the same text and the same typed text. -/
theorem proposals_same_in_every_language (env : Environment) (texts other : Texts)
    (path : String) :
    (proposals (env.withTexts texts) path).map (fun p => (p.category, p.text, p.typed)) =
      (proposals (env.withTexts other) path).map fun p => (p.category, p.text, p.typed) := by
  have hsame : ∀ texts, (proposals (env.withTexts texts) path).map Proposal.unworded =
      (proposals env path).map Proposal.unworded := by
    intro texts
    obtain ⟨init,last,hsplit⟩ := split_eq_append path
    rw [proposals_of_split hsplit,proposals_of_split hsplit,settle?_withTexts]
    cases settle? env [] init with
    | none => rfl
    | some trail =>
        by_cases hsep : last.separator = .missing
        · simp only [if_pos hsep]
        · simp only [if_neg hsep]
          exact proposalsAt_unworded env texts trail last.text
  have hworded := (hsame texts).trans (hsame other).symm
  -- Kind, text and typed text can be read off what is left without the wording.
  have hread := congrArg (List.map fun p : Proposal => (p.category, p.text, p.typed)) hworded
  rw [List.map_map,List.map_map] at hread
  exact hread

end FormulaPath
