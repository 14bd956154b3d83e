import FormulaPath.Proofs.Offer
import FormulaPath.Proofs.ProposalOrder

/-!
# Typing on narrows the proposals

An editor that has the proposals for a path may filter them while the author types on, instead of
asking again. This is right as long as the author stays inside one name: the parts in front of it
are cut and resolved as before, no rule looks at what was typed of a name, a candidate that fits the
longer text also fits the shorter one, and leaving proposals out does not change the order of the
others. A bracket is left out, since its candidates depend on what was typed of it.
-/
namespace FormulaPath
open FormulaPath.Path

theorem Text.startsUpToCase_of_append {text typed more : String}
    (h : startsUpToCase text (typed ++ more) = true) : startsUpToCase text typed = true := by
  rw [startsUpToCase_iff,lower_append] at h
  exact startsUpToCase_iff.mpr ((List.prefix_append _ _).trans h)

namespace Proposal

/-- Those of the proposals that go on with a typed text, as they are offered for it. -/
def narrow (typed : String) (ps : List Proposal) : List Proposal :=
  (ps.filter (·.fits typed)).map fun p => { p with typed }

theorem narrow_flatMap {α : Type} (typed : String) (as : List α) (found : α → List Proposal) :
    narrow typed (as.flatMap found) = as.flatMap fun a => narrow typed (found a) := by
  simp only [narrow, List.filter_flatMap, List.map_flatMap]

theorem collect_append (typed more : String) (cs : List Candidate) :
    collect (typed ++ more) cs = narrow (typed ++ more) (collect typed cs) := by
  have hfits : ∀ c : Candidate,
      c.fits (typed ++ more) = (c.fits (typed ++ more) && c.fits typed) := by
    intro c
    cases hmore : c.fits (typed ++ more) with
    | false => rfl
    | true => exact (Text.startsUpToCase_of_append hmore).symm
  unfold narrow collect
  rw [List.filter_map,List.map_map,List.filter_filter]
  simp only [Function.comp_def, ← hfits]

theorem cmp_retyped {p q : Proposal} (h : p.typed = q.typed) (typed : String) :
    cmp { p with typed } { q with typed } = cmp p q := by
  simp [cmp, compareLex, compareOn, h]

/-- Proposals for one and the same text keep their order when the text grows. -/
theorem sort_narrow {ps : List Proposal} {before : String} (h : ∀ p ∈ ps, p.typed = before)
    (typed : String) : sort (narrow typed ps) = narrow typed (sort ps) := by
  apply sort_map_filter
  intro p hp q hq hle
  have hsame : p.typed = q.typed := (h p hp).trans (h q hq).symm
  unfold le at hle ⊢
  rw [cmp_retyped hsame]
  exact hle

end Proposal

section Typing
variable {env : Environment} {trail : Trail} {typed more : String}

/-- What a rule can complete a name to does not depend on what was typed of the name. -/
theorem Rule.candidates_of_name (rule : Rule) {longer : String}
    (htyped : isBracketText typed = false) (hlonger : isBracketText longer = false) :
    rule.candidates env trail longer = rule.candidates env trail typed := by
  cases rule with
  | bracket =>
      simp [candidates, bracketCandidates, isOpenQualifier, htyped, hlonger]
  | param => rfl
  | attr => rfl
  | assoc => rfl
  | enumeration => rfl

theorem proposalsAt_append (hmax : env.options.maxProposals = none)
    (htyped : isBracketText typed = false) (hlonger : isBracketText (typed ++ more) = false) :
    proposalsAt env trail (typed ++ more) =
      Proposal.narrow (typed ++ more) (proposalsAt env trail typed) := by
  have hrule : ∀ rule : Rule, rule.proposals env trail (typed ++ more) =
      Proposal.narrow (typed ++ more) (rule.proposals env trail typed) := by
    intro rule
    unfold Rule.proposals
    rw [rule.candidates_of_name htyped hlonger,Proposal.collect_append]
  have hfound : ∀ p ∈ Rule.inOrder.flatMap (fun rule => rule.proposals env trail typed),
      p.typed = typed := by
    intro p hp
    obtain ⟨rule,-,hp⟩ := List.mem_flatMap.mp hp
    exact (mem_collect_iff.mp hp).2.2
  unfold proposalsAt
  rw [hmax]
  simp only [hrule]
  rw [← Proposal.narrow_flatMap,Proposal.sort_narrow hfound]

end Typing

/-- Typing more of a name narrows the list: of the proposals for the shorter path, those stay whose
text goes on with the longer name, in the same order, and nothing about them changes but the text
that was typed. -/
theorem proposals_narrow (env : Environment) (hmax : env.options.maxProposals = none)
    {path more : String} (hname : isBracketText (lastText path) = false)
    (hmore : ∀ c ∈ more.toList, c ≠ '.' ∧ c ≠ '[') :
    proposals env (path ++ more) =
      Proposal.narrow (lastText path ++ more) (proposals env path) := by
  obtain ⟨init,last,hsplit⟩ := split_eq_append path
  rw [lastText_of_split hsplit] at hname ⊢
  have hlonger : ∀ c ∈ (last.text ++ more).toList, endsName c = false := by
    intro c hc
    rw [String.toList_append,List.mem_append] at hc
    rcases hc with hc | hc
    · exact name_of_split hsplit hname c hc
    · simpa [endsName] using hmore c hc
  obtain ⟨region,hsplit'⟩ := split_append_name hsplit hlonger
  rw [proposals_of_split hsplit',proposals_of_split hsplit]
  cases settle? env [] init with
  | none => rfl
  | some trail =>
      by_cases hsep : last.separator = .missing
      · simp only [if_pos hsep]
        rfl
      · simp only [if_neg hsep]
        exact proposalsAt_append hmax hname (isBracketText_of_name hlonger)

theorem proposals_narrow_premium :
    (∃ p ∈ proposals sampleEnvironment "P", p.text = "premium") ∧
      proposals sampleEnvironment ("P" ++ "REM") =
        Proposal.narrow (lastText "P" ++ "REM") (proposals sampleEnvironment "P") := by
  have hsplit : split "P" = [] ++ [⟨"P", Region.span 0 1, .start⟩] := by decide +kernel
  have hcandidate : ∃ c ∈ Rule.attr.candidates sampleEnvironment [] "P", c.text = "premium" := by
    decide +kernel
  obtain ⟨c,hc,htext⟩ := hcandidate
  have hp := mem_proposals_of_candidate rfl hsplit rfl (by decide) hc
    (by rw [htext]; decide +kernel)
  exact ⟨⟨_,hp,htext⟩,proposals_narrow sampleEnvironment rfl (by decide +kernel) (by simp)⟩

end FormulaPath
