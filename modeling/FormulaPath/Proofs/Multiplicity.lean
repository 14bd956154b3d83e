import FormulaPath.Proofs.Acceptance
import FormulaPath.Proofs.QualifierOffer

/-!
# Steps along an association yield what their labels announce

A step along an association is offered bare, with an index or with a qualifier, and the label of
each form announces one target or many. The labels are computed from the association and from the
path in front of it. Resolution carries the answer in the types of the nodes instead, and for a
qualifier it looks back past the association. `association_steps_announced` compares the two for
every trail. On the side of the proposals, `associationCandidates_eq` lists the forms that are
offered, and a candidate determines its form and its announcement (`candidate_inj`).
-/
namespace FormulaPath
open FormulaPath.Path

/-- The forms in which a step along an association can be offered. -/
inductive StepForm where
  | bare
  | indexed
  | qualified
deriving DecidableEq, Repr

namespace StepForm

/-- What stands behind the name of the association. -/
def placeholder (o : Options) : StepForm → String
  | bare => ""
  | indexed => o.indexPlaceholder
  | qualified => o.qualifierPlaceholder

/-- What the author of a formula is told about the form. -/
def help : StepForm → String
  | bare => ""
  | indexed => indexHelp ++ "\n"
  | qualified => qualifierHelp ++ "\n"

/-- The candidate for a step, whose label announces one target or many. -/
def candidate (env : Environment) (a : Association) (form : StepForm) (many : Bool) : Candidate :=
  let text := a.name ++ form.placeholder env.options
  ⟨text, stepLabel text a many, form.help ++ env.texts.describe (.assoc a), .assoc⟩

/-- The proposal for a step when nothing was typed of it. -/
def proposal (env : Environment) (a : Association) (form : StepForm) (many : Bool) : Proposal :=
  ⟨form.candidate env a many, ""⟩

/-- Whether an association is offered in the form. -/
def isOffered (a : Association) : StepForm → Bool
  | bare => !a.isManyUnqualified
  | indexed => a.isManyUnqualified
  | qualified => a.qualified

/-- Whether the label announces many targets behind a path that is list valued or not. -/
def announces (a : Association) (list : Bool) : StepForm → Bool
  | bare => list
  | indexed => false
  | qualified => a.isMany || list

theorem help_inj {form other : StepForm} (h : form.help = other.help) : form = other := by
  revert h
  cases form <;> cases other <;> decide

/-- A label says whether it announces many targets, also for a target that is called a list. -/
theorem stepLabel_inj {text : String} {a : Association} {many other : Bool}
    (h : stepLabel text a many = stepLabel text a other) : many = other := by
  have hlist : "list of " ++ a.target ≠ a.target := by
    intro heq
    have hlength := congrArg String.length heq
    rw [String.length_append] at hlength
    exact absurd (Nat.add_eq_right.mp hlength) (by decide)
  simp only [stepLabel, typedLabel, String.append_right_inj] at h
  cases many <;> cases other <;> simp_all [hlist.symm]

theorem candidate_inj {env : Environment} {a : Association} {form other : StepForm}
    {many others : Bool} (h : form.candidate env a many = other.candidate env a others) :
    form = other ∧ many = others := by
  have hhelp := congrArg Candidate.description h
  obtain rfl := help_inj ((String.append_left_inj _).mp hhelp)
  exact ⟨rfl,stepLabel_inj (congrArg Candidate.label h)⟩

end StepForm

/-- The proposals for the steps along one association when nothing was typed. -/
def stepProposals (env : Environment) (trail : Trail) (a : Association) : List Proposal :=
  Proposal.collect "" (Rule.associationCandidates env trail.isList a)

section Proposals
variable {env : Environment} {trail : Trail} {a : Association}

theorem associationCandidates_eq (list : Bool) :
    Rule.associationCandidates env list a =
      ([.bare, .indexed, .qualified].filter (StepForm.isOffered a)).map fun form =>
        form.candidate env a (form.announces a list) := by
  cases hmany : a.isManyUnqualified <;> cases hqualified : a.qualified <;>
    simp [Rule.associationCandidates, StepForm.isOffered, StepForm.announces, StepForm.candidate,
      StepForm.placeholder, StepForm.help, hmany, hqualified]

theorem mem_stepProposals_iff {p : Proposal} :
    p ∈ stepProposals env trail a ↔ ∃ form, StepForm.isOffered a form = true ∧
      p = form.proposal env a (form.announces a trail.isList) := by
  have hforms : ∀ form, form ∈ [StepForm.bare, .indexed, .qualified] := by
    intro form
    cases form <;> decide
  rw [stepProposals,mem_collect_iff,associationCandidates_eq,List.mem_map]
  constructor
  · rintro ⟨⟨form,hform,hp⟩,-,htyped⟩
    refine ⟨form,(List.mem_filter.mp hform).2,?_⟩
    rw [StepForm.proposal,hp,← htyped]
  · rintro ⟨form,hform,rfl⟩
    exact ⟨⟨form,List.mem_filter.mpr ⟨hforms form,hform⟩,rfl⟩,Text.startsUpToCase_empty _,rfl⟩

theorem proposal_mem_stepProposals_iff {form : StepForm} {many : Bool} :
    form.proposal env a many ∈ stepProposals env trail a ↔
      StepForm.isOffered a form = true ∧ many = form.announces a trail.isList := by
  rw [mem_stepProposals_iff]
  constructor
  · rintro ⟨other,hother,heq⟩
    obtain ⟨rfl,hmany⟩ := StepForm.candidate_inj (congrArg Proposal.toCandidate heq)
    exact ⟨hother,hmany⟩
  · rintro ⟨hform,rfl⟩
    exact ⟨form,hform,rfl⟩

theorem proposals_eq_flatMap_stepProposals {owner : Datatype}
    (howner : trail.memberType? env = some owner) :
    Rule.assoc.proposals env trail "" =
      (env.schema.associations owner.name).flatMap (stepProposals env trail) := by
  simp only [Rule.proposals, Rule.candidates, Rule.assocCandidates, howner, Proposal.collect,
    List.filter_flatMap, List.map_flatMap]
  rfl

end Proposals

section Resolution
variable {env : Environment} {trail : Trail} {a : Association} {t : Datatype} {region : Region}
  {part : Part}

/-- Behind a step to a list every index resolves, and it picks one element. -/
theorem partNode_index {digits : List Char} (hlist : t.isList = true)
    (hsep : part.separator ≠ .missing) (htext : part.text.toList = '[' :: (digits ++ [']']))
    {position : Nat} (hindex : Bracket.index? digits = some position) :
    partNode env (⟨region, .resolved (.assoc a) t⟩ :: trail) part =
      ⟨part.region, .resolved (.index position) t.element⟩ := by
  have hopen : isBracketText part.text = true := by simp [isBracketText, htext]
  have hallows : Rule.allowsIndex a ⟨region, .resolved (.assoc a) t⟩ = true := by
    simp [Rule.allowsIndex, Node.referent?, Meaning.referent?, Node.isList, Node.datatype?,
      Meaning.datatype?, hlist]
  apply partNode_of_denotes_bracket hsep hopen
  exact .index hopen rfl (Bracket.ofText_of_index? htext hindex) rfl hallows rfl

/-- A qualifier behind a step selects many targets if the association has many for each qualifier,
or if the path was list valued before the step. -/
theorem isList_qualifier
    (h : (partNode env (⟨region, .resolved (.assoc a) t⟩ :: trail) part).category? =
      some .qualifier) :
    (partNode env (⟨region, .resolved (.assoc a) t⟩ :: trail) part).isList =
      (a.isMany || trail.isList) := by
  obtain ⟨r,hr,hcategory⟩ := Option.map_eq_some_iff.mp h
  obtain ⟨-,rule,s,u,hnode,hdenotes⟩ := denotes_of_partNode (isInvalid_of_referent? hr)
  rw [hnode] at hr ⊢
  cases hr
  cases hdenotes with
  | qualifier hopen ha =>
      cases ha
      simp [Node.isList, Node.datatype?, Meaning.datatype?, Datatype.isList_asListIf]
  | _ => cases hcategory

end Resolution

/-- What the steps along `a` announce behind `trail`, if the name of `a` resolves to the type `t`
there. -/
structure StepsAnnounced (env : Environment) (trail : Trail) (a : Association) (t : Datatype) :
    Prop where
  /-- Nothing is offered for `a` but its steps. -/
  forms : ∀ p ∈ stepProposals env trail a, ∃ form many, p = StepForm.proposal env a form many
  /-- The bare step is offered unless it reaches many targets, and announces what it resolves to. -/
  bare : ∀ many, StepForm.bare.proposal env a many ∈ stepProposals env trail a ↔
    a.isManyUnqualified = false ∧ many = t.isList
  /-- The step with an index is offered otherwise, and announces one target. -/
  indexed : ∀ many, StepForm.indexed.proposal env a many ∈ stepProposals env trail a ↔
    a.isManyUnqualified = true ∧ many = false
  /-- Each index then resolves to one element. -/
  index : a.isManyUnqualified = true → ∀ (region : Region) (part : Part) (digits : List Char),
    part.separator ≠ .missing → part.text.toList = '[' :: (digits ++ [']']) → digits ≠ [] →
    digits.all Char.isDigit = true → Text.decimal digits < Bracket.indexCount →
    ∃ u, partNode env (⟨region, .resolved (.assoc a) t⟩ :: trail) part =
      ⟨part.region, .resolved (.index (Text.decimal digits)) u⟩ ∧ u.isList = false
  /-- The step with a qualifier is offered for a qualified association. -/
  qualified : (∃ many, StepForm.qualified.proposal env a many ∈ stepProposals env trail a) ↔
    a.qualified = true
  /-- Each qualifier that resolves then yields what is announced. -/
  qualifier : ∀ many, StepForm.qualified.proposal env a many ∈ stepProposals env trail a →
    ∀ (region : Region) (part : Part),
      (partNode env (⟨region, .resolved (.assoc a) t⟩ :: trail) part).category? =
        some .qualifier →
      (partNode env (⟨region, .resolved (.assoc a) t⟩ :: trail) part).isList = many

/-- The type to which the name of an association resolves decides what its steps announce. -/
theorem stepsAnnounced_of_isList {env : Environment} {trail : Trail} {a : Association}
    {t : Datatype} (ht : t.isList = (a.isManyUnqualified || trail.isList)) :
    StepsAnnounced env trail a t where
  forms := by
    intro p hp
    obtain ⟨form,-,rfl⟩ := mem_stepProposals_iff.mp hp
    exact ⟨form,_,rfl⟩
  bare := by
    intro many
    rw [proposal_mem_stepProposals_iff]
    cases hmany : a.isManyUnqualified <;>
      simp [StepForm.isOffered, StepForm.announces, ht, hmany]
  indexed := fun many => proposal_mem_stepProposals_iff
  index := by
    intro hmany region part digits hsep htext hne hdigits hlt
    have hlist : t.isList = true := by rw [ht,hmany,Bool.true_or]
    have hindex := Bracket.index?_eq_some_iff.mpr ⟨hne,hdigits,rfl,hlt⟩
    exact ⟨t.element,partNode_index hlist hsep htext hindex,t.isList_element⟩
  qualified := by
    simp only [proposal_mem_stepProposals_iff]
    simp [StepForm.isOffered]
  qualifier := by
    intro many hmem region part hnode
    rw [(proposal_mem_stepProposals_iff.mp hmem).2]
    exact isList_qualifier hnode

/-- The proposals for the associations of a type are those for the steps along each of them. The
name of each association resolves, and its steps announce what they then yield. -/
theorem association_steps_announced (m : Model) (env : Environment) {trail : Trail}
    {owner target : Datatype} {a : Association}
    (howner : trail.memberType? (env.withModel m) = some owner)
    (ha : a ∈ m.associations owner.name) (htarget : m.datatype? a.target = some target)
    (hname : isBracketText a.name = false) :
    Rule.assoc.proposals (env.withModel m) trail "" =
        (m.associations owner.name).flatMap (stepProposals (env.withModel m) trail) ∧
      ∃ t, Rule.assocMeaning? (env.withModel m) trail a.name = some (.resolved (.assoc a) t) ∧
        StepsAnnounced (env.withModel m) trail a t := by
  have hfind : (m.associations owner.name).find? (·.name == a.name) = some a :=
    find?_of_pairwise (keepFirst_pairwise _ _) ha
  refine ⟨proposals_eq_flatMap_stepProposals howner,
    target.asListIf (a.isManyUnqualified || trail.isList),?_,?_⟩
  · exact Rule.assocMeaning?_resolved_iff.mpr (.assoc hname howner hfind htarget)
  · apply stepsAnnounced_of_isList
    rw [Datatype.isList_asListIf,Model.isList_datatype? htarget,Bool.false_or]

/-- Behind a list, a qualifier announces many targets although it leaves one of each element. -/
theorem association_steps_announced_parts :
    let env := sampleEnvironment.withModel sampleModel
    let parts : Association := ⟨"parts", "Cover", "Cover", 1, true, none, none⟩
    ∃ trail t, settle? env [] (split "covers") = some trail ∧
      Rule.assocMeaning? env trail "parts" = some (.resolved (.assoc parts) t) ∧
      StepForm.indexed.proposal env parts false ∈ Rule.assoc.proposals env trail "" ∧
      StepForm.qualified.proposal env parts true ∈ Rule.assoc.proposals env trail "" ∧
      (partNode env (⟨Region.empty 7, .resolved (.assoc parts) t⟩ :: trail)
        ⟨"[\"BASE\"]", Region.empty 12, .bracket⟩).isList = true := by
  intro env parts
  let covers : Association := ⟨"covers", "Contract", "Cover", 5, true, none, none⟩
  let trail : Trail := [⟨Region.span 0 6, .resolved (.assoc covers) (.list (.policy "Cover"))⟩]
  have hparts : parts ∈ sampleModel.associations "Cover" := by decide +kernel
  obtain ⟨hoffers,t,hmeaning,hsteps⟩ := association_steps_announced sampleModel sampleEnvironment
    (show trail.memberType? env = some (.policy "Cover") from rfl) hparts
    (show sampleModel.datatype? "Cover" = some (.policy "Cover") by decide +kernel)
    (by decide +kernel)
  have hindexed := (hsteps.indexed false).mpr ⟨rfl,rfl⟩
  have hqualified : StepForm.qualified.proposal env parts true ∈ stepProposals env trail parts :=
    proposal_mem_stepProposals_iff.mpr ⟨rfl,rfl⟩
  have hmem : ∀ p ∈ stepProposals env trail parts, p ∈ Rule.assoc.proposals env trail "" := by
    intro p hp
    rw [hoffers]
    exact List.mem_flatMap.mpr ⟨parts,hparts,hp⟩
  have hname : Rule.assocMeaning? env trail "parts" =
      some (.resolved (.assoc parts) (.list (.policy "Cover"))) := by decide +kernel
  obtain rfl : t = .list (.policy "Cover") := by
    cases hmeaning.symm.trans hname
    rfl
  refine ⟨trail,_,by decide +kernel,hname,hmem _ hindexed,hmem _ hqualified,?_⟩
  exact hsteps.qualifier true hqualified _ _ (by decide +kernel)

end FormulaPath
