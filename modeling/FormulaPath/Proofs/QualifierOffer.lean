import FormulaPath.Proofs.Offer
import FormulaPath.Proofs.Terminated

/-!
# Qualifiers that are offered and qualifiers that resolve

A bracket behind an association is completed to the components that the association can choose from,
one by one, while resolution looks at the first component of a name only. So an offered qualifier
resolves exactly if the first component of its name has a runtime id.

The other way round, a qualifier that resolves is offered while its literal is still open, except
right behind a `]` inside the literal: completion takes that for the end of the bracket, although
splitting does not.
-/
namespace FormulaPath
open FormulaPath.Path

namespace Path
open Text Separator

/-- Inside a literal the scan of a bracket passes everything but a quote. -/
theorem takeBracket_literal {name : List Char} (h : '"' ∉ name) (r : List Char) :
    takeBracket true (name ++ r) =
      (name ++ (takeBracket true r).1, (takeBracket true r).2) := by
  induction name with
  | nil => rfl
  | cons c name ih =>
      rw [List.mem_cons,not_or] at h
      simp [takeBracket, Ne.symm h.1, ih h.2]

theorem takePart_literal {name : List Char} (h : '"' ∉ name) (r : List Char) :
    takePart ('[' :: '"' :: (name ++ r)) =
      ('[' :: '"' :: (name ++ (takeBracket true r).1), (takeBracket true r).2) := by
  simp [takePart, takeBracket, takeBracket_literal h]

theorem takePart_qualifierText {name : String} (h : '"' ∉ name.toList) :
    (takePart (Bracket.qualifierText name).toList).2 = [] := by
  rw [Bracket.toList_qualifierText,takePart_literal h]
  rfl

/-- What was typed of a qualifier before its closing quote is one part. -/
theorem takePart_open_qualifier {typed name : String} (h : '"' ∉ name.toList)
    (htyped : typed.toList <+: '[' :: '"' :: name.toList) (hopen : isBracketText typed = true) :
    (takePart typed.toList).2 = [] := by
  obtain ⟨body,hbody⟩ := toList_of_isBracketText hopen
  rw [hbody,List.cons_prefix_cons] at htyped
  rw [hbody]
  cases body with
  | nil => rfl
  | cons c chars =>
      rw [List.cons_prefix_cons] at htyped
      obtain ⟨-,rfl,hchars⟩ := htyped
      have hfree : '"' ∉ chars := fun hquote => h (hchars.subset hquote)
      have htake := takePart_literal hfree []
      rw [List.append_nil] at htake
      rw [htake]
      rfl

/-- If the last part has all the characters, it is the only part. -/
theorem splitFrom_of_last {sep : Separator} {start : Nat} {cs : List Char} {init : List Part}
    {last : Part} (h : splitFrom sep start cs = init ++ [last]) (htext : last.text.toList = cs) :
    (takePart cs).2 = [] := by
  obtain ⟨front,rest,hcut,hnil,-,hlast,-⟩ := splitFrom_resume h
  have hrest := (splitFrom_singleton hlast).2
  rw [hrest,String.toList_ofList] at htext
  have hfront : front = [] := by
    rw [htext] at hcut
    simpa using hcut
  rw [hnil.mp hfront,List.nil_append] at h
  exact (splitFrom_singleton h).1

/-- What is typed as the last part of a path is one part. -/
theorem takePart_of_lastText {path typed : String} (hclosed : endsOpen path = false)
    (hlast : lastText path ≠ "") (htyped : isBracketText typed = true)
    (hpart : lastText (path ++ typed) = typed) : (takePart typed.toList).2 = [] := by
  have hsplit := split_append_bracket hclosed hlast htyped
  have hparts := List.dropLast_append_getLast
    (splitFrom_ne_nil .bracket path.utf8ByteSize typed.toList)
  rw [← hparts,← List.append_assoc] at hsplit
  rw [lastText_of_split hsplit] at hpart
  exact splitFrom_of_last hparts.symm (congrArg String.toList hpart)

theorem split_append_part {path text : String} (hclosed : endsOpen path = false)
    (hlast : lastText path ≠ "") (htext : isBracketText text = true)
    (hpart : (takePart text.toList).2 = []) :
    ∃ region, split (path ++ text) = split path ++ [⟨text, region, .bracket⟩] := by
  refine ⟨Region.span path.utf8ByteSize (bytes text.toList),?_⟩
  rw [split_append_bracket hclosed hlast htext,splitFrom_last hpart,String.ofList_toList]

/-- A last part in brackets can be exchanged for another bracket: the other parts stay, and so does
the separator. -/
theorem split_exchange {path text typed : String} {init : List Part} {last : Part}
    (hsplit : split (path ++ text) = init ++ [last]) (hlast : last.text = text)
    (htext : isBracketText text = true) (htyped : isBracketText typed = true)
    (hpart : (takePart typed.toList).2 = []) :
    ∃ region, split (path ++ typed) = init ++ [⟨typed, region, last.separator⟩] := by
  obtain ⟨front,rest,hcut,-,hshown,hresume,hframe⟩ := splitFrom_resume hsplit
  have hrest : rest = text.toList := by
    rw [← hlast,(splitFrom_singleton hresume).2,String.toList_ofList]
  have hfront : front = path.toList := by
    rw [hrest,String.toList_append] at hcut
    exact (List.append_cancel_right hcut).symm
  obtain ⟨body,hbody⟩ := toList_of_isBracketText htext
  obtain ⟨chars,hchars⟩ := toList_of_isBracketText htyped
  -- A separator shows itself in the first character, and both texts begin with the same.
  have hopens : init = [] ∨ last.separator.Opens typed.toList := by
    refine hshown.imp_right fun hopens => ?_
    have hbracket : last.separator.Opens (['['] ++ body) := by rwa [hrest,hbody] at hopens
    rw [hchars]
    exact hbracket.replace (by simp) chars
  refine ⟨Region.span (bytes front) (bytes typed.toList),?_⟩
  rw [split,String.toList_append,← hfront,hframe _ hopens,splitFrom_last hpart]
  simp

theorem isBracketText_qualifierText (name : String) :
    isBracketText (Bracket.qualifierText name) = true := by
  simp [isBracketText, Bracket.toList_qualifierText]

end Path

/-- The kinds of things that a rule offers. -/
def Rule.offers : Rule → List Category
  | .param => [.param]
  | .attr => [.attr]
  | .assoc => [.assoc]
  | .enumeration => [.enumClass, .enumValue]
  | .bracket => [.qualifier]

/-- The chain ends in the association `a`, behind which nothing but qualifiers stands. -/
def EndsInAssociation (chain : List Node) (a : Association) : Prop :=
  ∃ before node quals, chain = before ++ node :: quals ∧ node.referent? = some (.assoc a) ∧
    ∀ n ∈ quals, n.category? = some .qualifier

section Brackets
variable {env : Environment} {trail : Trail} {text typed name : String}

theorem association?_append {quals : List Node} (h : ∀ n ∈ quals, n.category? = some .qualifier) :
    Trail.association? (quals ++ trail) = trail.association? := by
  induction quals with
  | nil => rfl
  | cons n quals ih =>
      obtain ⟨r,hr,hcategory⟩ := Option.map_eq_some_iff.mp (h n List.mem_cons_self)
      rw [List.cons_append,Trail.association?,hr]
      cases r with
      | qualifier => exact ih fun m hm => h m (List.mem_cons_of_mem _ hm)
      | _ => cases hcategory

theorem EndsInAssociation.association? {chain : List Node} {a : Association}
    (h : EndsInAssociation chain a) :
    ∃ before, Trail.association? chain.reverse = some (a, before) := by
  obtain ⟨before,node,quals,rfl,hnode,hquals⟩ := h
  have hreverse : ∀ n ∈ quals.reverse, n.category? = some .qualifier := by simpa using hquals
  refine ⟨before.reverse,?_⟩
  rw [List.reverse_append,List.reverse_cons,List.append_assoc,association?_append hreverse]
  simp [Trail.association?, hnode]

/-- An association in a chain has a target of a known type. -/
theorem target_of_mem_resolve {path : String} {node : Node} {a : Association}
    (hnode : node ∈ resolve env path) (ha : node.referent? = some (.assoc a)) :
    (env.schema.datatype? a.target).isSome = true := by
  rw [resolve_eq (ne_empty_of_referent? hnode ha)] at hnode
  obtain ⟨i,hi⟩ := List.mem_iff_getElem?.mp hnode
  obtain ⟨part,rule,r,t,rfl,hdenotes⟩ := denotes_at hi (isInvalid_of_referent? ha)
  cases ha
  cases hdenotes with
  | assoc _ _ _ htarget => simp [htarget]

theorem partNode_of_denotes_bracket {part : Part} {r : Referent} {t : Datatype}
    (hsep : part.separator ≠ .missing) (htext : isBracketText part.text = true)
    (h : Denotes env trail part.text .bracket r t) :
    partNode env trail part = ⟨part.region, .resolved r t⟩ := by
  simp [partNode, partMeaning, hsep, Rule.decide?_of_bracket htext,
    Rule.bracketMeaning?_resolved_iff.mpr h]

theorem partNode_of_bracket {r : Referent} {t : Datatype}
    (h : Denotes env trail text .bracket r t) (htext : isBracketText text = true)
    (region : Region) :
    partNode env trail ⟨text, region, .bracket⟩ = ⟨region, .resolved r t⟩ :=
  partNode_of_denotes_bracket nofun htext h

theorem mem_bracketCandidates_iff {c : Candidate} :
    c ∈ Rule.bracketCandidates env trail typed ↔ Rule.isOpenQualifier typed = true ∧
      ∃ a before component, trail.association? = some (a, before) ∧
        component ∈ Scope.components env a ∧ component.runtimeId.isSome = true ∧
        c = ⟨Bracket.qualifierText component.name,
          typedLabel component.name component.productType,
          env.texts.describe (.component component), .qualifier⟩ := by
  unfold Rule.bracketCandidates
  by_cases hopen : Rule.isOpenQualifier typed = true
  · cases ha : trail.association? with
    | none => simp [hopen]
    | some found =>
        simp only [hopen, Bool.not_true, Bool.false_eq_true, if_false, List.mem_map,
          List.mem_filter, true_and]
        constructor
        · rintro ⟨component,⟨hmem,hid⟩,rfl⟩
          exact ⟨found.1,found.2,component,rfl,hmem,hid,rfl⟩
        · rintro ⟨a,before,component,hfound,hmem,hid,rfl⟩
          cases hfound
          exact ⟨component,⟨hmem,hid⟩,rfl⟩
  · simp [hopen]

theorem attributeCandidates_category {a : Attribute} {c : Candidate}
    (h : c ∈ Rule.attributeCandidates env a) : c.category = .attr := by
  simp only [Rule.attributeCandidates] at h
  split at h
  · rcases List.mem_pair.mp h with rfl | rfl <;> rfl
  · rw [List.mem_singleton.mp h]

theorem associationCandidates_category {list : Bool} {a : Association} {c : Candidate}
    (h : c ∈ Rule.associationCandidates env list a) : c.category = .assoc := by
  simp only [Rule.associationCandidates] at h
  by_cases hqualified : a.qualified = true
  · rw [if_pos hqualified] at h
    rcases List.mem_pair.mp h with rfl | rfl
    · split <;> rfl
    · rfl
  · rw [if_neg hqualified] at h
    rw [List.mem_singleton.mp h]
    split <;> rfl

/-- A rule offers things of its own kinds only. -/
theorem category_of_candidate {rule : Rule} {c : Candidate}
    (hc : c ∈ rule.candidates env trail typed) : c.category ∈ rule.offers := by
  cases rule with
  | param =>
      simp only [Rule.candidates, Rule.paramCandidates] at hc
      split at hc
      · cases hc
      · obtain ⟨p,-,rfl⟩ := List.mem_map.mp hc
        exact List.mem_singleton_self _
  | attr =>
      simp only [Rule.candidates, Rule.attrCandidates] at hc
      split at hc
      · cases hc
      · obtain ⟨a,-,hc⟩ := List.mem_flatMap.mp hc
        exact List.mem_singleton.mpr (attributeCandidates_category hc)
  | assoc =>
      simp only [Rule.candidates, Rule.assocCandidates] at hc
      split at hc
      · cases hc
      · obtain ⟨a,-,hc⟩ := List.mem_flatMap.mp hc
        exact List.mem_singleton.mpr (associationCandidates_category hc)
  | enumeration =>
      simp only [Rule.candidates, Rule.enumCandidates] at hc
      split at hc
      · obtain ⟨e,-,rfl⟩ := List.mem_map.mp hc
        simp [Rule.offers]
      · split at hc
        · cases hc
        · obtain ⟨v,-,rfl⟩ := List.mem_map.mp hc
          simp [Rule.offers]
  | bracket =>
      obtain ⟨-,a,before,component,-,-,-,rfl⟩ := mem_bracketCandidates_iff.mp hc
      exact List.mem_singleton_self _

/-- A qualifier that is offered names a component of the association with a runtime id. -/
theorem component_of_proposal {p : Proposal} (hp : p ∈ proposalsAt env trail typed)
    (hkind : p.category = .qualifier) : Rule.isOpenQualifier typed = true ∧
      ∃ a before component, trail.association? = some (a, before) ∧
        component ∈ Scope.components env a ∧ component.runtimeId.isSome = true ∧
        p.text = Bracket.qualifierText component.name := by
  obtain ⟨rule,-,hc,-⟩ := mem_proposalsAt hp
  obtain rfl : rule = .bracket := by
    have hoffers : Category.qualifier ∈ rule.offers := hkind ▸ category_of_candidate hc
    cases rule <;> simp_all [Rule.offers]
  obtain ⟨hopen,a,before,component,ha,hmem,hid,heq⟩ := mem_bracketCandidates_iff.mp hc
  exact ⟨hopen,a,before,component,ha,hmem,hid,congrArg Candidate.text heq⟩

theorem qualifierText_injective {name other : String}
    (h : Bracket.qualifierText name = Bracket.qualifierText other) : name = other := by
  have hread := congrArg Bracket.ofText h
  rw [Bracket.ofText_qualifierText,Bracket.ofText_qualifierText] at hread
  exact Bracket.qualifier.inj hread

/-- Where a qualifier resolves, the first component of its name has a runtime id. -/
theorem Denotes.of_qualifierText {rule : Rule} {r : Referent} {t : Datatype}
    (h : Denotes env trail (Bracket.qualifierText name) rule r t) :
    ∃ a before first, trail.association? = some (a, before) ∧
      (Scope.components env a).find? (·.name == name) = some first ∧
      first.runtimeId.isSome = true := by
  have hbracket := isBracketText_qualifierText name
  cases h with
  | index _ _ htext => simp at htext
  | @qualifier a before first other runtimeId _ _ ha htext hfirst hid =>
      obtain rfl : name = other := by simpa using htext
      exact ⟨a,before,first,ha,hfirst,by rw [hid]; rfl⟩
  | _ => simp_all

/-- What a component configures has a type, at least that of the targets. -/
theorem isSome_subject? {a : Association}
    (htarget : (env.schema.datatype? a.target).isSome = true) (c : Component) :
    (Scope.subject? env a c).isSome = true := by
  unfold Scope.subject?
  rw [Option.isSome_or,htarget,Bool.or_true]

theorem denotes_qualifierText {a : Association} {before : Trail} {first : Component}
    {runtimeId : String} (ha : trail.association? = some (a, before))
    (htarget : (env.schema.datatype? a.target).isSome = true)
    (hfirst : (Scope.components env a).find? (·.name == name) = some first)
    (hid : first.runtimeId = some runtimeId) :
    ∃ t, Denotes env trail (Bracket.qualifierText name) .bracket
      (.qualifier name runtimeId first) t := by
  obtain ⟨t,ht⟩ := Option.isSome_iff_exists.mp (isSome_subject? htarget first)
  exact ⟨_,.qualifier (isBracketText_qualifierText name) ha (Bracket.ofText_qualifierText name)
    hfirst hid ht⟩

end Brackets

/-- Take a path that ends in an association and, behind it, qualifiers. A qualifier that is offered
for a bracket behind the path names a component of the association. Put in place of the bracket, it
resolves exactly if the first component of this name has a runtime id. -/
theorem offered_qualifier_resolves_iff (env : Environment) {path typed name : String}
    {a : Association} {p : Proposal} (hvalid : ∀ node ∈ resolve env path, node.isInvalid = false)
    (hends : EndsInAssociation (resolve env path) a)
    (hclosed : ∀ part ∈ split path, part.isBracket = true → isTerminated part.text = true)
    (hlast : lastText path ≠ "") (htyped : isBracketText typed = true)
    (hpart : lastText (path ++ typed) = typed) (hp : p ∈ proposals env (path ++ typed))
    (hkind : p.category = .qualifier) (htext : p.text = Bracket.qualifierText name)
    (hname : '"' ∉ name.toList) :
    ∃ first, (Scope.components env a).find? (·.name == name) = some first ∧
      ((∀ node ∈ resolve env (path ++ p.text), node.isInvalid = false) ∧
          (∃ node runtimeId c, (resolve env (path ++ p.text)).getLast? = some node ∧
            node.referent? = some (.qualifier name runtimeId c)) ↔
        first.runtimeId.isSome = true) := by
  obtain ⟨before,ha⟩ := hends.association?
  obtain ⟨front,hop,quals,hchain,hhop,-⟩ := hends
  have hmem : hop ∈ resolve env path := by
    rw [hchain]
    exact List.mem_append_right _ List.mem_cons_self
  have hne := ne_empty_of_referent? hmem hhop
  have htarget := target_of_mem_resolve hmem hhop
  have hopen := endsOpen_of_forall hclosed
  -- What is offered names one of the components, so there is a first one of its name.
  obtain ⟨first,hfirst⟩ : ∃ first,
      (Scope.components env a).find? (·.name == name) = some first := by
    obtain ⟨region,hsplit⟩ := split_append_part hopen hlast htyped
      (takePart_of_lastText hopen hlast htyped hpart)
    rw [proposals_of_split hsplit,settle?_split hne hvalid] at hp
    obtain ⟨-,a',before',component,ha',hcomponent,-,hoffered⟩ := component_of_proposal hp hkind
    rw [ha] at ha'
    cases ha'
    obtain rfl := qualifierText_injective (htext.symm.trans hoffered)
    exact Option.isSome_iff_exists.mp (List.find?_isSome.mpr ⟨component,hcomponent,by simp⟩)
  refine ⟨first,hfirst,?_⟩
  obtain ⟨region,hsplit⟩ := split_append_part hopen hlast (isBracketText_qualifierText name)
    (takePart_qualifierText hname)
  rw [htext,resolve_append_part hne hvalid hsplit,List.getLast?_concat]
  constructor
  · intro h
    have hnode := h.1 _ List.mem_concat_self
    obtain ⟨-,rule,r,t,-,hdenotes⟩ := denotes_of_partNode hnode
    obtain ⟨a',before',first',ha',hfirst',hid⟩ := hdenotes.of_qualifierText
    rw [ha] at ha'
    cases ha'
    rw [hfirst] at hfirst'
    cases hfirst'
    exact hid
  · intro hid
    obtain ⟨runtimeId,hid⟩ := Option.isSome_iff_exists.mp hid
    obtain ⟨t,hdenotes⟩ := denotes_qualifierText ha htarget hfirst hid
    rw [partNode_of_bracket hdenotes (isBracketText_qualifierText name)]
    refine ⟨?_,_,runtimeId,first,rfl,rfl⟩
    intro node hnode
    rcases List.mem_append.mp hnode with hnode | hnode
    · exact hvalid node hnode
    · rw [List.mem_singleton.mp hnode]
      rfl

theorem offered_qualifier_resolves_covers :
    let path := "covers[\"BASE\"]"
    ∃ p ∈ proposals sampleEnvironment (path ++ "[\"b"), p.text = Bracket.qualifierText "BASE" ∧
      ∀ node ∈ resolve sampleEnvironment (path ++ p.text), node.isInvalid = false := by
  intro path
  have hvalid : ∀ node ∈ resolve sampleEnvironment path, node.isInvalid = false := by
    decide +kernel
  let covers : Association := ⟨"covers", "Contract", "Cover", 5, true, none, none⟩
  have hchain : resolve sampleEnvironment path =
      [⟨Region.span 0 6, .resolved (.assoc covers) (.list (.policy "Cover"))⟩,
        ⟨Region.span 6 8, .resolved (.qualifier "BASE" "base.1"
          ⟨"BASE", "BASE", some "base.1", "CoverType", none⟩) (.list (.policy "Cover"))⟩] := by
    decide +kernel
  have hends : EndsInAssociation (resolve sampleEnvironment path) covers :=
    ⟨[],_,_,hchain,rfl,by simp [Node.category?, Node.referent?, Meaning.referent?,
      Referent.category]⟩
  have hclosed : ∀ part ∈ split path, part.isBracket = true → isTerminated part.text = true := by
    decide +kernel
  have hoffered : ∃ p ∈ proposals sampleEnvironment (path ++ "[\"b"), p.category = .qualifier ∧
      p.text = Bracket.qualifierText "BASE" := by decide +kernel
  obtain ⟨p,hp,hkind,htext⟩ := hoffered
  obtain ⟨first,hfirst,hiff⟩ := offered_qualifier_resolves_iff sampleEnvironment hvalid hends
    hclosed (by decide +kernel) (by decide) (by decide +kernel) hp hkind htext (by decide)
  have hid : ((Scope.components sampleEnvironment covers).find? (·.name == "BASE")).all
      (·.runtimeId.isSome) = true := by decide +kernel
  rw [hfirst] at hid
  exact ⟨p,hp,htext,(hiff.mpr hid).1⟩

/-- Two components of one name, of which the first has no runtime id: the second is offered, and the
first is found. -/
theorem offered_qualifier_shadowed :
    let env := catalogueEnvironment [⟨"BASE", "draft.BASE", none, "CoverType", none⟩,
      ⟨"BASE", "BASE", some "base.1", "CoverType", none⟩]
    (resolve env "covers").map Node.category? = [some .assoc] ∧
      ∃ p ∈ proposals env ("covers" ++ "["), p.category = .qualifier ∧
        p.text = Bracket.qualifierText "BASE" ∧
        ∃ node ∈ resolve env ("covers" ++ p.text), node.isInvalid = true := by
  decide +kernel

/-- A bracket is open for completion before the closing quote, unless it ends in a `]`. -/
theorem isOpenQualifier_iff {typed name : String} (hname : '"' ∉ name.toList)
    (htyped : typed.toList <+: '[' :: '"' :: name.toList) (hopen : isBracketText typed = true) :
    Rule.isOpenQualifier typed = true ↔ typed.toList.getLast? ≠ some ']' := by
  have hquotes : typed.toList.count '"' < 2 := by
    have hle := htyped.sublist.count_le '"'
    have hone : ('[' :: '"' :: name.toList).count '"' = 1 := by
      simp [List.count_eq_zero.mpr hname]
    omega
  simp [Rule.isOpenQualifier, hopen, hquotes]

/-- Take a qualifier without quotes in its name that resolves at the end of a path. Wherever its
author stops before the closing quote, the qualifier is offered, unless the last character is a `]`
of the name. -/
theorem open_qualifier_offered_iff (env : Environment) (hmax : env.options.maxProposals = none)
    {path typed name : String} (hname : '"' ∉ name.toList)
    (hlast : lastText (path ++ Bracket.qualifierText name) = Bracket.qualifierText name)
    (hvalid : ∀ node ∈ resolve env (path ++ Bracket.qualifierText name), node.isInvalid = false)
    (htyped : typed.toList <+: ("[\"" ++ name).toList) (hopen : isBracketText typed = true) :
    (∃ p ∈ proposals env (path ++ typed), p.category = .qualifier ∧
        p.text = Bracket.qualifierText name) ↔
      typed.toList.getLast? ≠ some ']' := by
  have htyped' : typed.toList <+: '[' :: '"' :: name.toList := by
    simpa [String.toList_append] using htyped
  obtain ⟨init,last,hsplit⟩ := split_eq_append (path ++ Bracket.qualifierText name)
  rw [lastText_of_split hsplit] at hlast
  obtain ⟨region,hexchange⟩ := split_exchange hsplit hlast (isBracketText_qualifierText name) hopen
    (takePart_open_qualifier hname htyped' hopen)
  have hne : path ++ Bracket.qualifierText name ≠ "" := by simp [Bracket.qualifierText]
  rw [resolve_eq hne,hsplit] at hvalid
  obtain ⟨trail,hsettle,hnode⟩ := valid_concat_iff.mp hvalid
  obtain ⟨hsep,rule,r,t,-,hdenotes⟩ := denotes_of_partNode hnode
  rw [hlast] at hdenotes
  obtain ⟨a,before,first,ha,hfirst,hid⟩ := hdenotes.of_qualifierText
  rw [← isOpenQualifier_iff hname htyped' hopen]
  constructor
  · rintro ⟨p,hp,hkind,-⟩
    rw [proposals_of_split hexchange,hsettle] at hp
    simp only [if_neg hsep] at hp
    exact (component_of_proposal hp hkind).1
  · intro hopenQualifier
    have hcandidate : _ ∈ Rule.bracket.candidates env trail typed :=
      mem_bracketCandidates_iff.mpr ⟨hopenQualifier,a,before,first,ha,
        List.mem_of_find?_eq_some hfirst,hid,rfl⟩
    obtain rfl : first.name = name := by simpa using List.find?_some hfirst
    refine ⟨_,mem_proposals_of_candidate hmax hexchange hsettle hsep hcandidate ?_,rfl,rfl⟩
    apply startsUpToCase_of_front
    rw [Bracket.toList_qualifierText]
    exact htyped'.trans (by simp)

theorem open_qualifier_offered_covers :
    let env := catalogueEnvironment [⟨"A]B", "A]B", some "ab.1", "CoverType", none⟩]
    (∀ node ∈ resolve env ("covers" ++ Bracket.qualifierText "A]B"), node.isInvalid = false) ∧
      ∃ p ∈ proposals env ("covers" ++ "[\"A"), p.category = .qualifier ∧
        p.text = Bracket.qualifierText "A]B" := by
  intro env
  have hvalid : ∀ node ∈ resolve env ("covers" ++ Bracket.qualifierText "A]B"),
      node.isInvalid = false := by decide +kernel
  have hlast : lastText ("covers" ++ Bracket.qualifierText "A]B") =
      Bracket.qualifierText "A]B" := by decide +kernel
  exact ⟨hvalid,(open_qualifier_offered_iff env rfl (by decide) hlast hvalid (by decide)
    (by decide)).mpr (by decide)⟩

/-- Behind the `]` of its name the qualifier is not offered, though the literal is still open. -/
theorem open_qualifier_not_offered :
    let env := catalogueEnvironment [⟨"A]B", "A]B", some "ab.1", "CoverType", none⟩]
    (∀ node ∈ resolve env ("covers" ++ Bracket.qualifierText "A]B"), node.isInvalid = false) ∧
      proposals env ("covers" ++ "[\"A]") = [] := by
  decide +kernel

end FormulaPath
