import FormulaPath.Proofs.Chain
import FormulaPath.Suggestion

/-!
# Every name that resolves is offered

Resolution and proposals ask the same rules in different ways: one looks a name up, the other lists
candidates. `exists_candidate` compares the two for every rule that reads names: a part that denotes
something is the beginning of a candidate at the same place, so it is offered from its first
character on. Brackets are left out, since their candidates depend on what was typed.
-/
namespace FormulaPath
open FormulaPath.Path

theorem startsUpToCase_of_front {text typed : String} (h : typed.toList <+: text.toList) :
    Text.startsUpToCase text typed = true := by
  obtain ⟨rest,hrest⟩ := h
  rw [Text.startsUpToCase_iff,Text.lower,Text.lower,← hrest,List.flatMap_append]
  exact List.prefix_append _ _

theorem prefix_append_text (name text : String) : name.toList <+: (name ++ text).toList := by
  rw [String.toList_append]
  exact List.prefix_append _ _

theorem writeName_of_readName {o : Options} {text name : String} {access : Access}
    (h : o.readName text = (name, access)) :
    text = o.writeName name access ∧
      (access = .defaultValue → o.defaultSuffix.isEmpty = false) := by
  unfold Options.readName at h
  split at h
  · cases h
    exact ⟨rfl,nofun⟩
  next hsuffix =>
    split at h
    next base hbase =>
      cases h
      exact ⟨Options.dropSuffix?_eq_some_iff.mp hbase,fun _ => by simpa using hsuffix⟩
    next =>
      cases h
      exact ⟨rfl,nofun⟩

theorem mem_collect_iff {typed : String} {p : Proposal} {cs : List Candidate} :
    p ∈ Proposal.collect typed cs ↔
      p.toCandidate ∈ cs ∧ Text.startsUpToCase p.text typed = true ∧ p.typed = typed := by
  unfold Proposal.collect
  rw [List.mem_map]
  constructor
  · intro h
    obtain ⟨c,hc,rfl⟩ := h
    have hmem := List.mem_filter.mp hc
    exact ⟨hmem.1,hmem.2,rfl⟩
  · intro h
    obtain ⟨hc,hfits,rfl⟩ := h
    exact ⟨p.toCandidate,List.mem_filter.mpr ⟨hc,hfits⟩,rfl⟩

section Names
variable {env : Environment} {trail : Trail} {typed text : String}

/-- A proposal is the candidate of some rule, it fits what was typed, and it says what was typed. -/
theorem mem_proposalsAt {p : Proposal} (h : p ∈ proposalsAt env trail typed) :
    ∃ rule ∈ Rule.inOrder, p.toCandidate ∈ rule.candidates env trail typed ∧
      Text.startsUpToCase p.text typed = true ∧ p.typed = typed := by
  have hsorted : p ∈ Proposal.sort
      (Rule.inOrder.flatMap fun rule => rule.proposals env trail typed) := by
    unfold proposalsAt at h
    split at h
    · exact List.mem_of_mem_take h
    · exact h
  obtain ⟨rule,hrule,hp⟩ := List.mem_flatMap.mp (List.mem_mergeSort.mp hsorted)
  exact ⟨rule,hrule,mem_collect_iff.mp hp⟩

theorem mem_proposalsAt_of_candidate (hmax : env.options.maxProposals = none) {rule : Rule}
    {c : Candidate} (hc : c ∈ rule.candidates env trail typed)
    (hfits : Text.startsUpToCase c.text typed = true) :
    (⟨c, typed⟩ : Proposal) ∈ proposalsAt env trail typed := by
  unfold proposalsAt
  rw [hmax]
  apply List.mem_mergeSort.mpr
  exact List.mem_flatMap.mpr ⟨rule,rule.mem_inOrder,mem_collect_iff.mpr ⟨hc,hfits,rfl⟩⟩

/-- The proposals for a path are those behind its other parts, if these resolve. -/
theorem proposals_of_split {path : String} {init : List Part} {last : Part}
    (hsplit : split path = init ++ [last]) :
    proposals env path = match settle? env [] init with
      | some trail => if last.separator = .missing then [] else proposalsAt env trail last.text
      | none => [] := by
  unfold proposals
  simp only [hsplit, List.dropLast_concat, List.getLast?_concat]
  cases settle? env [] init <;> rfl

theorem mem_proposals_of_candidate (hmax : env.options.maxProposals = none) {path : String}
    {init : List Part} {last : Part} (hsplit : split path = init ++ [last])
    (hsettle : settle? env [] init = some trail) (hsep : last.separator ≠ .missing) {rule : Rule}
    {c : Candidate} (hc : c ∈ rule.candidates env trail last.text)
    (hfits : Text.startsUpToCase c.text last.text = true) :
    (⟨c, last.text⟩ : Proposal) ∈ proposals env path := by
  rw [proposals_of_split hsplit,hsettle]
  simp only [if_neg hsep]
  exact mem_proposalsAt_of_candidate hmax hc hfits

theorem attributeCandidates_of_mayRead {a : Attribute} {access : Access}
    (hread : Scope.mayRead env a access = true)
    (hsuffix : access = .defaultValue → env.options.defaultSuffix.isEmpty = false) :
    ∃ c ∈ Rule.attributeCandidates env a, c.text = env.options.writeName a.name access := by
  unfold Rule.attributeCandidates
  cases access with
  | value =>
      split
      · exact ⟨_,List.mem_cons_self,rfl⟩
      · exact ⟨_,List.mem_cons_self,rfl⟩
  | defaultValue =>
      have hmay : Scope.mayReadDefault env a = true := hread
      rw [if_pos (by simp [hsuffix rfl, hmay])]
      exact ⟨_,List.mem_cons_of_mem _ List.mem_cons_self,rfl⟩

/-- The texts of the ways along an association: its name, alone or with a placeholder. -/
theorem associationCandidates_text {list : Bool} {a : Association} {c : Candidate}
    (h : c ∈ Rule.associationCandidates env list a) :
    ∃ placeholder, c.text = a.name ++ placeholder ∧
      (placeholder = "" ∨ placeholder = env.options.indexPlaceholder ∨
        placeholder = env.options.qualifierPlaceholder) := by
  have hdirect : ∀ d e : Candidate, d.text = a.name ++ env.options.indexPlaceholder →
      e.text = a.name → (if a.isManyUnqualified then d else e) = c →
      ∃ placeholder, c.text = a.name ++ placeholder ∧
        (placeholder = "" ∨ placeholder = env.options.indexPlaceholder ∨
          placeholder = env.options.qualifierPlaceholder) := by
    intro d e hd he hc
    split at hc
    · exact ⟨_,hc ▸ hd,Or.inr (Or.inl rfl)⟩
    · exact ⟨"",by rw [← hc,he,String.append_empty],Or.inl rfl⟩
  simp only [Rule.associationCandidates] at h
  by_cases hqualified : a.qualified = true
  · rw [if_pos hqualified] at h
    rcases List.mem_cons.mp h with h | h
    · exact hdirect _ _ rfl rfl h.symm
    · rw [List.mem_singleton.mp h]
      exact ⟨_,rfl,Or.inr (Or.inr rfl)⟩
  · rw [if_neg hqualified] at h
    exact hdirect _ _ rfl rfl (List.mem_singleton.mp h).symm

theorem associationCandidates_ne_nil (env : Environment) (list : Bool) (a : Association) :
    Rule.associationCandidates env list a ≠ [] := by
  simp only [Rule.associationCandidates]
  by_cases hqualified : a.qualified = true <;> simp [hqualified]

/-- A name that denotes something is the beginning of a candidate, whatever was typed of it. -/
theorem exists_candidate {rule : Rule} {r : Referent} {t : Datatype}
    (h : Denotes env trail text rule r t) (hbracket : isBracketText text = false)
    (typed : String) :
    ∃ c ∈ rule.candidates env trail typed, text.toList <+: c.text.toList := by
  cases h with
  | @param p _ htrail _ hp _ =>
      obtain rfl : p.name = text := by simpa using List.find?_some hp
      simp only [Rule.candidates, Rule.paramCandidates, htrail, List.isEmpty_nil, Bool.not_true,
        Bool.false_eq_true, if_false]
      exact ⟨_,List.mem_map_of_mem (List.mem_of_find?_eq_some hp),List.prefix_rfl⟩
  | @attr owner _ a name access _ howner hread ha hmay _ =>
      have hname : a.name = name := by simpa using List.find?_some ha
      obtain ⟨htext,hsuffix⟩ := writeName_of_readName hread
      obtain ⟨c,hc,hctext⟩ := attributeCandidates_of_mayRead hmay hsuffix
      have hwhole : c.text = text := by rw [hctext,hname,← htext]
      simp only [Rule.candidates, Rule.attrCandidates, howner]
      exact ⟨c,List.mem_flatMap.mpr ⟨a,List.mem_of_find?_eq_some ha,hc⟩,hwhole ▸ List.prefix_rfl⟩
  | @assoc owner _ a _ howner ha _ =>
      have hname : a.name = text := by simpa using List.find?_some ha
      obtain ⟨c,hc⟩ := List.exists_mem_of_ne_nil _
        (associationCandidates_ne_nil env trail.isList a)
      obtain ⟨placeholder,hctext,-⟩ := associationCandidates_text hc
      simp only [Rule.candidates, Rule.assocCandidates, howner]
      refine ⟨c,List.mem_flatMap.mpr ⟨a,List.mem_of_find?_eq_some ha,hc⟩,?_⟩
      rw [hctext,← hname]
      exact prefix_append_text _ _
  | @enumClass e _ htrail he =>
      obtain rfl : e.name = text := by simpa using List.find?_some he
      simp only [Rule.candidates, Rule.enumCandidates, htrail, List.isEmpty_nil, if_true]
      exact ⟨_,List.mem_map_of_mem (List.mem_of_find?_eq_some he),List.prefix_rfl⟩
  | @enumValue e v _ he hv =>
      obtain rfl : v.id = text := by simpa using List.find?_some hv
      have htrail : trail.isEmpty = false := by
        cases trail with
        | nil => cases he
        | cons node before => rfl
      simp only [Rule.candidates, Rule.enumCandidates, htrail, Bool.false_eq_true, if_false, he]
      exact ⟨_,List.mem_map_of_mem (List.mem_of_find?_eq_some hv),List.prefix_rfl⟩
  | index hopen => simp [hopen] at hbracket
  | qualifier hopen => simp [hopen] at hbracket

theorem isBracketText_of_denotes {rule : Rule} {r : Referent} {t : Datatype}
    (h : Denotes env trail text rule r t) (hindex : r.category ≠ .index)
    (hqualifier : r.category ≠ .qualifier) : isBracketText text = false := by
  cases h with
  | param _ hbracket => exact hbracket
  | attr hbracket => exact hbracket
  | assoc hbracket => exact hbracket
  | enumClass hbracket => exact hbracket
  | enumValue hbracket => exact hbracket
  | index => exact absurd rfl hindex
  | qualifier => exact absurd rfl hqualifier

end Names

/-- Take a path that resolves to something other than an index or a qualifier. Wherever its author
stops in the last name, the proposals go on to that name. The length of the path plays no part in
this; the program reads paths of at most `Region.limit` bytes. -/
theorem proposals_reach_name (env : Environment) (hmax : env.options.maxProposals = none)
    {path typed : String} (hne : path ≠ "")
    (hvalid : ∀ node ∈ resolve env path, node.isInvalid = false)
    (hkind : ∀ node, (resolve env path).getLast? = some node →
      node.category? ≠ some .index ∧ node.category? ≠ some .qualifier)
    (htyped : typed.toList <+: (lastText path).toList) :
    ∃ p ∈ proposals env (retype path typed),
      (lastText path).toList <+: p.text.toList ∧ p.typed = typed := by
  obtain ⟨init,last,hsplit⟩ := split_eq_append path
  rw [lastText_of_split hsplit] at htyped ⊢
  rw [resolve_eq hne,hsplit] at hvalid hkind
  obtain ⟨trail,hsettle,hlast⟩ := valid_concat_iff.mp hvalid
  obtain ⟨hsep,rule,r,t,hnode,hdenotes⟩ := denotes_of_partNode hlast
  have hend : (resolveFrom env [] (init ++ [last])).getLast? =
      some ⟨last.region, .resolved r t⟩ := by
    rw [(settle?_eq_some hsettle).2,resolveFrom_cons_valid hlast,hnode]
    simp [resolveFrom]
  have hcategory : r.category ≠ .index ∧ r.category ≠ .qualifier := by
    simpa [Node.category?, Node.referent?, Meaning.referent?] using hkind _ hend
  have hbracket := isBracketText_of_denotes hdenotes hcategory.1 hcategory.2
  have hname : ∀ c ∈ typed.toList, endsName c = false := fun c hc =>
    name_of_split hsplit hbracket c (htyped.subset hc)
  obtain ⟨region,hretype⟩ := split_retype hsplit hbracket hsep hname
  obtain ⟨c,hc,hstarts⟩ := exists_candidate hdenotes hbracket typed
  refine ⟨⟨c, typed⟩,?_,hstarts,rfl⟩
  exact mem_proposals_of_candidate hmax hretype hsettle hsep hc
    (startsUpToCase_of_front (htyped.trans hstarts))

theorem proposals_reach_name_premium :
    let path := "premium@default"
    (∀ node ∈ resolve sampleEnvironment path, node.isInvalid = false) ∧
      ∃ p ∈ proposals sampleEnvironment (retype path "prem"),
        (lastText path).toList <+: p.text.toList ∧ p.typed = "prem" := by
  intro path
  have hvalid : ∀ node ∈ resolve sampleEnvironment path, node.isInvalid = false := by
    decide +kernel
  have hkind : ∀ node, (resolve sampleEnvironment path).getLast? = some node →
      node.category? ≠ some .index ∧ node.category? ≠ some .qualifier := by
    intro node hnode
    have hall : ∀ node ∈ resolve sampleEnvironment path,
        node.category? ≠ some .index ∧ node.category? ≠ some .qualifier := by decide +kernel
    exact hall node (List.mem_of_getLast? hnode)
  have htyped : "prem".toList <+: (lastText path).toList := by decide +kernel
  exact ⟨hvalid,proposals_reach_name sampleEnvironment rfl (by decide) hvalid hkind htyped⟩

/-- A formula without any declaration around it. -/
def bareEnvironment : Environment where
  schema := Model.empty.schema
  signature := Signature.empty
  filter := Filter.everything
  texts := Texts.stored
  options := Options.standard

/-- The empty path resolves without an invalid node, but its empty last part is a name of nothing,
and there may be nothing to offer. -/
theorem proposals_empty_path :
    bareEnvironment.options.maxProposals = none ∧
      (∀ node ∈ resolve bareEnvironment "", node.isInvalid = false) ∧
      (∀ node ∈ resolve bareEnvironment "",
        node.category? ≠ some .index ∧ node.category? ≠ some .qualifier) ∧
      ¬ ∃ p ∈ proposals bareEnvironment (retype "" ""),
        (lastText "").toList <+: p.text.toList ∧ p.typed = "" := by
  decide +kernel

end FormulaPath
