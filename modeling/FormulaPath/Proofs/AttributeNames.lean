import FormulaPath.Proofs.Filtering

/-!
# Attributes that are offered and attributes that are found

Every attribute that formulas may read is offered under its own name. Resolution reads the name
differently: it takes a default suffix off the text, whatever the type shows, and looks up what is
left. So an attribute is found under its own name exactly if that name is plain. Any other name asks
for the default value of an attribute with a shorter name, also if there is none.
-/
namespace FormulaPath
open FormulaPath.Path

theorem plain_iff_readName {o : Options} {name : String} :
    o.Plain name ↔ (o.readName name).2 = .value := by
  constructor
  · intro h
    rw [readName_of_plain h]
  · intro h hsuffix hends
    obtain ⟨front,hfront⟩ := hends
    have hname : name = o.writeName (String.ofList front) .defaultValue := by
      apply String.toList_injective
      rw [Options.writeName,String.toList_append,String.toList_ofList,hfront]
    rw [hname,readName_of_suffix (by simpa using hsuffix)] at h
    cases h

section Names
variable {env : Environment} {trail : Trail} {owner : Datatype} {a : Attribute}
  {text name : String} {access : Access} (howner : trail.memberType? env = some owner)
include howner

/-- An attribute that formulas may read is offered under its name. -/
theorem exists_proposal_of_attribute (ha : a ∈ Scope.readableAttributes env owner) :
    ∃ p ∈ Rule.attr.proposals env trail "", p.text = a.name := by
  have hmay : Scope.mayRead env a .value = true := rfl
  obtain ⟨c,hc,htext⟩ := attributeCandidates_of_mayRead hmay nofun
  have hcandidate : c ∈ Rule.attr.candidates env trail "" := by
    simp only [Rule.candidates, Rule.attrCandidates, howner]
    exact List.mem_flatMap.mpr ⟨a,ha,hc⟩
  exact ⟨⟨c, ""⟩,mem_collect_iff.mpr ⟨hcandidate,Text.startsUpToCase_empty _,rfl⟩,htext⟩

/-- A text is declined if no attribute has the name that is read from it. -/
theorem attrMeaning?_none_iff (hread : env.options.readName text = (name, access))
    (htext : isBracketText text = false) :
    Rule.attrMeaning? env trail text = none ↔
      ∀ b ∈ Scope.readableAttributes env owner, b.name ≠ name := by
  rw [attrMeaning?_eq_none_iff,hread]
  simp [htext, howner]

/-- A text resolves to the attribute that it names, read in the way that it asks for. -/
theorem attrMeaning?_referent {r : Referent} {t : Datatype}
    (hread : env.options.readName text = (name, access))
    (h : Rule.attrMeaning? env trail text = some (.resolved r t)) :
    ∃ b ∈ Scope.readableAttributes env owner, b.name = name ∧ r = .attr b access := by
  cases Rule.attrMeaning?_resolved_iff.mp h with
  | attr _ howner' hread' hfind =>
      obtain rfl := Option.some.inj (howner.symm.trans howner')
      obtain ⟨rfl,rfl⟩ := Prod.mk.inj (hread.symm.trans hread')
      exact ⟨_,List.mem_of_find?_eq_some hfind,by simpa using List.find?_some hfind,rfl⟩

end Names

/-- An attribute of a model that formulas may read is offered under its name. It is found under its
name exactly if that does not end in the default suffix. Otherwise the rest of the name counts: the
name is declined if no attribute has the rest as its name, and it can resolve to the default value
of that attribute only. -/
theorem attribute_found_by_name_iff (m : Model) (env : Environment) {trail : Trail}
    {owner t : Datatype} {a : Attribute}
    (howner : trail.memberType? (env.withModel m) = some owner)
    (ha : a ∈ Scope.readableAttributes (env.withModel m) owner)
    (htype : m.datatype? a.datatype = some t) (hname : isBracketText a.name = false) :
    (∃ p ∈ Rule.attr.proposals (env.withModel m) trail "", p.text = a.name) ∧
      ((∃ u, Rule.attrMeaning? (env.withModel m) trail a.name =
        some (.resolved (.attr a .value) u)) ↔ env.options.Plain a.name) ∧
      ∀ base, env.options.defaultSuffix ≠ "" → a.name = base ++ env.options.defaultSuffix →
        (Rule.attrMeaning? (env.withModel m) trail a.name = none ↔
          ∀ b ∈ Scope.readableAttributes (env.withModel m) owner, b.name ≠ base) ∧
        ∀ r u, Rule.attrMeaning? (env.withModel m) trail a.name = some (.resolved r u) →
          ∃ b ∈ Scope.readableAttributes (env.withModel m) owner, b.name = base ∧
            r = .attr b .defaultValue := by
  refine ⟨exists_proposal_of_attribute howner ha,⟨?_,?_⟩,?_⟩
  · rintro ⟨u,hu⟩
    rcases hread : env.options.readName a.name with ⟨name,access⟩
    obtain ⟨b,-,-,hb⟩ := attrMeaning?_referent howner hread hu
    cases hb
    exact plain_iff_readName.mpr (congrArg Prod.snd hread)
  · intro hplain
    have hfind := find?_of_pairwise (readableAttributes_pairwise m env owner) ha
    refine ⟨t.asListIf trail.isList,Rule.attrMeaning?_resolved_iff.mpr ?_⟩
    exact .attr hname howner (readName_of_plain hplain) hfind rfl htype
  · intro base hsuffix hbase
    have hread : env.options.readName a.name = (base, .defaultValue) := by
      rw [hbase]
      exact readName_of_suffix (by simpa using hsuffix) base
    exact ⟨attrMeaning?_none_iff howner hread hname,
      fun r u hu => attrMeaning?_referent howner hread hu⟩

theorem attribute_found_by_name_premium :
    let env := sampleEnvironment.withModel sampleModel
    let premium : Attribute := ⟨"premium", "Contract", "Money", true, none, none⟩
    ∃ u, Rule.attrMeaning? env [] "premium" = some (.resolved (.attr premium .value) u) := by
  intro env premium
  have hmem : premium ∈ Scope.readableAttributes env (.policy "Contract") := by decide +kernel
  have hfound := attribute_found_by_name_iff sampleModel sampleEnvironment
    (show Trail.memberType? env [] = some (.policy "Contract") by decide +kernel) hmem
    (show sampleModel.datatype? "Money" = some (.value "Money") by decide +kernel)
    (by decide +kernel)
  exact hfound.2.1.mpr (by decide +kernel)

/-- Contracts with a rate that is called like the default value of another. -/
def suffixModel : Model :=
  { sampleModel with types := [⟨"Contract", .policy, none, none,
    [⟨"rate@default", "Contract", "Money", false, none, none⟩], []⟩] }

/-- The rate can be read and is offered, but its name is declined. -/
theorem attribute_lost_behind_suffix :
    let env := sampleEnvironment.withModel suffixModel
    let rate : Attribute := ⟨"rate@default", "Contract", "Money", false, none, none⟩
    Trail.memberType? env [] = some (.policy "Contract") ∧
      rate ∈ Scope.readableAttributes env (.policy "Contract") ∧
      suffixModel.datatype? rate.datatype = some (.value "Money") ∧
      isBracketText rate.name = false ∧
      Rule.attr.proposals env [] "" =
        [⟨⟨"rate@default", "rate@default - Money", "rate@default", .attr⟩, ""⟩] ∧
      Rule.attrMeaning? env [] rate.name = none := by
  decide +kernel

end FormulaPath
