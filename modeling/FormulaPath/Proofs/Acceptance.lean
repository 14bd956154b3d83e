import FormulaPath.Proofs.Offer

/-!
# Every bare name that is offered resolves

A proposal without a dot and a bracket can be put in place of what was typed, and the path resolves.
This needs a model whose types are all declared, and names that do not read as requests for default
values. The rules are asked in a fixed order and the first that decides counts, so it is not enough
that the rule that made the proposal accepts it. Two things hold of the text of a proposal: the rule
that offered it takes it (`candidate_accepted`), and no rule rejects it (`meaning?_accepts`).
Whichever rule decides then accepts.
-/
namespace FormulaPath
open FormulaPath.Path

namespace Text

theorem eq_of_ofNat_eq_open {n : Nat} (h : Char.ofNat n = '[') : n = 0x5B := by
  have hval := congrArg Char.toNat h
  by_cases hn : n.isValidChar
  · rw [Char.ofNat,dif_pos hn] at hval
    exact hval
  · rw [Char.ofNat,dif_neg hn] at hval
    cases hval

theorem lower_caseRuns_gt : ∀ run ∈ caseRuns, (0x5B : Int) < run.first + run.shift := by
  decide +kernel

theorem eq_of_toLower_eq_open : ∀ n < 128, (Char.ofNat n).toLower = '[' → n = 0x5B := by decide

/-- No other character has a bracket as its lower case. -/
theorem eq_open_of_lowerChar {c : Char} (h : (lowerChar c).head? = some '[') : c = '[' := by
  unfold lowerChar at h
  split at h
  next hascii =>
    rw [List.head?_cons,Option.some.injEq,← Char.ofNat_toNat c] at h
    have hcode := eq_of_toLower_eq_open c.toNat hascii h
    rw [← Char.ofNat_toNat c,hcode]
  next =>
    split at h
    · cases h
    · split at h
      next run hrun =>
        have hcovers := List.find?_some hrun
        have hshift := lower_caseRuns_gt run (List.mem_of_find?_eq_some hrun)
        have hcode := eq_of_ofNat_eq_open (Option.some.inj h)
        simp only [CaseRun.covers, Bool.and_eq_true, decide_eq_true_eq] at hcovers
        omega
      next => exact Option.some.inj h

/-- A text that continues an open bracket opens with a bracket. -/
theorem isBracketText_of_startsUpToCase {text typed : String}
    (h : startsUpToCase text typed = true) (htyped : isBracketText typed = true) :
    isBracketText text = true := by
  have hopen : typed.toList.head? = some '[' := by simpa [isBracketText] using htyped
  obtain ⟨rest,hrest⟩ := List.head?_eq_some_iff.mp hopen
  have hlower : lower typed = '[' :: rest.flatMap lowerChar := by
    rw [lower,hrest]
    rfl
  obtain ⟨more,hmore⟩ := startsUpToCase_iff.mp h
  rw [hlower,List.cons_append] at hmore
  cases htext : text.toList with
  | nil => simp [lower, htext] at hmore
  | cons c cs =>
      rw [lower,htext,List.flatMap_cons] at hmore
      have hhead := congrArg List.head? hmore
      rw [List.head?_cons,List.head?_append_of_ne_nil _ (lowerChar_ne_nil c)] at hhead
      simp [isBracketText, htext, eq_open_of_lowerChar hhead.symm]

end Text

/-- A name that does not ask for a default value. -/
def Options.Plain (o : Options) (name : String) : Prop :=
  o.defaultSuffix ≠ "" → ¬ o.defaultSuffix.toList <:+ name.toList

instance (o : Options) (name : String) : Decidable (o.Plain name) :=
  inferInstanceAs (Decidable (_ → _))

/-- The placeholders behind an association open a bracket or a further part, or there are none. -/
def Options.MarksPlaceholders (o : Options) : Prop :=
  ∀ text ∈ [o.indexPlaceholder, o.qualifierPlaceholder],
    text = "" ∨ '.' ∈ text.toList ∨ '[' ∈ text.toList

theorem readName_of_plain {o : Options} {name : String} (h : o.Plain name) :
    o.readName name = (name, .value) := by
  unfold Options.readName
  split
  · rfl
  next hsuffix =>
    split
    next base hbase =>
      have hname := Options.dropSuffix?_eq_some_iff.mp hbase
      have hends : o.defaultSuffix.toList <:+ name.toList := by
        rw [hname,String.toList_append]
        exact List.suffix_append _ _
      exact absurd hends (h (by simpa using hsuffix))
    next => rfl

theorem readName_of_suffix {o : Options} (h : o.defaultSuffix.isEmpty = false) (name : String) :
    o.readName (o.writeName name .defaultValue) = (name, .defaultValue) := by
  have hdrop : Options.dropSuffix? o.defaultSuffix (name ++ o.defaultSuffix) = some name :=
    Options.dropSuffix?_eq_some_iff.mpr rfl
  simp [Options.readName, Options.writeName, h, hdrop]

namespace Model

/-- The formula adds the attribute, or a declaration that counts lists it. -/
def HasAttribute (m : Model) (s : Signature) (a : Attribute) : Prop :=
  a ∈ s.matchingAttributes ∨ ∃ t, m.type? t.name = some t ∧ a ∈ t.attributes

/-- A declaration that counts lists the association. -/
def HasAssociation (m : Model) (a : Association) : Prop :=
  ∃ t, m.type? t.name = some t ∧ a ∈ t.associations

/-- Every parameter has a type, and every type that is named is declared. -/
structure Typed (m : Model) (s : Signature) : Prop where
  param : ∀ p ∈ s.parameters, (p.datatype.bind m.datatype?).isSome = true
  attr : ∀ a, m.HasAttribute s a → (m.datatype? a.datatype).isSome = true
  assoc : ∀ a, m.HasAssociation a → (m.datatype? a.target).isSome = true

/-- No name asks for a default value. -/
structure PlainNames (m : Model) (s : Signature) (o : Options) : Prop where
  param : ∀ p ∈ s.parameters, o.Plain p.name
  attr : ∀ a, m.HasAttribute s a → o.Plain a.name
  assoc : ∀ a, m.HasAssociation a → o.Plain a.name
  enumeration : ∀ e, m.enumType? e.name = some e → o.Plain e.name

end Model

/-- Where an attribute that a type shows comes from: the type has it itself or from a supertype, the
formula adds it to its own type, or the product type of a policy type has it. -/
inductive Scope.Shows (env : Environment) : Datatype → Attribute → Prop
  | own {owner : Datatype} {a : Attribute} :
      a ∈ env.schema.attributes owner.name → Shows env owner a
  | matching {owner : Datatype} {a : Attribute} : env.isFormulaType owner = true →
      a ∈ env.signature.matchingAttributes → Shows env owner a
  | product {name product : String} {a : Attribute} : env.options.productAttributes = true →
      env.schema.productType? name = some product → a ∈ env.schema.attributes product →
      Shows env (.policy name) a

section Attributes
variable {m : Model} {env : Environment} {owner : Datatype} {a : Attribute}

theorem Scope.shows_of_mem (h : a ∈ Scope.readableAttributes env owner) :
    Scope.Shows env owner a := by
  have hall : a ∈ Scope.allAttributes env owner := (List.mem_filter.mp h).1
  rcases List.mem_append.mp hall with hown | hborrowed
  · exact .own hown
  · have hmem := (List.mem_filter.mp (Model.mem_of_mem_keepFirst hborrowed)).1
    unfold Scope.borrowedAttributes at hmem
    split at hmem
    next hformula => exact .matching hformula hmem
    next =>
      split at hmem
      next name _ =>
        split at hmem
        next hoption =>
          cases hproduct : env.schema.productType? name with
          | none => simp [hproduct] at hmem
          | some product =>
              rw [hproduct,Option.map_some,Option.getD_some] at hmem
              exact .product hoption hproduct hmem
        next => cases hmem
      next => cases hmem

theorem hasAttribute_of_mem (h : a ∈ Scope.readableAttributes (env.withModel m) owner) :
    m.HasAttribute env.signature a := by
  cases Scope.shows_of_mem h with
  | own hown => exact Or.inr (Model.declared_of_mem_attributes hown)
  | matching _ hmatching => exact Or.inl hmatching
  | product _ _ hproduct => exact Or.inr (Model.declared_of_mem_attributes hproduct)

/-- The attributes that a type of a model has and borrows have distinct names. -/
theorem allAttributes_pairwise (m : Model) (env : Environment) (owner : Datatype) :
    (Scope.allAttributes (env.withModel m) owner).Pairwise (·.name ≠ ·.name) := by
  apply List.pairwise_append.mpr
  refine ⟨keepFirst_pairwise _ _,keepFirst_pairwise _ _,?_⟩
  intro a ha b hb
  have hfresh := (List.mem_filter.mp (Model.mem_of_mem_keepFirst hb)).2
  simp only [Bool.not_eq_true', List.any_eq_false, beq_iff_eq] at hfresh
  exact hfresh a ha

theorem readableAttributes_pairwise (m : Model) (env : Environment) (owner : Datatype) :
    (Scope.readableAttributes (env.withModel m) owner).Pairwise (·.name ≠ ·.name) :=
  (allAttributes_pairwise m env owner).filter _

end Attributes

section Rules
variable {env : Environment} {trail : Trail} {text : String}

/-- The conditions under which no rule rejects a name: behind an enumeration it is a value, and
where it finds an attribute it may be read as it asks. -/
structure Undisputed (env : Environment) (trail : Trail) (text : String) : Prop where
  name : isBracketText text = false
  readable : ∀ owner name access a, trail.memberType? env = some owner →
    env.options.readName text = (name, access) →
    (Scope.readableAttributes env owner).find? (·.name == name) = some a →
    Scope.mayRead env a access = true
  value : ∀ e, trail ≠ [] → trail.enumClass? = some e → (e.value? text).isSome = true

theorem Undisputed.of_plain (hname : isBracketText text = false) (hplain : env.options.Plain text)
    (hvalue : trail ≠ [] → trail.enumClass? = none) : Undisputed env trail text where
  name := hname
  readable := by
    intro owner name access a _ hread _
    rw [readName_of_plain hplain] at hread
    cases hread
    rfl
  value := by
    intro e htrail he
    rw [hvalue htrail] at he
    cases he

theorem problem?_named {datatype : Option Datatype} {meaning : Datatype → Meaning}
    (htype : datatype.isSome = true) (hmeaning : ∀ t, (meaning t).problem? = none) :
    (Rule.named text datatype meaning).problem? = none := by
  obtain ⟨t,ht⟩ := Option.isSome_iff_exists.mp htype
  rw [ht]
  exact hmeaning t

/-- No rule rejects an undisputed name in a model whose types are all declared. -/
theorem meaning?_accepts {m : Model} (htyped : m.Typed env.signature)
    (h : Undisputed (env.withModel m) trail text) {rule : Rule} {meaning : Meaning}
    (hmeaning : rule.meaning? (env.withModel m) trail text = some meaning) :
    meaning.problem? = none := by
  cases rule with
  | param =>
      simp only [Rule.meaning?, Rule.paramMeaning?] at hmeaning
      split at hmeaning
      · cases hmeaning
      · obtain ⟨p,hp,rfl⟩ := Option.map_eq_some_iff.mp hmeaning
        apply problem?_named
        · exact htyped.param p (List.mem_of_find?_eq_some hp)
        · exact fun t => rfl
  | attr =>
      simp only [Rule.meaning?, Rule.attrMeaning?, h.name] at hmeaning
      obtain ⟨owner,howner,hmeaning⟩ := Option.bind_eq_some_iff.mp hmeaning
      rcases hread : (env.withModel m).options.readName text with ⟨name,access⟩
      rw [hread] at hmeaning
      obtain ⟨a,ha,hmeaning⟩ := Option.bind_eq_some_iff.mp hmeaning
      rw [if_pos (h.readable owner name access a howner hread ha)] at hmeaning
      obtain rfl := Option.some.inj hmeaning
      apply problem?_named
      · exact htyped.attr a (hasAttribute_of_mem (List.mem_of_find?_eq_some ha))
      · exact fun t => rfl
  | assoc =>
      simp only [Rule.meaning?, Rule.assocMeaning?, h.name] at hmeaning
      obtain ⟨owner,-,hmeaning⟩ := Option.bind_eq_some_iff.mp hmeaning
      obtain ⟨a,ha,hmeaning⟩ := Option.bind_eq_some_iff.mp hmeaning
      obtain rfl := Option.some.inj hmeaning
      apply problem?_named
      · exact htyped.assoc a (Model.declared_of_mem_associations (List.mem_of_find?_eq_some ha))
      · exact fun t => rfl
  | enumeration =>
      simp only [Rule.meaning?, Rule.enumMeaning?, h.name] at hmeaning
      by_cases htrail : trail = []
      · simp only [htrail, List.isEmpty_nil, Bool.false_eq_true, if_false, if_true] at hmeaning
        obtain ⟨e,-,rfl⟩ := Option.map_eq_some_iff.mp hmeaning
        rfl
      · simp only [List.isEmpty_eq_false_iff.mpr htrail, Bool.false_eq_true, if_false] at hmeaning
        obtain ⟨e,he,rfl⟩ := Option.map_eq_some_iff.mp hmeaning
        obtain ⟨v,hv⟩ := Option.isSome_iff_exists.mp (h.value e htrail he)
        rw [hv]
        rfl
  | bracket => simp [Rule.meaning?, Rule.bracketMeaning?, h.name] at hmeaning

theorem partNode_accepted {m : Model} (htyped : m.Typed env.signature) {part : Part}
    (hsep : part.separator ≠ .missing) (h : Undisputed (env.withModel m) trail part.text)
    {rule : Rule} (htaken : (rule.meaning? (env.withModel m) trail part.text).isSome = true) :
    (partNode (env.withModel m) trail part).isInvalid = false := by
  have hdecide : (Rule.decide? (env.withModel m) trail part.text).isSome = true := by
    unfold Rule.decide?
    rw [List.findSome?_isSome_iff]
    exact ⟨rule,rule.mem_inOrder,htaken⟩
  obtain ⟨meaning,hmeaning⟩ := Option.isSome_iff_exists.mp hdecide
  obtain ⟨first,-,hfirst⟩ := List.exists_of_findSome?_eq_some hmeaning
  simp [Node.isInvalid, Node.problem?, partNode, partMeaning, hsep, hmeaning,
    meaning?_accepts htyped h hfirst]

end Rules

/-- Behind an enumeration there are no members to name. -/
theorem memberType?_of_enumClass? {env : Environment} {init : List Part} {trail : Trail}
    {e : EnumType} (hsettle : settle? env [] init = some trail) (he : trail.enumClass? = some e) :
    trail.memberType? env = none := by
  cases trail with
  | nil => cases he
  | cons node before =>
      rcases denotes_of_settle? hsettle with hnil | hdenoted
      · cases hnil
      · obtain ⟨part,rule,r,t,rfl,hdenotes⟩ := hdenoted
        have hr : r = .enumClass e := by
          cases r <;> simp_all [Trail.enumClass?, Node.referent?, Meaning.referent?]
        rw [hr] at hdenotes
        rw [hdenotes.datatype_of_enumClass]
        rfl

theorem isSome_find?_of_mem {α : Type} (name : α → String) {as : List α} {a : α} (ha : a ∈ as) :
    (as.find? (name · == name a)).isSome = true := by
  apply List.find?_isSome.mpr
  exact ⟨a,ha,beq_self_eq_true (name a)⟩

section Candidates
variable {m : Model} {env : Environment} {trail : Trail} {c : Candidate}

theorem param_accepted (hplain : m.PlainNames env.signature env.options)
    (hc : c ∈ Rule.paramCandidates (env.withModel m) trail)
    (hname : isBracketText c.text = false) :
    Undisputed (env.withModel m) trail c.text ∧
      (Rule.paramMeaning? (env.withModel m) trail c.text).isSome = true := by
  unfold Rule.paramCandidates at hc
  split at hc
  · cases hc
  next htrail =>
    obtain rfl : trail = [] := by simpa using htrail
    obtain ⟨p,hp,rfl⟩ := List.mem_map.mp hc
    refine ⟨.of_plain hname (hplain.param p hp) (absurd rfl),?_⟩
    have hfound : ((env.withModel m).signature.parameter? p.name).isSome = true :=
      isSome_find?_of_mem Parameter.name hp
    simpa [Rule.paramMeaning?, hname] using hfound

theorem attributeCandidates_text {a : Attribute} (h : c ∈ Rule.attributeCandidates env a) :
    ∃ access, c.text = env.options.writeName a.name access ∧ Scope.mayRead env a access = true ∧
      (access = .defaultValue → env.options.defaultSuffix.isEmpty = false) := by
  simp only [Rule.attributeCandidates] at h
  split at h
  next hdefault =>
    simp only [Bool.and_eq_true, Bool.not_eq_true'] at hdefault
    rcases List.mem_cons.mp h with rfl | h
    · exact ⟨.value,rfl,rfl,nofun⟩
    · obtain rfl := List.mem_singleton.mp h
      exact ⟨.defaultValue,rfl,hdefault.2,fun _ => hdefault.1⟩
  next =>
    obtain rfl := List.mem_singleton.mp h
    exact ⟨.value,rfl,rfl,nofun⟩

theorem attr_accepted (hplain : m.PlainNames env.signature env.options)
    (hmembers : ∀ e, trail.enumClass? = some e → trail.memberType? (env.withModel m) = none)
    (hc : c ∈ Rule.attrCandidates (env.withModel m) trail)
    (hname : isBracketText c.text = false) :
    Undisputed (env.withModel m) trail c.text ∧
      (Rule.attrMeaning? (env.withModel m) trail c.text).isSome = true := by
  unfold Rule.attrCandidates at hc
  split at hc
  · cases hc
  next owner howner =>
    obtain ⟨a,ha,hc⟩ := List.mem_flatMap.mp hc
    obtain ⟨access,htext,hmay,hsuffix⟩ := attributeCandidates_text hc
    have hread : (env.withModel m).options.readName c.text = (a.name, access) := by
      rw [htext]
      cases access with
      | value => exact readName_of_plain (hplain.attr a (hasAttribute_of_mem ha))
      | defaultValue => exact readName_of_suffix (hsuffix rfl) a.name
    have hfind := find?_of_pairwise (readableAttributes_pairwise m env owner) ha
    refine ⟨⟨hname,?_,?_⟩,?_⟩
    · intro owner' name' access' a' howner' hread' ha'
      obtain rfl := Option.some.inj (howner.symm.trans howner')
      obtain ⟨rfl,rfl⟩ := Prod.mk.inj (hread.symm.trans hread')
      obtain rfl := Option.some.inj (hfind.symm.trans ha')
      exact hmay
    · intro e _ he
      rw [hmembers e he] at howner
      cases howner
    · simp [Rule.attrMeaning?, hname, howner, hread, hfind, hmay]

/-- A way along an association that is a bare name is the name of the association. -/
theorem associationCandidates_name (hmarks : env.options.MarksPlaceholders) {list : Bool}
    {a : Association} (h : c ∈ Rule.associationCandidates env list a)
    (hname : ∀ d ∈ c.text.toList, endsName d = false) : c.text = a.name := by
  obtain ⟨placeholder,htext,hplaceholder⟩ := associationCandidates_text h
  have hfree : ∀ d ∈ placeholder.toList, endsName d = false := by
    intro d hd
    apply hname
    rw [htext,String.toList_append]
    exact List.mem_append_right _ hd
  have hempty : placeholder = "" := by
    rcases hplaceholder with hempty | hmarked
    · exact hempty
    · rcases hmarks placeholder (by simpa using hmarked) with hempty | hdot | hopen
      · exact hempty
      · exact absurd (hfree '.' hdot) (by decide)
      · exact absurd (hfree '[' hopen) (by decide)
  rw [htext,hempty,String.append_empty]

theorem assoc_accepted (hplain : m.PlainNames env.signature env.options)
    (hmarks : env.options.MarksPlaceholders)
    (hmembers : ∀ e, trail.enumClass? = some e → trail.memberType? (env.withModel m) = none)
    (hc : c ∈ Rule.assocCandidates (env.withModel m) trail)
    (hname : ∀ d ∈ c.text.toList, endsName d = false) :
    Undisputed (env.withModel m) trail c.text ∧
      (Rule.assocMeaning? (env.withModel m) trail c.text).isSome = true := by
  have hbracket := isBracketText_of_name hname
  unfold Rule.assocCandidates at hc
  split at hc
  · cases hc
  next owner howner =>
    obtain ⟨a,ha,hc⟩ := List.mem_flatMap.mp hc
    have htext := associationCandidates_name hmarks hc hname
    rw [htext] at hbracket ⊢
    refine ⟨.of_plain hbracket (hplain.assoc a (Model.declared_of_mem_associations ha)) ?_,?_⟩
    · intro _
      apply Option.eq_none_iff_forall_ne_some.mpr
      intro e he
      rw [hmembers e he] at howner
      cases howner
    · have hfound := isSome_find?_of_mem Association.name ha
      obtain ⟨b,hb⟩ := Option.isSome_iff_exists.mp hfound
      simp [Rule.assocMeaning?, hbracket, howner, hb]

theorem enum_accepted (hplain : m.PlainNames env.signature env.options)
    (hmembers : ∀ e, trail.enumClass? = some e → trail.memberType? (env.withModel m) = none)
    (hc : c ∈ Rule.enumCandidates (env.withModel m) trail)
    (hname : isBracketText c.text = false) :
    Undisputed (env.withModel m) trail c.text ∧
      (Rule.enumMeaning? (env.withModel m) trail c.text).isSome = true := by
  unfold Rule.enumCandidates at hc
  split at hc
  next htrail =>
    obtain rfl : trail = [] := by simpa using htrail
    obtain ⟨e,he,rfl⟩ := List.mem_map.mp hc
    obtain ⟨name,-,henum⟩ := List.mem_filterMap.mp he
    have hdeclared : m.enumType? e.name = some e := by
      rw [Model.name_of_enumType? henum]
      exact henum
    refine ⟨.of_plain hname (hplain.enumeration e hdeclared) (absurd rfl),?_⟩
    have hfound := isSome_find?_of_mem EnumType.name he
    simpa [Rule.enumMeaning?, hname] using hfound
  next htrail =>
    split at hc
    · cases hc
    next e he =>
      obtain ⟨v,hv,rfl⟩ := List.mem_map.mp hc
      have hvalue : (e.value? v.id).isSome = true := isSome_find?_of_mem EnumValue.id hv
      refine ⟨⟨hname,?_,?_⟩,?_⟩
      · intro owner name access a howner
        rw [hmembers e he] at howner
        cases howner
      · intro e' _ he'
        obtain rfl := Option.some.inj (he.symm.trans he')
        exact hvalue
      · simp [Rule.enumMeaning?, hname, he, List.isEmpty_iff.not.mp htrail]

/-- Where a rule offers a bare name, no rule rejects that name, and the rule itself takes it. -/
theorem candidate_accepted (hplain : m.PlainNames env.signature env.options)
    (hmarks : env.options.MarksPlaceholders)
    (hmembers : ∀ e, trail.enumClass? = some e → trail.memberType? (env.withModel m) = none)
    {rule : Rule} {typed : String} (hc : c ∈ rule.candidates (env.withModel m) trail typed)
    (hname : ∀ d ∈ c.text.toList, endsName d = false) :
    Undisputed (env.withModel m) trail c.text ∧
      (rule.meaning? (env.withModel m) trail c.text).isSome = true := by
  have hbracket := isBracketText_of_name hname
  cases rule with
  | param => exact param_accepted hplain hc hbracket
  | attr => exact attr_accepted hplain hmembers hc hbracket
  | assoc => exact assoc_accepted hplain hmarks hmembers hc hname
  | enumeration => exact enum_accepted hplain hmembers hc hbracket
  | bracket =>
      simp only [Rule.candidates, Rule.bracketCandidates] at hc
      split at hc
      · cases hc
      · split at hc
        · cases hc
        · obtain ⟨component,-,rfl⟩ := List.mem_map.mp hc
          simp [isBracketText, Bracket.qualifierText] at hbracket

end Candidates

/-- In a model whose types are all declared, and with names and placeholders that cannot be taken
for something else, a bare name that is offered resolves in place of what was typed. The lengths of
the texts play no part in this; the program reads texts of at most `Region.limit` bytes. -/
theorem proposals_accepted (m : Model) (env : Environment) (htyped : m.Typed env.signature)
    (hplain : m.PlainNames env.signature env.options) (hmarks : env.options.MarksPlaceholders)
    {path : String} {p : Proposal} (hp : p ∈ proposals (env.withModel m) path)
    (hname : ∀ c ∈ p.text.toList, c ≠ '.' ∧ c ≠ '[') :
    ∀ node ∈ resolve (env.withModel m) (retype path p.text), node.isInvalid = false := by
  have hname' : ∀ c ∈ p.text.toList, endsName c = false := by
    intro c hc
    simpa [endsName] using hname c hc
  obtain ⟨init,last,hsplit⟩ := split_eq_append path
  rw [proposals_of_split hsplit] at hp
  split at hp
  next trail hsettle =>
    split at hp
    · cases hp
    next hsep =>
      obtain ⟨rule,-,hc,hfits,-⟩ := mem_proposalsAt hp
      -- What was typed is a name too: behind an open bracket only brackets are offered.
      have hbracket : isBracketText last.text = false := by
        rw [← Bool.not_eq_true]
        intro hopen
        have htext := Text.isBracketText_of_startsUpToCase hfits hopen
        rw [isBracketText_of_name hname'] at htext
        cases htext
      obtain ⟨region,hretype⟩ := split_retype hsplit hbracket hsep hname'
      obtain ⟨hundisputed,htaken⟩ := candidate_accepted hplain hmarks
        (fun e he => memberType?_of_enumClass? hsettle he) hc hname'
      by_cases hempty : retype path p.text = ""
      · rw [hempty]
        intro node hnode
        rw [List.mem_singleton.mp hnode]
        rfl
      · rw [resolve_eq hempty,hretype]
        apply valid_concat_iff.mpr
        exact ⟨trail,hsettle,partNode_accepted htyped hsep hundisputed htaken⟩
  next => cases hp

theorem sampleModel_typed : sampleModel.Typed sampleEnvironment.signature where
  param := by decide
  attr := by
    intro a ha
    have hall : ∀ t ∈ sampleModel.types, ∀ a ∈ t.attributes,
        (sampleModel.datatype? a.datatype).isSome = true := by decide
    rcases ha with ha | ⟨t,ht,ha⟩
    · cases ha
    · exact hall t (Model.mem_of_type? ht) a ha
  assoc := by
    intro a ha
    have hall : ∀ t ∈ sampleModel.types, ∀ a ∈ t.associations,
        (sampleModel.datatype? a.target).isSome = true := by decide
    obtain ⟨t,ht,ha⟩ := ha
    exact hall t (Model.mem_of_type? ht) a ha

theorem sampleModel_plainNames :
    sampleModel.PlainNames sampleEnvironment.signature Options.standard where
  param := by decide
  attr := by
    intro a ha
    have hall : ∀ t ∈ sampleModel.types, ∀ a ∈ t.attributes, Options.standard.Plain a.name := by
      decide
    rcases ha with ha | ⟨t,ht,ha⟩
    · cases ha
    · exact hall t (Model.mem_of_type? ht) a ha
  assoc := by
    intro a ha
    have hall : ∀ t ∈ sampleModel.types, ∀ a ∈ t.associations, Options.standard.Plain a.name := by
      decide
    obtain ⟨t,ht,ha⟩ := ha
    exact hall t (Model.mem_of_type? ht) a ha
  enumeration := by
    intro e he
    have hall : ∀ e ∈ sampleModel.enums, Options.standard.Plain e.name := by decide
    exact hall e (List.mem_of_find?_eq_some he)

theorem proposals_accepted_premium :
    let env := sampleEnvironment.withModel sampleModel
    ∃ p ∈ proposals env "PREM", p.text = "premium@default" ∧
      ∀ node ∈ resolve env (retype "PREM" p.text), node.isInvalid = false := by
  intro env
  have hsplit : split "PREM" = [] ++ [⟨"PREM", Region.span 0 4, .start⟩] := by decide +kernel
  have hcandidate : ∃ c ∈ Rule.attr.candidates env [] "PREM", c.text = "premium@default" := by
    decide +kernel
  obtain ⟨c,hc,htext⟩ := hcandidate
  have hp := mem_proposals_of_candidate rfl hsplit rfl (by decide) hc
    (by rw [htext]; decide +kernel)
  have hname : ∀ d ∈ c.text.toList, d ≠ '.' ∧ d ≠ '[' := by
    rw [htext]
    simp
  have hmarks : sampleEnvironment.options.MarksPlaceholders := by
    unfold Options.MarksPlaceholders
    decide
  exact ⟨_,hp,htext,proposals_accepted sampleModel sampleEnvironment sampleModel_typed
    sampleModel_plainNames hmarks hp hname⟩

/-- A host whose placeholder for an index is a digit. -/
def digitEnvironment : Environment :=
  { sampleEnvironment with options := { Options.standard with indexPlaceholder := "0" } }

/-- The digit runs into the name of the association, and no association has that name. -/
theorem proposals_digit_rejected :
    let env := digitEnvironment.withModel sampleModel
    sampleModel.Typed digitEnvironment.signature ∧
      sampleModel.PlainNames digitEnvironment.signature digitEnvironment.options ∧
      (∀ e ∈ sampleModel.enums, ∀ v ∈ e.values, digitEnvironment.options.Plain v.id) ∧
      ∃ p ∈ proposals env "", (∀ c ∈ p.text.toList, c ≠ '.' ∧ c ≠ '[') ∧
        ∃ node ∈ resolve env (retype "" p.text), node.isInvalid = true := by
  intro env
  have hplain : sampleModel.PlainNames digitEnvironment.signature digitEnvironment.options :=
    ⟨sampleModel_plainNames.param,sampleModel_plainNames.attr,sampleModel_plainNames.assoc,
      sampleModel_plainNames.enumeration⟩
  refine ⟨sampleModel_typed,hplain,by decide,?_⟩
  have hsplit : split "" = [] ++ [⟨"", Region.span 0 0, .start⟩] := by decide +kernel
  have hcandidate : ∃ c ∈ Rule.assoc.candidates env [] "", c.text = "covers0" := by decide +kernel
  obtain ⟨c,hc,htext⟩ := hcandidate
  have hp := mem_proposals_of_candidate rfl hsplit rfl (by decide) hc
    (by rw [htext]; decide +kernel)
  have hname : ∀ d ∈ c.text.toList, d ≠ '.' ∧ d ≠ '[' := by
    rw [htext]
    simp
  have hinvalid : ∃ node ∈ resolve env (retype "" c.text), node.isInvalid = true := by
    rw [htext]
    decide +kernel
  exact ⟨_,hp,hname,hinvalid⟩

end FormulaPath
