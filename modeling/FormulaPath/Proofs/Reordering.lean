import FormulaPath.Proofs.Acceptance
import FormulaPath.Proofs.ProposalOrder
import Mathlib.Data.List.Forall2
import Mathlib.Data.List.Perm.Basic

/-!
# The order of declarations

Every look-up takes the first entry of a name, and every list of candidates follows the order of the
declarations. Where a name stands for one entry only, neither shows in the answers. `SameEntries`
relates two such lists: a look-up finds the same in both, and what is made of their entries is the
same up to order. The relation is carried from the declarations of a model through the walk along
supertypes to what the rules see (`SameScope`). The rules then decide the same, and their
candidates differ in order only, which sorting removes.
-/
namespace FormulaPath
open FormulaPath.Path

/-! ## Lists of named entries -/

section Entries
variable {α : Type} {name : α → String} {as bs cs ds : List α}

/-- The same entries in whatever order, where a name stands for one entry. -/
structure SameEntries (name : α → String) (as bs : List α) : Prop where
  perm : as.Perm bs
  unique : ∀ a ∈ as, ∀ b ∈ as, name a = name b → a = b

namespace SameEntries

theorem of_pairwise (hperm : as.Perm bs) (hnames : as.Pairwise (name · ≠ name ·)) :
    SameEntries name as bs where
  perm := hperm
  unique := by
    intro a ha b hb hname
    have hfirst := find?_of_pairwise hnames ha
    rw [hname,find?_of_pairwise hnames hb] at hfirst
    exact (Option.some.inj hfirst).symm

theorem nil : SameEntries name [] [] := of_pairwise .nil .nil

theorem symm (h : SameEntries name as bs) : SameEntries name bs as where
  perm := h.perm.symm
  unique := fun a ha b hb => h.unique a (h.perm.mem_iff.mpr ha) b (h.perm.mem_iff.mpr hb)

theorem find?_eq_some_iff (h : SameEntries name as bs) {n : String} {a : α} :
    as.find? (name · == n) = some a ↔ a ∈ as ∧ name a = n := by
  constructor
  · intro hfound
    exact ⟨List.mem_of_find?_eq_some hfound,by simpa using List.find?_some hfound⟩
  · rintro ⟨ha,rfl⟩
    obtain ⟨b,hb⟩ := Option.isSome_iff_exists.mp (isSome_find?_of_mem name ha)
    have hname : name b = name a := by simpa using List.find?_some hb
    rw [hb,h.unique b (List.mem_of_find?_eq_some hb) a ha hname]

/-- A look-up by name finds the same entry. -/
theorem find?_eq (h : SameEntries name as bs) (n : String) :
    as.find? (name · == n) = bs.find? (name · == n) := by
  apply Option.ext
  intro a
  rw [h.find?_eq_some_iff,h.symm.find?_eq_some_iff,h.perm.mem_iff]

theorem filter (h : SameEntries name as bs) (keep : α → Bool) :
    SameEntries name (as.filter keep) (bs.filter keep) where
  perm := h.perm.filter keep
  unique := fun a ha b hb => h.unique a (List.mem_filter.mp ha).1 b (List.mem_filter.mp hb).1

theorem append (h : SameEntries name as bs) (hmore : SameEntries name cs ds)
    (hfresh : ∀ a ∈ as, ∀ c ∈ cs, name a ≠ name c) : SameEntries name (as ++ cs) (bs ++ ds) where
  perm := h.perm.append hmore.perm
  unique := by
    intro a ha b hb hname
    rcases List.mem_append.mp ha with ha | ha <;> rcases List.mem_append.mp hb with hb | hb
    · exact h.unique a ha b hb hname
    · exact absurd hname (hfresh a ha b hb)
    · exact absurd hname.symm (hfresh b hb a ha)
    · exact hmore.unique a ha b hb hname

/-- Lists in which look-ups find the same keep the same first entries. -/
theorem keepFirst (h : ∀ n, as.find? (name · == n) = bs.find? (name · == n)) :
    SameEntries name (keepFirst name as) (keepFirst name bs) := by
  have hnodup : ∀ as : List α, (FormulaPath.keepFirst name as).Nodup := fun as =>
    (keepFirst_pairwise name as).imp fun hne heq => hne (congrArg name heq)
  refine of_pairwise ?_ (keepFirst_pairwise name as)
  apply (List.perm_ext_iff_of_nodup (hnodup as) (hnodup bs)).mpr
  intro a
  rw [mem_keepFirst_iff,mem_keepFirst_iff,h]

end SameEntries

/-- Block by block the same entries: a look-up goes through the blocks in order, and in each of them
it finds the same. -/
theorem find?_flatMap_eq {β : Type} {ts us : List β} {members : β → List α}
    (h : List.Forall₂ (fun t u => SameEntries name (members t) (members u)) ts us) (n : String) :
    (ts.flatMap members).find? (name · == n) = (us.flatMap members).find? (name · == n) := by
  induction h with
  | nil => rfl
  | cons hblock _ ih =>
      rw [List.flatMap_cons,List.flatMap_cons,List.find?_append,List.find?_append,
        hblock.find?_eq,ih]

end Entries

/-! ## Models -/

/-- The same structural type up to the order of the members that it declares. -/
structure StructuralType.Reordered (t u : StructuralType) : Prop where
  name : t.name = u.name
  kind : t.kind = u.kind
  supertype : t.supertype = u.supertype
  counterpart : t.counterpart = u.counterpart
  attributes : SameEntries Attribute.name t.attributes u.attributes
  associations : SameEntries Association.name t.associations u.associations

namespace Model
variable {types others : List StructuralType} {m n : Model}

/-- Two lists of declarations that declare the same types up to the order of their members. -/
def SameTypes (types others : List StructuralType) : Prop :=
  ∀ name, Option.Rel StructuralType.Reordered (declared? types name) (declared? others name)

/-- The same model up to the order of the components and of the members of each type. -/
structure Reordered (m n : Model) : Prop where
  valueTypes : m.valueTypes = n.valueTypes
  types : SameTypes m.types n.types
  enums : m.enums = n.enums
  components : SameEntries Component.name m.components n.components

theorem SameTypes.of_forall₂ (h : List.Forall₂ StructuralType.Reordered types others) :
    SameTypes types others := by
  intro name
  unfold declared?
  induction h with
  | nil => exact .none
  | cons htu _ ih =>
      rw [List.find?_cons,List.find?_cons,htu.name]
      split
      · exact .some htu
      · exact ih

theorem SameTypes.none (h : SameTypes types others) {name : String}
    (hnone : declared? types name = none) : declared? others name = none := by
  have hrel := h name
  rw [hnone] at hrel
  cases hother : declared? others name with
  | none => rfl
  | some u =>
      rw [hother] at hrel
      cases hrel

theorem SameTypes.some (h : SameTypes types others) {name : String} {t : StructuralType}
    (ht : declared? types name = some t) : ∃ u, declared? others name = some u ∧ t.Reordered u := by
  have hrel := h name
  rw [ht] at hrel
  cases hother : declared? others name with
  | none =>
      rw [hother] at hrel
      cases hrel
  | some u =>
      rw [hother] at hrel
      cases hrel with
      | some htu => exact ⟨u,rfl,htu⟩

theorem SameTypes.without (h : SameTypes types others) (name : String) :
    SameTypes (without types name) (without others name) := by
  intro other
  by_cases hother : other = name
  · rw [hother,declared?_without_self,declared?_without_self]
    exact .none
  · rw [declared?_without hother,declared?_without hother]
    exact h other

/-- The walks along supertypes pass the same types. -/
theorem SameTypes.ancestors (h : SameTypes types others) (name : String) :
    List.Forall₂ StructuralType.Reordered (ancestors types name) (ancestors others name) := by
  fun_induction Model.ancestors types name generalizing others with
  | case1 types name hnone =>
      rw [ancestors_of_none (h.none hnone)]
      exact .nil
  | case2 types name t ht hsuper =>
      obtain ⟨u,hu,htu⟩ := h.some ht
      rw [ancestors_of_some hu,← htu.supertype,hsuper]
      exact .cons htu .nil
  | case3 types name t ht parent hparent ih =>
      obtain ⟨u,hu,htu⟩ := h.some ht
      rw [ancestors_of_some hu,← htu.supertype,hparent]
      exact .cons htu (ih (h.without name))

namespace Reordered

theorem attributes (h : m.Reordered n) (name : String) :
    SameEntries Attribute.name (m.attributes name) (n.attributes name) :=
  .keepFirst (find?_flatMap_eq ((h.types.ancestors name).imp fun _ _ htu => htu.attributes))

theorem associations (h : m.Reordered n) (name : String) :
    SameEntries Association.name (m.associations name) (n.associations name) :=
  .keepFirst (find?_flatMap_eq ((h.types.ancestors name).imp fun _ _ htu => htu.associations))

theorem datatype?_eq (h : m.Reordered n) (name : String) : m.datatype? name = n.datatype? name := by
  have hdatatype : (declared? m.types name).map StructuralType.datatype =
      (declared? n.types name).map StructuralType.datatype := by
    cases ht : declared? m.types name with
    | none => rw [h.types.none ht]
    | some t =>
        obtain ⟨u,hu,htu⟩ := h.types.some ht
        rw [hu]
        simp [StructuralType.datatype, htu.kind, htu.name]
  unfold datatype? enumType? type?
  rw [h.valueTypes,h.enums,hdatatype]

theorem counterpart?_eq (h : m.Reordered n) (kind : StructuralKind) (name : String) :
    m.counterpart? kind name = n.counterpart? kind name := by
  have hwalk := h.types.ancestors name
  unfold counterpart?
  generalize Model.ancestors m.types name = ts, Model.ancestors n.types name = us at hwalk ⊢
  induction hwalk with
  | nil => rfl
  | cons htu _ ih =>
      rw [List.filter_cons,List.filter_cons,htu.kind]
      split
      · rw [List.findSome?_cons,List.findSome?_cons,htu.counterpart,ih]
      · exact ih

theorem isSubtype_eq (h : m.Reordered n) (sub super : String) :
    m.isSubtype sub super = n.isSubtype sub super := by
  have hwalk := h.types.ancestors sub
  unfold isSubtype
  generalize Model.ancestors m.types sub = ts, Model.ancestors n.types sub = us at hwalk ⊢
  induction hwalk with
  | nil => rfl
  | cons htu _ ih => rw [List.any_cons,List.any_cons,htu.name,ih]

end Reordered

end Model

/-- The same signature up to the order of what it lists. -/
structure Signature.Reordered (s g : Signature) : Prop where
  name : s.name = g.name
  formulaType : s.formulaType = g.formulaType
  parameters : SameEntries Parameter.name s.parameters g.parameters
  matchingAttributes : SameEntries Attribute.name s.matchingAttributes g.matchingAttributes
  enumTypes : s.enumTypes.Perm g.enumTypes

/-- The same host with the declarations of a model and a signature. -/
def Environment.declaring (env : Environment) (m : Model) (s : Signature) : Environment :=
  { env with schema := m.schema, signature := s }

/-! ## What the rules see -/

/-- Two surroundings in which the rules see the same at every place, up to order. -/
structure SameScope (env other : Environment) : Prop where
  filter : env.filter = other.filter
  texts : env.texts = other.texts
  options : env.options = other.options
  formulaType? : env.formulaType? = other.formulaType?
  datatype? : env.schema.datatype? = other.schema.datatype?
  parameters : SameEntries Parameter.name env.signature.parameters other.signature.parameters
  attributes : ∀ t, SameEntries Attribute.name (Scope.readableAttributes env t)
    (Scope.readableAttributes other t)
  associations : ∀ name, SameEntries Association.name (env.schema.associations name)
    (other.schema.associations name)
  enums : SameEntries EnumType.name (Scope.availableEnums env) (Scope.availableEnums other)
  components : ∀ a, SameEntries Component.name (Scope.components env a) (Scope.components other a)
  subject? : ∀ a c, Scope.subject? env a c = Scope.subject? other a c

section Declarations
variable {env : Environment} {m n : Model} {s g : Signature}

theorem borrowedAttributes_reordered (hmodel : m.Reordered n) (hsignature : s.Reordered g)
    (t : Datatype) :
    SameEntries Attribute.name (Scope.borrowedAttributes (env.declaring m s) t)
      (Scope.borrowedAttributes (env.declaring n g) t) := by
  have hformula : (env.declaring m s).isFormulaType t = (env.declaring n g).isFormulaType t := by
    simp [Environment.isFormulaType, Environment.declaring, hsignature.formulaType]
  unfold Scope.borrowedAttributes
  rw [hformula]
  split
  · exact hsignature.matchingAttributes
  · cases t with
    | policy name =>
        have hproduct : m.schema.productType? name = n.schema.productType? name :=
          hmodel.counterpart?_eq .policy name
        by_cases hoption : env.options.productAttributes = true
        · simp only [Environment.declaring, hoption, if_true, hproduct]
          cases n.schema.productType? name with
          | none => exact .nil
          | some product => exact hmodel.attributes product
        · simp only [Environment.declaring, hoption]
          exact .nil
    | _ => exact .nil

theorem readableAttributes_reordered (hmodel : m.Reordered n) (hsignature : s.Reordered g)
    (t : Datatype) :
    SameEntries Attribute.name (Scope.readableAttributes (env.declaring m s) t)
      (Scope.readableAttributes (env.declaring n g) t) := by
  have hown : SameEntries Attribute.name ((env.declaring m s).schema.attributes t.name)
      ((env.declaring n g).schema.attributes t.name) := hmodel.attributes t.name
  have hborrowed : SameEntries Attribute.name (Scope.borrowedAttributes (env.declaring m s) t)
      (Scope.borrowedAttributes (env.declaring n g) t) :=
    borrowedAttributes_reordered hmodel hsignature t
  apply SameEntries.filter
  unfold Scope.allAttributes
  simp only [hown.perm.any_eq]
  refine hown.append (.keepFirst (hborrowed.filter _).find?_eq) ?_
  intro a ha b hb
  have hfresh := (List.mem_filter.mp (Model.mem_of_mem_keepFirst hb)).2
  simp only [Bool.not_eq_true', List.any_eq_false, beq_iff_eq] at hfresh
  exact hfresh a (hown.perm.subset ha)

theorem availableEnums_reordered (hmodel : m.Reordered n) (hsignature : s.Reordered g) :
    SameEntries EnumType.name (Scope.availableEnums (env.declaring m s))
      (Scope.availableEnums (env.declaring n g)) := by
  have henum : n.enumType? = m.enumType? := by
    funext name
    unfold Model.enumType?
    rw [hmodel.enums]
  constructor
  · unfold Scope.availableEnums
    simp only [Environment.declaring, Model.schema, henum]
    exact hsignature.enumTypes.filterMap _
  · -- An enumeration is found under its own name, so two of one name are the same.
    intro d hd e he hname
    obtain ⟨first,-,hfirst⟩ := List.mem_filterMap.mp hd
    obtain ⟨second,-,hsecond⟩ := List.mem_filterMap.mp he
    rw [Model.name_of_enumType? hfirst,Model.name_of_enumType? hsecond] at hname
    rw [hname,hsecond] at hfirst
    exact (Option.some.inj hfirst).symm

theorem components_reordered (hmodel : m.Reordered n) (a : Association) :
    SameEntries Component.name (Scope.components (env.declaring m s) a)
      (Scope.components (env.declaring n g) a) := by
  have hproduct : (env.declaring m s).schema.productType? a.target =
      (env.declaring n g).schema.productType? a.target := hmodel.counterpart?_eq .policy a.target
  have hsubtype : (env.declaring m s).schema.isSubtype = (env.declaring n g).schema.isSubtype := by
    funext sub super
    exact hmodel.isSubtype_eq sub super
  unfold Scope.components
  rw [hproduct,hsubtype]
  cases (env.declaring n g).schema.productType? a.target with
  | none => exact .nil
  | some product => exact hmodel.components.filter _

/-- Reordered declarations show the rules the same. -/
theorem sameScope_of_reordered (env : Environment) (hmodel : m.Reordered n)
    (hsignature : s.Reordered g) : SameScope (env.declaring m s) (env.declaring n g) := by
  have hdatatype : (env.declaring m s).schema.datatype? = (env.declaring n g).schema.datatype? :=
    funext hmodel.datatype?_eq
  constructor
  case formulaType? =>
    have hformula : (env.declaring m s).signature.formulaType =
        (env.declaring n g).signature.formulaType := hsignature.formulaType
    rw [Environment.formulaType?,Environment.formulaType?,hformula,hdatatype]
  case subject? =>
    intro a c
    have hpolicy : (env.declaring m s).schema.policyType? c.productType =
        (env.declaring n g).schema.policyType? c.productType :=
      hmodel.counterpart?_eq .product c.productType
    rw [Scope.subject?,Scope.subject?,hpolicy,hdatatype]
  case datatype? => exact hdatatype
  case parameters => exact hsignature.parameters
  case attributes => exact readableAttributes_reordered hmodel hsignature
  case associations => exact hmodel.associations
  case enums => exact availableEnums_reordered hmodel hsignature
  case components => exact components_reordered hmodel
  all_goals rfl

end Declarations

/-! ## What the rules decide and offer -/

namespace SameScope
variable {env other : Environment}

theorem memberType?_eq (h : SameScope env other) (trail : Trail) :
    trail.memberType? env = trail.memberType? other := by
  unfold Trail.memberType?
  cases trail with
  | nil => simp only [Trail.currentType?, h.formulaType?]
  | cons node before => rfl

theorem mayRead_eq (h : SameScope env other) (a : Attribute) (access : Access) :
    Scope.mayRead env a access = Scope.mayRead other a access := by
  cases access with
  | value => rfl
  | defaultValue => simp only [Scope.mayRead, Scope.mayReadDefault, h.filter]

/-- Each rule decides the same. -/
theorem meaning?_eq (h : SameScope env other) (rule : Rule) (trail : Trail) (text : String) :
    rule.meaning? env trail text = rule.meaning? other trail text := by
  cases rule with
  | param =>
      simp only [Rule.meaning?, Rule.paramMeaning?, Signature.parameter?, h.parameters.find?_eq,
        h.datatype?]
  | attr =>
      simp only [Rule.meaning?, Rule.attrMeaning?, h.memberType?_eq, h.options,
        (h.attributes _).find?_eq, h.mayRead_eq, h.datatype?]
  | assoc =>
      simp only [Rule.meaning?, Rule.assocMeaning?, h.memberType?_eq, (h.associations _).find?_eq,
        h.datatype?]
  | enumeration =>
      simp only [Rule.meaning?, Rule.enumMeaning?, h.enums.find?_eq]
  | bracket =>
      simp only [Rule.meaning?, Rule.bracketMeaning?, Rule.qualifierMeaning, Rule.selected?,
        (h.components _).find?_eq, h.subject?]

theorem partNode_eq (h : SameScope env other) (trail : Trail) (part : Part) :
    partNode env trail part = partNode other trail part := by
  simp only [partNode, partMeaning, Rule.decide?, h.meaning?_eq]

theorem resolve_eq (h : SameScope env other) (path : String) :
    resolve env path = resolve other path := by
  have hfrom : ∀ trail parts, resolveFrom env trail parts = resolveFrom other trail parts := by
    intro trail parts
    induction parts generalizing trail with
    | nil => rfl
    | cons part parts ih => simp only [resolveFrom, h.partNode_eq, ih]
  simp only [resolve, hfrom]

theorem settle?_eq (h : SameScope env other) (trail : Trail) (parts : List Part) :
    settle? env trail parts = settle? other trail parts := by
  induction parts generalizing trail with
  | nil => rfl
  | cons part parts ih => simp only [settle?, h.partNode_eq, ih]

/-- Each rule offers the same, up to order. -/
theorem candidates_perm (h : SameScope env other) (rule : Rule) (trail : Trail) (typed : String) :
    (rule.candidates env trail typed).Perm (rule.candidates other trail typed) := by
  cases rule with
  | param =>
      simp only [Rule.candidates, Rule.paramCandidates, h.texts]
      split
      · exact .refl _
      · exact h.parameters.perm.map _
  | attr =>
      have hoffers : Rule.attributeCandidates env = Rule.attributeCandidates other := by
        funext a
        unfold Rule.attributeCandidates Scope.mayReadDefault
        rw [h.texts,h.options,h.filter]
      simp only [Rule.candidates, Rule.attrCandidates, h.memberType?_eq, hoffers]
      split
      · exact .refl _
      · exact (h.attributes _).perm.flatMap_right _
  | assoc =>
      have hoffers : Rule.associationCandidates env = Rule.associationCandidates other := by
        funext list a
        unfold Rule.associationCandidates
        rw [h.texts,h.options]
      simp only [Rule.candidates, Rule.assocCandidates, h.memberType?_eq, hoffers]
      split
      · exact .refl _
      · exact (h.associations _).perm.flatMap_right _
  | enumeration =>
      simp only [Rule.candidates, Rule.enumCandidates, h.texts]
      split
      · exact h.enums.perm.map _
      · exact .refl _
  | bracket =>
      simp only [Rule.candidates, Rule.bracketCandidates, h.texts]
      split
      · exact .refl _
      · split
        · exact .refl _
        · exact ((h.components _).perm.filter _).map _

theorem proposalsAt_eq (h : SameScope env other) (trail : Trail) (typed : String) :
    proposalsAt env trail typed = proposalsAt other trail typed := by
  have hperm : (Rule.inOrder.flatMap fun rule => rule.proposals env trail typed).Perm
      (Rule.inOrder.flatMap fun rule => rule.proposals other trail typed) := by
    apply List.Perm.flatMap_left
    intro rule _
    exact Proposal.collect_perm (h.candidates_perm rule trail typed)
  simp only [proposalsAt, Proposal.sort_eq_of_perm hperm, h.options]

theorem proposals_eq (h : SameScope env other) (path : String) :
    proposals env path = proposals other path := by
  simp only [proposals, h.settle?_eq, h.proposalsAt_eq]

end SameScope

/-- The order of declarations does not matter. Take two models that differ in the order of their
components and, in each type, of its attributes and of its associations, and two signatures that
differ in the order of what they list, where a name stands for one entry of each list. Then every
path has the same chain, and the proposals for it are the same list. -/
theorem declaration_order_irrelevant (env : Environment) {m n : Model} {s g : Signature}
    (hmodel : m.Reordered n) (hsignature : s.Reordered g) (path : String) :
    resolve (env.declaring m s) path = resolve (env.declaring n g) path ∧
      proposals (env.declaring m s) path = proposals (env.declaring n g) path := by
  have hscope := sameScope_of_reordered env hmodel hsignature
  exact ⟨hscope.resolve_eq path,hscope.proposals_eq path⟩

/-- Contracts whose members and components are listed in a chosen order. -/
def listedModel (order : {α : Type} → List α → List α) : Model where
  valueTypes := ["Money"]
  types := [
    ⟨"Contract", .policy, none, none,
      order [⟨"premium", "Contract", "Money", true, none, none⟩,
        ⟨"rebate", "Contract", "Money", false, none, none⟩],
      order [⟨"covers", "Contract", "Cover", 5, true, none, none⟩,
        ⟨"holder", "Contract", "Contract", 1, false, none, none⟩]⟩,
    ⟨"Cover", .policy, none, some "CoverType", [], []⟩,
    ⟨"CoverType", .product, none, some "Cover", [], []⟩]
  enums := [⟨"Payment", [⟨"MONTHLY", "monthly"⟩], none⟩, ⟨"Region", [], none⟩]
  components := order [⟨"BASE", "BASE", some "base.1", "CoverType", none⟩,
    ⟨"EXTRA", "EXTRA", some "extra.1", "CoverType", none⟩]

/-- A formula of contracts whose signature is listed in a chosen order. -/
def listedSignature (order : {α : Type} → List α → List α) : Signature where
  name := "rate"
  parameters := order [⟨"factor", some "Money", none, none⟩, ⟨"floor", none, none, none⟩]
  formulaType := some "Contract"
  matchingAttributes := order [⟨"premium", "", "Money", false, none, none⟩,
    ⟨"bonus", "", "Money", false, none, none⟩]
  enumTypes := order ["Payment", "Region", "Payment"]

theorem declaration_order_irrelevant_covers :
    let env := sampleEnvironment.declaring (listedModel id) (listedSignature id)
    let other := sampleEnvironment.declaring (listedModel List.reverse)
      (listedSignature List.reverse)
    resolve env "covers[\"EXTRA\"]" = resolve other "covers[\"EXTRA\"]" ∧
      proposals env "" = proposals other "" ∧
      Rule.attr.candidates env [] "" ≠ Rule.attr.candidates other [] "" := by
  intro env other
  have hmodel : (listedModel id).Reordered (listedModel List.reverse) := by
    refine ⟨rfl,.of_forall₂ (.cons ?_ (.cons ?_ (.cons ?_ .nil))),rfl,?_⟩
    · exact ⟨rfl,rfl,rfl,rfl,.of_pairwise (List.reverse_perm _).symm (by decide),
        .of_pairwise (List.reverse_perm _).symm (by decide)⟩
    · exact ⟨rfl,rfl,rfl,rfl,.nil,.nil⟩
    · exact ⟨rfl,rfl,rfl,rfl,.nil,.nil⟩
    · exact .of_pairwise (List.reverse_perm _).symm (by decide)
  have hsignature : (listedSignature id).Reordered (listedSignature List.reverse) :=
    ⟨rfl,rfl,.of_pairwise (List.reverse_perm _).symm (by decide),
      .of_pairwise (List.reverse_perm _).symm (by decide),(List.reverse_perm _).symm⟩
  have hcovers := declaration_order_irrelevant sampleEnvironment hmodel hsignature
    "covers[\"EXTRA\"]"
  have hstart := declaration_order_irrelevant sampleEnvironment hmodel hsignature ""
  exact ⟨hcovers.1,hstart.2,by decide +kernel⟩

end FormulaPath
