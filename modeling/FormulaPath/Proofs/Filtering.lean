import FormulaPath.Proofs.QualifierOffer
import FormulaPath.Proofs.Acceptance

/-!
# What the filter lets through

Attributes reach a chain or a list of proposals along one way only: they stand among the readable
attributes of the type at hand. So the filter has been asked about each of them, and about the
default value too where that is read or offered.

A stricter filter can change what a name means, because a name whose attribute is denied goes on to
the associations and the enumerations. It cannot do so for a path whose attributes it still grants:
rule by rule, what the other filter let through stays (`Denotes.of_within`) and what declined
still declines, and the two runs keep the same trail.
-/
namespace FormulaPath
open FormulaPath.Path

namespace Filter

/-- Whether the filter lets formulas find an attribute and read it in the given way. -/
def grants (f : Filter) (a : Attribute) (access : Access) : Bool :=
  f.allows (.attr a) .value && f.allows (.attr a) access

/-- The filter allows nothing that the other one denies. -/
def Within (f g : Filter) : Prop :=
  ∀ element access, f.allows element access = true → g.allows element access = true

end Filter

/-- The same surroundings with another filter. -/
def Environment.withFilter (env : Environment) (f : Filter) : Environment :=
  { env with filter := f }

section Granted
variable {env : Environment} {trail : Trail} {text : String} {a : Attribute} {access : Access}

theorem grants_of_mem {owner : Datatype} (ha : a ∈ Scope.readableAttributes env owner)
    (hread : Scope.mayRead env a access = true) :
    env.filter.grants a access = true ∧ (access = .defaultValue → a.hasDefault = true) := by
  have hvalue : env.filter.allows (.attr a) .value = true := (List.mem_filter.mp ha).2
  cases access with
  | value => exact ⟨by simp [Filter.grants, hvalue],nofun⟩
  | defaultValue =>
      have hdefault : a.hasDefault = true ∧ env.filter.allows (.attr a) .defaultValue = true :=
        Bool.and_eq_true_iff.mp hread
      exact ⟨by simp [Filter.grants, hvalue, hdefault.2],fun _ => hdefault.1⟩

theorem Denotes.grants {rule : Rule} {t : Datatype}
    (h : Denotes env trail text rule (.attr a access) t) :
    env.filter.grants a access = true ∧ (access = .defaultValue → a.hasDefault = true) := by
  cases h with
  | attr _ _ _ ha hread _ => exact grants_of_mem (List.mem_of_find?_eq_some ha) hread

theorem grants_of_mem_resolve {path : String} {node : Node} (hnode : node ∈ resolve env path)
    (hr : node.referent? = some (.attr a access)) :
    env.filter.grants a access = true ∧ (access = .defaultValue → a.hasDefault = true) := by
  rw [resolve_eq (ne_empty_of_referent? hnode hr)] at hnode
  obtain ⟨i,hi⟩ := List.mem_iff_getElem?.mp hnode
  obtain ⟨part,rule,r,t,rfl,hdenotes⟩ := denotes_at hi (isInvalid_of_referent? hr)
  cases hr
  exact hdenotes.grants

/-- An attribute that is offered is one of the type at hand, and the filter grants it as it is
offered. -/
theorem attribute_of_proposal {typed : String} {p : Proposal}
    (hp : p ∈ proposalsAt env trail typed) (hkind : p.category = .attr) :
    ∃ owner a access, trail.memberType? env = some owner ∧ Scope.Shows env owner a ∧
      env.filter.grants a access = true ∧ (access = .defaultValue → a.hasDefault = true) ∧
      p.text = env.options.writeName a.name access := by
  obtain ⟨rule,-,hc,-⟩ := mem_proposalsAt hp
  obtain rfl : rule = .attr := by
    have hoffers : Category.attr ∈ rule.offers := hkind ▸ category_of_candidate hc
    cases rule <;> simp_all [Rule.offers]
  simp only [Rule.candidates, Rule.attrCandidates] at hc
  split at hc
  · cases hc
  next owner howner =>
    obtain ⟨a,ha,hc⟩ := List.mem_flatMap.mp hc
    obtain ⟨access,htext,hread,-⟩ := attributeCandidates_text hc
    obtain ⟨hgrants,hdefault⟩ := grants_of_mem ha hread
    exact ⟨owner,a,access,howner,Scope.shows_of_mem ha,hgrants,hdefault,htext⟩

end Granted

/-- No way leads past the filter. An attribute in a chain is one that the filter grants, as a value
or a default value as the chain reads it. An attribute that is offered belongs to the type behind
the parts in front of it, and its text is its name or, where the default value exists and is granted
too, its name with the suffix. -/
theorem attributes_granted (env : Environment) (path typed : String) :
    (∀ node ∈ resolve env path, ∀ a access, node.referent? = some (.attr a access) →
      env.filter.grants a access = true ∧ (access = .defaultValue → a.hasDefault = true)) ∧
    ∀ p ∈ proposals env typed, p.category = .attr →
      ∃ trail owner a access, settle? env [] (split typed).dropLast = some trail ∧
        trail.memberType? env = some owner ∧ Scope.Shows env owner a ∧
        env.filter.grants a access = true ∧ (access = .defaultValue → a.hasDefault = true) ∧
        p.text = env.options.writeName a.name access := by
  refine ⟨fun node hnode a access hr => grants_of_mem_resolve hnode hr,?_⟩
  intro p hp hkind
  obtain ⟨init,last,hsplit⟩ := split_eq_append typed
  rw [proposals_of_split hsplit] at hp
  rw [hsplit,List.dropLast_concat]
  split at hp
  next trail hsettle =>
    split at hp
    · cases hp
    · obtain ⟨owner,a,access,hfound⟩ := attribute_of_proposal hp hkind
      exact ⟨trail,owner,a,access,hsettle,hfound⟩
  next => cases hp

/-- The sample formula, which must not read the default value of a premium. -/
def guardedEnvironment : Environment :=
  sampleEnvironment.withFilter (.denying [("Contract.premium", .defaultValue)])

theorem attributes_granted_premium :
    (resolve guardedEnvironment "premium").map Node.category? = [some .attr] ∧
      (proposals guardedEnvironment "prem").map (·.text) = ["premium"] ∧
      ∃ trail owner a access, settle? guardedEnvironment [] (split "prem").dropLast = some trail ∧
        trail.memberType? guardedEnvironment = some owner ∧ Scope.Shows guardedEnvironment owner a ∧
        guardedEnvironment.filter.grants a access = true ∧
        "premium" = guardedEnvironment.options.writeName a.name access := by
  have hoffered : ∃ p ∈ proposals guardedEnvironment "prem", p.category = .attr ∧
      p.text = "premium" := by decide +kernel
  obtain ⟨p,hp,hkind,htext⟩ := hoffered
  obtain ⟨trail,owner,a,access,hsettle,howner,hshows,hgrants,-,hname⟩ :=
    (attributes_granted guardedEnvironment "premium" "prem").2 p hp hkind
  exact ⟨by decide +kernel,by decide +kernel,trail,owner,a,access,hsettle,howner,hshows,hgrants,
    htext ▸ hname⟩

/-! ## Stricter filters -/

theorem find?_of_imp {α : Type} {p q : α → Bool} {as : List α} {a : α}
    (himp : ∀ b, q b = true → p b = true) (h : as.find? p = some a) (ha : q a = true) :
    as.find? q = some a := by
  obtain ⟨-,front,back,rfl,hfront⟩ := List.find?_eq_some_iff_append.mp h
  refine List.find?_eq_some_iff_append.mpr ⟨ha,front,back,rfl,?_⟩
  intro b hb
  have hnot := hfront b hb
  simp only [Bool.not_eq_true'] at hnot ⊢
  exact Bool.eq_false_iff.mpr fun hq => Bool.eq_false_iff.mp hnot (himp b hq)

section Stricter
variable {env other : Environment} {f g : Filter} {trail : Trail} {text name : String}

/-- Two surroundings decide alike about a part if each rule that declines in one declines in the
other, and the rule that decides decides the same. -/
theorem Rule.decide?_of_meaning? {meaning : Meaning}
    (hnone : ∀ rule : Rule, rule.meaning? env trail text = none →
      rule.meaning? other trail text = none)
    (hsome : ∀ rule : Rule, rule.meaning? env trail text = some meaning →
      rule.meaning? other trail text = some meaning)
    (h : decide? env trail text = some meaning) : decide? other trail text = some meaning := by
  obtain ⟨before,rule,after,horder,hrule,hbefore⟩ := List.findSome?_eq_some_iff.mp h
  exact List.findSome?_eq_some_iff.mpr ⟨before,rule,after,horder,hsome rule hrule,
    fun earlier hearlier => hnone earlier (hbefore earlier hearlier)⟩

theorem meaning?_withFilter {rule : Rule} (hrule : rule ≠ .attr) (env : Environment)
    (f g : Filter) (trail : Trail) (text : String) :
    rule.meaning? (env.withFilter f) trail text = rule.meaning? (env.withFilter g) trail text := by
  cases rule with
  | attr => exact absurd rfl hrule
  | _ => rfl

theorem mayRead_of_grants {a : Attribute} {access : Access}
    (h : Scope.mayRead (env.withFilter g) a access = true) (hgrants : f.grants a access = true) :
    Scope.mayRead (env.withFilter f) a access = true := by
  cases access with
  | value => rfl
  | defaultValue =>
      have hdefault : a.hasDefault = true := (Bool.and_eq_true_iff.mp h).1
      have hallows : f.allows (.attr a) .defaultValue = true := (Bool.and_eq_true_iff.mp hgrants).2
      simp [Scope.mayRead, Scope.mayReadDefault, Environment.withFilter, hdefault, hallows]

theorem readableAttributes_of_within (hfg : f.Within g) {owner : Datatype} {a : Attribute}
    (h : a ∈ Scope.readableAttributes (env.withFilter f) owner) :
    a ∈ Scope.readableAttributes (env.withFilter g) owner := by
  obtain ⟨hall,hallows⟩ := List.mem_filter.mp h
  exact List.mem_filter.mpr ⟨hall,hfg _ _ hallows⟩

/-- An attribute that the stricter filter grants still denotes what it did. No other attribute of its
name gets in front of it, since the stricter filter only takes attributes away. -/
theorem Denotes.of_within (hfg : f.Within g) {r : Referent} {t : Datatype}
    (h : Denotes (env.withFilter g) trail text .attr r t)
    (hgrants : ∀ a access, r = .attr a access → f.grants a access = true) :
    Denotes (env.withFilter f) trail text .attr r t := by
  cases h with
  | attr hbracket howner hname ha hread hu =>
      have hgrants := hgrants _ _ rfl
      refine .attr hbracket howner hname ?_ (mayRead_of_grants hread hgrants) hu
      unfold Scope.readableAttributes at ha ⊢
      rw [List.find?_filter] at ha ⊢
      have hfound := List.find?_some ha
      refine find?_of_imp ?_ ha ?_
      · intro b hb
        simp only [decide_eq_true_eq] at hb ⊢
        exact ⟨hfg _ _ hb.1,hb.2⟩
      · simp only [decide_eq_true_eq] at hfound ⊢
        exact ⟨(Bool.and_eq_true_iff.mp hgrants).1,hfound.2⟩

/-- The rule for attributes declines a name exactly if no readable attribute has it. -/
theorem attrMeaning?_eq_none_iff :
    Rule.attrMeaning? env trail text = none ↔ isBracketText text = true ∨
      ∀ owner, trail.memberType? env = some owner →
        ∀ a ∈ Scope.readableAttributes env owner, a.name ≠ (env.options.readName text).1 := by
  unfold Rule.attrMeaning?
  cases hbracket : isBracketText text with
  | true => simp
  | false =>
      cases howner : trail.memberType? env with
      | none => simp
      | some owner =>
          cases ha : (Scope.readableAttributes env owner).find?
              (·.name == (env.options.readName text).1) with
          | none => simpa [ha] using List.find?_eq_none.mp ha
          | some a =>
              have hname := List.find?_some ha
              have hmem := List.mem_of_find?_eq_some ha
              have htaken : ∃ a ∈ Scope.readableAttributes env owner,
                  a.name = (env.options.readName text).1 := ⟨a,hmem,by simpa using hname⟩
              simp only [Bool.false_eq_true, if_false, Option.bind_eq_bind, Option.bind_some, ha]
              split <;> simpa using htaken

theorem attrMeaning?_none_of_within (hfg : f.Within g)
    (h : Rule.attrMeaning? (env.withFilter g) trail text = none) :
    Rule.attrMeaning? (env.withFilter f) trail text = none := by
  rw [attrMeaning?_eq_none_iff] at h ⊢
  refine h.imp_right fun hnone owner howner a ha => ?_
  exact hnone owner howner a (readableAttributes_of_within hfg ha)

/-- One step: a part that resolves under the wider filter has the same node under the stricter one,
if that grants what the node reads. -/
theorem partNode_of_within (hfg : f.Within g) {part : Part}
    (hvalid : (partNode (env.withFilter g) trail part).isInvalid = false)
    (hgrants : ∀ a access, (partNode (env.withFilter g) trail part).referent? =
      some (.attr a access) → f.grants a access = true) :
    partNode (env.withFilter f) trail part = partNode (env.withFilter g) trail part := by
  obtain ⟨hsep,-,r,t,hnode,-⟩ := denotes_of_partNode hvalid
  have hdecide : Rule.decide? (env.withFilter g) trail part.text = some (.resolved r t) := by
    cases hdecide : Rule.decide? (env.withFilter g) trail part.text with
    | none => simp [partNode, partMeaning, hsep, hdecide] at hnode
    | some meaning => simpa [partNode, partMeaning, hsep, hdecide] using hnode
  have hsame : Rule.decide? (env.withFilter f) trail part.text = some (.resolved r t) := by
    refine Rule.decide?_of_meaning? (fun rule hnone => ?_) (fun rule hsome => ?_) hdecide
    · by_cases hrule : rule = .attr
      · subst hrule
        exact attrMeaning?_none_of_within hfg hnone
      · rw [meaning?_withFilter hrule env f g]
        exact hnone
    · by_cases hrule : rule = .attr
      · subst hrule
        rw [hnode] at hgrants
        apply Rule.meaning?_resolved_iff.mpr
        apply (Rule.meaning?_resolved_iff.mp hsome).of_within hfg
        rintro a access rfl
        exact hgrants a access rfl
      · rw [meaning?_withFilter hrule env f g]
        exact hsome
  simp [partNode, partMeaning, hsep, hdecide, hsame]

/-- A whole run: the two chains keep the same trail, node by node. -/
theorem resolveFrom_of_within (hfg : f.Within g) {parts : List Part}
    (hvalid : ∀ node ∈ resolveFrom (env.withFilter g) trail parts, node.isInvalid = false)
    (hgrants : ∀ node ∈ resolveFrom (env.withFilter g) trail parts, ∀ a access,
      node.referent? = some (.attr a access) → f.grants a access = true) :
    resolveFrom (env.withFilter f) trail parts = resolveFrom (env.withFilter g) trail parts := by
  induction parts generalizing trail with
  | nil => rfl
  | cons part parts ih =>
      obtain ⟨hpart,hrest⟩ := forall_valid_cons.mp hvalid
      rw [resolveFrom_cons_valid hpart] at hgrants
      have hnode := partNode_of_within hfg hpart (hgrants _ List.mem_cons_self)
      have hpart' : (partNode (env.withFilter f) trail part).isInvalid = false := by
        rw [hnode]
        exact hpart
      rw [resolveFrom_cons_valid hpart,resolveFrom_cons_valid hpart',hnode,
        ih hrest fun node hmem => hgrants node (List.mem_cons_of_mem _ hmem)]

end Stricter

/-- Take a path that resolves under one filter. A stricter filter leaves its chain as it is exactly
if it grants each attribute of the chain, as the chain reads it. -/
theorem resolve_stricter_eq_iff (env : Environment) {f g : Filter} (hfg : f.Within g)
    {path : String}
    (hvalid : ∀ node ∈ resolve (env.withFilter g) path, node.isInvalid = false) :
    resolve (env.withFilter f) path = resolve (env.withFilter g) path ↔
      ∀ node ∈ resolve (env.withFilter g) path, ∀ a access,
        node.referent? = some (.attr a access) → f.grants a access = true := by
  constructor
  · intro hsame node hnode a access hr
    rw [← hsame] at hnode
    exact (grants_of_mem_resolve hnode hr).1
  · intro hgrants
    by_cases hne : path = ""
    · subst hne
      rfl
    · rw [resolve_eq hne] at hvalid hgrants ⊢
      rw [resolve_eq hne]
      exact resolveFrom_of_within hfg hvalid hgrants

theorem resolve_stricter_eq_iff_premium :
    let f := Filter.denying [("Contract.premium", .defaultValue)]
    resolve (sampleEnvironment.withFilter f) "premium" =
        resolve (sampleEnvironment.withFilter .everything) "premium" ∧
      resolve (sampleEnvironment.withFilter f) "premium@default" ≠
        resolve (sampleEnvironment.withFilter .everything) "premium@default" := by
  intro f
  have hfg : f.Within .everything := fun _ _ _ => rfl
  let premium : Attribute := ⟨"premium", "Contract", "Money", true, none, none⟩
  have hchain : resolve (sampleEnvironment.withFilter .everything) "premium" =
      [⟨Region.span 0 7, .resolved (.attr premium .value) (.value "Money")⟩] := by
    decide +kernel
  refine ⟨(resolve_stricter_eq_iff sampleEnvironment hfg (by decide +kernel)).mpr ?_,
    by decide +kernel⟩
  intro node hnode a access hr
  rw [hchain] at hnode
  rw [List.mem_singleton.mp hnode] at hr
  cases hr
  decide +kernel

end FormulaPath
