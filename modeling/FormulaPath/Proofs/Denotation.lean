import FormulaPath.Resolution

/-!
# What a rule can say about a part

`Denotes` lists, with all their guards, the ways in which a rule gives a part a referent and a type;
`meaning?_resolved_iff` says that a rule resolves a part in these ways and in no other. Facts about
the nodes of a chain are proved by cases on `Denotes`, so that no later proof opens a rule.
-/
namespace FormulaPath

/-- The text `text`, read behind `trail`, refers to something of a type by one of the rules. -/
inductive Denotes (env : Environment) (trail : Trail) (text : String) :
    Rule → Referent → Datatype → Prop
  | param {p : Parameter} {t : Datatype} : trail = [] → isBracketText text = false →
      env.signature.parameter? text = some p → p.datatype.bind env.schema.datatype? = some t →
      Denotes env trail text .param (.param p) t
  | attr {owner t : Datatype} {a : Attribute} {name : String} {access : Access} :
      isBracketText text = false → trail.memberType? env = some owner →
      env.options.readName text = (name, access) →
      (Scope.readableAttributes env owner).find? (·.name == name) = some a →
      Scope.mayRead env a access = true → env.schema.datatype? a.datatype = some t →
      Denotes env trail text .attr (.attr a access) (t.asListIf trail.isList)
  | assoc {owner t : Datatype} {a : Association} :
      isBracketText text = false → trail.memberType? env = some owner →
      (env.schema.associations owner.name).find? (·.name == text) = some a →
      env.schema.datatype? a.target = some t →
      Denotes env trail text .assoc (.assoc a) (t.asListIf (a.isManyUnqualified || trail.isList))
  | enumClass {e : EnumType} : isBracketText text = false → trail = [] →
      (Scope.availableEnums env).find? (·.name == text) = some e →
      Denotes env trail text .enumeration (.enumClass e) (.enumClass e.name)
  | enumValue {e : EnumType} {v : EnumValue} : isBracketText text = false →
      trail.enumClass? = some e → e.value? text = some v →
      Denotes env trail text .enumeration (.enumValue e v) (.enum e.name)
  | index {a : Association} {before : Trail} {current : Node} {position : Nat} {t : Datatype} :
      isBracketText text = true → trail.association? = some (a, before) →
      Bracket.ofText text = .index position → trail.head? = some current →
      Rule.allowsIndex a current = true → current.datatype? = some t →
      Denotes env trail text .bracket (.index position) t.element
  | qualifier {a : Association} {before : Trail} {c : Component} {name runtimeId : String}
      {t : Datatype} :
      isBracketText text = true → trail.association? = some (a, before) →
      Bracket.ofText text = .qualifier name →
      (Scope.components env a).find? (·.name == name) = some c → c.runtimeId = some runtimeId →
      Scope.subject? env a c = some t →
      Denotes env trail text .bracket (.qualifier name runtimeId c)
        (t.element.asListIf (a.isMany || before.isList))

theorem Denotes.datatype_of_enumClass {env : Environment} {trail : Trail} {text : String}
    {rule : Rule} {e : EnumType} {t : Datatype}
    (h : Denotes env trail text rule (.enumClass e) t) : t = .enumClass e.name := by
  cases h
  rfl

namespace Rule
variable {env : Environment} {trail : Trail} {text : String} {r : Referent} {t : Datatype}

theorem mem_inOrder (rule : Rule) : rule ∈ inOrder := by
  cases rule <;> decide

theorem named_eq_resolved {datatype : Option Datatype} {meaning : Datatype → Meaning} :
    named text datatype meaning = .resolved r t ↔
      ∃ u, datatype = some u ∧ meaning u = .resolved r t := by
  cases datatype <;> simp [named]

theorem paramMeaning?_resolved_iff :
    paramMeaning? env trail text = some (.resolved r t) ↔ Denotes env trail text .param r t := by
  constructor
  · intro h
    unfold paramMeaning? at h
    split at h
    · cases h
    next hguard =>
      obtain ⟨p,hp,hnamed⟩ := Option.map_eq_some_iff.mp h
      obtain ⟨u,hu,hmeaning⟩ := named_eq_resolved.mp hnamed
      cases hmeaning
      simp only [Bool.or_eq_true, Bool.not_eq_true', not_or, Bool.not_eq_false,
        List.isEmpty_iff, Bool.not_eq_true] at hguard
      exact .param hguard.1 hguard.2 hp hu
  · intro h
    cases h with
    | param htrail hbracket hp hu =>
        simp [paramMeaning?, htrail, hbracket, hp, named, hu, Meaning.ofParameter]

theorem attrMeaning?_resolved_iff :
    attrMeaning? env trail text = some (.resolved r t) ↔ Denotes env trail text .attr r t := by
  constructor
  · intro h
    unfold attrMeaning? at h
    split at h
    · cases h
    next hbracket =>
      obtain ⟨owner,howner,h⟩ := Option.bind_eq_some_iff.mp h
      rcases hname : env.options.readName text with ⟨name,access⟩
      rw [hname] at h
      obtain ⟨a,ha,h⟩ := Option.bind_eq_some_iff.mp h
      split at h
      next hread =>
        obtain ⟨u,hu,hmeaning⟩ := named_eq_resolved.mp (Option.some.inj h)
        cases hmeaning
        exact .attr (by simpa using hbracket) howner hname ha hread hu
      next => cases h
  · intro h
    cases h with
    | attr hbracket howner hname ha hread hu =>
        simp [attrMeaning?, hbracket, howner, hname, ha, hread, named, hu, Meaning.ofAttribute]

theorem assocMeaning?_resolved_iff :
    assocMeaning? env trail text = some (.resolved r t) ↔ Denotes env trail text .assoc r t := by
  constructor
  · intro h
    unfold assocMeaning? at h
    split at h
    · cases h
    next hbracket =>
      obtain ⟨owner,howner,h⟩ := Option.bind_eq_some_iff.mp h
      obtain ⟨a,ha,h⟩ := Option.bind_eq_some_iff.mp h
      obtain ⟨u,hu,hmeaning⟩ := named_eq_resolved.mp (Option.some.inj h)
      cases hmeaning
      exact .assoc (by simpa using hbracket) howner ha hu
  · intro h
    cases h with
    | assoc hbracket howner ha hu =>
        simp [assocMeaning?, hbracket, howner, ha, named, hu, Meaning.ofAssociation]

theorem enumMeaning?_resolved_iff :
    enumMeaning? env trail text = some (.resolved r t) ↔
      Denotes env trail text .enumeration r t := by
  constructor
  · intro h
    unfold enumMeaning? at h
    split at h
    · cases h
    next hbracket =>
      have hbracket' : isBracketText text = false := by simpa using hbracket
      split at h
      next htrail =>
        obtain ⟨e,he,hmeaning⟩ := Option.map_eq_some_iff.mp h
        cases hmeaning
        exact .enumClass hbracket' (List.isEmpty_iff.mp htrail) he
      next =>
        obtain ⟨e,he,h⟩ := Option.map_eq_some_iff.mp h
        split at h
        next v hv =>
          cases h
          exact .enumValue hbracket' he hv
        next => cases h
  · intro h
    cases h with
    | enumClass hbracket htrail he =>
        simp [enumMeaning?, hbracket, htrail, he, Meaning.ofEnumClass]
    | enumValue hbracket he hv =>
        have htrail : trail ≠ [] := by
          intro hnil
          rw [hnil] at he
          cases he
        simp [enumMeaning?, hbracket, htrail, he, hv, Meaning.ofEnumValue]

theorem isListBefore_of_association? {a : Association} {before : Trail}
    (h : trail.association? = some (a, before)) : trail.isListBefore = before.isList := by
  simp [Trail.isListBefore, h]

theorem indexMeaning?_eq_resolved {a : Association} {position : Nat}
    (h : indexMeaning? trail a text position = some (.resolved r t)) :
    ∃ current u, trail.head? = some current ∧ allowsIndex a current = true ∧
      current.datatype? = some u ∧ r = .index position ∧ t = u.element := by
  obtain ⟨current,hcurrent,h⟩ := Option.bind_eq_some_iff.mp h
  split at h
  next hallowed =>
    obtain ⟨u,hu,h⟩ := Option.bind_eq_some_iff.mp h
    cases h
    exact ⟨current,u,hcurrent,hallowed,hu,rfl,rfl⟩
  next => cases h

theorem selected?_eq_some {a : Association} {name : String} {meaning : Meaning}
    (h : selected? env trail a name = some meaning) :
    ∃ c runtimeId u, (Scope.components env a).find? (·.name == name) = some c ∧
      c.runtimeId = some runtimeId ∧ Scope.subject? env a c = some u ∧
      meaning = .resolved (.qualifier name runtimeId c)
        (u.element.asListIf (a.isMany || trail.isListBefore)) := by
  obtain ⟨c,hc,h⟩ := Option.bind_eq_some_iff.mp h
  obtain ⟨runtimeId,hid,h⟩ := Option.bind_eq_some_iff.mp h
  obtain ⟨u,hu,h⟩ := Option.bind_eq_some_iff.mp h
  exact ⟨c,runtimeId,u,hc,hid,hu,(Option.some.inj h).symm⟩

theorem qualifierMeaning_eq_resolved {a : Association} {name : String}
    (h : qualifierMeaning env trail a text name = .resolved r t) :
    selected? env trail a name = some (.resolved r t) := by
  unfold qualifierMeaning at h
  cases hselected : selected? env trail a name with
  | none => simp [hselected] at h
  | some meaning =>
      rw [hselected,Option.getD_some] at h
      rw [h]

theorem bracketMeaning?_resolved_iff :
    bracketMeaning? env trail text = some (.resolved r t) ↔
      Denotes env trail text .bracket r t := by
  constructor
  · intro h
    unfold bracketMeaning? at h
    split at h
    · cases h
    next hbracket =>
      have hbracket' : isBracketText text = true := by simpa using hbracket
      obtain ⟨⟨a,before⟩,ha,h⟩ := Option.bind_eq_some_iff.mp h
      simp only at h
      split at h
      next position htext =>
        obtain ⟨current,u,hcurrent,hallowed,hu,rfl,rfl⟩ := indexMeaning?_eq_resolved h
        exact .index hbracket' ha htext hcurrent hallowed hu
      next name htext =>
        obtain ⟨c,runtimeId,u,hc,hid,hu,hmeaning⟩ :=
          selected?_eq_some (qualifierMeaning_eq_resolved (Option.some.inj h))
        cases hmeaning
        rw [isListBefore_of_association? ha]
        exact .qualifier hbracket' ha htext hc hid hu
      next => cases h
  · intro h
    cases h with
    | index hbracket ha htext hcurrent hallowed hu =>
        simp [bracketMeaning?, hbracket, ha, htext, indexMeaning?, hcurrent, hallowed, hu,
          Meaning.ofIndex]
    | qualifier hbracket ha htext hc hid hu =>
        simp [bracketMeaning?, hbracket, ha, htext, qualifierMeaning, selected?, hc, hid, hu,
          Meaning.ofQualifier, isListBefore_of_association? ha]

theorem meaning?_resolved_iff {rule : Rule} :
    rule.meaning? env trail text = some (.resolved r t) ↔ Denotes env trail text rule r t := by
  cases rule with
  | param => exact paramMeaning?_resolved_iff
  | attr => exact attrMeaning?_resolved_iff
  | assoc => exact assocMeaning?_resolved_iff
  | enumeration => exact enumMeaning?_resolved_iff
  | bracket => exact bracketMeaning?_resolved_iff

theorem named_cases {datatype : Option Datatype} {meaning : Datatype → Meaning}
    (h : ∀ u, ∃ r t, meaning u = .resolved r t) :
    (∃ r t, named text datatype meaning = .resolved r t) ∨
      named text datatype meaning = .invalid (.undefined text) := by
  cases datatype with
  | none => exact Or.inr rfl
  | some u => exact Or.inl (h u)

/-- A rule that takes a name gives it a meaning or leaves it undefined. -/
theorem meaning?_cases {rule : Rule} {meaning : Meaning}
    (h : rule.meaning? env trail text = some meaning) (hrule : rule ≠ .bracket) :
    (∃ r t, meaning = .resolved r t) ∨ meaning = .invalid (.undefined text) := by
  cases rule with
  | param =>
      simp only [meaning?, paramMeaning?] at h
      split at h
      · cases h
      · obtain ⟨p,-,rfl⟩ := Option.map_eq_some_iff.mp h
        exact named_cases fun u => ⟨_,_,rfl⟩
  | attr =>
      simp only [meaning?, attrMeaning?] at h
      split at h
      · cases h
      · obtain ⟨owner,-,h⟩ := Option.bind_eq_some_iff.mp h
        rcases env.options.readName text with ⟨name,access⟩
        obtain ⟨a,-,h⟩ := Option.bind_eq_some_iff.mp h
        split at h
        · obtain rfl := Option.some.inj h
          exact named_cases fun u => ⟨_,_,rfl⟩
        · exact Or.inr (Option.some.inj h).symm
  | assoc =>
      simp only [meaning?, assocMeaning?] at h
      split at h
      · cases h
      · obtain ⟨owner,-,h⟩ := Option.bind_eq_some_iff.mp h
        obtain ⟨a,-,h⟩ := Option.bind_eq_some_iff.mp h
        obtain rfl := Option.some.inj h
        exact named_cases fun u => ⟨_,_,rfl⟩
  | enumeration =>
      simp only [meaning?, enumMeaning?] at h
      split at h
      · cases h
      · split at h
        · obtain ⟨e,-,rfl⟩ := Option.map_eq_some_iff.mp h
          exact Or.inl ⟨_,_,rfl⟩
        · obtain ⟨e,-,h⟩ := Option.map_eq_some_iff.mp h
          split at h
          · exact Or.inl ⟨_,_,h.symm⟩
          · exact Or.inr h.symm
  | bracket => exact absurd rfl hrule

/-- The rule for brackets takes a bracket behind an association only. -/
theorem bracketMeaning?_cases {meaning : Meaning}
    (h : bracketMeaning? env trail text = some meaning) :
    isBracketText text = true ∧ ∃ a before, trail.association? = some (a, before) ∧
      ((∃ r t, meaning = .resolved r t) ∨ meaning = .invalid (.noIndex a.name text) ∨
        meaning = .invalid (.unknownQualifier a.name text)) := by
  unfold bracketMeaning? at h
  split at h
  · cases h
  next hbracket =>
    obtain ⟨⟨a,before⟩,ha,h⟩ := Option.bind_eq_some_iff.mp h
    refine ⟨by simpa using hbracket,a,before,ha,?_⟩
    simp only at h
    split at h
    · obtain ⟨current,-,h⟩ := Option.bind_eq_some_iff.mp h
      split at h
      · obtain ⟨u,-,h⟩ := Option.bind_eq_some_iff.mp h
        exact Or.inl ⟨_,_,(Option.some.inj h).symm⟩
      · exact Or.inr (Or.inl (Option.some.inj h).symm)
    next name _ =>
      obtain rfl := Option.some.inj h
      unfold qualifierMeaning
      cases hselected : selected? env trail a name with
      | none => exact Or.inr (Or.inr rfl)
      | some meaning =>
          obtain ⟨c,runtimeId,u,-,-,-,rfl⟩ := selected?_eq_some hselected
          exact Or.inl ⟨_,_,rfl⟩
    · exact Or.inr (Or.inr (Option.some.inj h).symm)

/-- No rule answers that the path is empty: a part that a rule takes resolves or fails. -/
theorem meaning?_ne_empty {rule : Rule} : rule.meaning? env trail text ≠ some .empty := by
  intro h
  by_cases hrule : rule = .bracket
  · subst hrule
    obtain ⟨-,a,before,-,hcases⟩ := bracketMeaning?_cases h
    simp at hcases
  · simpa using meaning?_cases h hrule

/-- No other rule stands in the way of the rule for brackets. -/
theorem decide?_of_bracket (h : isBracketText text = true) :
    decide? env trail text = bracketMeaning? env trail text := by
  simp [decide?, inOrder, meaning?, paramMeaning?, attrMeaning?, assocMeaning?, enumMeaning?, h]

end Rule

end FormulaPath
