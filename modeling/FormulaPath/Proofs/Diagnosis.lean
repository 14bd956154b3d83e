import FormulaPath.Proofs.ListValued
import FormulaPath.Proofs.QualifierOffer
import FormulaPath.Proofs.Shape

/-!
# Why a part does not resolve

The problem of a bracket behind an association can be told from the bracket, the association and
the node in front of it: `BracketFault` lists the ways. Some branches of the rule for brackets do
not occur there, because resolution has already settled what they ask for. `BracketPlace` says what
it has settled, and an induction over `Reached` shows that every trail with an association has it.
Every other part that does not resolve is an undefined name.
-/
namespace FormulaPath
open FormulaPath.Path

/-- The code of the message about a node that does not resolve. -/
def Node.code? (n : Node) : Option String := n.problem?.map (·.message.code)

/-- The ways in which a bracket behind the association `a` and the node `last` fails. -/
inductive BracketFault (env : Environment) (a : Association) (last : Node) (text : String) :
    Problem → Prop
  | index {position : Nat} : Bracket.ofText text = .index position → last.isList = false →
      BracketFault env a last text (.noIndex a.name text)
  | malformed : Bracket.ofText text = .malformed →
      BracketFault env a last text (.unknownQualifier a.name text)
  | unnamed {name : String} : Bracket.ofText text = .qualifier name →
      (∀ c ∈ Scope.components env a, c.name ≠ name) →
      BracketFault env a last text (.unknownQualifier a.name text)
  | unconfigured {name : String} {first : Component} : Bracket.ofText text = .qualifier name →
      (Scope.components env a).find? (·.name == name) = some first → first.runtimeId = none →
      BracketFault env a last text (.unknownQualifier a.name text)

/-- What resolution has settled where a bracket can follow: the type of the path so far, that of the
targets of the association, and that an index is allowed exactly in a list. -/
structure BracketPlace (env : Environment) (trail : Trail) (a : Association) (last : Node) :
    Prop where
  association : ∃ before, trail.association? = some (a, before)
  head : trail.head? = some last
  typed : last.datatype?.isSome = true
  target : (env.schema.datatype? a.target).isSome = true
  index : Rule.allowsIndex a last = last.isList

section Places
variable {env : Environment} {trail : Trail} {text : String} {a : Association} {last : Node}
  {problem : Problem}

/-- By induction along the trail: an association settles the place behind it, and a qualifier keeps
it. -/
theorem Reached.bracketPlace {before : Trail} (h : Reached env trail)
    (ha : trail.association? = some (a, before)) : ∃ last, BracketPlace env trail a last := by
  induction h with
  | start => cases ha
  | step region _ hdenotes ih =>
      cases hdenotes with
      | assoc _ _ _ htarget =>
          cases ha
          refine ⟨_,⟨_,rfl⟩,rfl,rfl,by rw [htarget]; rfl,?_⟩
          -- An association with many targets is a list here anyway, so the list alone decides.
          cases hmany : a.isMany with
          | false => simp [Rule.allowsIndex, hmany, Node.referent?, Meaning.referent?]
          | true =>
              simp [Rule.allowsIndex, hmany, Node.referent?, Meaning.referent?, Node.isList,
                Node.datatype?, Meaning.datatype?, Association.isManyUnqualified]
      | qualifier =>
          obtain ⟨last,hplace⟩ := ih ha
          exact ⟨_,⟨before,ha⟩,rfl,rfl,hplace.target,rfl⟩
      | _ => cases ha

theorem BracketPlace.meaning_of_fault (h : BracketPlace env trail a last)
    (htext : isBracketText text = true) (hfault : BracketFault env a last text problem) :
    Rule.bracketMeaning? env trail text = some (.invalid problem) := by
  obtain ⟨before,ha⟩ := h.association
  cases hfault with
  | index hread hlist =>
      simp [Rule.bracketMeaning?, htext, ha, hread, Rule.indexMeaning?, h.head, h.index, hlist]
  | malformed hread => simp [Rule.bracketMeaning?, htext, ha, hread]
  | @unnamed name hread hnone =>
      have hfind : (Scope.components env a).find? (·.name == name) = none :=
        List.find?_eq_none.mpr (by simpa using hnone)
      simp [Rule.bracketMeaning?, htext, ha, hread, Rule.qualifierMeaning, Rule.selected?, hfind]
  | unconfigured hread hfirst hid =>
      simp [Rule.bracketMeaning?, htext, ha, hread, Rule.qualifierMeaning, Rule.selected?, hfirst,
        hid]

/-- A bracket without a fault resolves: no branch is left that declines it. -/
theorem BracketPlace.fault_or_denotes (h : BracketPlace env trail a last)
    (htext : isBracketText text = true) :
    (∃ problem, BracketFault env a last text problem) ∨
      ∃ r t, Denotes env trail text .bracket r t := by
  obtain ⟨before,ha⟩ := h.association
  cases hread : Bracket.ofText text with
  | malformed => exact Or.inl ⟨_,.malformed hread⟩
  | index position =>
      cases hlist : last.isList with
      | false => exact Or.inl ⟨_,.index hread hlist⟩
      | true =>
          obtain ⟨t,ht⟩ := Option.isSome_iff_exists.mp h.typed
          exact Or.inr ⟨_,_,.index htext ha hread h.head (h.index.trans hlist) ht⟩
  | qualifier name =>
      cases hfirst : (Scope.components env a).find? (·.name == name) with
      | none => exact Or.inl ⟨_,.unnamed hread (by simpa using List.find?_eq_none.mp hfirst)⟩
      | some first =>
          cases hid : first.runtimeId with
          | none => exact Or.inl ⟨_,.unconfigured hread hfirst hid⟩
          | some runtimeId =>
              obtain ⟨t,ht⟩ := Option.isSome_iff_exists.mp (isSome_subject? h.target first)
              exact Or.inr ⟨_,_,.qualifier htext ha hread hfirst hid ht⟩

/-- The problem of a bracket behind an association is its fault. -/
theorem BracketPlace.problem?_iff (h : BracketPlace env trail a last) {part : Part}
    (hbracket : part.isBracket = true) (hsep : part.separator ≠ .missing) :
    (partNode env trail part).problem? = some problem ↔
      BracketFault env a last part.text problem := by
  have hmeaning : partMeaning env trail part =
      (Rule.bracketMeaning? env trail part.text).getD (.invalid (.undefined part.text)) := by
    rw [partMeaning,if_neg hsep,Rule.decide?_of_bracket hbracket]
  rw [Node.problem?,partNode,hmeaning]
  -- A fault fixes the meaning, so there is no second one, and none beside a meaning that resolves.
  rcases h.fault_or_denotes hbracket with ⟨found,hfound⟩ | ⟨r,t,hdenotes⟩
  · rw [h.meaning_of_fault hbracket hfound]
    constructor
    · intro hproblem
      cases hproblem
      exact hfound
    · intro hfault
      have heq := h.meaning_of_fault hbracket hfault
      rw [h.meaning_of_fault hbracket hfound] at heq
      cases heq
      rfl
  · rw [Rule.bracketMeaning?_resolved_iff.mpr hdenotes]
    constructor
    · intro hproblem
      cases hproblem
    · intro hfault
      have heq := h.meaning_of_fault hbracket hfault
      rw [Rule.bracketMeaning?_resolved_iff.mpr hdenotes] at heq
      cases heq

theorem BracketPlace.isSome_decide? (h : BracketPlace env trail a last)
    (htext : isBracketText text = true) : (Rule.decide? env trail text).isSome = true := by
  rw [Rule.decide?_of_bracket htext]
  rcases h.fault_or_denotes htext with ⟨problem,hfault⟩ | ⟨r,t,hdenotes⟩
  · rw [h.meaning_of_fault htext hfault]
    rfl
  · rw [Rule.bracketMeaning?_resolved_iff.mpr hdenotes]
    rfl

/-- Without an association in front of it a bracket is undefined, as every other part is that does
not resolve. -/
theorem problem?_eq_undefined {part : Part}
    (hfree : part.isBracket = true → trail.association? = none)
    (h : (partNode env trail part).problem? = some problem) : problem = .undefined part.text := by
  have hundefined : ∀ p, (Meaning.invalid (.undefined part.text)).problem? = some p →
      p = .undefined part.text := by
    intro p hp
    exact (Option.some.inj hp).symm
  rw [Node.problem?,partNode,partMeaning] at h
  split at h
  · exact hundefined problem h
  · cases hdecide : Rule.decide? env trail part.text with
    | none =>
        rw [hdecide] at h
        exact hundefined problem h
    | some meaning =>
        rw [hdecide,Option.getD_some] at h
        obtain ⟨rule,-,hrule⟩ := List.exists_of_findSome?_eq_some hdecide
        by_cases hbracket : rule = .bracket
        · subst hbracket
          obtain ⟨htext,a,before,ha,-⟩ := Rule.bracketMeaning?_cases hrule
          rw [hfree htext] at ha
          cases ha
        · rcases Rule.meaning?_cases hrule hbracket with ⟨r,t,rfl⟩ | rfl
          · cases h
          · exact hundefined problem h

end Places

section Codes
variable {env : Environment} {a : Association} {last node : Node} {text : String}
  {problem : Problem}

/-- An index fails with one code, and every other bracket with another. -/
theorem BracketFault.code (h : BracketFault env a last text problem) :
    problem.message.code = "F0002" ∧ (∃ position, Bracket.ofText text = .index position) ∧
        last.isList = false ∨
      problem.message.code = "F0003" ∧ (Bracket.ofText text = .malformed ∨
        ∃ name, Bracket.ofText text = .qualifier name ∧
          ((∀ c ∈ Scope.components env a, c.name ≠ name) ∨
            ∃ first, (Scope.components env a).find? (·.name == name) = some first ∧
              first.runtimeId = none)) := by
  cases h with
  | index hread hlist => exact Or.inl ⟨rfl,⟨_,hread⟩,hlist⟩
  | malformed hread => exact Or.inr ⟨rfl,Or.inl hread⟩
  | unnamed hread hnone => exact Or.inr ⟨rfl,Or.inr ⟨_,hread,Or.inl hnone⟩⟩
  | unconfigured hread hfirst hid =>
      exact Or.inr ⟨rfl,Or.inr ⟨_,hread,Or.inr ⟨_,hfirst,hid⟩⟩⟩

theorem code?_of_problem? (h : node.problem? = some problem) :
    node.code? = some problem.message.code := by
  rw [Node.code?,h]
  rfl

theorem code?_index_iff
    (h : ∀ problem, node.problem? = some problem ↔ BracketFault env a last text problem) :
    node.code? = some "F0002" ↔
      (∃ position, Bracket.ofText text = .index position) ∧ last.isList = false := by
  constructor
  · intro hcode
    obtain ⟨problem,hproblem,hcode⟩ := Option.map_eq_some_iff.mp hcode
    rcases ((h problem).mp hproblem).code with ⟨-,hindex⟩ | ⟨hother,-⟩
    · exact hindex
    · simp [hother] at hcode
  · rintro ⟨⟨position,hread⟩,hlist⟩
    exact code?_of_problem? ((h _).mpr (.index hread hlist))

theorem code?_qualifier_iff
    (h : ∀ problem, node.problem? = some problem ↔ BracketFault env a last text problem) :
    node.code? = some "F0003" ↔ Bracket.ofText text = .malformed ∨
      ∃ name, Bracket.ofText text = .qualifier name ∧
        ((∀ c ∈ Scope.components env a, c.name ≠ name) ∨
          ∃ first, (Scope.components env a).find? (·.name == name) = some first ∧
            first.runtimeId = none) := by
  constructor
  · intro hcode
    obtain ⟨problem,hproblem,hcode⟩ := Option.map_eq_some_iff.mp hcode
    rcases ((h problem).mp hproblem).code with ⟨hother,-⟩ | ⟨-,hqualifier⟩
    · simp [hother] at hcode
    · exact hqualifier
  · rintro (hread | ⟨name,hread,hnone | ⟨first,hfirst,hid⟩⟩)
    · exact code?_of_problem? ((h _).mpr (.malformed hread))
    · exact code?_of_problem? ((h _).mpr (.unnamed hread hnone))
    · exact code?_of_problem? ((h _).mpr (.unconfigured hread hfirst hid))

end Codes

theorem endsInAssociation_of_association? {chain : List Node} {a : Association} {before : Trail}
    (h : Trail.association? chain.reverse = some (a, before)) : EndsInAssociation chain a := by
  obtain ⟨quals,node,htrail,hnode,hquals⟩ := association?_eq_some h
  refine ⟨before.reverse,node,quals.reverse,?_,hnode,by simpa using hquals⟩
  rw [← List.reverse_reverse chain,htrail]
  simp

/-- The node at a place of a chain is that of the part there, behind a trail that is reached. -/
theorem exists_part_of_resolve {env : Environment} {path : String} {front later : List Node}
    {node : Node} (hne : path ≠ "") (hchain : resolve env path = front ++ node :: later) :
    Reached env front.reverse ∧ ∃ init part more, split path = init ++ part :: more ∧
      init.length = front.length ∧ node = partNode env front.reverse part := by
  rw [resolve_eq hne] at hchain
  constructor
  · have hvalid : ∀ found ∈ front, found.isInvalid = false := by
      intro found hfound
      have hmem : found ∈ (resolveFrom env [] (split path)).dropLast := by
        rw [hchain,List.dropLast_append_of_ne_nil (by simp)]
        exact List.mem_append_left _ hfound
      exact valid_of_mem_dropLast hmem
    have hfront : front <+: resolveFrom env [] (split path) := ⟨node :: later,hchain.symm⟩
    simpa using Reached.start.front hfront hvalid
  · have hnode : (resolveFrom env [] (split path))[front.length]? = some node := by
      rw [hchain]
      simp
    obtain ⟨part,hpart,heq⟩ := getElem?_resolveFrom hnode
    rw [hchain,List.take_left,List.append_nil] at heq
    have hi := (List.getElem?_eq_some_iff.mp hpart).1
    exact ⟨_,part,_,eq_append_of_getElem? hpart,List.length_take_of_le hi.le,heq⟩

/-- The code of a part that does not resolve is exact. Behind an association and perhaps qualifiers
an index fails exactly where the path is not list valued, and any other bracket exactly if it is
malformed or the first component of its name is missing or has no runtime id. Such a bracket is
never declined. Every other part that does not resolve is reported as undefined. -/
theorem resolve_problem_exact (env : Environment) {path : String} {front later : List Node}
    {node : Node} (hchain : resolve env path = front ++ node :: later) :
    ∃ part, (split path)[front.length]? = some part ∧
      (∀ a last, part.isBracket = true → EndsInAssociation front a → front.getLast? = some last →
        (node.code? = some "F0002" ↔
          (∃ position, Bracket.ofText part.text = .index position) ∧ last.isList = false) ∧
        (node.code? = some "F0003" ↔ Bracket.ofText part.text = .malformed ∨
          ∃ name, Bracket.ofText part.text = .qualifier name ∧
            ((∀ c ∈ Scope.components env a, c.name ≠ name) ∨
              ∃ first, (Scope.components env a).find? (·.name == name) = some first ∧
                first.runtimeId = none)) ∧
        (node.isInvalid = true → node.code? = some "F0002" ∨ node.code? = some "F0003") ∧
        (Rule.decide? env front.reverse part.text).isSome = true ∧
        last.datatype?.isSome = true ∧ ∀ c, (Scope.subject? env a c).isSome = true) ∧
      ((part.isBracket = true → ∀ a, ¬ EndsInAssociation front a) →
        ∀ problem, node.problem? = some problem →
          problem.message = ⟨"F0001", "Undefined identifier: " ++ part.text, .error⟩) := by
  by_cases hne : path = ""
  -- The one node of the empty path has no problem.
  · subst hne
    have hempty : [⟨Region.empty 0, .empty⟩] = front ++ node :: later := hchain
    obtain ⟨rfl,rfl⟩ : front = [] ∧ node = ⟨Region.empty 0, .empty⟩ := by
      cases front with
      | nil => exact ⟨rfl,(List.cons.inj hempty).1.symm⟩
      | cons found front => simp at hempty
    refine ⟨⟨"", Region.span 0 0, .start⟩,by rw [split_empty]; rfl,?_,?_⟩
    · intro a last hbracket
      cases hbracket
    · intro _ problem hproblem
      cases hproblem
  obtain ⟨hreached,init,part,more,hsplit,hlen,rfl⟩ := exists_part_of_resolve hne hchain
  refine ⟨part,by rw [hsplit,← hlen]; simp,?_,?_⟩
  · intro a last hbracket hends hlast
    obtain ⟨before,ha⟩ := hends.association?
    obtain ⟨found,hplace⟩ := hreached.bracketPlace ha
    obtain rfl : found = last := by
      have hhead := hplace.head
      rw [List.head?_reverse,hlast] at hhead
      exact (Option.some.inj hhead).symm
    have hfault : ∀ problem, (partNode env front.reverse part).problem? = some problem ↔
        BracketFault env a found part.text problem :=
      fun _ => hplace.problem?_iff hbracket (separator_of_bracket hsplit hbracket)
    refine ⟨code?_index_iff hfault,code?_qualifier_iff hfault,?_,hplace.isSome_decide? hbracket,
      hplace.typed,isSome_subject? hplace.target⟩
    intro hinvalid
    obtain ⟨problem,hproblem⟩ := Option.isSome_iff_exists.mp hinvalid
    rw [code?_of_problem? hproblem]
    rcases ((hfault problem).mp hproblem).code with ⟨hcode,-⟩ | ⟨hcode,-⟩ <;> simp [hcode]
  · intro hfree problem hproblem
    have hnone : part.isBracket = true → Trail.association? front.reverse = none := by
      intro hbracket
      rw [Option.eq_none_iff_forall_ne_some]
      rintro ⟨a,before⟩ ha
      exact hfree hbracket a (endsInAssociation_of_association? ha)
    rw [problem?_eq_undefined hnone hproblem]
    rfl

theorem resolve_problem_exact_covers :
    let path := "covers[0].parts[\"BASE\"][0]"
    let front := (resolve sampleEnvironment path).dropLast
    ∃ node part a last, resolve sampleEnvironment path = front ++ [node] ∧
      (split path)[front.length]? = some part ∧ part.isBracket = true ∧
      EndsInAssociation front a ∧ front.getLast? = some last ∧
      node.code? = some "F0002" ∧ (∃ position, Bracket.ofText part.text = .index position) ∧
      last.isList = false := by
  intro path front
  have hne := resolve_ne_nil sampleEnvironment path
  have hchain := (List.dropLast_append_getLast hne).symm
  obtain ⟨part,hpart,hbehind,-⟩ := resolve_problem_exact sampleEnvironment hchain
  have hplace : (split path)[front.length]?.map Part.isBracket = some true := by decide +kernel
  rw [hpart] at hplace
  have hbracket : part.isBracket = true := Option.some.inj hplace
  have hassoc : (Trail.association? front.reverse).isSome = true := by decide +kernel
  obtain ⟨⟨a,before⟩,ha⟩ := Option.isSome_iff_exists.mp hassoc
  have hends := endsInAssociation_of_association? ha
  have hsome : front.getLast?.isSome = true := by decide +kernel
  obtain ⟨last,hlast⟩ := Option.isSome_iff_exists.mp hsome
  have hcode : ∀ h, ((resolve sampleEnvironment path).getLast h).code? = some "F0002" := by
    decide +kernel
  have hindex := (hbehind a last hbracket hends hlast).1.mp (hcode hne)
  exact ⟨_,part,a,last,hchain,hpart,hbracket,hends,hlast,hcode hne,hindex.1,hindex.2⟩

end FormulaPath
