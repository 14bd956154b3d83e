import FormulaPath.Proofs.Chain
import Mathlib.Computability.RegularExpressions

/-!
# The shape of a chain

Which kinds of nodes can follow each other is written nowhere: it results from what the rules
decline. `Reached` lists the trails that resolution can reach, whatever the schema answers, and
`Denotes.admits` tells for one step which kinds can stand behind a node. The rule is local, each
kind against the next one, so the kinds of a chain form a word of a regular language. The
expression `chainShape` gives this language, and `mem_shapeBehind` reads words of it from left to
right: an expression for each kind says how a word can go on behind it.
-/
namespace FormulaPath

namespace Category

/-- Whether a node of this kind can stand at the start of a chain. -/
def opens : Category → Bool
  | param | attr | assoc | enumClass => true
  | qualifier | index | enumValue => false

/-- Whether a node of the second kind can stand right behind one of the first. -/
def admits (k : Category) : Category → Bool
  | param | enumClass => false
  | attr | assoc => k != enumClass && k != enumValue
  | qualifier | index => k == assoc || k == qualifier
  | enumValue => k == enumClass

end Category

/-! ## The trails that resolution can reach -/

/-- A trail each of whose nodes says what some text denotes behind the nodes in front of it. -/
inductive Reached (env : Environment) : Trail → Prop
  | start : Reached env []
  | step {trail : Trail} {text : String} {rule : Rule} {r : Referent} {t : Datatype}
      (region : Region) : Reached env trail → Denotes env trail text rule r t →
      Reached env (⟨region, .resolved r t⟩ :: trail)

section Steps
variable {env : Environment} {trail before : Trail} {text earlier : String} {rule first : Rule}
  {r s : Referent} {t u : Datatype} {region : Region}

theorem Reached.cons_partNode {part : Part} (h : Reached env trail)
    (hvalid : (partNode env trail part).isInvalid = false) :
    Reached env (partNode env trail part :: trail) := by
  obtain ⟨-,rule,r,t,hnode,hdenotes⟩ := denotes_of_partNode hvalid
  rw [hnode]
  exact h.step part.region hdenotes

theorem Denotes.opens (h : Denotes env [] text rule r t) : r.category.opens = true := by
  cases h with
  | enumValue _ he => cases he
  | index _ ha => cases ha
  | qualifier _ ha => cases ha
  | _ => rfl

/-- Members can only be named behind a type that has some, which no enumeration has. -/
theorem category_of_memberType? {owner : Datatype} (h : Denotes env before earlier first s u)
    (howner : Trail.memberType? env (⟨region, .resolved s u⟩ :: before) = some owner) :
    s.category ≠ .enumClass ∧ s.category ≠ .enumValue := by
  have hmembers : u.element.hasMembers = true := by
    unfold Trail.memberType? at howner
    have hsome := (Option.filter_eq_some_iff.mp howner)
    obtain rfl : u.element = owner := Option.some.inj hsome.1
    exact hsome.2
  cases h with
  | enumClass => cases hmembers
  | enumValue => cases hmembers
  | _ => simp [Referent.category]

theorem category_of_association? {a : Association} {rest : Trail}
    (h : Trail.association? (⟨region, .resolved s u⟩ :: before) = some (a, rest)) :
    s.category = .assoc ∨ s.category = .qualifier := by
  cases s with
  | assoc => exact Or.inl rfl
  | qualifier => exact Or.inr rfl
  | _ => cases h

/-- One step: what a text can denote behind a node, by the kind of this node. -/
theorem Denotes.admits (hbefore : Denotes env before earlier first s u)
    (h : Denotes env (⟨region, .resolved s u⟩ :: before) text rule r t) :
    s.category.admits r.category = true := by
  have hmember : ∀ owner, Trail.memberType? env (⟨region, .resolved s u⟩ :: before) = some owner →
      s.category.admits .attr = true ∧ s.category.admits .assoc = true := by
    intro owner howner
    have hkind := category_of_memberType? hbefore howner
    simp [Category.admits, hkind.1, hkind.2]
  have hbracket : ∀ found, Trail.association? (⟨region, .resolved s u⟩ :: before) = some found →
      s.category.admits .qualifier = true ∧ s.category.admits .index = true := by
    intro found ha
    rcases category_of_association? ha with hkind | hkind <;> simp [Category.admits, hkind]
  cases h with
  | param htrail => cases htrail
  | attr _ howner => exact (hmember _ howner).1
  | assoc _ howner => exact (hmember _ howner).2
  | enumClass _ htrail => cases htrail
  | enumValue _ he =>
      cases s with
      | enumClass => rfl
      | _ => cases he
  | index _ ha => exact (hbracket _ ha).2
  | qualifier _ ha => exact (hbracket _ ha).1

/-- A whole trail: its nodes have kinds, each of which admits the next. -/
theorem Reached.exists_kinds (h : Reached env trail) :
    ∃ kinds : List Category, trail.map Node.category? = kinds.map some ∧
      kinds.IsChain (fun l k => k.admits l = true) ∧
      ∀ k ∈ kinds.getLast?, k.opens = true := by
  induction h with
  | start => exact ⟨[],rfl,.nil,by simp⟩
  | @step trail text rule r t region hreached hdenotes ih =>
      obtain ⟨kinds,hkinds,hchain,hopens⟩ := ih
      refine ⟨r.category :: kinds,by rw [List.map_cons,hkinds]; rfl,?_,?_⟩
      · rw [List.isChain_cons]
        refine ⟨?_,hchain⟩
        intro k hk
        cases hreached with
        | start =>
            simp only [List.map_nil, List.nil_eq, List.map_eq_nil_iff] at hkinds
            simp [hkinds] at hk
        | step region _ hbefore =>
            cases kinds with
            | nil => cases hk
            | cons l kinds =>
                cases hk
                rw [List.map_cons,List.map_cons,List.cons.injEq] at hkinds
                rw [← Option.some.inj hkinds.1]
                exact hbefore.admits hdenotes
      · cases kinds with
        | nil =>
            have htrail : trail = [] := by simpa using hkinds
            subst htrail
            simpa using hdenotes.opens
        | cons l kinds => simpa [List.getLast?_cons_cons] using hopens

/-- Along a run every front of valid nodes is reached. -/
theorem Reached.front {front : List Node} {parts : List Part} (h : Reached env trail)
    (hfront : front <+: resolveFrom env trail parts)
    (hvalid : ∀ node ∈ front, node.isInvalid = false) :
    Reached env (front.reverse ++ trail) := by
  induction parts generalizing trail front with
  | nil =>
      rw [resolveFrom,List.prefix_nil] at hfront
      rw [hfront]
      exact h
  | cons part parts ih =>
      cases front with
      | nil => exact h
      | cons node front =>
          have hnode := hvalid node List.mem_cons_self
          cases hpart : (partNode env trail part).isInvalid with
          | true =>
              rw [resolveFrom_cons_invalid hpart,List.cons_prefix_cons] at hfront
              rw [hfront.1,hpart] at hnode
              cases hnode
          | false =>
              rw [resolveFrom_cons_valid hpart,List.cons_prefix_cons] at hfront
              rw [List.reverse_cons,List.append_assoc,hfront.1]
              exact ih (h.cons_partNode hpart) hfront.2
                fun node hmem => hvalid node (List.mem_cons_of_mem _ hmem)

end Steps

/-! ## The words of their kinds -/

section Words
open RegularExpression

/-- A step to a member: an attribute, or an association with qualifiers and perhaps an index. -/
def stepShape : RegularExpression Category :=
  char .attr + char .assoc * star (char .qualifier) * (1 + char .index)

/-- The kinds of a chain: an enumeration and perhaps one of its values, or a parameter or a step
and then steps. -/
def chainShape : RegularExpression Category :=
  char .enumClass * (1 + char .enumValue) + (char .param + stepShape) * star stepShape

/-- How the kinds of a chain can go on behind one kind. -/
def shapeBehind : Category → RegularExpression Category
  | .param | .attr | .index => star stepShape
  | .assoc | .qualifier => star (char .qualifier) * (1 + char .index) * star stepShape
  | .enumClass => 1 + char .enumValue
  | .enumValue => 1

variable {k l : Category} {v w : List Category} {p q : RegularExpression Category}

theorem append_mem_shape (hv : v ∈ p.matches') (hw : w ∈ q.matches') :
    v ++ w ∈ (p * q).matches' := Language.append_mem_mul hv hw

theorem cons_mem_shape (hk : [k] ∈ p.matches') (hw : w ∈ q.matches') :
    k :: w ∈ (p * q).matches' := append_mem_shape hk hw

theorem mem_star_of_mul (h : w ∈ (p * star p).matches') : w ∈ (star p).matches' := by
  rw [matches'_mul,matches'_star] at h
  rw [matches'_star,← Language.one_add_self_mul_kstar_eq_kstar]
  exact Or.inr h

theorem nil_mem_shapeBehind (k : Category) : [] ∈ (shapeBehind k).matches' := by
  cases k <;> decide

/-- A member and what follows it are one step and more steps. -/
theorem cons_mem_steps (hk : k = .attr ∨ k = .assoc) (hw : w ∈ (shapeBehind k).matches') :
    k :: w ∈ (stepShape * star stepShape).matches' := by
  rcases hk with rfl | rfl
  · exact cons_mem_shape (Or.inl rfl) hw
  · obtain ⟨brackets,hbrackets,steps,hsteps,rfl⟩ := Language.mem_mul.mp hw
    obtain ⟨quals,hquals,index,hindex,rfl⟩ := Language.mem_mul.mp hbrackets
    have hstep : .assoc :: quals ++ index ∈ stepShape.matches' :=
      Or.inr (append_mem_shape (cons_mem_shape rfl hquals) hindex)
    have hword := append_mem_shape hstep hsteps
    simpa only [List.cons_append] using hword

/-- Steps can follow everything but an enumeration. -/
theorem mem_shapeBehind_of_steps (hclass : k ≠ .enumClass) (hvalue : k ≠ .enumValue)
    (h : w ∈ (star stepShape).matches') : w ∈ (shapeBehind k).matches' := by
  have hbrackets : w ∈ (shapeBehind .assoc).matches' :=
    append_mem_shape (v := []) (by decide) h
  cases k with
  | param => exact h
  | attr => exact h
  | index => exact h
  | assoc => exact hbrackets
  | qualifier => exact hbrackets
  | enumClass => exact absurd rfl hclass
  | enumValue => exact absurd rfl hvalue

/-- One kind in front of a word: the expressions follow the rule on neighbours. -/
theorem cons_mem_shapeBehind (h : k.admits l = true) (hw : w ∈ (shapeBehind l).matches') :
    l :: w ∈ (shapeBehind k).matches' := by
  have hmember : l = .attr ∨ l = .assoc → l :: w ∈ (shapeBehind k).matches' := by
    intro hl
    have hkind : k ≠ .enumClass ∧ k ≠ .enumValue := by
      rcases hl with rfl | rfl <;> simpa [Category.admits] using h
    exact mem_shapeBehind_of_steps hkind.1 hkind.2 (mem_star_of_mul (cons_mem_steps hl hw))
  have hbracket : l = .qualifier ∨ l = .index →
      l :: w ∈ (shapeBehind .assoc).matches' → l :: w ∈ (shapeBehind k).matches' := by
    intro hl hword
    have hkind : k = .assoc ∨ k = .qualifier := by
      rcases hl with rfl | rfl <;> simpa [Category.admits] using h
    rcases hkind with rfl | rfl <;> exact hword
  cases l with
  | param => cases h
  | enumClass => cases h
  | attr => exact hmember (Or.inl rfl)
  | assoc => exact hmember (Or.inr rfl)
  | qualifier =>
      apply hbracket (Or.inl rfl)
      obtain ⟨brackets,hbrackets,steps,hsteps,rfl⟩ := Language.mem_mul.mp hw
      obtain ⟨quals,hquals,index,hindex,rfl⟩ := Language.mem_mul.mp hbrackets
      have hmore : .qualifier :: quals ∈ (star (char Category.qualifier)).matches' :=
        mem_star_of_mul (cons_mem_shape rfl hquals)
      exact append_mem_shape (append_mem_shape hmore hindex) hsteps
  | index =>
      apply hbracket (Or.inr rfl)
      exact cons_mem_shape (by decide) hw
  | enumValue =>
      obtain rfl : w = [] := hw
      obtain rfl : k = .enumClass := by simpa [Category.admits] using h
      exact Or.inr rfl

theorem mem_shapeBehind (h : (k :: w).IsChain fun k l => k.admits l = true) :
    w ∈ (shapeBehind k).matches' := by
  induction w generalizing k with
  | nil => exact nil_mem_shapeBehind k
  | cons l w ih =>
      rw [List.isChain_cons_cons] at h
      exact cons_mem_shapeBehind h.1 (ih h.2)

theorem mem_chainShape (hopens : k.opens = true)
    (h : (k :: w).IsChain fun k l => k.admits l = true) : k :: w ∈ chainShape.matches' := by
  have hw := mem_shapeBehind h
  have hstep : k = .attr ∨ k = .assoc → k :: w ∈ chainShape.matches' := by
    intro hk
    obtain ⟨step,hstep,steps,hsteps,happ⟩ := Language.mem_mul.mp (cons_mem_steps hk hw)
    exact Or.inr (Language.mem_mul.mpr ⟨step,Or.inr hstep,steps,hsteps,happ⟩)
  cases k with
  | enumClass => exact Or.inl (cons_mem_shape rfl hw)
  | param => exact Or.inr (cons_mem_shape (Or.inl rfl) hw)
  | attr => exact hstep (Or.inl rfl)
  | assoc => exact hstep (Or.inr rfl)
  | _ => cases hopens

end Words

theorem Category.of_admits {k l : Category} (h : k.admits l = true) :
    (l ≠ .param ∧ l ≠ .enumClass) ∧ k ≠ .enumValue ∧
      (l = .qualifier ∨ l = .index → k = .assoc ∨ k = .qualifier) := by
  cases k <;> cases l <;> simp_all [Category.admits]

theorem Reached.shape {env : Environment} {valid : List Node} (h : Reached env valid.reverse) :
    ∃ kinds : List Category, valid.map Node.category? = kinds.map some ∧
      kinds.IsChain (fun k l => k.admits l = true) ∧
      (kinds = [] ∨ kinds ∈ chainShape.matches') := by
  obtain ⟨kinds,hkinds,hchain,hopens⟩ := h.exists_kinds
  have hword : kinds.reverse.IsChain (fun k l => k.admits l = true) :=
    List.isChain_reverse.mpr hchain
  refine ⟨kinds.reverse,?_,hword,?_⟩
  · rw [List.map_reverse] at hkinds
    rw [List.map_reverse,← hkinds,List.reverse_reverse]
  · rw [← List.head?_reverse] at hopens
    cases hreverse : kinds.reverse with
    | nil => exact Or.inl rfl
    | cons k word =>
        rw [hreverse] at hword hopens
        exact Or.inr (mem_chainShape (hopens k rfl) hword)

/-- Up to a last node that may be invalid, the kinds of a chain form a word of `chainShape`. So a
parameter or an enumeration stands first, nothing stands behind a value of an enumeration, and a
bracket stands behind an association or a qualifier only. A path that is not empty has no empty
node. -/
theorem resolve_shape (env : Environment) {path : String} (hne : path ≠ "") :
    ∃ (valid : List Node) (kinds : List Category),
      (resolve env path = valid ∨
        ∃ node, resolve env path = valid ++ [node] ∧ node.isInvalid = true) ∧
      valid.map Node.category? = kinds.map some ∧
      (kinds = [] ∨ kinds ∈ chainShape.matches') ∧
      kinds.IsChain (fun k l => (l ≠ .param ∧ l ≠ .enumClass) ∧ k ≠ .enumValue ∧
        (l = .qualifier ∨ l = .index → k = .assoc ∨ k = .qualifier)) ∧
      ∀ node ∈ resolve env path, node.meaning ≠ .empty := by
  have hempty : ∀ node ∈ resolve env path, node.meaning ≠ .empty := by
    intro node hnode
    rw [resolve_eq hne] at hnode
    obtain ⟨i,hi⟩ := List.mem_iff_getElem?.mp hnode
    obtain ⟨part,-,rfl⟩ := getElem?_resolveFrom hi
    exact partMeaning_ne_empty
  have hreached : ∀ valid, valid <+: resolve env path →
      (∀ node ∈ valid, node.isInvalid = false) → Reached env valid.reverse := by
    intro valid hfront hvalid
    rw [resolve_eq hne] at hfront
    simpa using Reached.start.front hfront hvalid
  have hinit : ∀ node ∈ (resolve env path).dropLast, node.isInvalid = false := by
    rw [resolve_eq hne]
    exact fun node => valid_of_mem_dropLast
  have happ := List.dropLast_append_getLast (resolve_ne_nil env path)
  cases hlast : ((resolve env path).getLast (resolve_ne_nil env path)).isInvalid with
  | true =>
      obtain ⟨kinds,hkinds,hchain,hshape⟩ := (hreached _ (List.dropLast_prefix _) hinit).shape
      exact ⟨_,kinds,Or.inr ⟨_,happ.symm,hlast⟩,hkinds,hshape,
        hchain.imp fun _ _ => Category.of_admits,hempty⟩
  | false =>
      have hvalid : ∀ node ∈ resolve env path, node.isInvalid = false := by
        intro node hnode
        rw [← happ] at hnode
        rcases List.mem_append.mp hnode with hnode | hnode
        · exact hinit node hnode
        · rw [List.mem_singleton.mp hnode]
          exact hlast
      obtain ⟨kinds,hkinds,hchain,hshape⟩ := (hreached _ List.prefix_rfl hvalid).shape
      exact ⟨_,kinds,Or.inl rfl,hkinds,hshape,hchain.imp fun _ _ => Category.of_admits,hempty⟩

theorem resolve_shape_covers :
    let path := "covers[\"BASE\"][0].sum.none"
    (resolve sampleEnvironment path).map Node.category? =
        [some .assoc, some .qualifier, some .index, some .attr, none] ∧
      ∃ (valid : List Node) (kinds : List Category),
        (resolve sampleEnvironment path = valid ∨
          ∃ node, resolve sampleEnvironment path = valid ++ [node] ∧ node.isInvalid = true) ∧
        valid.map Node.category? = kinds.map some ∧
        (kinds = [] ∨ kinds ∈ chainShape.matches') := by
  intro path
  obtain ⟨valid,kinds,hchain,hkinds,hshape,-⟩ :=
    @resolve_shape sampleEnvironment path (by decide)
  exact ⟨by decide +kernel,valid,kinds,hchain,hkinds,hshape⟩

end FormulaPath
