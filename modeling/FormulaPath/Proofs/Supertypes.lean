import FormulaPath.Proofs.Declarations
import Mathlib.Logic.Relation

/-!
# Subtypes along cyclic supertype links

A type names its supertype. The name may be missing from the model, and the links may lead back to a
type passed before. `above?` follows them for a given number of steps, around a cycle as often as
the steps last. The walk along supertypes drops each type that it passes instead, so it ends, and
it might seem to lose what lies behind a dropped type. It loses nothing: links that return to a
dropped type reach their end from there in fewer steps. Hence the walk passes what `above?` reaches,
each type at its least number of steps, and the subtype test is reachability.
-/
namespace FormulaPath.Model
variable {types : List StructuralType} {name dropped : String} {t u : StructuralType} {steps : Nat}

/-- The type that a number of supertype links leads to, starting at the type of a name. -/
def above? (types : List StructuralType) : String → Nat → Option StructuralType
  | name, 0 => declared? types name
  | name, steps + 1 => (declared? types name).bind fun t =>
      t.supertype.bind fun parent => above? types parent steps

theorem above?_succ_eq_some : above? types name (steps + 1) = some u ↔
    ∃ t parent, declared? types name = some t ∧ t.supertype = some parent ∧
      above? types parent steps = some u := by
  simp [above?, Option.bind_eq_some_iff]

theorem declared?_of_without (h : declared? (without types dropped) name = some t) :
    declared? types name = some t := by
  by_cases hname : name = dropped
  · rw [hname,declared?_without_self] at h
    cases h
  · rwa [declared?_without hname] at h

theorem above?_of_without (h : above? (without types dropped) name steps = some u) :
    above? types name steps = some u := by
  induction steps generalizing name with
  | zero => exact declared?_of_without h
  | succ steps ih =>
      obtain ⟨t,parent,ht,hparent,hu⟩ := above?_succ_eq_some.mp h
      exact above?_succ_eq_some.mpr ⟨t,parent,declared?_of_without ht,hparent,ih hu⟩

/-- Links that pass a dropped type lead to the same end from there, in no more steps. -/
theorem above?_without_or (dropped : String) (h : above? types name steps = some u) :
    above? (without types dropped) name steps = some u ∨
      ∃ fewer ≤ steps, above? types dropped fewer = some u := by
  induction steps generalizing name with
  | zero =>
      by_cases hname : name = dropped
      · exact Or.inr ⟨0,Nat.le_refl _,hname ▸ h⟩
      · exact Or.inl ((declared?_without hname).trans h)
  | succ steps ih =>
      by_cases hname : name = dropped
      · exact Or.inr ⟨steps + 1,Nat.le_refl _,hname ▸ h⟩
      obtain ⟨t,parent,ht,hparent,hu⟩ := above?_succ_eq_some.mp h
      rcases ih hu with hkept | ⟨fewer,hfewer,hend⟩
      · rw [← declared?_without hname] at ht
        exact Or.inl (above?_succ_eq_some.mpr ⟨t,parent,ht,hparent,hkept⟩)
      · exact Or.inr ⟨fewer,by omega,hend⟩

/-! ## The walk along supertypes -/

/-- What the walk passes stands as many links above the start as types were passed before. -/
theorem above?_of_ancestors (h : (ancestors types name)[steps]? = some u) :
    above? types name steps = some u := by
  fun_induction ancestors types name generalizing steps with
  | case1 => cases h
  | case2 types name t ht hnone =>
      cases steps with
      | zero => exact ht.trans h
      | succ steps => cases h
  | case3 types name t ht parent hparent ih =>
      cases steps with
      | zero => exact ht.trans h
      | succ steps =>
          exact above?_succ_eq_some.mpr ⟨t,parent,ht,hparent,above?_of_without (ih h)⟩

/-- What the links lead to is passed by the walk, and not later. -/
theorem exists_ancestor_of_above? (h : above? types name steps = some u) :
    ∃ i ≤ steps, (ancestors types name)[i]? = some u := by
  -- The walk goes on in fewer declarations, and a return to the start takes fewer steps to the end.
  induction steps using Nat.strongRecOn generalizing types name with
  | _ steps ih =>
    cases steps with
    | zero =>
        refine ⟨0,Nat.le_refl _,?_⟩
        rw [ancestors_of_some h]
        rfl
    | succ steps =>
        obtain ⟨t,parent,ht,hparent,hu⟩ := above?_succ_eq_some.mp h
        rcases above?_without_or name hu with hkept | ⟨fewer,hfewer,hend⟩
        · obtain ⟨i,hi,hpassed⟩ := ih steps (by omega) hkept
          refine ⟨i + 1,by omega,?_⟩
          rw [ancestors_of_some ht,hparent]
          exact hpassed
        · obtain ⟨i,hi,hpassed⟩ := ih fewer (by omega) hend
          exact ⟨i,by omega,hpassed⟩

theorem mem_ancestors_iff : u ∈ ancestors types name ↔ ∃ steps, above? types name steps = some u := by
  rw [List.mem_iff_getElem?]
  constructor
  · rintro ⟨steps,h⟩
    exact ⟨steps,above?_of_ancestors h⟩
  · rintro ⟨steps,h⟩
    obtain ⟨i,-,hi⟩ := exists_ancestor_of_above? h
    exact ⟨i,hi⟩

theorem ancestors_nodup (types : List StructuralType) (name : String) :
    ((ancestors types name).map StructuralType.name).Nodup := by
  fun_induction ancestors types name with
  | case1 => exact List.nodup_nil
  | case2 => exact List.nodup_cons.mpr ⟨List.not_mem_nil,List.nodup_nil⟩
  | case3 types name t ht parent hparent ih =>
      rw [List.map_cons,List.nodup_cons]
      refine ⟨?_,ih⟩
      intro hmem
      obtain ⟨u,hu,hname⟩ := List.mem_map.mp hmem
      have hdeclared := declared?_of_mem_ancestors hu
      rw [hname,name_of_declared? ht,declared?_without_self] at hdeclared
      cases hdeclared

theorem length_ancestors_le (types : List StructuralType) (name : String) :
    (ancestors types name).length ≤ types.length := by
  fun_induction ancestors types name with
  | case1 => exact Nat.zero_le _
  | case2 types name t ht =>
      have := length_without_lt ht
      simp only [List.length_singleton]
      omega
  | case3 types name t ht parent hparent ih =>
      have := length_without_lt ht
      simp only [List.length_cons]
      omega

/-! ## Reachability -/

section Reachability
variable {m : Model} {a b : String}

/-- A structural type of that name counts. -/
def Declares (m : Model) (name : String) : Prop := ∃ t, m.type? name = some t

/-- The type of one name has the other name for its supertype, declared or not. -/
def Extends (m : Model) (sub super : String) : Prop :=
  ∃ t, m.type? sub = some t ∧ t.supertype = some super

theorem declares_of_above? (h : above? m.types name steps = some u) : m.Declares u.name := by
  induction steps generalizing name with
  | zero => exact ⟨u,name_of_declared? h ▸ h⟩
  | succ steps ih =>
      obtain ⟨-,parent,-,-,hu⟩ := above?_succ_eq_some.mp h
      exact ih hu

theorem reaches_of_above? (h : above? m.types name steps = some u) :
    Relation.ReflTransGen m.Extends name u.name := by
  induction steps generalizing name with
  | zero => exact name_of_declared? h ▸ .refl
  | succ steps ih =>
      obtain ⟨t,parent,ht,hparent,hu⟩ := above?_succ_eq_some.mp h
      exact .head ⟨t,ht,hparent⟩ (ih hu)

theorem exists_above?_of_reaches (hreach : Relation.ReflTransGen m.Extends a b)
    (hb : m.type? b = some u) : ∃ steps, above? m.types a steps = some u := by
  induction hreach using Relation.ReflTransGen.head_induction_on with
  | refl => exact ⟨0,hb⟩
  | head hlink _ ih =>
      obtain ⟨t,ht,hparent⟩ := hlink
      obtain ⟨steps,hsteps⟩ := ih
      exact ⟨steps + 1,above?_succ_eq_some.mpr ⟨t,_,ht,hparent,hsteps⟩⟩

theorem isSubtype_iff_above? :
    m.isSubtype a b = true ↔ ∃ steps u, above? m.types a steps = some u ∧ u.name = b := by
  simp only [isSubtype, List.any_eq_true, beq_iff_eq, mem_ancestors_iff]
  constructor
  · rintro ⟨u,⟨steps,hu⟩,hname⟩
    exact ⟨steps,u,hu,hname⟩
  · rintro ⟨steps,u,hu,hname⟩
    exact ⟨u,⟨steps,hu⟩,hname⟩

theorem isSubtype_iff : m.isSubtype a b = true ↔
    m.Declares a ∧ m.Declares b ∧ Relation.ReflTransGen m.Extends a b := by
  rw [isSubtype_iff_above?]
  constructor
  · rintro ⟨steps,u,hu,rfl⟩
    refine ⟨?_,declares_of_above? hu,reaches_of_above? hu⟩
    cases steps with
    | zero => exact ⟨u,hu⟩
    | succ steps =>
        obtain ⟨t,-,ht,-⟩ := above?_succ_eq_some.mp hu
        exact ⟨t,ht⟩
  · rintro ⟨-,⟨u,hu⟩,hreach⟩
    obtain ⟨steps,hsteps⟩ := exists_above?_of_reaches hreach hu
    exact ⟨steps,u,hsteps,name_of_declared? hu⟩

/-- A declaration takes the place of an earlier one with its name. -/
theorem type?_addType (m : Model) (t : StructuralType) (name : String) :
    (m.addType t).type? name = if t.name = name then some t else m.type? name := by
  by_cases h : t.name = name
  · simp [type?, addType, declared?, h]
  · simp [type?, addType, declared?, h]

/-- Of several declarations with one name the last counts. -/
theorem type?_foldl_addType (m : Model) (declarations : List StructuralType) (name : String) :
    (declarations.foldl addType m).type? name =
      (declarations.reverse.find? (·.name == name)).or (m.type? name) := by
  induction declarations generalizing m with
  | nil => rfl
  | cons t ts ih =>
      rw [List.foldl_cons,ih,type?_addType,List.reverse_cons,List.find?_append]
      cases ts.reverse.find? (·.name == name) with
      | some u => rfl
      | none => by_cases h : t.name = name <;> simp [h]

end Reachability

/-- Take any model and declare further types, one after another, with whatever names and supertypes.
The last declaration of a name counts. A type is a subtype of another exactly if both are declared
and the supertype links of declared types lead from one to the other. So every declared type is a
subtype of itself, and subtypes of subtypes are subtypes. The walk behind the answer ends: it passes
no type twice, and no more types than there are declarations. -/
theorem isSubtype_iff_reaches (base : Model) (declarations : List StructuralType) :
    let m := declarations.foldl addType base
    (∀ name, m.type? name =
        (declarations.reverse.find? (·.name == name)).or (base.type? name)) ∧
      (∀ a b, m.isSubtype a b = true ↔
        m.Declares a ∧ m.Declares b ∧ Relation.ReflTransGen m.Extends a b) ∧
      (∀ a, m.Declares a → m.isSubtype a a = true) ∧
      (∀ a b c, m.isSubtype a b = true → m.isSubtype b c = true → m.isSubtype a c = true) ∧
      ∀ a, ((ancestors m.types a).map StructuralType.name).Nodup ∧
        (ancestors m.types a).length ≤ m.types.length := by
  intro m
  refine ⟨type?_foldl_addType base declarations,fun a b => isSubtype_iff,?_,?_,?_⟩
  · intro a ha
    exact isSubtype_iff.mpr ⟨ha,ha,.refl⟩
  · intro a b c hab hbc
    obtain ⟨ha,-,hreach⟩ := isSubtype_iff.mp hab
    obtain ⟨-,hc,hrest⟩ := isSubtype_iff.mp hbc
    exact isSubtype_iff.mpr ⟨ha,hc,hreach.trans hrest⟩
  · intro a
    exact ⟨ancestors_nodup m.types a,length_ancestors_le m.types a⟩

/-- Covers are declared twice. Riders lead into a cycle of covers and parts, and the supertype of
drafts is not declared. -/
def loopDeclarations : List StructuralType :=
  let policy (name : String) (supertype : Option String) : StructuralType :=
    ⟨name, .policy, supertype, none, [], []⟩
  let money (name : String) (hasDefault : Bool) : Attribute :=
    ⟨name, "", "Money", hasDefault, none, none⟩
  [policy "Cover" none,
    (policy "Rider" (some "Cover")).addAttribute (money "sum" false),
    [money "rate" true, money "sum" true, money "rate" false].foldl StructuralType.addAttribute
      (policy "Cover" (some "Part")),
    [money "share" false, money "rate" false].foldl StructuralType.addAttribute
      (policy "Part" (some "Cover")),
    policy "Draft" (some "Missing")]

theorem isSubtype_iff_reaches_loop :
    let m := loopDeclarations.foldl addType empty
    m.isSubtype "Rider" "Cover" = true ∧ m.isSubtype "Cover" "Part" = true ∧
      m.isSubtype "Part" "Part" = true ∧ Relation.ReflTransGen m.Extends "Rider" "Part" ∧
      ¬ Relation.ReflTransGen m.Extends "Part" "Rider" ∧ m.isSubtype "Draft" "Missing" = false := by
  intro m
  obtain ⟨-,hiff,hself,htrans,-⟩ := isSubtype_iff_reaches empty loopDeclarations
  have hcover : m.isSubtype "Rider" "Cover" = true := by decide +kernel
  have hpart : m.isSubtype "Cover" "Part" = true := by decide +kernel
  refine ⟨hcover,hpart,hself "Part" ⟨_,rfl⟩,?_,?_,by decide +kernel⟩
  · exact ((hiff _ _).mp (htrans _ _ _ hcover hpart)).2.2
  · intro hreach
    have hrider : m.isSubtype "Part" "Rider" = true :=
      (hiff _ _).mpr ⟨⟨_,rfl⟩,⟨_,rfl⟩,hreach⟩
    revert hrider
    decide +kernel

end FormulaPath.Model
