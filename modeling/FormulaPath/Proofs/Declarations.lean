import FormulaPath.Environment
import FormulaPath.Model

/-!
# What the declarations of a model answer

The answers of `Model.schema` in terms of the declarations that count: those that `type?` and
`enumType?` find under their own name. The walk along supertypes drops every type it meets, so it is
not obvious that it only ever meets such declarations; `declared?_of_mem_ancestors` says so, and
each member that a type shows is then a member that some counting declaration lists.
-/
namespace FormulaPath

/-- The same surroundings, with the types that a model declares. -/
def Environment.withModel (env : Environment) (m : Model) : Environment :=
  { env with schema := m.schema }

/-- Contracts with covers that components of a catalogue tell apart. -/
def sampleModel : Model where
  valueTypes := ["Money"]
  types := [
    ⟨"Contract", .policy, none, none, [⟨"premium", "Contract", "Money", true, none, none⟩],
      [⟨"covers", "Contract", "Cover", 5, true, none, none⟩]⟩,
    ⟨"Cover", .policy, none, some "CoverType", [⟨"sum", "Cover", "Money", false, none, none⟩],
      [⟨"parts", "Cover", "Cover", 1, true, none, none⟩]⟩,
    ⟨"CoverType", .product, none, some "Cover", [], []⟩]
  enums := [⟨"Payment", [⟨"MONTHLY", "monthly"⟩, ⟨"YEARLY", "yearly"⟩], none⟩]
  components := [⟨"BASE", "BASE", some "base.1", "CoverType", none⟩]

/-- A formula of contracts in the sample model. -/
def sampleEnvironment : Environment where
  schema := sampleModel.schema
  signature := ⟨"rate", [⟨"factor", some "Money", none, none⟩], some "Contract", [], ["Payment"]⟩
  filter := Filter.everything
  texts := Texts.stored
  options := Options.standard

/-- The same formula with another catalogue of components. -/
def catalogueEnvironment (components : List Component) : Environment :=
  sampleEnvironment.withModel { sampleModel with components := components }

namespace Model
variable {m : Model} {name : String}

/-- A model names no list types: lists arise along a path only. -/
theorem isList_datatype? {t : Datatype} (h : m.datatype? name = some t) : t.isList = false := by
  unfold datatype? at h
  split at h
  · cases h
    rfl
  · split at h
    · cases h
      rfl
    · obtain ⟨declared,-,rfl⟩ := Option.map_eq_some_iff.mp h
      unfold StructuralType.datatype
      cases declared.kind <;> rfl

theorem mem_of_type? {t : StructuralType} (h : m.type? name = some t) : t ∈ m.types :=
  List.mem_of_find?_eq_some h

theorem declared?_without {types : List StructuralType} {name other : String} (h : other ≠ name) :
    declared? (without types name) other = declared? types other := by
  unfold declared? without
  rw [List.find?_filter]
  congr 1
  funext t
  by_cases ht : t.name = other
  · simp [ht, h]
  · simp [ht]

theorem declared?_without_self (types : List StructuralType) (name : String) :
    declared? (without types name) name = none := by
  apply List.find?_eq_none.mpr
  intro t ht
  simpa using (List.mem_filter.mp ht).2

theorem ancestors_of_none {types : List StructuralType} {name : String}
    (h : declared? types name = none) : ancestors types name = [] := by
  rw [ancestors]
  split
  · rfl
  next t ht => simp [h] at ht

theorem ancestors_of_some {types : List StructuralType} {name : String} {t : StructuralType}
    (h : declared? types name = some t) :
    ancestors types name =
      t :: (t.supertype.map (ancestors (without types name))).getD [] := by
  rw [ancestors]
  split
  next hnone => simp [h] at hnone
  next u hu =>
    obtain rfl := Option.some.inj (h.symm.trans hu)
    cases t.supertype <;> rfl

theorem declared?_of_mem_ancestors {types : List StructuralType} {name : String}
    {t : StructuralType} (h : t ∈ ancestors types name) : declared? types t.name = some t := by
  fun_induction ancestors types name with
  | case1 => cases h
  | case2 types name s hs hnone =>
      obtain rfl := List.mem_singleton.mp h
      rw [name_of_declared? hs]
      exact hs
  | case3 types name s hs parent hparent ih =>
      rcases List.mem_cons.mp h with rfl | h
      · rw [name_of_declared? hs]
        exact hs
      · have ht := ih h
        have hne : t.name ≠ name := by
          have := (List.mem_filter.mp (List.mem_of_find?_eq_some ht)).2
          simpa using this
        rwa [declared?_without hne] at ht

theorem mem_of_mem_keepFirst {α : Type} {key : α → String} {a : α} {as : List α}
    (h : a ∈ keepFirst key as) : a ∈ as := List.mem_of_find?_eq_some (mem_keepFirst_iff.mp h)

/-- An attribute that a type shows is listed by a declaration that counts. -/
theorem declared_of_mem_attributes {a : Attribute} (h : a ∈ m.attributes name) :
    ∃ t, m.type? t.name = some t ∧ a ∈ t.attributes := by
  obtain ⟨t,ht,ha⟩ := List.mem_flatMap.mp (mem_of_mem_keepFirst h)
  exact ⟨t,declared?_of_mem_ancestors ht,ha⟩

theorem declared_of_mem_associations {a : Association} (h : a ∈ m.associations name) :
    ∃ t, m.type? t.name = some t ∧ a ∈ t.associations := by
  obtain ⟨t,ht,ha⟩ := List.mem_flatMap.mp (mem_of_mem_keepFirst h)
  exact ⟨t,declared?_of_mem_ancestors ht,ha⟩

theorem name_of_enumType? {e : EnumType} (h : m.enumType? name = some e) : e.name = name := by
  simpa using List.find?_some h

end Model

end FormulaPath
