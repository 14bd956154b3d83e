import FormulaPath.Proofs.Acceptance
import FormulaPath.Proofs.Supertypes

/-!
# Members of a type and of its supertypes

Each supertype link leads to a level with the members that the type there declares itself. An entry
of a level counts if no nearer level has its name and no earlier entry of its own level does
(`Counts`). A type shows the entries that count, ordered by level and then by declaration
(`ShowsNearest`), on cycles as well, where levels repeat without end. This is first shown for any
list of levels, by induction over it, and then carried to the levels that the links lead to. The
attributes that formulas may read follow: a name that some level has is never borrowed from
elsewhere, also if the filter denies the attribute that counts.
-/
namespace FormulaPath

/-! ## Levels of named entries -/

section Levels
variable {α : Type} {key : α → String} {as : List α} {levels : List (List α)} {a c : α}
  {distance place : Nat}

/-- An entry stands at a place, and no earlier entry has its name. -/
structure FirstAt (key : α → String) (as : List α) (a : α) (place : Nat) : Prop where
  entry : as[place]? = some a
  first : ∀ b ∈ as.take place, key b ≠ key a

/-- An entry is the first of its name in the nearest level that has the name. -/
structure Counts (key : α → String) (level : Nat → Option (List α)) (a : α)
    (distance place : Nat) : Prop where
  declared : ∃ as, level distance = some as ∧ FirstAt key as a place
  nearest : ∀ nearer < distance, ∀ as, level nearer = some as → ∀ b ∈ as, key b ≠ key a

/-- What is shown of the entries of all levels. -/
structure ShowsNearest (key : α → String) (level : Nat → Option (List α)) (shown : List α) :
    Prop where
  distinct : shown.Pairwise (key · ≠ key ·)
  present_iff : ∀ name, (∃ a ∈ shown, key a = name) ↔
    ∃ distance as, level distance = some as ∧ ∃ a ∈ as, key a = name
  counts : ∀ a ∈ shown, ∃ distance place, Counts key level a distance place
  ordered : shown.Pairwise fun a b => ∃ i k j l, Counts key level a i k ∧ Counts key level b j l ∧
    (i < j ∨ i = j ∧ k < l)

theorem FirstAt.zero (a : α) (as : List α) : FirstAt key (a :: as) a 0 where
  entry := rfl
  first := by simp

theorem FirstAt.cons (h : FirstAt key as a place) (hne : key c ≠ key a) :
    FirstAt key (c :: as) a (place + 1) where
  entry := h.entry
  first := by
    intro b hb
    rcases List.mem_cons.mp hb with rfl | hb
    · exact hne
    · exact h.first b hb

theorem exists_firstAt (h : a ∈ keepFirst key as) : ∃ place, FirstAt key as a place := by
  obtain ⟨-,front,rest,rfl,hfront⟩ := List.find?_eq_some_iff_append.mp (mem_keepFirst_iff.mp h)
  refine ⟨front.length,by simp,?_⟩
  intro b hb
  rw [List.take_left] at hb
  simpa using hfront b hb

/-- The kept entries follow the order of their first places. -/
theorem keepFirst_ordered (key : α → String) (as : List α) :
    (keepFirst key as).Pairwise fun a b =>
      ∃ k l, FirstAt key as a k ∧ FirstAt key as b l ∧ k < l := by
  induction as with
  | nil => exact List.Pairwise.nil
  | cons c as ih =>
      have hne : ∀ b ∈ (keepFirst key as).filter (key · != key c), key c ≠ key b := by
        intro b hb
        have := (List.mem_filter.mp hb).2
        exact (bne_iff_ne.mp this).symm
      rw [keepFirst,List.pairwise_cons]
      constructor
      · intro b hb
        obtain ⟨l,hl⟩ := exists_firstAt (List.mem_filter.mp hb).1
        exact ⟨0,l + 1,.zero c as,hl.cons (hne b hb),Nat.succ_pos l⟩
      · refine (ih.filter _).imp_of_mem fun {a b} ha hb => ?_
        rintro ⟨k,l,hk,hl,hlt⟩
        exact ⟨k + 1,l + 1,hk.cons (hne a ha),hl.cons (hne b hb),Nat.succ_lt_succ hlt⟩

/-- Of the later entries those remain whose name no earlier one has. -/
theorem keepFirst_append (key : α → String) (as bs : List α) :
    keepFirst key (as ++ bs) =
      keepFirst key as ++ (keepFirst key bs).filter fun b => as.all (key · != key b) := by
  induction as with
  | nil => simp [keepFirst]
  | cons a as ih =>
      rw [List.cons_append,keepFirst,ih,keepFirst,List.filter_append,List.filter_filter,
        List.cons_append]
      congr 3
      funext b
      rw [List.all_cons,bne_comm]

theorem Counts.zero (h : FirstAt key as a place) :
    Counts key ((as :: levels)[·]?) a 0 place where
  declared := ⟨as,rfl,h⟩
  nearest := by simp

theorem Counts.cons (h : Counts key (levels[·]?) a distance place)
    (hne : ∀ b ∈ as, key b ≠ key a) : Counts key ((as :: levels)[·]?) a (distance + 1) place where
  declared := h.declared
  nearest := by
    intro nearer hnearer bs hbs
    cases nearer with
    | zero =>
        obtain rfl : as = bs := Option.some.inj hbs
        exact hne
    | succ nearer => exact h.nearest nearer (Nat.lt_of_succ_lt_succ hnearer) bs hbs

theorem exists_counts (h : a ∈ keepFirst key levels.flatten) :
    ∃ distance place, Counts key (levels[·]?) a distance place := by
  induction levels with
  | nil => cases h
  | cons as levels ih =>
      rw [List.flatten_cons,keepFirst_append] at h
      rcases List.mem_append.mp h with hnear | hfar
      · obtain ⟨place,hplace⟩ := exists_firstAt hnear
        exact ⟨0,place,.zero hplace⟩
      · obtain ⟨hmem,hfresh⟩ := List.mem_filter.mp hfar
        obtain ⟨distance,place,hcounts⟩ := ih hmem
        exact ⟨distance + 1,place,hcounts.cons (by simpa using hfresh)⟩

/-- The kept entries follow the order of the levels and then that of their first places. -/
theorem keepFirst_flatten_ordered (key : α → String) (levels : List (List α)) :
    (keepFirst key levels.flatten).Pairwise fun a b => ∃ i k j l,
      Counts key (levels[·]?) a i k ∧ Counts key (levels[·]?) b j l ∧ (i < j ∨ i = j ∧ k < l) := by
  induction levels with
  | nil => exact List.Pairwise.nil
  | cons as levels ih =>
      have hfresh : ∀ b ∈ (keepFirst key levels.flatten).filter fun b => as.all (key · != key b),
          ∀ a ∈ as, key a ≠ key b := by
        intro b hb
        simpa using (List.mem_filter.mp hb).2
      rw [List.flatten_cons,keepFirst_append,List.pairwise_append]
      refine ⟨?_,?_,?_⟩
      · refine (keepFirst_ordered key as).imp ?_
        rintro a b ⟨k,l,hk,hl,hlt⟩
        exact ⟨0,k,0,l,.zero hk,.zero hl,Or.inr ⟨rfl,hlt⟩⟩
      · refine (ih.filter _).imp_of_mem fun {a b} ha hb => ?_
        rintro ⟨i,k,j,l,hcountsa,hcountsb,hlt⟩
        exact ⟨i + 1,k,j + 1,l,hcountsa.cons (hfresh a ha),hcountsb.cons (hfresh b hb),by omega⟩
      · intro a ha b hb
        obtain ⟨k,hk⟩ := exists_firstAt ha
        obtain ⟨j,l,hcounts⟩ := exists_counts (List.mem_filter.mp hb).1
        exact ⟨0,k,j + 1,l,.zero hk,hcounts.cons (hfresh b hb),Or.inl (Nat.succ_pos j)⟩

theorem exists_mem_keepFirst_iff {name : String} :
    (∃ a ∈ keepFirst key as, key a = name) ↔ ∃ a ∈ as, key a = name := by
  have h : ((keepFirst key as).find? (key · == name)).isSome =
      (as.find? (key · == name)).isSome := by
    rw [keepFirst_find?]
  simpa only [List.find?_isSome, beq_iff_eq, exists_prop] using Bool.eq_iff_iff.mp h

/-- With distinct names an entry is all that there is of its name. -/
theorem filter_of_pairwise (hnames : as.Pairwise (key · ≠ key ·)) (ha : a ∈ as) :
    as.filter (key · == key a) = [a] := by
  induction as with
  | nil => cases ha
  | cons c as ih =>
      have hrest := List.pairwise_cons.mp hnames
      rcases List.mem_cons.mp ha with rfl | ha
      · have hnone : as.filter (key · == key a) = [] := by
          rw [List.filter_eq_nil_iff]
          intro b hb
          simpa using (hrest.1 b hb).symm
        simp [hnone]
      · rw [List.filter_cons_of_neg (by simpa using hrest.1 a ha)]
        exact ih hrest.2 ha

end Levels

/-! ## Members along the supertype links -/

namespace Model
variable {α : Type} {key : α → String} {members : StructuralType → List α}
  {types : List StructuralType} {name : String} {a : α} {distance place : Nat}

/-- What the type a number of supertype links above a name declares itself. -/
def level? (types : List StructuralType) (members : StructuralType → List α) (name : String)
    (distance : Nat) : Option (List α) :=
  (above? types name distance).map members

/-- What counts among the types that the walk passes counts among all that the links lead to. -/
theorem counts_of_ancestors
    (h : Counts key (((ancestors types name).map members)[·]?) a distance place) :
    Counts key (level? types members name) a distance place where
  declared := by
    obtain ⟨as,has,hfirst⟩ := h.declared
    rw [List.getElem?_map] at has
    obtain ⟨t,ht,rfl⟩ := Option.map_eq_some_iff.mp has
    exact ⟨members t,by rw [level?,above?_of_ancestors ht,Option.map_some],hfirst⟩
  nearest := by
    intro nearer hnearer as has
    obtain ⟨t,ht,rfl⟩ := Option.map_eq_some_iff.mp has
    obtain ⟨i,hi,hpassed⟩ := exists_ancestor_of_above? ht
    exact h.nearest i (by omega) (members t) (by rw [List.getElem?_map,hpassed,Option.map_some])

theorem showsNearest_keepFirst (types : List StructuralType) (name : String) (key : α → String)
    (members : StructuralType → List α) :
    ShowsNearest key (level? types members name)
      (keepFirst key ((ancestors types name).flatMap members)) where
  distinct := keepFirst_pairwise _ _
  present_iff := by
    intro n
    simp only [exists_mem_keepFirst_iff, List.mem_flatMap, mem_ancestors_iff, level?,
      Option.map_eq_some_iff]
    constructor
    · rintro ⟨a,⟨t,⟨distance,ht⟩,ha⟩,hname⟩
      exact ⟨distance,members t,⟨t,ht,rfl⟩,a,ha,hname⟩
    · rintro ⟨distance,as,⟨t,ht,rfl⟩,a,ha,hname⟩
      exact ⟨a,⟨t,⟨distance,ht⟩,ha⟩,hname⟩
  counts := by
    intro a ha
    rw [List.flatMap_def] at ha
    obtain ⟨distance,place,h⟩ := exists_counts ha
    exact ⟨distance,place,counts_of_ancestors h⟩
  ordered := by
    rw [List.flatMap_def]
    refine (keepFirst_flatten_ordered key _).imp ?_
    rintro a b ⟨i,k,j,l,ha,hb,hlt⟩
    exact ⟨i,k,j,l,counts_of_ancestors ha,counts_of_ancestors hb,hlt⟩

end Model

/-! ## Attributes that formulas may read -/

/-- Of a name that a type has itself or inherits, formulas see that attribute or nothing. -/
theorem readableAttributes_filter_name {m : Model} {env : Environment} {t : Datatype}
    {a : Attribute} (ha : a ∈ m.attributes t.name) :
    (Scope.readableAttributes (env.withModel m) t).filter (·.name == a.name) =
      if env.filter.allows (.attr a) .value then [a] else [] := by
  -- Borrowed attributes are left out before the filter is asked, so a denied one hides them too.
  have hall : (Scope.allAttributes (env.withModel m) t).filter (·.name == a.name) = [a] :=
    filter_of_pairwise (allAttributes_pairwise m env t) (List.mem_append_left _ ha)
  rw [Scope.readableAttributes,List.filter_comm,hall,List.filter_singleton,Bool.cond_eq_ite]
  rfl

/-- A type of a model shows the members that count among those it and its supertypes declare, on
cycles as well: attributes and associations alike. Formulas see at most one attribute of each name.
Of a name that the type or a supertype declares, they see the attribute that counts if the filter
allows it, and nothing otherwise. -/
theorem nearest_declaration_wins (m : Model) (env : Environment) (t : Datatype) (name : String) :
    ShowsNearest Attribute.name (Model.level? m.types StructuralType.attributes name)
        (m.attributes name) ∧
      ShowsNearest Association.name (Model.level? m.types StructuralType.associations name)
        (m.associations name) ∧
      (Scope.readableAttributes (env.withModel m) t).Pairwise (·.name ≠ ·.name) ∧
      ∀ n distance as, Model.level? m.types StructuralType.attributes t.name distance = some as →
        (∃ b ∈ as, b.name = n) → ∃ a i k, a.name = n ∧
          Counts Attribute.name (Model.level? m.types StructuralType.attributes t.name) a i k ∧
          (Scope.readableAttributes (env.withModel m) t).filter (·.name == n) =
            if env.filter.allows (.attr a) .value then [a] else [] := by
  refine ⟨Model.showsNearest_keepFirst m.types name _ _,Model.showsNearest_keepFirst m.types name _ _,
    readableAttributes_pairwise m env t,?_⟩
  intro n distance as has hn
  have hshows : ShowsNearest Attribute.name (Model.level? m.types StructuralType.attributes t.name)
      (m.attributes t.name) := Model.showsNearest_keepFirst m.types t.name _ _
  obtain ⟨a,ha,rfl⟩ := (hshows.present_iff n).mpr ⟨distance,as,has,hn⟩
  obtain ⟨i,k,hcounts⟩ := hshows.counts a ha
  exact ⟨a,i,k,rfl,hcounts,readableAttributes_filter_name ha⟩

/-- A formula of riders that adds a rate of its own and may not read the rate of covers. -/
def riderEnvironment : Environment :=
  { sampleEnvironment with
    signature := ⟨"rate", [], some "Rider", [⟨"rate", "", "Money", false, none, none⟩], []⟩
    filter := Filter.denying [("Cover.rate", .value)] }

theorem nearest_declaration_wins_rider :
    let m := Model.loopDeclarations.foldl Model.addType Model.empty
    let readable := Scope.readableAttributes (riderEnvironment.withModel m) (.policy "Rider")
    (m.attributes "Rider").map (fun a => (a.owner, a.name)) =
        [("Rider", "sum"), ("Cover", "rate"), ("Part", "share")] ∧
      readable.map (fun a => (a.owner, a.name)) = [("Rider", "sum"), ("Part", "share")] ∧
      ∃ a i k, a.name = "rate" ∧
        Counts Attribute.name (Model.level? m.types StructuralType.attributes "Rider") a i k ∧
        readable.filter (·.name == "rate") =
          if riderEnvironment.filter.allows (.attr a) .value then [a] else [] := by
  intro m readable
  refine ⟨by decide +kernel,by decide +kernel,?_⟩
  obtain ⟨-,-,-,hname⟩ := nearest_declaration_wins m riderEnvironment (.policy "Rider") "Rider"
  exact hname "rate" 1 _ rfl ⟨_,List.mem_cons_self,rfl⟩

end FormulaPath
