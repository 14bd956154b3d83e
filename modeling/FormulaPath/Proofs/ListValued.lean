import FormulaPath.Proofs.Chain
import FormulaPath.Proofs.Declarations

/-!
# When a path is list valued

Resolution carries the list flag from node to node: attributes keep it, associations may set it, an
index clears it, and a qualifier settles it anew from what stood in front of the association. This
module states the outcome without any such run. A node is list valued exactly if some association
at or before it still leaves many targets there, which depends only on what the chain refers to
between the two places.

The step from place to place is `leavesMany_before`: what an association leaves at one place it
leaves at an earlier one, if only qualifiers of a later association stand between them.
-/
namespace FormulaPath

/-- What a chain refers to at a place. -/
def referentAt (chain : List Node) (i : Nat) : Option Referent := chain[i]?.bind Node.referent?

/-- The kind of thing that a chain refers to at a place. -/
def categoryAt (chain : List Node) (i : Nat) : Option Category := chain[i]?.bind Node.category?

/-- The association at place `j` of a chain leaves many targets at place `i`: no index stands behind
it, and it has many targets, for each qualifier if one follows it and in all otherwise. -/
def LeavesMany (chain : List Node) (j i : Nat) : Prop :=
  ∃ a, referentAt chain j = some (.assoc a) ∧
    (∀ k, j < k → k ≤ i → categoryAt chain k ≠ some .index) ∧
    if j + 1 ≤ i ∧ categoryAt chain (j + 1) = some .qualifier then 1 < a.maxCardinality
    else a.qualified = true ∨ 1 < a.maxCardinality

theorem categoryAt_eq (chain : List Node) (i : Nat) :
    categoryAt chain i = (referentAt chain i).map Referent.category := by
  unfold categoryAt referentAt
  cases chain[i]? <;> rfl

section Places
variable {chain : List Node} {i j k : Nat}

theorem leavesMany_before (hjk : j < k) (hki : k ≤ i)
    (hindex : ∀ l, k ≤ l → l ≤ i → categoryAt chain l ≠ some .index)
    (hqualifier : categoryAt chain k ≠ some .qualifier) :
    LeavesMany chain j i ↔ LeavesMany chain j (k - 1) := by
  have hfree : (∀ l, j < l → l ≤ i → categoryAt chain l ≠ some .index) ↔
      ∀ l, j < l → l ≤ k - 1 → categoryAt chain l ≠ some .index := by
    constructor
    · intro h l hjl hl
      exact h l hjl (by omega)
    · intro h l hjl hl
      by_cases hkl : k ≤ l
      · exact hindex l hkl hl
      · exact h l hjl (by omega)
  have hnext : (j + 1 ≤ i ∧ categoryAt chain (j + 1) = some .qualifier) ↔
      (j + 1 ≤ k - 1 ∧ categoryAt chain (j + 1) = some .qualifier) := by
    constructor
    · intro h
      have hne : j + 1 ≠ k := by
        intro hjk'
        rw [← hjk'] at hqualifier
        exact hqualifier h.2
      exact ⟨by omega,h.2⟩
    · intro h
      exact ⟨by omega,h.2⟩
  simp only [LeavesMany, hfree, hnext]

theorem exists_le_leavesMany_iff :
    (∃ j ≤ i, LeavesMany chain j i) ↔ LeavesMany chain i i ∨ ∃ j < i, LeavesMany chain j i := by
  constructor
  · intro h
    obtain ⟨j,hj,h⟩ := h
    rcases Nat.lt_or_eq_of_le hj with hj | rfl
    · exact Or.inr ⟨j,hj,h⟩
    · exact Or.inl h
  · intro h
    rcases h with h | ⟨j,hj,h⟩
    · exact ⟨i,le_rfl,h⟩
    · exact ⟨j,hj.le,h⟩

theorem leavesMany_self_iff {r : Referent} (h : referentAt chain i = some r) :
    LeavesMany chain i i ↔ ∃ a, r = .assoc a ∧ (a.qualified = true ∨ 1 < a.maxCardinality) := by
  have hlast : ¬ (i + 1 ≤ i ∧ categoryAt chain (i + 1) = some .qualifier) := by omega
  unfold LeavesMany
  simp only [h, if_neg hlast, Option.some.injEq]
  constructor
  · intro h
    obtain ⟨a,ha,-,hmany⟩ := h
    exact ⟨a,ha,hmany⟩
  · intro h
    obtain ⟨a,ha,hmany⟩ := h
    exact ⟨a,ha,fun k hk hki => absurd hki (by omega),hmany⟩

/-- A node that is neither an index nor a qualifier keeps what was left in front of it. -/
theorem leavesMany_iff_of_step {r : Referent} (h : referentAt chain i = some r)
    (hindex : r.category ≠ .index) (hqualifier : r.category ≠ .qualifier) :
    (∃ j ≤ i, LeavesMany chain j i) ↔
      (∃ a, r = .assoc a ∧ (a.qualified = true ∨ 1 < a.maxCardinality)) ∨
        ∃ j < i, LeavesMany chain j (i - 1) := by
  have hcategory : categoryAt chain i = some r.category := by rw [categoryAt_eq,h]; rfl
  rw [exists_le_leavesMany_iff,leavesMany_self_iff h]
  refine or_congr Iff.rfl (exists_congr fun j => and_congr_right fun hj => ?_)
  apply leavesMany_before hj le_rfl
  · intro l hil hli
    obtain rfl : l = i := by omega
    simpa [hcategory] using hindex
  · simpa [hcategory] using hqualifier

theorem not_leavesMany_of_index {position : Nat} (h : referentAt chain i = some (.index position)) :
    ¬ ∃ j ≤ i, LeavesMany chain j i := by
  intro hmany
  obtain ⟨j,hj,a,ha,hfree,-⟩ := hmany
  rcases Nat.lt_or_eq_of_le hj with hj | rfl
  · exact hfree i hj le_rfl (by rw [categoryAt_eq,h]; rfl)
  · rw [h] at ha
    cases ha

/-- Behind a run of qualifiers only their association and what was left in front of it count. -/
theorem leavesMany_iff_of_qualifiers {a : Association} (hki : k < i)
    (hassoc : referentAt chain k = some (.assoc a))
    (hquals : ∀ l, k < l → l ≤ i → categoryAt chain l = some .qualifier) :
    (∃ j ≤ i, LeavesMany chain j i) ↔
      1 < a.maxCardinality ∨ ∃ j < k, LeavesMany chain j (k - 1) := by
  have hassoc' : categoryAt chain k = some .assoc := by rw [categoryAt_eq,hassoc]; rfl
  have hfree : ∀ l, k ≤ l → l ≤ i → categoryAt chain l ≠ some .index := by
    intro l hkl hli
    rcases Nat.lt_or_eq_of_le hkl with hkl | rfl
    · simp [hquals l hkl hli]
    · simp [hassoc']
  have hbefore : ∀ j, j < k → (LeavesMany chain j i ↔ LeavesMany chain j (k - 1)) :=
    fun j hj => leavesMany_before hj hki.le hfree (by simp [hassoc'])
  constructor
  · intro hmany
    obtain ⟨j,hji,h⟩ := hmany
    rcases Nat.lt_trichotomy j k with hj | rfl | hj
    · exact Or.inr ⟨j,hj,(hbefore j hj).mp h⟩
    · obtain ⟨b,hb,-,hmany⟩ := h
      rw [hassoc] at hb
      cases hb
      rw [if_pos ⟨hki,hquals _ (by omega) hki⟩] at hmany
      exact Or.inl hmany
    · obtain ⟨b,hb,-⟩ := h
      have hqualifier := hquals j hj hji
      rw [categoryAt_eq,hb] at hqualifier
      cases hqualifier
  · intro h
    rcases h with hmany | ⟨j,hj,h⟩
    · refine ⟨k,hki.le,a,hassoc,fun l hkl hli => hfree l hkl.le hli,?_⟩
      rw [if_pos ⟨hki,hquals _ (by omega) hki⟩]
      exact hmany
    · exact ⟨j,by omega,(hbefore j hj).mpr h⟩

end Places

theorem association?_eq_some {trail before : Trail} {a : Association}
    (h : trail.association? = some (a, before)) :
    ∃ quals node, trail = quals ++ node :: before ∧ node.referent? = some (.assoc a) ∧
      ∀ n ∈ quals, n.category? = some .qualifier := by
  induction trail with
  | nil => cases h
  | cons node rest ih =>
      unfold Trail.association? at h
      split at h
      next b hb =>
        cases h
        exact ⟨[],node,rfl,hb,by simp⟩
      next name runtimeId component hnode =>
        obtain ⟨quals,found,rfl,hfound,hquals⟩ := ih h
        refine ⟨node :: quals,found,rfl,hfound,?_⟩
        intro n hn
        rcases List.mem_cons.mp hn with rfl | hn
        · simp [Node.category?, hnode, Referent.category]
        · exact hquals n hn
      next => cases h

/-- The association of a bracket, by places of the chain in front of it. -/
theorem association?_take {chain : List Node} {i : Nat} {a : Association} {before : Trail}
    (hi : i ≤ chain.length) (h : Trail.association? (chain.take i).reverse = some (a, before)) :
    ∃ k < i, referentAt chain k = some (.assoc a) ∧ before = (chain.take k).reverse ∧
      ∀ l, k < l → l < i → categoryAt chain l = some .qualifier := by
  obtain ⟨quals,node,htrail,hnode,hquals⟩ := association?_eq_some h
  have hfront : chain.take i = before.reverse ++ node :: quals.reverse := by
    rw [← List.reverse_reverse (chain.take i),htrail]
    simp
  have hlen := congrArg List.length hfront
  simp only [List.length_take, List.length_append, List.length_reverse, List.length_cons] at hlen
  have hget : ∀ l, l < i → chain[l]? = (before.reverse ++ node :: quals.reverse)[l]? := by
    intro l hl
    rw [← hfront,List.getElem?_take_of_lt hl]
  refine ⟨before.length,by omega,?_,?_,?_⟩
  · unfold referentAt
    rw [hget _ (by omega),List.getElem?_append_right (by simp)]
    simpa using hnode
  · have htake := congrArg (List.take before.length) hfront
    rw [List.take_take,Nat.min_eq_left (by omega),List.take_left' (by simp)] at htake
    rw [htake,List.reverse_reverse]
  · intro l hkl hli
    unfold categoryAt
    rw [hget l hli,List.getElem?_append_right (by simpa using hkl.le)]
    obtain ⟨d,hd⟩ : ∃ d, l - before.reverse.length = d + 1 := ⟨l - before.length - 1,by simp; omega⟩
    rw [hd,List.getElem?_cons_succ]
    have hlt : d < quals.reverse.length := by
      simp only [List.length_reverse] at hd ⊢
      omega
    rw [List.getElem?_eq_getElem hlt]
    exact hquals _ (List.mem_reverse.mp (List.getElem_mem hlt))

theorem asListIf_flat {t : Datatype} (h : t.isList = false) (many : Bool) :
    (t.asListIf many).isList = false ∨ ∃ u, t.asListIf many = .list u ∧ u.isList = false := by
  cases many with
  | false => exact Or.inl h
  | true => exact Or.inr ⟨t,by simp [Datatype.asList, h],h⟩

section Resolved
variable {env : Environment} {parts : List Part} {i : Nat} {node : Node}

theorem Denotes.flat {trail : Trail} {text : String} {rule : Rule} {r : Referent} {t : Datatype}
    (hschema : ∀ name u, env.schema.datatype? name = some u → u.isList = false)
    (h : Denotes env trail text rule r t) :
    t.isList = false ∨ ∃ u, t = .list u ∧ u.isList = false := by
  cases h with
  | param _ _ _ hu =>
      obtain ⟨name,-,hname⟩ := Option.bind_eq_some_iff.mp hu
      exact Or.inl (hschema name t hname)
  | attr _ _ _ _ _ hu => exact asListIf_flat (hschema _ _ hu) _
  | assoc _ _ _ hu => exact asListIf_flat (hschema _ _ hu) _
  | enumClass => exact Or.inl rfl
  | enumValue => exact Or.inl rfl
  | index => exact Or.inl (Datatype.isList_element _)
  | qualifier => exact asListIf_flat (Datatype.isList_element _) _

/-- Behind an enumeration the path is not list valued. -/
theorem isList_of_enumClass? {e : EnumType} (hnode : (resolveFrom env [] parts)[i]? = some node)
    (h : Trail.enumClass? ((resolveFrom env [] parts).take i).reverse = some e) :
    Trail.isList ((resolveFrom env [] parts).take i).reverse = false := by
  cases i with
  | zero => rfl
  | succ i =>
      have hi := (List.getElem?_eq_some_iff.mp hnode).1
      have hprev : (resolveFrom env [] parts)[i]? = some (resolveFrom env [] parts)[i] :=
        List.getElem?_eq_getElem (by omega)
      obtain ⟨part,rule,r,t,heq,hdenotes⟩ := denotes_at hprev (valid_of_lt hprev hnode (by omega))
      rw [reverse_take_succ hprev,heq] at h ⊢
      have hr : r = .enumClass e := by
        cases r <;> simp_all [Trail.enumClass?, Node.referent?, Meaning.referent?]
      rw [hr] at hdenotes
      simp [Trail.isList, Node.isList, Node.datatype?, Meaning.datatype?,
        hdenotes.datatype_of_enumClass, Datatype.isList]

/-- One step: the flag at a place, from the flags in front of it. -/
theorem isList_step (hschema : ∀ name u, env.schema.datatype? name = some u → u.isList = false)
    (hnode : (resolveFrom env [] parts)[i]? = some node) (hvalid : node.isInvalid = false)
    (hbefore : ∀ k ≤ i, Trail.isList ((resolveFrom env [] parts).take k).reverse = true ↔
      ∃ j < k, LeavesMany (resolveFrom env [] parts) j (k - 1)) :
    node.isList = true ↔ ∃ j ≤ i, LeavesMany (resolveFrom env [] parts) j i := by
  obtain ⟨part,rule,r,t,rfl,hdenotes⟩ := denotes_at hnode hvalid
  have hr : referentAt (resolveFrom env [] parts) i = some r := by
    simp [referentAt, hnode, Node.referent?, Meaning.referent?]
  have hstep : r.category ≠ .index → r.category ≠ .qualifier →
      ((∃ j ≤ i, LeavesMany (resolveFrom env [] parts) j i) ↔
        (∃ a, r = .assoc a ∧ (a.qualified = true ∨ 1 < a.maxCardinality)) ∨
          Trail.isList ((resolveFrom env [] parts).take i).reverse = true) := by
    intro hindex hqualifier
    rw [leavesMany_iff_of_step hr hindex hqualifier,hbefore i le_rfl]
  change t.isList = true ↔ _
  cases hdenotes with
  | param htrail _ _ hu =>
      obtain ⟨name,-,hname⟩ := Option.bind_eq_some_iff.mp hu
      rw [hstep (by simp [Referent.category]) (by simp [Referent.category]),htrail]
      simp [hschema name t hname, Trail.isList]
  | attr _ _ _ _ _ hu =>
      rw [hstep (by simp [Referent.category]) (by simp [Referent.category]),
        Datatype.isList_asListIf]
      simp [hschema _ _ hu]
  | assoc _ _ _ hu =>
      rw [hstep (by simp [Referent.category]) (by simp [Referent.category]),
        Datatype.isList_asListIf]
      simp [hschema _ _ hu, Association.isManyUnqualified, Association.isMany]
  | enumClass _ htrail =>
      rw [hstep (by simp [Referent.category]) (by simp [Referent.category]),htrail]
      simp [Trail.isList, Datatype.isList]
  | enumValue _ he =>
      rw [hstep (by simp [Referent.category]) (by simp [Referent.category]),
        isList_of_enumClass? hnode he]
      simp [Datatype.isList]
  | index => simpa using not_leavesMany_of_index hr
  | qualifier _ ha =>
      have hi := (List.getElem?_eq_some_iff.mp hnode).1
      obtain ⟨k,hki,hassoc,rfl,hquals⟩ := association?_take hi.le ha
      have hquals' : ∀ l, k < l → l ≤ i →
          categoryAt (resolveFrom env [] parts) l = some .qualifier := by
        intro l hkl hli
        rcases Nat.lt_or_eq_of_le hli with hli | rfl
        · exact hquals l hkl hli
        · rw [categoryAt_eq,hr]
          rfl
      rw [leavesMany_iff_of_qualifiers hki hassoc hquals',← hbefore k hki.le,
        Datatype.isList_asListIf]
      simp [Association.isMany]

/-- The flag that resolution carries along is the condition on places. -/
theorem isList_iff_leavesMany
    (hschema : ∀ name u, env.schema.datatype? name = some u → u.isList = false)
    (hnode : (resolveFrom env [] parts)[i]? = some node) (hvalid : node.isInvalid = false) :
    node.isList = true ↔ ∃ j ≤ i, LeavesMany (resolveFrom env [] parts) j i := by
  induction i using Nat.strong_induction_on generalizing node with
  | _ i ih =>
      apply isList_step hschema hnode hvalid
      intro k hk
      cases k with
      | zero => simp [Trail.isList]
      | succ k =>
          have hi := (List.getElem?_eq_some_iff.mp hnode).1
          have hprev : (resolveFrom env [] parts)[k]? = some (resolveFrom env [] parts)[k] :=
            List.getElem?_eq_getElem (by omega)
          rw [reverse_take_succ hprev]
          simpa [Trail.isList, Nat.lt_succ_iff] using
            ih k hk hprev (valid_of_lt hprev hnode hk)

end Resolved

/-- In a model a node that is not invalid has a type, and this is no list of lists; only the node of
the empty path has none. The node is list valued exactly if an association at or before it leaves
many targets there. The length of the path plays no part in this; the program reads paths of at most
`Region.limit` bytes. -/
theorem resolve_list_valued (m : Model) (env : Environment) (path : String) {i : Nat} {node : Node}
    (hnode : (resolve (env.withModel m) path)[i]? = some node) (hvalid : node.isInvalid = false) :
    (path ≠ "" → ∃ t, node.datatype? = some t ∧
      (t.isList = false ∨ ∃ u, t = .list u ∧ u.isList = false)) ∧
    (node.isList = true ↔ ∃ j ≤ i, LeavesMany (resolve (env.withModel m) path) j i) := by
  have hschema : ∀ name u, (env.withModel m).schema.datatype? name = some u → u.isList = false :=
    fun name u hu => Model.isList_datatype? hu
  by_cases hne : path = ""
  · subst hne
    have hempty : resolve (env.withModel m) "" = [⟨Region.empty 0, .empty⟩] := rfl
    rw [hempty] at hnode ⊢
    obtain ⟨hi,hnode⟩ := List.getElem?_eq_some_iff.mp hnode
    obtain rfl : i = 0 := by simpa using hi
    refine ⟨fun h => absurd rfl h,?_⟩
    rw [← hnode]
    constructor
    · intro h
      cases h
    · intro h
      obtain ⟨j,hj,a,ha,-⟩ := h
      obtain rfl : j = 0 := by omega
      cases ha
  · rw [resolve_eq hne] at hnode ⊢
    refine ⟨fun _ => ?_,isList_iff_leavesMany hschema hnode hvalid⟩
    obtain ⟨part,rule,r,t,rfl,hdenotes⟩ := denotes_at hnode hvalid
    exact ⟨t,rfl,hdenotes.flat hschema⟩

theorem resolve_list_valued_covers :
    let chain := resolve (sampleEnvironment.withModel sampleModel) "covers[\"BASE\"].parts[0].sum"
    (∀ node ∈ chain, node.isInvalid = false) ∧ (∃ j ≤ 2, LeavesMany chain j 2) ∧
      ¬ ∃ j ≤ 4, LeavesMany chain j 4 := by
  intro chain
  have hvalid : ∀ node ∈ chain, node.isInvalid = false := by decide +kernel
  have hflags : ∀ h : 4 < chain.length, chain[2].isList = true ∧ chain[4].isList = false := by
    decide +kernel
  have hlen : 4 < chain.length := by decide +kernel
  have hlist : ∀ i (hi : i < chain.length), chain[i].isList = true ↔
      ∃ j ≤ i, LeavesMany chain j i := by
    intro i hi
    have hnode : chain[i]? = some chain[i] := List.getElem?_eq_getElem hi
    exact (resolve_list_valued sampleModel sampleEnvironment _ hnode
      (hvalid _ (List.getElem_mem hi))).2
  obtain ⟨hparts,hsum⟩ := hflags hlen
  refine ⟨hvalid,(hlist 2 (by omega)).mp hparts,fun h => ?_⟩
  rw [(hlist 4 hlen).mpr h] at hsum
  cases hsum

/-- The node of the empty path is not invalid, and it has no type. -/
theorem resolve_empty_without_datatype :
    ∃ node, (resolve (sampleEnvironment.withModel sampleModel) "")[0]? = some node ∧
      node.isInvalid = false ∧ node.datatype? = none :=
  ⟨⟨Region.empty 0, .empty⟩,rfl,rfl,rfl⟩

end FormulaPath
