import FormulaPath.Proofs.Declarations
import FormulaPath.Proofs.Denotation
import FormulaPath.Proofs.Split

/-!
# The nodes of a chain and the parts of its path

Resolution takes the parts one by one and stops behind the first that does not resolve. Hence the
node at each place is the node of the part at that place, read behind the nodes in front of it
(`getElem?_resolveFrom`), only the last node can be invalid, and a chain that is shorter than the
path ends in an invalid node. Together with the tiling of the path by its parts this gives the
regions of a chain for every text and every environment. Nothing here depends on what the schema
answers.
-/
namespace FormulaPath
variable {env : Environment} {trail : Trail} {part : Part} {parts : List Part}

theorem partMeaning_ne_empty : partMeaning env trail part ≠ .empty := by
  intro h
  unfold partMeaning at h
  split at h
  · cases h
  · cases hdecide : Rule.decide? env trail part.text with
    | none => simp [hdecide] at h
    | some meaning =>
        rw [hdecide,Option.getD_some] at h
        obtain ⟨rule,-,hrule⟩ := List.exists_of_findSome?_eq_some hdecide
        exact Rule.meaning?_ne_empty (h ▸ hrule)

/-- A node that is not invalid says what its part denotes. -/
theorem denotes_of_partNode (h : (partNode env trail part).isInvalid = false) :
    part.separator ≠ .missing ∧ ∃ rule r t,
      partNode env trail part = ⟨part.region, .resolved r t⟩ ∧
      Denotes env trail part.text rule r t := by
  cases hmeaning : partMeaning env trail part with
  | empty => exact absurd hmeaning partMeaning_ne_empty
  | invalid problem =>
      simp [partNode, hmeaning, Node.isInvalid, Node.problem?, Meaning.problem?] at h
  | resolved r t =>
      unfold partMeaning at hmeaning
      split at hmeaning
      · cases hmeaning
      next hsep =>
        cases hdecide : Rule.decide? env trail part.text with
        | none => simp [hdecide] at hmeaning
        | some meaning =>
            rw [hdecide,Option.getD_some] at hmeaning
            obtain ⟨rule,-,hrule⟩ := List.exists_of_findSome?_eq_some hdecide
            subst hmeaning
            refine ⟨hsep,rule,r,t,?_,Rule.meaning?_resolved_iff.mp hrule⟩
            simp [partNode, partMeaning, hsep, hdecide]

theorem isInvalid_partNode_iff :
    (partNode env trail part).isInvalid = true ↔ (partNode env trail part).datatype? = none := by
  cases h : partMeaning env trail part with
  | empty => exact absurd h partMeaning_ne_empty
  | resolved r t => simp [partNode, h, Node.isInvalid, Node.problem?, Meaning.problem?,
      Node.datatype?, Meaning.datatype?]
  | invalid problem => simp [partNode, h, Node.isInvalid, Node.problem?, Meaning.problem?,
      Node.datatype?, Meaning.datatype?]

theorem resolveFrom_cons_invalid (h : (partNode env trail part).isInvalid = true) :
    resolveFrom env trail (part :: parts) = [partNode env trail part] := by
  simp [resolveFrom, h]

theorem resolveFrom_cons_valid (h : (partNode env trail part).isInvalid = false) :
    resolveFrom env trail (part :: parts) =
      partNode env trail part :: resolveFrom env (partNode env trail part :: trail) parts := by
  simp [resolveFrom, h]

theorem forall_valid_cons :
    (∀ node ∈ resolveFrom env trail (part :: parts), node.isInvalid = false) ↔
      (partNode env trail part).isInvalid = false ∧
        ∀ node ∈ resolveFrom env (partNode env trail part :: trail) parts,
          node.isInvalid = false := by
  cases hvalid : (partNode env trail part).isInvalid with
  | true => simp [resolveFrom_cons_invalid hvalid, hvalid]
  | false => simp [resolveFrom_cons_valid hvalid, hvalid]

/-- The node at a place of a chain is that of the part at this place, read behind the nodes in front
of it. -/
theorem getElem?_resolveFrom {i : Nat} {node : Node}
    (h : (resolveFrom env trail parts)[i]? = some node) :
    ∃ part, parts[i]? = some part ∧
      node = partNode env (((resolveFrom env trail parts).take i).reverse ++ trail) part := by
  induction parts generalizing trail i with
  | nil => simp [resolveFrom] at h
  | cons part parts ih =>
      cases hvalid : (partNode env trail part).isInvalid with
      | true =>
          rw [resolveFrom_cons_invalid hvalid] at h ⊢
          obtain ⟨hi,hnode⟩ := List.getElem?_eq_some_iff.mp h
          obtain rfl : i = 0 := by simpa using hi
          exact ⟨part,rfl,by simpa using hnode.symm⟩
      | false =>
          rw [resolveFrom_cons_valid hvalid] at h ⊢
          cases i with
          | zero => exact ⟨part,rfl,by simpa using h.symm⟩
          | succ i =>
              obtain ⟨next,hnext,hnode⟩ := ih (by simpa using h)
              exact ⟨next,by simpa using hnext,by simpa using hnode⟩

theorem valid_of_mem_dropLast {node : Node}
    (h : node ∈ (resolveFrom env trail parts).dropLast) : node.isInvalid = false := by
  induction parts generalizing trail with
  | nil => simp [resolveFrom] at h
  | cons part parts ih =>
      cases hvalid : (partNode env trail part).isInvalid with
      | true => simp [resolveFrom_cons_invalid hvalid] at h
      | false =>
          rw [resolveFrom_cons_valid hvalid] at h
          cases hrest : resolveFrom env (partNode env trail part :: trail) parts with
          | nil => simp [hrest] at h
          | cons next rest =>
              rw [hrest,List.dropLast_cons_cons] at h
              rcases List.mem_cons.mp h with rfl | h
              · exact hvalid
              · exact ih (hrest ▸ h)

theorem valid_of_lt {i j : Nat} {node later : Node}
    (hnode : (resolveFrom env trail parts)[i]? = some node)
    (hlater : (resolveFrom env trail parts)[j]? = some later) (hij : i < j) :
    node.isInvalid = false := by
  obtain ⟨hj,-⟩ := List.getElem?_eq_some_iff.mp hlater
  have hmem : node ∈ (resolveFrom env trail parts).dropLast := by
    rw [List.mem_iff_getElem?]
    refine ⟨i,?_⟩
    rw [List.getElem?_dropLast,if_pos (by omega)]
    exact hnode
  exact valid_of_mem_dropLast hmem

/-- A node that is not invalid says what its part denotes behind the nodes in front of it. -/
theorem denotes_at {i : Nat} {node : Node} (h : (resolveFrom env [] parts)[i]? = some node)
    (hvalid : node.isInvalid = false) :
    ∃ (part : Part) (rule : Rule) (r : Referent) (t : Datatype),
      node = ⟨part.region, .resolved r t⟩ ∧
      Denotes env ((resolveFrom env [] parts).take i).reverse part.text rule r t := by
  obtain ⟨part,-,rfl⟩ := getElem?_resolveFrom h
  rw [List.append_nil] at hvalid ⊢
  obtain ⟨-,rule,r,t,hnode,hdenotes⟩ := denotes_of_partNode hvalid
  exact ⟨part,rule,r,t,hnode,hdenotes⟩

theorem reverse_take_succ {chain : List Node} {i : Nat} {node : Node} (h : chain[i]? = some node) :
    (chain.take (i + 1)).reverse = node :: (chain.take i).reverse := by
  simp [List.take_add_one, h]

theorem length_resolveFrom (h : ∀ node ∈ resolveFrom env trail parts, node.isInvalid = false) :
    (resolveFrom env trail parts).length = parts.length := by
  induction parts generalizing trail with
  | nil => rfl
  | cons part parts ih =>
      obtain ⟨hvalid,hrest⟩ := forall_valid_cons.mp h
      rw [resolveFrom_cons_valid hvalid,List.length_cons,List.length_cons,ih hrest]

/-- Once its first parts are settled, a path goes on behind their trail. -/
theorem settle?_eq_some {init : List Part} {after : Trail}
    (h : settle? env trail init = some after) :
    (∀ node ∈ resolveFrom env trail init, node.isInvalid = false) ∧
      ∀ parts, resolveFrom env trail (init ++ parts) =
        resolveFrom env trail init ++ resolveFrom env after parts := by
  induction init generalizing trail with
  | nil =>
      cases h
      exact ⟨by simp [resolveFrom],fun parts => rfl⟩
  | cons part init ih =>
      cases hvalid : (partNode env trail part).isInvalid with
      | true => simp [settle?, hvalid] at h
      | false =>
          have hrest := ih (by simpa [settle?, hvalid] using h)
          constructor
          · exact forall_valid_cons.mpr ⟨hvalid,hrest.1⟩
          · intro parts
            rw [List.cons_append,resolveFrom_cons_valid hvalid,resolveFrom_cons_valid hvalid,
              hrest.2 parts,List.cons_append]

/-- Nothing is read behind a part that does not resolve. -/
theorem resolveFrom_append_of_invalid {node : Node} (hnode : node ∈ resolveFrom env trail parts)
    (hinvalid : node.isInvalid = true) (more : List Part) :
    resolveFrom env trail (parts ++ more) = resolveFrom env trail parts := by
  induction parts generalizing trail with
  | nil => simp [resolveFrom] at hnode
  | cons part parts ih =>
      rw [List.cons_append]
      cases hvalid : (partNode env trail part).isInvalid with
      | true => rw [resolveFrom_cons_invalid hvalid,resolveFrom_cons_invalid hvalid]
      | false =>
          rw [resolveFrom_cons_valid hvalid] at hnode
          rw [resolveFrom_cons_valid hvalid,resolveFrom_cons_valid hvalid]
          rcases List.mem_cons.mp hnode with rfl | hnode
          · rw [hvalid] at hinvalid
            cases hinvalid
          · rw [ih hnode]

/-- The latest node of a settled trail says what its part denotes behind the others. -/
theorem denotes_of_settle? {init : List Part} {node : Node} {before : Trail}
    (h : settle? env trail init = some (node :: before)) :
    trail = node :: before ∨ ∃ (part : Part) (rule : Rule) (r : Referent) (t : Datatype),
      node = ⟨part.region, .resolved r t⟩ ∧ Denotes env before part.text rule r t := by
  induction init generalizing trail with
  | nil => exact Or.inl (Option.some.inj h)
  | cons part init ih =>
      cases hvalid : (partNode env trail part).isInvalid with
      | true => simp [settle?, hvalid] at h
      | false =>
          have hrest : settle? env (partNode env trail part :: trail) init =
              some (node :: before) := by simpa [settle?, hvalid] using h
          rcases ih hrest with heq | hdenotes
          · obtain ⟨rfl,rfl⟩ := List.cons.inj heq
            obtain ⟨-,rule,r,t,hnode,hdenotes⟩ := denotes_of_partNode hvalid
            exact Or.inr ⟨part,rule,r,t,hnode,hdenotes⟩
          · exact Or.inr hdenotes

theorem settle?_of_valid {init parts : List Part}
    (h : ∀ node ∈ resolveFrom env trail (init ++ parts), node.isInvalid = false) :
    ∃ after, settle? env trail init = some after := by
  induction init generalizing trail with
  | nil => exact ⟨trail,rfl⟩
  | cons part init ih =>
      rw [List.cons_append,forall_valid_cons] at h
      simp only [settle?, h.1, Bool.false_eq_true, if_false]
      exact ih h.2

/-- The trail behind parts that all resolve: their nodes, the latest first. -/
theorem settle?_of_resolveFrom
    (h : ∀ node ∈ resolveFrom env trail parts, node.isInvalid = false) :
    settle? env trail parts = some ((resolveFrom env trail parts).reverse ++ trail) := by
  induction parts generalizing trail with
  | nil => rfl
  | cons part parts ih =>
      obtain ⟨hvalid,hrest⟩ := forall_valid_cons.mp h
      simp only [settle?, hvalid, Bool.false_eq_true, if_false]
      rw [ih hrest,resolveFrom_cons_valid hvalid]
      simp

/-- All nodes of a path resolve exactly if its first parts settle and the last resolves behind
them. -/
theorem valid_concat_iff {init : List Part} {last : Part} :
    (∀ node ∈ resolveFrom env trail (init ++ [last]), node.isInvalid = false) ↔
      ∃ after, settle? env trail init = some after ∧
        (partNode env after last).isInvalid = false := by
  constructor
  · intro h
    obtain ⟨after,hsettle⟩ := settle?_of_valid h
    refine ⟨after,hsettle,?_⟩
    rw [(settle?_eq_some hsettle).2] at h
    apply h
    cases hlast : (partNode env after last).isInvalid <;> simp [resolveFrom, hlast]
  · intro h node hnode
    obtain ⟨after,hsettle,hlast⟩ := h
    rw [(settle?_eq_some hsettle).2,resolveFrom_cons_valid hlast] at hnode
    rcases List.mem_append.mp hnode with hnode | hnode
    · exact (settle?_eq_some hsettle).1 node hnode
    · rw [List.mem_singleton.mp hnode]
      exact hlast

theorem map_region_resolveFrom (env : Environment) (trail : Trail) (parts : List Part) :
    (resolveFrom env trail parts).map Node.region <+: parts.map Part.region := by
  induction parts generalizing trail with
  | nil => exact List.prefix_rfl
  | cons part parts ih =>
      cases hvalid : (partNode env trail part).isInvalid with
      | true =>
          rw [resolveFrom_cons_invalid hvalid]
          exact ⟨parts.map Part.region,rfl⟩
      | false =>
          rw [resolveFrom_cons_valid hvalid]
          exact List.prefix_cons_inj _ |>.mpr (ih _)

theorem isInvalid_iff_of_mem {node : Node} (h : node ∈ resolveFrom env trail parts) :
    node.isInvalid = true ↔ node.datatype? = none := by
  obtain ⟨i,hi⟩ := List.mem_iff_getElem?.mp h
  obtain ⟨part,-,rfl⟩ := getElem?_resolveFrom hi
  exact isInvalid_partNode_iff

/-- A chain that is shorter than the path ends in an invalid node. -/
theorem last_invalid_of_length_lt (h : (resolveFrom env trail parts).length < parts.length) :
    ∃ node, (resolveFrom env trail parts).getLast? = some node ∧ node.isInvalid = true := by
  have hinvalid : ∃ node ∈ resolveFrom env trail parts, node.isInvalid = true := by
    by_contra hnone
    have hcount : (resolveFrom env trail parts).length = parts.length :=
      length_resolveFrom (by simpa using hnone)
    omega
  obtain ⟨node,hmem,hnode⟩ := hinvalid
  have hne := List.ne_nil_of_mem hmem
  rw [← List.dropLast_append_getLast hne] at hmem
  rcases List.mem_append.mp hmem with hmem | hmem
  · simp [valid_of_mem_dropLast hmem] at hnode
  · exact ⟨node,by rw [List.getLast?_eq_some_getLast hne,← List.mem_singleton.mp hmem],hnode⟩

theorem resolve_eq {path : String} (h : path ≠ "") :
    resolve env path = resolveFrom env [] (Path.split path) := by
  simp [resolve, h]

theorem settle?_split {path : String} (hne : path ≠ "")
    (hvalid : ∀ node ∈ resolve env path, node.isInvalid = false) :
    settle? env [] (Path.split path) = some (resolve env path).reverse := by
  rw [resolve_eq hne] at hvalid ⊢
  rw [settle?_of_resolveFrom hvalid,List.append_nil]

/-- Where a path that resolves goes on without moving its parts, its chain goes on behind its
nodes. -/
theorem resolve_append {path more : String} (hne : path ≠ "")
    (hvalid : ∀ node ∈ resolve env path, node.isInvalid = false)
    (hsplit : Path.split (path ++ more) = Path.split path ++ parts) :
    resolve env (path ++ more) =
      resolve env path ++ resolveFrom env (resolve env path).reverse parts := by
  have hlonger : path ++ more ≠ "" := by simp [hne]
  rw [resolve_eq hlonger,hsplit,(settle?_eq_some (settle?_split hne hvalid)).2,← resolve_eq hne]

theorem resolve_append_part {path more : String} (hne : path ≠ "")
    (hvalid : ∀ node ∈ resolve env path, node.isInvalid = false)
    (hsplit : Path.split (path ++ more) = Path.split path ++ [part]) :
    resolve env (path ++ more) =
      resolve env path ++ [partNode env (resolve env path).reverse part] := by
  rw [resolve_append hne hvalid hsplit]
  simp [resolveFrom]

/-- A chain follows the parts of its path, place by place, up to the first part that does not
resolve; without such a part it covers the whole path. -/
theorem resolve_follows_split (env : Environment) {path : String} (hne : path ≠ "")
    (hlen : path.utf8ByteSize ≤ Region.limit) :
    let parts := Path.split path
    let chain := resolve env path
    1 ≤ chain.length ∧ chain.length ≤ parts.length ∧
      (∀ i (hchain : i < chain.length) (hparts : i < parts.length),
        chain[i].region = parts[i].region) ∧
      (∀ node ∈ chain.dropLast, node.isInvalid = false ∧ node.datatype?.isSome = true) ∧
      (∀ node, chain.getLast? = some node → (node.isInvalid = true ↔ node.datatype? = none)) ∧
      (chain.length < parts.length →
        ∃ node, chain.getLast? = some node ∧ node.isInvalid = true) ∧
      ((∀ node ∈ chain, node.isInvalid = false) →
        chain.length = parts.length ∧
        chain.head?.map (·.region.start) = some 0 ∧
        chain.getLast?.map (·.region.stop) = some path.utf8ByteSize ∧
        ∀ i (hchain : i + 1 < chain.length) (hparts : i + 1 < parts.length),
          chain[i].region.stop + parts[i + 1].separator.width = chain[i + 1].region.start) := by
  intro parts chain
  have hchain : chain = resolveFrom env [] parts := resolve_eq hne
  have hregions : chain.map Node.region <+: parts.map Part.region :=
    hchain ▸ map_region_resolveFrom env [] parts
  have hregion : ∀ i (hc : i < chain.length) (hp : i < parts.length),
      chain[i].region = parts[i].region := by
    intro i hc hp
    have h := hregions.getElem (i := i) (by simpa using hc)
    rwa [List.getElem_map,List.getElem_map] at h
  have htyped : ∀ node ∈ chain, node.isInvalid = true ↔ node.datatype? = none := by
    intro node hnode
    rw [hchain] at hnode
    exact isInvalid_iff_of_mem hnode
  refine ⟨List.length_pos_iff.mpr (resolve_ne_nil env path),by simpa using hregions.length_le,
    hregion,?_,?_,?_,?_⟩
  · intro node hnode
    have hvalid : node.isInvalid = false := valid_of_mem_dropLast (hchain ▸ hnode)
    have htype := htyped node (List.dropLast_subset chain hnode)
    rw [hvalid] at htype
    exact ⟨hvalid,Option.isSome_iff_ne_none.mpr fun h => Bool.false_ne_true (htype.mpr h)⟩
  · intro node hnode
    exact htyped node (List.mem_of_getLast? hnode)
  · intro hlt
    rw [hchain] at hlt ⊢
    exact last_invalid_of_length_lt hlt
  · intro hvalid
    have hcount : chain.length = parts.length := by
      rw [hchain] at hvalid ⊢
      exact length_resolveFrom hvalid
    have hall : chain.map Node.region = parts.map Part.region :=
      hregions.eq_of_length (by simpa using hcount)
    have hhead := congrArg (·.head?.map Region.start) hall
    have hlast := congrArg (·.getLast?.map Region.stop) hall
    simp only [List.head?_map, List.getLast?_map, Option.map_map] at hhead hlast
    refine ⟨hcount,hhead.trans (Path.split_start path),hlast.trans (Path.split_stop hlen),?_⟩
    intro i hc hp
    rw [hregion i (by omega) (by omega),hregion (i + 1) hc hp]
    exact List.isChain_iff_getElem.mp (Path.split_tiles hlen) i hp

theorem resolve_follows_split_covers :
    let path := "covers[\"BASE\"].sum"
    path ≠ "" ∧ path.utf8ByteSize ≤ Region.limit ∧
      (∀ node ∈ resolve sampleEnvironment path, node.isInvalid = false) ∧
      (resolve sampleEnvironment path).length = (Path.split path).length ∧
      (resolve sampleEnvironment path).getLast?.map (·.region.stop) = some path.utf8ByteSize := by
  intro path
  have hne : path ≠ "" := by decide
  have hlen : path.utf8ByteSize ≤ Region.limit := by decide
  have hvalid : ∀ node ∈ resolve sampleEnvironment path, node.isInvalid = false := by
    decide +kernel
  have hcover := (resolve_follows_split sampleEnvironment hne hlen).2.2.2.2.2.2 hvalid
  exact ⟨hne,hlen,hvalid,hcover.1,hcover.2.2.1⟩

end FormulaPath
