import FormulaPath.Hover
import FormulaPath.Proofs.Chain
import FormulaPath.Proofs.LinePaths

/-!
# The node that is shown for an offset

The regions of a chain lie one behind the other with at most a dot between them (`Region.Adjoins`),
from the start of the path up to the last node. Hence every offset of the path is inside a region or
at the end of one, unless it lies behind an invalid node. An offset at which one region ends and the
next begins belongs to both, and there the search stops at the first of them.
-/
namespace FormulaPath

namespace Region

/-- The region `r` lies in front of the region `s`, which ends further on unless `r` already ends at
the largest offset. -/
structure Precedes (r s : Region) : Prop where
  stop_le_start : r.stop ≤ s.start
  stop_lt : r.stop < limit → r.stop < s.stop

/-- The region `s` comes next behind the region `r`, with at most one byte between them. -/
structure Adjoins (r s : Region) : Prop extends Precedes r s where
  start_le : s.start ≤ r.stop + 1

instance : IsTrans Region Precedes where
  trans r s t hrs hst := by
    have hs := s.start_le_stop
    have ht := t.start_le_stop
    have hrs' := hrs.stop_le_start
    have hst' := hst.stop_le_start
    refine ⟨by omega,fun hlimit => ?_⟩
    have := hrs.stop_lt hlimit
    omega

theorem contains_iff {r : Region} {offset : Nat} :
    r.contains offset = true ↔ r.start ≤ offset ∧ offset < r.stop := by
  have hlimit := r.stop_le_limit
  simp only [contains, Bool.and_eq_true, decide_eq_true_eq]
  unfold clamp
  omega

theorem shift_of_le {r : Region} {delta : Nat} (h : r.stop + delta ≤ limit) :
    ∃ s, r.shift delta = .ok s ∧ s.start = r.start + delta ∧ s.stop = r.stop + delta := by
  have hclamp : clamp delta = delta := clamp_of_le (by omega)
  refine ⟨_,dif_pos (by rwa [hclamp]),?_,?_⟩ <;> simp only [hclamp]

/-- Regions of different ends stay different when they are moved. -/
theorem stop_eq_of_shift {r s t : Region} {delta : Nat} (hr : r.shift delta = .ok t)
    (hs : s.shift delta = .ok t) : r.stop = s.stop := by
  unfold shift at hr hs
  split_ifs at hr hs
  have hstop := congrArg stop (Except.ok.inj (hr.trans hs.symm))
  exact Nat.add_right_cancel hstop

/-- Among regions that adjoin, an offset between the first start and the last end is inside one of
them or at its end. -/
theorem exists_touching {rs : List Region} {offset : Nat} (hne : rs ≠ [])
    (hadjoin : rs.IsChain Adjoins) (hstart : ∀ r ∈ rs.head?, r.start ≤ offset)
    (hstop : ∀ r ∈ rs.getLast?, offset ≤ r.stop) :
    ∃ r ∈ rs, r.start ≤ offset ∧ offset ≤ r.stop := by
  induction rs with
  | nil => exact absurd rfl hne
  | cons r rs ih =>
      by_cases hr : offset ≤ r.stop
      · exact ⟨r,List.mem_cons_self,hstart r rfl,hr⟩
      · cases rs with
        | nil => exact absurd (hstop r rfl) hr
        | cons s rs =>
            rw [List.isChain_cons_cons] at hadjoin
            have hnext : ∀ t ∈ (s :: rs).head?, t.start ≤ offset := by
              intro t ht
              obtain rfl := Option.some.inj ht
              have hgap := hadjoin.1.start_le
              omega
            rw [List.getLast?_cons_cons] at hstop
            obtain ⟨t,ht,hoffset⟩ := ih (by simp) hadjoin.2 hnext hstop
            exact ⟨t,List.mem_cons_of_mem r ht,hoffset⟩

end Region

theorem split_adjoins (path : String) :
    ((Path.split path).map Part.region).IsChain Region.Adjoins := by
  rw [List.isChain_map,List.isChain_iff_forall_rel_of_append_cons_cons]
  intro p q init later h
  obtain ⟨stop,hp,hq,hpos,-⟩ := Path.split_consecutive h
  have hwidth : q.separator.width ≤ 1 := by cases q.separator <;> simp [Separator.width]
  rw [hq]
  refine ⟨⟨?_,?_⟩,?_⟩ <;>
    simp only [hp, Region.span_start, Region.span_stop, Region.clamp] <;> omega

section Chain
variable (env : Environment) (path : String)

/-- The regions of a chain are those of the first parts of its path. -/
theorem map_region_resolve :
    (resolve env path).map Node.region <+: (Path.split path).map Part.region := by
  by_cases hne : path = ""
  · subst hne
    rw [Path.split_empty]
    exact List.prefix_rfl
  · rw [resolve_eq hne]
    exact map_region_resolveFrom env [] _

theorem resolve_adjoins : ((resolve env path).map Node.region).IsChain Region.Adjoins := by
  obtain ⟨later,hparts⟩ := map_region_resolve env path
  have hsplit := split_adjoins path
  rw [← hparts] at hsplit
  exact hsplit.left_of_append

theorem resolve_precedes :
    (resolve env path).Pairwise fun n m => n.region.Precedes m.region := by
  have hchain := (resolve_adjoins env path).imp fun _ _ => Region.Adjoins.toPrecedes
  rw [List.isChain_iff_pairwise,List.pairwise_map] at hchain
  exact hchain

theorem stop_le_of_mem_resolve {node : Node} (h : node ∈ resolve env path) :
    node.region.stop ≤ path.utf8ByteSize := by
  have hmem := (map_region_resolve env path).subset (List.mem_map_of_mem h)
  obtain ⟨part,hpart,hregion⟩ := List.mem_map.mp hmem
  rw [← hregion]
  exact Path.stop_le_of_mem_split hpart

theorem resolve_start : ∀ r ∈ ((resolve env path).map Node.region).head?, r.start = 0 := by
  intro r hr
  have hfirst : ((Path.split path).map Part.region).head?.map Region.start = some 0 := by
    rw [List.head?_map,Option.map_map]
    exact Path.split_start path
  obtain ⟨later,hparts⟩ := map_region_resolve env path
  rw [← hparts,List.head?_append,Option.mem_def.mp hr] at hfirst
  exact Option.some.inj hfirst

/-- A chain reaches the end of its path or ends in an invalid node. -/
theorem exists_last_of_resolve (hlen : path.utf8ByteSize ≤ Region.limit) :
    ∃ last, (resolve env path).getLast? = some last ∧
      (last.region.stop = path.utf8ByteSize ∨ last.isInvalid = true) := by
  by_cases hshort : (resolve env path).length < (Path.split path).length
  · have hne : path ≠ "" := by
      rintro rfl
      simp [resolve, Path.split_empty] at hshort
    rw [resolve_eq hne] at hshort ⊢
    obtain ⟨last,hlast,hinvalid⟩ := last_invalid_of_length_lt hshort
    exact ⟨last,hlast,Or.inr hinvalid⟩
  · have hregions := map_region_resolve env path
    have hall := hregions.eq_of_length_le (by simpa using hshort)
    have hstop := congrArg (·.getLast?.map Region.stop) hall
    simp only [List.getLast?_map, Option.map_map] at hstop
    obtain ⟨last,hlast,hend⟩ := Option.map_eq_some_iff.mp (hstop.trans (Path.split_stop hlen))
    exact ⟨last,hlast,Or.inl hend⟩

end Chain

namespace Hover

/-- What is shown is the node of a path that starts at an offset of the line. -/
structure Shows (shown : Hover) (start : Nat) (node : Node) : Prop where
  contents : shown.contents = describe node.meaning
  region : node.region.shift start = .ok shown.region
  datatype : shown.datatype = node.datatype?
  problem : shown.problem = node.problem?

theorem touches_iff {node : Node} {offset : Nat} :
    touches node offset = true ↔ node.region.start ≤ offset ∧ offset ≤ node.region.stop := by
  have hstart := node.region.start_le_stop
  simp only [touches, Bool.or_eq_true, Region.contains_iff, beq_iff_eq]
  omega

/-- The node for an offset of a path lies at the offset, or it is the invalid node at the end of the
chain and lies in front of the offset. -/
theorem nodeAt?_resolve (env : Environment) {path : String}
    (hlen : path.utf8ByteSize ≤ Region.limit) {offset : Nat}
    (hoffset : offset ≤ path.utf8ByteSize) :
    ∃ node ∈ resolve env path, nodeAt? (resolve env path) offset = some node ∧
      (node.region.start ≤ offset ∧ offset ≤ node.region.stop ∨
        (resolve env path).getLast? = some node ∧ node.isInvalid = true ∧
          node.region.stop < offset) := by
  cases hfind : (resolve env path).find? (touches · offset) with
  | some node =>
      refine ⟨node,List.mem_of_find?_eq_some hfind,by simp [nodeAt?, hfind],Or.inl ?_⟩
      have htouches := List.find?_some hfind
      exact touches_iff.mp htouches
  | none =>
      obtain ⟨last,hlast,hend⟩ := exists_last_of_resolve env path hlen
      have hbehind : last.region.stop < offset := by
        by_contra hle
        have hstart : ∀ r ∈ ((resolve env path).map Node.region).head?, r.start ≤ offset := by
          intro r hr
          simp [resolve_start env path r hr]
        have hstop : ∀ r ∈ ((resolve env path).map Node.region).getLast?, offset ≤ r.stop := by
          intro r hr
          rw [List.getLast?_map,hlast] at hr
          cases hr
          omega
        obtain ⟨r,hr,hplace⟩ := Region.exists_touching (by simp [resolve_ne_nil env path])
          (resolve_adjoins env path) hstart hstop
        obtain ⟨node,hnode,rfl⟩ := List.mem_map.mp hr
        exact List.find?_eq_none.mp hfind node hnode (touches_iff.mpr hplace)
      exact ⟨last,List.mem_of_getLast? hlast,by simp [nodeAt?, hfind, hlast],
        Or.inr ⟨hlast,hend.resolve_left (by omega),hbehind⟩⟩

/-- A node at an offset is found if all nodes in front of it end before the offset. -/
theorem nodeAt?_of_first {chain : List Node} {i offset : Nat} (hi : i < chain.length)
    (htouches : touches chain[i] offset = true)
    (hfront : ∀ k (hk : k < i), chain[k].region.stop < offset) :
    nodeAt? chain offset = some chain[i] := by
  have hfind : chain.find? (touches · offset) = some chain[i] := by
    rw [List.find?_eq_some_iff_getElem]
    refine ⟨htouches,i,hi,rfl,fun k hk => ?_⟩
    have hbefore := hfront k hk
    rw [Bool.not_eq_true',Bool.eq_false_iff,Ne,touches_iff]
    omega
  simp [nodeAt?, hfind]

/-- Where two regions touch at an offset the search stops at the first: the node that contains an
offset is found unless the node in front of it ends there, and then that one is found. -/
theorem nodeAt?_of_contains {chain : List Node} {i offset : Nat} {node : Node}
    (horder : chain.Pairwise fun n m => n.region.Precedes m.region)
    (hnode : chain[i]? = some node) (hcontains : node.region.contains offset = true) :
    ∃ j found, nodeAt? chain offset = some found ∧ chain[j]? = some found ∧
      (j = i ∧ (∀ k previous, k + 1 = i → chain[k]? = some previous →
        previous.region.stop ≠ offset) ∨
      j + 1 = i ∧ found.region.stop = offset) := by
  obtain ⟨hi,rfl⟩ := List.getElem?_eq_some_iff.mp hnode
  obtain ⟨hstart,hstop⟩ := Region.contains_iff.mp hcontains
  have hlimit := chain[i].region.stop_le_limit
  have hprecedes := List.pairwise_iff_getElem.mp horder
  by_cases hend : ∃ k previous, k + 1 = i ∧ chain[k]? = some previous ∧
      previous.region.stop = offset
  · obtain ⟨k,previous,rfl,hprevious,hstop'⟩ := hend
    obtain ⟨hk,rfl⟩ := List.getElem?_eq_some_iff.mp hprevious
    refine ⟨k,chain[k],nodeAt?_of_first hk ?_ ?_,hprevious,Or.inr ⟨rfl,hstop'⟩⟩
    · have := chain[k].region.start_le_stop
      rw [touches_iff]
      omega
    · intro l hl
      have hbefore := hprecedes l k (by omega) hk hl
      have hle := hbefore.stop_le_start
      have hlt := hbefore.stop_lt
      have := chain[k].region.start_le_stop
      omega
  · push Not at hend
    refine ⟨i,chain[i],nodeAt?_of_first hi (touches_iff.mpr ⟨hstart,hstop.le⟩) ?_,hnode,
      Or.inl ⟨rfl,hend⟩⟩
    intro l hl
    have hle := (hprecedes l i (by omega) hi hl).stop_le_start
    by_cases hdirect : l + 1 = i
    · have hne := hend l chain[l] hdirect (List.getElem?_eq_getElem _)
      omega
    · -- Only the node directly in front can end at the offset: any other is followed by one that
      -- ends further on, and still in front of the node that contains the offset.
      have hnext := (hprecedes l (l + 1) (by omega) (by omega) (by omega)).stop_lt
      have hle' := (hprecedes (l + 1) i (by omega) hi (by omega)).stop_le_start
      omega

end Hover

section Line
variable [Text.NameClass] (env : Environment) {line text : String} {offset start : Nat}
  {node : Node}

theorem hover_of_none (h : Line.pathAt? line offset = none) : hover env line offset = .ok none := by
  simp [hover, h]

theorem hover_of_path (hpath : Line.pathAt? line offset = some (start, text))
    (hnode : Hover.nodeAt? (resolve env text) (offset - start) = some node) :
    hover env line offset = (node.region.shift start).map fun region =>
      some ⟨Hover.describe node.meaning, region, node.datatype?, node.problem?⟩ := by
  have hstart := (Line.pathAt?_bounds hpath).1
  simp only [hover, hpath, distance, if_pos hstart, bind, Except.bind, hnode]
  cases node.region.shift start <;> rfl

theorem hover_shows (hpath : Line.pathAt? line offset = some (start, text))
    (hnode : Hover.nodeAt? (resolve env text) (offset - start) = some node) {shown : Hover}
    (h : hover env line offset = .ok (some shown)) : shown.Shows start node := by
  rw [hover_of_path env hpath hnode] at h
  cases hshift : node.region.shift start with
  | error fault => simp [hshift, Except.map] at h
  | ok region =>
      rw [hshift] at h
      cases h
      exact ⟨rfl,hshift,rfl,rfl⟩

/-- In a line whose offsets can be held, a node is shown at its place in the line. -/
theorem hover_of_mem (hlen : line.utf8ByteSize ≤ Region.limit)
    (hpath : Line.pathAt? line offset = some (start, text)) (hmem : node ∈ resolve env text)
    (hnode : Hover.nodeAt? (resolve env text) (offset - start) = some node) :
    ∃ shown, hover env line offset = .ok (some shown) ∧ shown.Shows start node ∧
      shown.region.start = start + node.region.start ∧
      shown.region.stop = start + node.region.stop ∧
      shown.region.stop ≤ line.utf8ByteSize := by
  obtain ⟨-,-,hline⟩ := Line.pathAt?_bounds hpath
  have hstop := stop_le_of_mem_resolve env text hmem
  have hfits : node.region.stop + start ≤ Region.limit := by omega
  obtain ⟨region,hshift,hregionStart,hregionStop⟩ := Region.shift_of_le hfits
  have hshown := hover_of_path env hpath hnode
  rw [hshift] at hshown
  refine ⟨_,hshown,hover_shows env hpath hnode hshown,?_⟩
  simp only
  omega

/-- At every offset of a path something is shown: a node at the offset, or the invalid node that
ends the chain in front of it. -/
theorem exists_hover (hlen : line.utf8ByteSize ≤ Region.limit)
    (hpath : Line.pathAt? line offset = some (start, text)) :
    ∃ shown, hover env line offset = .ok (some shown) ∧ ∃ node ∈ resolve env text,
      shown.Shows start node ∧ shown.region.start = start + node.region.start ∧
      shown.region.stop = start + node.region.stop ∧
      shown.region.stop ≤ line.utf8ByteSize ∧
      (shown.region.start ≤ offset ∧ offset ≤ shown.region.stop ∨
        (resolve env text).getLast? = some node ∧ node.isInvalid = true ∧
          shown.region.stop < offset) := by
  obtain ⟨hstart,hstop,hline⟩ := Line.pathAt?_bounds hpath
  have hlen' : text.utf8ByteSize ≤ Region.limit := by omega
  have hoffset : offset - start ≤ text.utf8ByteSize := by omega
  obtain ⟨node,hmem,hnode,hplace⟩ := Hover.nodeAt?_resolve env hlen' hoffset
  obtain ⟨shown,hshown,hshows,hfirst,hlast,hinside⟩ := hover_of_mem env hlen hpath hmem hnode
  refine ⟨shown,hshown,node,hmem,hshows,hfirst,hlast,hinside,?_⟩
  rcases hplace with hplace | ⟨hend,hinvalid,hbehind⟩
  · left
    omega
  · exact Or.inr ⟨hend,hinvalid,by omega⟩

end Line

/-- Hover answers exactly where there is a path, and it tells the truth about the place: it shows a
node of the path's chain, within the line, and the offset is inside the region that it marks or at
an end of it, unless it lies behind the invalid node that ends the chain. Then the problem of this
node is told. -/
theorem hover_tells_position [Text.NameClass] (env : Environment) {line : String}
    (hlen : line.utf8ByteSize ≤ Region.limit) (offset : Nat) :
    (hover env line offset = .ok none ↔ Line.pathAt? line offset = none) ∧
    ∀ start text, Line.pathAt? line offset = some (start, text) →
      ∃ shown, hover env line offset = .ok (some shown) ∧
        (∃ node ∈ resolve env text, shown.region.start = start + node.region.start ∧
          shown.region.stop = start + node.region.stop) ∧
        shown.region.stop ≤ line.utf8ByteSize ∧
        (shown.region.start ≤ offset ∧ offset ≤ shown.region.stop ∨
          ∃ problem, chainProblem? (resolve env text) = some problem ∧
            shown.problem = some problem ∧ shown.region.stop < offset) := by
  refine ⟨⟨fun hnone => ?_,hover_of_none env⟩,?_⟩
  · cases hpath : Line.pathAt? line offset with
    | none => rfl
    | some path =>
        obtain ⟨shown,hshown,-⟩ := exists_hover env hlen hpath
        rw [hnone] at hshown
        cases hshown
  · intro start text hpath
    obtain ⟨shown,hshown,node,hmem,hshows,hfirst,hlast,hinside,hplace⟩ :=
      exists_hover env hlen hpath
    refine ⟨shown,hshown,⟨node,hmem,hfirst,hlast⟩,hinside,?_⟩
    rcases hplace with hplace | ⟨hend,hinvalid,hbehind⟩
    · exact Or.inl hplace
    · obtain ⟨problem,hproblem⟩ := Option.isSome_iff_exists.mp hinvalid
      refine Or.inr ⟨problem,?_,hshows.problem.trans hproblem,hbehind⟩
      rw [chainProblem?,hend,Option.bind_some,hproblem]

theorem hover_tells_position_covers :
    let line := "2 * covers[0].none.sum"
    let path := "covers[0].none.sum"
    line.utf8ByteSize ≤ Region.limit ∧ Line.pathAt? line 20 = some (4, path) ∧
      ∃ shown, hover sampleEnvironment line 20 = .ok (some shown) ∧
        shown.problem = chainProblem? (resolve sampleEnvironment path) ∧
        shown.region.stop < 20 := by
  intro line path
  have hlen : line.utf8ByteSize ≤ Region.limit := by decide
  have hpath : Line.pathAt? line 20 = some (4, path) := by decide +kernel
  have hregion : (hover sampleEnvironment line 20).map (·.map (·.region.stop)) =
      .ok (some 18) := by decide +kernel
  obtain ⟨shown,hshown,-,-,hplace⟩ :=
    (hover_tells_position sampleEnvironment hlen 20).2 4 path hpath
  have hstop : shown.region.stop = 18 := by simpa [hshown, Except.map] using hregion
  refine ⟨hlen,hpath,shown,hshown,?_⟩
  rcases hplace with hplace | ⟨problem,hchain,hproblem,hbehind⟩
  · omega
  · exact ⟨hproblem.trans hchain.symm,hbehind⟩

/-- A node that contains the offset is shown unless the node in front of it ends at the offset. Then
the one in front is shown. -/
theorem hover_container_iff [Text.NameClass] (env : Environment) {line text : String}
    {offset start i : Nat} {node : Node} (hpath : Line.pathAt? line offset = some (start, text))
    (hnode : (resolve env text)[i]? = some node)
    (hcontains : node.region.contains (offset - start) = true) :
    (line.utf8ByteSize ≤ Region.limit → ∃ shown, hover env line offset = .ok (some shown)) ∧
    ∀ shown, hover env line offset = .ok (some shown) →
      (node.region.shift start = .ok shown.region ↔
        ∀ k previous, k + 1 = i → (resolve env text)[k]? = some previous →
          previous.region.stop ≠ offset - start) ∧
      ∃ j found, (resolve env text)[j]? = some found ∧ shown.Shows start found ∧
        (j = i ∨ j + 1 = i ∧ found.region.stop = offset - start) := by
  constructor
  · intro hlen
    obtain ⟨shown,hshown,-⟩ := exists_hover env hlen hpath
    exact ⟨shown,hshown⟩
  · intro shown hshown
    obtain ⟨j,found,hat,hfound,hcases⟩ :=
      Hover.nodeAt?_of_contains (resolve_precedes env text) hnode hcontains
    have hshows := hover_shows env hpath hat hshown
    rcases hcases with ⟨rfl,hclear⟩ | ⟨hj,hstop⟩
    · obtain rfl := Option.some.inj (hfound.symm.trans hnode)
      exact ⟨iff_of_true hshows.region hclear,j,found,hfound,hshows,Or.inl rfl⟩
    · refine ⟨iff_of_false ?_ ?_,j,found,hfound,hshows,Or.inr ⟨hj,hstop⟩⟩
      · intro hshift
        have hsame := Region.stop_eq_of_shift hshift hshows.region
        have hinside := (Region.contains_iff.mp hcontains).2
        omega
      · intro hclear
        exact hclear j found hj hfound hstop

theorem hover_container_covers :
    let line := "2 * covers[\"BASE\"]"
    let path := "covers[\"BASE\"]"
    let node : Node := ⟨Region.span 6 8, .resolved
      (.qualifier "BASE" "base.1" ⟨"BASE", "BASE", some "base.1", "CoverType", none⟩)
      (.list (.policy "Cover"))⟩
    Line.pathAt? line 11 = some (4, path) ∧ (resolve sampleEnvironment path)[1]? = some node ∧
      node.region.contains (11 - 4) = true ∧
      ∃ shown, hover sampleEnvironment line 11 = .ok (some shown) ∧
        node.region.shift 4 = .ok shown.region := by
  intro line path node
  have hpath : Line.pathAt? line 11 = some (4, path) := by decide +kernel
  have hnode : (resolve sampleEnvironment path)[1]? = some node := by decide +kernel
  have hcontains : node.region.contains (11 - 4) = true := by decide
  have hfirst : (resolve sampleEnvironment path)[0]?.map (·.region.stop) = some 6 := by
    decide +kernel
  obtain ⟨hanswer,hshown⟩ := hover_container_iff sampleEnvironment hpath hnode hcontains
  obtain ⟨shown,h⟩ := hanswer (by decide)
  refine ⟨hpath,hnode,hcontains,shown,h,(hshown shown h).1.mpr ?_⟩
  intro k previous hk hprevious
  obtain rfl : k = 0 := by omega
  rw [hprevious,Option.map_some,Option.some.injEq] at hfirst
  omega

/-- In front of a bracket the name is shown, although the offset lies in the region of the bracket
and behind that of the name. -/
theorem hover_in_front_of_bracket :
    let line := "covers[0]"
    Line.pathAt? line 6 = some (0, line) ∧
      (resolve sampleEnvironment line)[1]?.map (·.region) = some (Region.span 6 3) ∧
      (Region.span 6 3).contains (6 - 0) = true ∧
      (hover sampleEnvironment line 6).map (·.map (·.region)) = .ok (some (Region.span 0 6)) := by
  decide +kernel

end FormulaPath
