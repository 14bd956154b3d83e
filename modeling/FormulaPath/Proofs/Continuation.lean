import FormulaPath.Proofs.Terminated
import Mathlib.Data.List.Forall2

/-!
# What can follow a path

A part is read in the light of the nodes in front of it. `SameForNames` and `Alike` say how little
of them it sees: for a name only the type of the latest node and the enumeration it may stand for,
for a bracket also the association it belongs to and whether the path was list valued before that.
The rules decide alike behind trails that are alike (`Alike.meaning?_eq`), and a step keeps them
alike (`Alike.cons`); hence whole paths go on alike. A name behind a dot makes trails alike that
only agree for names, because no bracket behind it can reach past it.

Nothing that follows changes the parts and the nodes in front of it, unless a bracket is still open
there.
-/
namespace FormulaPath
open FormulaPath.Path

namespace Trail

/-- What a bracket sees of the nodes in front of it: its association, and whether the path was list
valued before that. -/
def bracketScope (trail : Trail) : Option (Association × Bool) :=
  trail.association?.map fun found => (found.1, isList found.2)

theorem isListBefore_eq (trail : Trail) : trail.isListBefore = trail.bracketScope.any (·.2) := by
  unfold isListBefore bracketScope
  cases trail.association? <;> rfl

end Trail

/-- Two trails that no name can tell apart. -/
structure SameForNames (env : Environment) (t u : Trail) : Prop where
  start : t.isEmpty = u.isEmpty
  current : t.currentType? env = u.currentType? env
  list : t.isList = u.isList
  enumeration : t.enumClass? = u.enumClass?

/-- Two trails that no part can tell apart. -/
structure Alike (t u : Trail) : Prop where
  latest : t.head?.map Node.meaning = u.head?.map Node.meaning
  scope : t.bracketScope = u.bracketScope

section Rules
variable {env : Environment} {t u : Trail} {text : String} {m n : Node}

theorem SameForNames.meaning?_eq (h : SameForNames env t u) {rule : Rule}
    (hrule : rule = .bracket → isBracketText text = false) :
    rule.meaning? env t text = rule.meaning? env u text := by
  have hmembers : t.memberType? env = u.memberType? env := by
    rw [Trail.memberType?,Trail.memberType?,h.current]
  cases rule with
  | param => simp [Rule.meaning?, Rule.paramMeaning?, h.start]
  | attr => simp [Rule.meaning?, Rule.attrMeaning?, hmembers, h.list]
  | assoc => simp [Rule.meaning?, Rule.assocMeaning?, hmembers, h.list]
  | enumeration => simp [Rule.meaning?, Rule.enumMeaning?, h.start, h.enumeration]
  | bracket => simp [Rule.meaning?, Rule.bracketMeaning?, hrule rfl]

theorem sameForNames_cons (h : m.meaning = n.meaning) : SameForNames env (m :: t) (n :: u) where
  start := rfl
  current := by simp [Trail.currentType?, Node.datatype?, h]
  list := by simp [Trail.isList, Node.isList, Node.datatype?, h]
  enumeration := by simp [Trail.enumClass?, Node.referent?, h]

theorem Alike.sameForNames (env : Environment) (h : Alike t u) : SameForNames env t u := by
  have hlatest := h.latest
  cases t with
  | nil =>
      cases u with
      | nil => exact ⟨rfl,rfl,rfl,rfl⟩
      | cons n u => simp at hlatest
  | cons m t =>
      cases u with
      | nil => simp at hlatest
      | cons n u => exact sameForNames_cons (by simpa using hlatest)

theorem Alike.indexMeaning?_eq (h : Alike t u) (a : Association) (position : Nat) :
    Rule.indexMeaning? t a text position = Rule.indexMeaning? u a text position := by
  have hlatest := h.latest
  cases t with
  | nil => cases u <;> simp at hlatest ⊢
  | cons m t =>
      cases u with
      | nil => simp at hlatest
      | cons n u =>
          have hmeaning : m.meaning = n.meaning := by simpa using hlatest
          have hallows : Rule.allowsIndex a m = Rule.allowsIndex a n := by
            simp only [Rule.allowsIndex, Node.referent?, Node.isList, Node.datatype?, hmeaning]
          simp [Rule.indexMeaning?, hallows, Node.datatype?, hmeaning]

theorem Alike.bracketMeaning?_eq (h : Alike t u) :
    Rule.bracketMeaning? env t text = Rule.bracketMeaning? env u text := by
  have hscope := h.scope
  have hbefore : t.isListBefore = u.isListBefore := by
    rw [Trail.isListBefore_eq,Trail.isListBefore_eq,hscope]
  unfold Trail.bracketScope at hscope
  unfold Rule.bracketMeaning?
  cases ht : t.association? with
  | none =>
      cases hu : u.association? with
      | none => rfl
      | some found => simp [ht, hu] at hscope
  | some found =>
      cases hu : u.association? with
      | none => simp [ht, hu] at hscope
      | some other =>
          simp only [ht, hu, Option.map_some, Option.some.injEq, Prod.mk.injEq] at hscope
          simp [hscope.1, h.indexMeaning?_eq, Rule.qualifierMeaning, Rule.selected?, hbefore]

/-- The rules decide alike behind trails that are alike. -/
theorem Alike.meaning?_eq (env : Environment) (h : Alike t u) (rule : Rule) :
    rule.meaning? env t text = rule.meaning? env u text := by
  by_cases hrule : rule = .bracket
  · rw [hrule]
    exact h.bracketMeaning?_eq
  · exact (h.sameForNames env).meaning?_eq fun hbracket => absurd hbracket hrule

theorem partMeaning_congr {p q : Part} (htext : p.text = q.text) (hsep : p.separator = q.separator)
    (hrules : ∀ rule : Rule, rule.meaning? env t p.text = rule.meaning? env u p.text) :
    partMeaning env t p = partMeaning env u q := by
  unfold partMeaning Rule.decide?
  rw [← htext,← hsep]
  simp only [hrules]

/-- A step keeps trails alike: a bracket behind it sees the same association, and in front of that
the same kind of path. -/
theorem Alike.cons (hmeaning : m.meaning = n.meaning) (hlist : t.isList = u.isList)
    (hscope : m.category? = some .qualifier → t.bracketScope = u.bracketScope) :
    Alike (m :: t) (n :: u) where
  latest := by simp [hmeaning]
  scope := by
    have hreferent : n.referent? = m.referent? := by simp [Node.referent?, hmeaning]
    unfold Trail.bracketScope
    rw [Trail.association?,Trail.association?,hreferent]
    cases hr : m.referent? with
    | none => rfl
    | some r =>
        cases r with
        | assoc a => simp [hlist]
        | qualifier name runtimeId component =>
            exact hscope (by simp [Node.category?, hr, Referent.category])
        | _ => rfl

end Rules

/-- A region and another one that lie equally far behind two offsets. -/
def Region.Parallel (left right : Nat) (r s : Region) : Prop :=
  r.start + right = s.start + left ∧ r.stop + right = s.stop + left

/-- The same part of two texts, at places that lie equally far behind two offsets. -/
structure Part.Parallel (left right : Nat) (p q : Part) : Prop where
  text : p.text = q.text
  separator : p.separator = q.separator
  region : Region.Parallel left right p.region q.region

/-- Two nodes with one meaning, at places that lie equally far behind two offsets. -/
structure Node.Parallel (left right : Nat) (m n : Node) : Prop where
  meaning : m.meaning = n.meaning
  region : Region.Parallel left right m.region n.region

section Runs
variable {env : Environment} {t u : Trail} {left right : Nat}

theorem isInvalid_congr {m n : Node} (h : m.meaning = n.meaning) : m.isInvalid = n.isInvalid := by
  simp [Node.isInvalid, Node.problem?, h]

/-- One part: behind the same meaning the chains end or go on together. -/
theorem resolveFrom_cons_parallel {p q : Part} {ps qs : List Part} (hpq : p.Parallel left right q)
    (hmeaning : partMeaning env t p = partMeaning env u q)
    (hrest : (partNode env t p).isInvalid = false →
      List.Forall₂ (Node.Parallel left right) (resolveFrom env (partNode env t p :: t) ps)
        (resolveFrom env (partNode env u q :: u) qs)) :
    List.Forall₂ (Node.Parallel left right) (resolveFrom env t (p :: ps))
      (resolveFrom env u (q :: qs)) := by
  have hnode : Node.Parallel left right (partNode env t p) (partNode env u q) :=
    ⟨hmeaning,hpq.region⟩
  cases hvalid : (partNode env t p).isInvalid with
  | true =>
      have hvalid' := (isInvalid_congr hnode.meaning).symm.trans hvalid
      rw [resolveFrom_cons_invalid hvalid,resolveFrom_cons_invalid hvalid']
      exact .cons hnode .nil
  | false =>
      have hvalid' := (isInvalid_congr hnode.meaning).symm.trans hvalid
      rw [resolveFrom_cons_valid hvalid,resolveFrom_cons_valid hvalid']
      exact .cons hnode (hrest hvalid)

/-- Behind trails that are alike the same parts give the same chain. -/
theorem Alike.resolveFrom (h : Alike t u) {ps qs : List Part}
    (hparts : List.Forall₂ (Part.Parallel left right) ps qs) :
    List.Forall₂ (Node.Parallel left right) (resolveFrom env t ps) (resolveFrom env u qs) := by
  induction hparts generalizing t u with
  | nil => exact .nil
  | cons hpq _ ih =>
      have hmeaning := partMeaning_congr hpq.text hpq.separator fun rule => h.meaning?_eq env rule
      apply resolveFrom_cons_parallel hpq hmeaning
      intro _
      exact ih (.cons hmeaning (h.sameForNames env).list fun _ => h.scope)

/-- A name that comes next makes trails alike that only agree for names. -/
theorem SameForNames.resolveFrom (h : SameForNames env t u) {p q : Part} {ps qs : List Part}
    (hname : isBracketText p.text = false) (hpq : p.Parallel left right q)
    (hparts : List.Forall₂ (Part.Parallel left right) ps qs) :
    List.Forall₂ (Node.Parallel left right) (resolveFrom env t (p :: ps))
      (resolveFrom env u (q :: qs)) := by
  have hmeaning := partMeaning_congr hpq.text hpq.separator fun rule =>
    h.meaning?_eq fun _ => hname
  apply resolveFrom_cons_parallel hpq hmeaning
  intro hvalid
  obtain ⟨-,rule,r,d,hnode,hdenotes⟩ := denotes_of_partNode hvalid
  -- Only a qualifier would pass on what brackets see of the trails, and a name is none.
  refine Alike.resolveFrom (.cons hmeaning h.list fun hqualifier => ?_) hparts
  rw [hnode] at hqualifier
  cases hdenotes with
  | index hbracket => simp [hbracket] at hname
  | qualifier hbracket => simp [hbracket] at hname
  | _ => cases hqualifier

end Runs

section Places
variable {left right : Nat}

theorem parallel_span {start stop width : Nat} (h : start + right = stop + left)
    (hstart : start + width ≤ Region.limit) (hstop : stop + width ≤ Region.limit) :
    Region.Parallel left right (Region.span start width) (Region.span stop width) := by
  unfold Region.Parallel
  simp only [Region.span_start, Region.span_stop]
  rw [Region.clamp_of_le (by omega),Region.clamp_of_le (by omega),Region.clamp_of_le hstart,
    Region.clamp_of_le hstop]
  omega

/-- The parts of a text do not depend on where it starts, up to their places. -/
theorem splitFrom_parallel {sep : Separator} {start other : Nat} {cs : List Char}
    (h : start + right = other + left) (hstart : start + Text.bytes cs ≤ Region.limit)
    (hother : other + Text.bytes cs ≤ Region.limit) :
    List.Forall₂ (Part.Parallel left right) (splitFrom sep start cs) (splitFrom sep other cs) := by
  induction hlen : cs.length using Nat.strong_induction_on generalizing sep start other cs with
  | _ n ih =>
      cases hrest : (takePart cs).2 with
      | nil =>
          rw [splitFrom_last hrest,splitFrom_last hrest]
          exact .cons ⟨rfl,rfl,parallel_span h hstart hother⟩ .nil
      | cons c rest =>
          have happ := takePart_append cs
          rw [hrest,← Separator.ofChar_text_append c rest] at happ
          have hbytes := congrArg Text.bytes happ
          simp only [Text.bytes_append, Separator.bytes_text] at hbytes
          rw [splitFrom_next hrest,splitFrom_next hrest]
          refine .cons ⟨rfl,rfl,parallel_span h (by omega) (by omega)⟩ ?_
          exact ih _ (hlen ▸ length_next_lt hrest) (by omega) (by omega) (by omega) rfl

theorem isBracketText_of_head {sep : Separator} {start : Nat} {text : String} {part : Part}
    {later : List Part} (htext : isBracketText text = false)
    (h : splitFrom sep start text.toList = part :: later) : isBracketText part.text = false := by
  have hhead : text.toList.head? ≠ some '[' := by simpa [isBracketText] using htext
  exact Bool.eq_false_iff.mpr (mt (isBracket_of_splitFrom h).mp hhead)

end Places

theorem enumClass?_eq_none {m : Node} {t : Trail} (h : m.category? ≠ some .enumClass) :
    Trail.enumClass? (m :: t) = none := by
  unfold Node.category? at h
  rw [Trail.enumClass?]
  cases hr : m.referent? with
  | none => rfl
  | some r => cases r <;> simp_all [Referent.category]

/-- Behind paths that end in the same type, and in no enumeration, names see the same. -/
theorem sameForNames_of_type {env : Environment} {left right : List Node} (hleft : left ≠ [])
    (hright : right ≠ [])
    (htype : left.getLast?.bind Node.datatype? = right.getLast?.bind Node.datatype?)
    (henumLeft : left.getLast?.bind Node.category? ≠ some .enumClass)
    (henumRight : right.getLast?.bind Node.category? ≠ some .enumClass) :
    SameForNames env left.reverse right.reverse := by
  cases left using List.reverseRecOn with
  | nil => exact absurd rfl hleft
  | append_singleton left m =>
      cases right using List.reverseRecOn with
      | nil => exact absurd rfl hright
      | append_singleton right n =>
          simp only [List.getLast?_concat, Option.bind_some] at htype henumLeft henumRight
          rw [List.reverse_concat,List.reverse_concat]
          refine ⟨rfl,?_,?_,?_⟩
          · simp [Trail.currentType?, htype]
          · simp [Trail.isList, Node.isList, htype]
          · rw [enumClass?_eq_none henumLeft,enumClass?_eq_none henumRight]

/-- Behind a dot a path goes on by the type of its last node alone: of two paths that end in the
same type, and in no enumeration, the same continuation adds the same meanings, at places that lie
equally far behind the two paths. -/
theorem resolve_behind_dot (env : Environment) {left right rest : String} (hleft : left ≠ "")
    (hright : right ≠ "") (hvalidLeft : ∀ node ∈ resolve env left, node.isInvalid = false)
    (hvalidRight : ∀ node ∈ resolve env right, node.isInvalid = false)
    (htype : (resolve env left).getLast?.bind Node.datatype? =
      (resolve env right).getLast?.bind Node.datatype?)
    (henumLeft : (resolve env left).getLast?.bind Node.category? ≠ some .enumClass)
    (henumRight : (resolve env right).getLast?.bind Node.category? ≠ some .enumClass)
    (hopenLeft : endsOpen left = false) (hopenRight : endsOpen right = false)
    (hrest : isBracketText rest = false)
    (hlenLeft : (left ++ ("." ++ rest)).utf8ByteSize ≤ Region.limit)
    (hlenRight : (right ++ ("." ++ rest)).utf8ByteSize ≤ Region.limit) :
    ∃ addedLeft addedRight,
      resolve env (left ++ ("." ++ rest)) = resolve env left ++ addedLeft ∧
      resolve env (right ++ ("." ++ rest)) = resolve env right ++ addedRight ∧
      List.Forall₂ (Node.Parallel left.utf8ByteSize right.utf8ByteSize) addedLeft addedRight := by
  refine ⟨_,_,resolve_append hleft hvalidLeft (split_append_dot hopenLeft rest),
    resolve_append hright hvalidRight (split_append_dot hopenRight rest),?_⟩
  have hsame : SameForNames env (resolve env left).reverse (resolve env right).reverse :=
    sameForNames_of_type (resolve_ne_nil env left) (resolve_ne_nil env right) htype henumLeft
      henumRight
  simp only [String.utf8ByteSize_append] at hlenLeft hlenRight
  have hdot : ".".utf8ByteSize = 1 := rfl
  have hbytes := Text.bytes_toList rest
  have hparts : List.Forall₂ (Part.Parallel left.utf8ByteSize right.utf8ByteSize)
      (splitFrom .dot (left.utf8ByteSize + 1) rest.toList)
      (splitFrom .dot (right.utf8ByteSize + 1) rest.toList) :=
    splitFrom_parallel (by omega) (by omega) (by omega)
  cases hfirst : splitFrom .dot (left.utf8ByteSize + 1) rest.toList with
  | nil => exact absurd hfirst (splitFrom_ne_nil _ _ _)
  | cons p ps =>
      rw [hfirst] at hparts
      obtain ⟨q,qs,hpq,hrestParts,hq⟩ := List.forall₂_cons_left_iff.mp hparts
      rw [hq]
      exact hsame.resolveFrom (isBracketText_of_head hrest hfirst) hpq hrestParts

theorem resolve_behind_dot_covers :
    let left := "covers[0]"
    let right := "covers[0].parts[\"BASE\"]"
    let rest := "parts[\"BASE\"].sum.none"
    ∃ addedLeft addedRight,
      resolve sampleEnvironment (left ++ ("." ++ rest)) =
        resolve sampleEnvironment left ++ addedLeft ∧
      resolve sampleEnvironment (right ++ ("." ++ rest)) =
        resolve sampleEnvironment right ++ addedRight ∧
      addedLeft.map Node.meaning = addedRight.map Node.meaning := by
  intro left right rest
  obtain ⟨addedLeft,addedRight,hleft,hright,hadded⟩ :=
    @resolve_behind_dot sampleEnvironment left right rest (by decide) (by decide)
      (by decide +kernel) (by decide +kernel) (by decide +kernel) (by decide +kernel)
      (by decide +kernel) (by decide +kernel) (by decide +kernel) (by decide) (by decide)
      (by decide)
  refine ⟨addedLeft,addedRight,hleft,hright,?_⟩
  rw [← List.forall₂_eq_eq_eq,List.forall₂_map_left_iff,List.forall₂_map_right_iff]
  exact hadded.imp fun _ _ h => h.meaning

theorem split_prefix_append {path rest : String} (hclosed : endsOpen path = false)
    (hrest : rest.toList.head? = some '.' ∨ rest.toList.head? = some '[' ∧ lastText path ≠ "") :
    split path <+: split (path ++ rest) := by
  rcases hrest with hdot | ⟨hopen,hlast⟩
  · obtain ⟨more,hmore⟩ := List.head?_eq_some_iff.mp hdot
    have happ := splitFrom_append hclosed (c := '.') rfl (by simp) more
    rw [← hmore,← String.toList_append] at happ
    exact ⟨_,happ.symm⟩
  · rw [split_append_bracket hclosed hlast (by simp [isBracketText, hopen])]
    exact List.prefix_append _ _

/-- A path that goes on, by a dot or by a bracket behind a part that is not empty, keeps its parts
and its nodes, unless it ends inside a bracket. Behind an invalid node nothing is added. -/
theorem resolve_prefix_append (env : Environment) {path rest : String} (hne : path ≠ "")
    (hclosed : endsOpen path = false)
    (hrest : rest.toList.head? = some '.' ∨ rest.toList.head? = some '[' ∧ lastText path ≠ "") :
    split path <+: split (path ++ rest) ∧
      resolve env path <+: resolve env (path ++ rest) ∧
      ((∃ node, (resolve env path).getLast? = some node ∧ node.isInvalid = true) →
        resolve env (path ++ rest) = resolve env path) := by
  have hsplit := split_prefix_append hclosed hrest
  obtain ⟨more,hmore⟩ := hsplit
  have hlonger : path ++ rest ≠ "" := by simp [hne]
  have hinvalid : ∀ node ∈ resolve env path, node.isInvalid = true →
      resolve env (path ++ rest) = resolve env path := by
    intro node hnode hinvalid
    rw [resolve_eq hne] at hnode
    rw [resolve_eq hlonger,resolve_eq hne,← hmore]
    exact resolveFrom_append_of_invalid hnode hinvalid more
  refine ⟨⟨more,hmore⟩,?_,?_⟩
  · by_cases hvalid : ∀ node ∈ resolve env path, node.isInvalid = false
    · rw [resolve_append hne hvalid hmore.symm]
      exact List.prefix_append _ _
    · push Not at hvalid
      obtain ⟨node,hnode,hnot⟩ := hvalid
      have hsame := hinvalid node hnode (by simpa using hnot)
      exact ⟨[],by rw [List.append_nil,hsame]⟩
  · rintro ⟨node,hlast,hnode⟩
    exact hinvalid node (List.mem_of_getLast? hlast) hnode

theorem resolve_prefix_append_covers :
    let path := "covers[\"BASE\"]"
    let rest := "[0].sum"
    split path <+: split (path ++ rest) ∧
      resolve sampleEnvironment path <+: resolve sampleEnvironment (path ++ rest) ∧
      resolve sampleEnvironment ("covers.none" ++ ".sum") =
        resolve sampleEnvironment "covers.none" := by
  intro path rest
  have hgrows := @resolve_prefix_append sampleEnvironment path rest (by decide)
    (by decide +kernel) (Or.inr ⟨by decide,by decide +kernel⟩)
  have hstops := (@resolve_prefix_append sampleEnvironment "covers.none" ".sum" (by decide)
    (by decide +kernel) (Or.inl (by decide))).2.2
  exact ⟨hgrows.1,hgrows.2.1,hstops (by decide +kernel)⟩

end FormulaPath
