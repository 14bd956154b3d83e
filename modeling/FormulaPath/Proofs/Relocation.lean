import FormulaPath.Proofs.CompletionEdit
import FormulaPath.Proofs.HoverNode

/-!
# Answers do not depend on the place in the line

Once a scan has started anew, nothing of what it has read before has any effect but the number of
bytes: behind such a place a scan is the scan of the rest of the line, with its offset moved
(`Scan.run_append_of_fresh`). One step commutes with the move, and so does every run. The path at a
caret is then the same with its start moved, and so are the completions and what is shown for an
offset, as these only add the start to regions within the path.
-/
namespace FormulaPath

theorem mapM_eq_ok {α β : Type} {f : α → Except Fault β} {g : α → β} {as : List α}
    (h : ∀ a ∈ as, f a = .ok (g a)) : as.mapM f = .ok (as.map g) := by
  induction as with
  | nil => rfl
  | cons a as ih =>
      obtain ⟨ha,has⟩ := List.forall_mem_cons.mp h
      rw [List.mapM_cons,ha,ih has]
      rfl

theorem Text.cut?_append (front cs : List Char) (n : Nat) :
    cut? (front ++ cs) (bytes front + n) = (cut? cs n).map fun (l, r) => (front ++ l, r) := by
  ext ⟨l,r⟩
  rw [cut?_eq_some_iff,Option.map_eq_some_iff]
  constructor
  · rintro ⟨happ,hbytes⟩
    obtain ⟨l',rfl,rfl⟩ := exists_append_of_bytes_le happ (by omega)
    rw [bytes_append] at hbytes
    exact ⟨(l',r),cut?_eq_some_iff.mpr ⟨rfl,by omega⟩,rfl⟩
  · rintro ⟨⟨l',r'⟩,hcut,heq⟩
    obtain ⟨rfl,rfl⟩ := Prod.mk.inj heq
    obtain ⟨rfl,rfl⟩ := cut?_eq_some_iff.mp hcut
    exact ⟨(List.append_assoc _ _ _).symm,bytes_append _ _⟩

namespace Line
open Text
variable [NameClass]

namespace Scan

/-- The scan with its path further on in the line. -/
def moved (s : Scan) (width : Nat) : Scan := { s with start := width + s.start }

theorem step_moved (s : Scan) (width : Nat) (c : Char) :
    (s.moved width).step c = (s.step c).moved width := by
  have hskip : (s.moved width).skip c = (s.skip c).moved width := by
    simp [skip, moved, Nat.add_assoc]
  have hextend : ∀ m, (s.moved width).extend c m = (s.extend c m).moved width := fun _ => rfl
  have hmode : (s.moved width).mode = s.mode := rfl
  unfold step
  rw [hmode]
  cases s.mode with
  | literal =>
      simp only [hskip, hextend]
      split_ifs <;> rfl
  | bracket quoted =>
      simp only [hextend]
      split_ifs <;> rfl
  | name =>
      simp only [hskip, hextend]
      split_ifs <;> rfl

theorem foldl_step_moved (s : Scan) (width : Nat) (cs : List Char) :
    cs.foldl step (s.moved width) = (cs.foldl step s).moved width := by
  induction cs generalizing s with
  | nil => rfl
  | cons c cs ih => rw [List.foldl_cons,List.foldl_cons,step_moved,ih]

/-- Behind a place where it started anew, a scan reads the rest as a line of its own. -/
theorem run_append_of_fresh {front : List Char} {start : Nat}
    (h : run front = ⟨start, "", .name⟩) (cs : List Char) :
    run (front ++ cs) = (run cs).moved start := by
  have hinitial : initial.moved start = ⟨start, "", .name⟩ := rfl
  rw [run_append,h,← hinitial,foldl_step_moved,run]

end Scan

/-- Where nothing has been typed at the end of a line, a scan has started anew there. -/
theorem fresh_of_pathBefore? {line : String}
    (h : pathBefore? line line.utf8ByteSize = some (line.utf8ByteSize, "")) :
    Scan.run line.toList = ⟨line.utf8ByteSize, "", .name⟩ := by
  obtain ⟨front,after,-,hline,hstart,-,hfresh,-⟩ := pathBefore?_eq_some_iff.mp h
  rw [String.append_empty] at hline
  have hbytes := congrArg String.utf8ByteSize hline
  rw [String.utf8ByteSize_append] at hbytes
  have hafter : after = "" := String.utf8ByteSize_eq_zero_iff.mp (by omega)
  rw [hafter,String.append_empty] at hline
  rw [← hline] at hfresh
  exact hfresh

section Moved
variable {front : String} (line : String) (caret : Nat)

theorem scanTo?_append (hfresh : Scan.run front.toList = ⟨front.utf8ByteSize, "", .name⟩) :
    scanTo? (front ++ line) (front.utf8ByteSize + caret) =
      (scanTo? line caret).map fun (scan, after) => (scan.moved front.utf8ByteSize, after) := by
  unfold scanTo?
  rw [String.toList_append,← bytes_toList,cut?_append]
  cases cut? line.toList caret with
  | none => rfl
  | some cut =>
      have hmoved := Scan.run_append_of_fresh hfresh cut.1
      simp only [Option.map_some, hmoved, bytes_toList]
      split_ifs with hmoved hmode hmode
      · rfl
      · exact absurd hmoved hmode
      · exact absurd hmode hmoved
      · rfl

theorem pathBefore?_append (hfresh : Scan.run front.toList = ⟨front.utf8ByteSize, "", .name⟩) :
    pathBefore? (front ++ line) (front.utf8ByteSize + caret) =
      (pathBefore? line caret).map fun (start, typed) => (front.utf8ByteSize + start, typed) := by
  unfold pathBefore?
  rw [scanTo?_append line caret hfresh,Option.map_map,Option.map_map]
  rfl

theorem pathAt?_append (hfresh : Scan.run front.toList = ⟨front.utf8ByteSize, "", .name⟩) :
    pathAt? (front ++ line) (front.utf8ByteSize + caret) =
      (pathAt? line caret).map fun (start, text) => (front.utf8ByteSize + start, text) := by
  unfold pathAt?
  rw [scanTo?_append line caret hfresh]
  cases scanTo? line caret with
  | none => rfl
  | some scan =>
      simp only [Option.map_some, Scan.moved]
      split_ifs <;> rfl

end Moved

end Line

namespace Region

theorem span_shift {start width delta : Nat} (h : delta + (start + width) ≤ limit) :
    (span start width).shift delta = .ok (span (delta + start) width) := by
  have hdelta : clamp delta = delta := clamp_of_le (by omega)
  have hstop : clamp (start + width) = start + width := clamp_of_le (by omega)
  have hstart : clamp start = start := clamp_of_le (by omega)
  unfold shift
  rw [dif_pos (by rw [span_stop,hdelta,hstop]; omega),Except.ok.injEq]
  apply Region.ext
  · simp only [span_start, hdelta, hstart]
    rw [clamp_of_le (by omega)]
    omega
  · simp only [span_stop, hdelta, hstop]
    rw [clamp_of_le (by omega)]
    omega

/-- Two moves make one. -/
theorem shift_shift {r : Region} {first second : Nat} (h : r.stop + first + second ≤ limit) :
    ∃ s t, r.shift first = .ok s ∧ s.shift second = .ok t ∧
      r.shift (second + first) = .ok t := by
  have hfirst : r.stop + first ≤ limit := by omega
  obtain ⟨s,hs,hsstart,hsstop⟩ := shift_of_le hfirst
  have hsecond : s.stop + second ≤ limit := by omega
  obtain ⟨t,ht,htstart,htstop⟩ := shift_of_le hsecond
  have hboth : r.stop + (second + first) ≤ limit := by omega
  obtain ⟨u,hu,hustart,hustop⟩ := shift_of_le hboth
  obtain rfl : t = u := Region.ext (by omega) (by omega)
  exact ⟨s,t,hs,ht,hu⟩

end Region

/-- The completion in a line in which a number of bytes stands in front. -/
def Completion.shift (c : Completion) (delta : Nat) : Except Fault Completion :=
  (c.replace.shift delta).map fun replace => { c with replace }

/-- What is shown in a line in which a number of bytes stands in front. -/
def Hover.shift (shown : Hover) (delta : Nat) : Except Fault Hover :=
  (shown.region.shift delta).map fun region => { shown with region }

theorem Completion.placed_shift {p : Proposal} {start delta : Nat} (priority : UInt32)
    (h : delta + (start + p.typed.utf8ByteSize) ≤ Region.limit) :
    (placed p start priority).shift delta = .ok (placed p (delta + start) priority) := by
  have hreplace : (placed p start priority).replace.shift delta =
      .ok (Region.span (delta + start) p.typed.utf8ByteSize) := Region.span_shift h
  rw [Completion.shift,hreplace]
  rfl

section Answers
open Line
variable [Text.NameClass] (env : Environment) {front line : String}
  (hfresh : Scan.run front.toList = ⟨front.utf8ByteSize, "", .name⟩)
  (hlen : front.utf8ByteSize + line.utf8ByteSize ≤ Region.limit) (caret : Nat)
include hfresh hlen

theorem completions_append :
    completions env (front ++ line) (front.utf8ByteSize + caret) =
      (completions env line caret).bind fun items =>
        items.mapM (·.shift front.utf8ByteSize) := by
  have hbefore := pathBefore?_append line caret hfresh
  cases hpath : pathBefore? line caret with
  | none =>
      rw [hpath] at hbefore
      rw [completions_of_none env hpath,completions_of_none env hbefore]
      rfl
  | some path =>
      obtain ⟨start,typed⟩ := path
      rw [hpath,Option.map_some] at hbefore
      obtain ⟨hcaret,hline⟩ := pathBefore?_bounds hpath
      have hlast := utf8ByteSize_lastText_le typed
      have hboth : (front ++ line).utf8ByteSize ≤ Region.limit := by
        rwa [String.utf8ByteSize_append]
      rw [completions_of_path env (by omega) hpath,completions_of_path env hboth hbefore]
      -- Both count the same proposals, so they are too many in both lines or in neither.
      split_ifs with hcount
      · symm
        rw [Except.bind,List.mapIdx_eq_zipIdx_map,List.mapIdx_eq_zipIdx_map,List.mapM_map]
        apply mapM_eq_ok
        intro (p,i) hp
        have htyped := (typed_of_mem_proposals (List.fst_mem_of_mem_zipIdx hp)).1
        have hbegin : front.utf8ByteSize + caret - (Path.lastText typed).utf8ByteSize =
            front.utf8ByteSize + (caret - (Path.lastText typed).utf8ByteSize) := by omega
        rw [hbegin]
        apply Completion.placed_shift
        rw [htyped]
        omega
      · rfl

theorem exists_completions_append (hcount : ProposalsCounted env line caret) :
    ∃ items moved, completions env line caret = .ok items ∧
      items.mapM (·.shift front.utf8ByteSize) = .ok moved ∧
      completions env (front ++ line) (front.utf8ByteSize + caret) = .ok moved := by
  have hcount' : ProposalsCounted env (front ++ line) (front.utf8ByteSize + caret) := by
    intro start typed hpath
    rw [pathBefore?_append line caret hfresh,Option.map_eq_some_iff] at hpath
    obtain ⟨path,hpath,heq⟩ := hpath
    rw [← (Prod.mk.inj heq).2]
    exact hcount path.1 path.2 hpath
  have hboth : (front ++ line).utf8ByteSize ≤ Region.limit := by rwa [String.utf8ByteSize_append]
  obtain ⟨items,hitems⟩ := exists_completions env (by omega) hcount
  obtain ⟨moved,hmoved⟩ := exists_completions env hboth hcount'
  have happend := completions_append env hfresh hlen caret
  rw [hitems,hmoved] at happend
  exact ⟨items,moved,hitems,happend.symm,hmoved⟩

theorem hover_append : ∃ shown moved, hover env line caret = .ok shown ∧
    shown.mapM (·.shift front.utf8ByteSize) = .ok moved ∧
    hover env (front ++ line) (front.utf8ByteSize + caret) = .ok moved := by
  have hat := pathAt?_append line caret hfresh
  cases hpath : pathAt? line caret with
  | none =>
      rw [hpath] at hat
      exact ⟨none,none,hover_of_none env hpath,rfl,hover_of_none env hat⟩
  | some path =>
      obtain ⟨start,text⟩ := path
      rw [hpath,Option.map_some] at hat
      obtain ⟨hstart,hstop,hline⟩ := pathAt?_bounds hpath
      have htext : text.utf8ByteSize ≤ Region.limit := by omega
      have hinside : caret - start ≤ text.utf8ByteSize := by omega
      obtain ⟨node,hmem,hnode,-⟩ := Hover.nodeAt?_resolve env htext hinside
      have hend := stop_le_of_mem_resolve env text hmem
      have hfits : node.region.stop + start + front.utf8ByteSize ≤ Region.limit := by omega
      obtain ⟨region,moved,hregion,hmoved,hboth⟩ := Region.shift_shift hfits
      have hnode' : Hover.nodeAt? (resolve env text)
          (front.utf8ByteSize + caret - (front.utf8ByteSize + start)) = some node := by
        rw [Nat.add_sub_add_left]
        exact hnode
      refine ⟨_,_,by rw [hover_of_path env hpath hnode,hregion]; rfl,?_,
        by rw [hover_of_path env hat hnode',hboth]; rfl⟩
      simp [Hover.shift, hmoved, Except.map]

end Answers

/-- The answers for a path do not depend on where the path stands. Behind a text at whose end
nothing is being typed, a line gets at each caret the same completions and the same node as alone,
with the regions moved by the length of the text. This includes the fault for completions that are
too many to be numbered; all others are answered in both lines. -/
theorem answers_position_independent [Text.NameClass] (env : Environment) {front line : String}
    (hfront : Line.pathBefore? front front.utf8ByteSize = some (front.utf8ByteSize, ""))
    (hlen : front.utf8ByteSize + line.utf8ByteSize ≤ Region.limit) (caret : Nat) :
    completions env (front ++ line) (front.utf8ByteSize + caret) =
      ((completions env line caret).bind fun items =>
        items.mapM (·.shift front.utf8ByteSize)) ∧
    (ProposalsCounted env line caret → ∃ items moved, completions env line caret = .ok items ∧
      items.mapM (·.shift front.utf8ByteSize) = .ok moved ∧
      completions env (front ++ line) (front.utf8ByteSize + caret) = .ok moved) ∧
    ∃ shown moved, hover env line caret = .ok shown ∧
      shown.mapM (·.shift front.utf8ByteSize) = .ok moved ∧
      hover env (front ++ line) (front.utf8ByteSize + caret) = .ok moved := by
  have hfresh := Line.fresh_of_pathBefore? hfront
  exact ⟨completions_append env hfresh hlen caret,exists_completions_append env hfresh hlen caret,
    hover_append env hfresh hlen caret⟩

theorem answers_position_independent_covers :
    let front := "\"x[\" + "
    let line := "covers[0].Su"
    Line.pathBefore? front front.utf8ByteSize = some (front.utf8ByteSize, "") ∧
      front.utf8ByteSize + line.utf8ByteSize ≤ Region.limit ∧
      ProposalsCounted sampleEnvironment line 12 ∧
      (completions sampleEnvironment line 12).map (·.map (·.insert)) = .ok ["sum"] ∧
      ∃ items moved, completions sampleEnvironment line 12 = .ok items ∧
        items.mapM (·.shift 7) = .ok moved ∧
        completions sampleEnvironment (front ++ line) (7 + 12) = .ok moved := by
  intro front line
  have hfront : Line.pathBefore? front front.utf8ByteSize = some (front.utf8ByteSize, "") := by
    decide +kernel
  have hlen : front.utf8ByteSize + line.utf8ByteSize ≤ Region.limit := by decide
  have hpath : Line.pathBefore? line 12 = some (0, line) := by decide +kernel
  have hcount : ProposalsCounted sampleEnvironment line 12 :=
    (proposalsCounted_iff sampleEnvironment hpath).mpr (by decide +kernel)
  exact ⟨hfront,hlen,hcount,by decide +kernel,
    (answers_position_independent sampleEnvironment hfront hlen 12).2.1 hcount⟩

end FormulaPath
