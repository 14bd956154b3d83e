import FormulaPath.Completion
import FormulaPath.Proofs.LineParts
import FormulaPath.Proofs.Offer

/-!
# The edit that a completion makes

All proposals for a path carry the text of its last part, so the completions at a caret replace one
and the same region: the one that this part takes up in front of the caret (`completions_of_path`).
They are numbered in 32 bits, one checked step after another; `Completion.ofProposals_eq` says what
comes of all the steps, and from there on the count of the proposals is the only condition.

When one of them is applied, the line is scanned again from its start. The scan comes to the edit as
before, at a place between two parts of the path, and from there a text that is a path of its own
goes on as part of the path that was being typed.
-/
namespace FormulaPath
open FormulaPath.Path FormulaPath.Line

/-- Every proposal for a path completes its last part. -/
theorem typed_of_mem_proposals {env : Environment} {path : String} {p : Proposal}
    (h : p ∈ proposals env path) :
    p.typed = lastText path ∧ Text.startsUpToCase p.text (lastText path) = true := by
  obtain ⟨init,last,hsplit⟩ := split_eq_append path
  rw [proposals_of_split hsplit] at h
  rw [lastText_of_split hsplit]
  cases hsettle : settle? env [] init with
  | none => simp [hsettle] at h
  | some trail =>
      rw [hsettle] at h
      dsimp only at h
      split_ifs at h
      · simp at h
      · obtain ⟨-,-,-,hfits,htyped⟩ := mem_proposalsAt h
        exact ⟨htyped,hfits⟩

theorem utf8ByteSize_lastText_le (path : String) :
    (lastText path).utf8ByteSize ≤ path.utf8ByteSize := by
  obtain ⟨init,last,hsplit⟩ := split_eq_append path
  obtain ⟨front,hcut,-⟩ := exists_split_front hsplit
  rw [lastText_of_split hsplit,hcut,String.utf8ByteSize_append]
  omega

namespace Completion

/-- The completion that replaces the typed part at an offset of the line. -/
def placed (p : Proposal) (start : Nat) (priority : UInt32) : Completion :=
  replacing (Region.span start p.typed.utf8ByteSize) p priority

theorem toNat_add_one {priority : UInt32} (h : priority.toNat + 1 < UInt32.size) :
    (priority + 1).toNat = priority.toNat + 1 := by
  rw [UInt32.toNat_add]
  exact Nat.mod_eq_of_lt h

/-- Proposals are listed in their order and numbered one after the other, unless the number behind
the last one is too large to be counted to. -/
theorem ofProposals_eq {start : Nat} {ps : List Proposal}
    (h : ∀ p ∈ ps, start + p.typed.utf8ByteSize ≤ offsetLimit) (priority : UInt32) :
    ofProposals start priority ps =
      if priority.toNat + ps.length < UInt32.size then
        .ok (ps.mapIdx fun i p => placed p start (UInt32.ofNat (priority.toNat + i)))
      else .error .overflow := by
  induction ps generalizing priority with
  | nil =>
      rw [if_pos (by simpa using priority.toNat_lt_size)]
      rfl
  | cons p ps ih =>
      obtain ⟨hp,hps⟩ := List.forall_mem_cons.mp h
      rw [List.length_cons]
      by_cases hnext : priority.toNat + 1 < UInt32.size
      · have hsum : priority.toNat + 1 + ps.length = priority.toNat + (ps.length + 1) := by omega
        simp only [ofProposals, nextPriority_of_lt hnext, ofProposal_of_le priority hp, ih hps,
          toNat_add_one hnext, hsum, bind, Except.bind]
        split_ifs with hall
        · simp [List.mapIdx_cons, placed, Nat.add_assoc, Nat.add_comm 1]
        · rfl
      · rw [if_neg (by omega)]
        simp [ofProposals, nextPriority, hnext, bind, Except.bind]

end Completion

section Line
variable [Text.NameClass] (env : Environment) {line typed : String} {caret start : Nat}

/-- The proposals for what is being typed at a caret can be counted in 32 bits. -/
def ProposalsCounted (line : String) (caret : Nat) : Prop :=
  ∀ start typed, pathBefore? line caret = some (start, typed) →
    (proposals env typed).length < UInt32.size

theorem proposalsCounted_iff (hpath : pathBefore? line caret = some (start, typed)) :
    ProposalsCounted env line caret ↔ (proposals env typed).length < UInt32.size := by
  simp [ProposalsCounted, hpath]

theorem completions_of_none (h : pathBefore? line caret = none) :
    completions env line caret = .ok [] := by
  simp [completions, h]

/-- The completions at a caret are the proposals for what is being typed there, in their order. Each
replaces the last part in front of the caret. Too many to be numbered are a fault. -/
theorem completions_of_path (hlen : line.utf8ByteSize ≤ Region.limit)
    (hpath : pathBefore? line caret = some (start, typed)) :
    completions env line caret =
      if (proposals env typed).length < UInt32.size then
        .ok ((proposals env typed).mapIdx fun i p =>
          Completion.placed p (caret - (lastText typed).utf8ByteSize) (UInt32.ofNat i))
      else .error .overflow := by
  obtain ⟨hcaret,hline⟩ := pathBefore?_bounds hpath
  have hlast := utf8ByteSize_lastText_le typed
  have htyped : ∀ p ∈ proposals env typed, p.typed = lastText typed :=
    fun p hp => (typed_of_mem_proposals hp).1
  have hlimit : Region.limit ≤ offsetLimit := by decide
  simp only [completions, hpath]
  cases hfound : proposals env typed with
  | nil => rfl
  | cons first rest =>
      rw [hfound] at htyped
      have hfits : ∀ p ∈ first :: rest, caret - (lastText typed).utf8ByteSize +
          p.typed.utf8ByteSize ≤ offsetLimit := by
        intro p hp
        rw [htyped p hp]
        omega
      dsimp only
      rw [htyped first List.mem_cons_self,distance,if_pos (by omega)]
      have hitems := Completion.ofProposals_eq hfits 0
      simp only [UInt32.toNat_zero, Nat.zero_add] at hitems
      exact hitems

theorem exists_completions (hlen : line.utf8ByteSize ≤ Region.limit)
    (hcount : ProposalsCounted env line caret) : ∃ items, completions env line caret = .ok items := by
  cases hpath : pathBefore? line caret with
  | none => exact ⟨[],completions_of_none env hpath⟩
  | some path =>
      have hfew := (proposalsCounted_iff env hpath).mp hcount
      exact ⟨_,(completions_of_path env hlen hpath).trans (if_pos hfew)⟩

end Line

/-- Between two parts of the path that is being typed, a text that is a path of its own goes on with
it. -/
theorem pathBefore?_edited [Text.NameClass] {front kept insert : String} {start : Nat} (after : String)
    (hstart : front.utf8ByteSize = start) (hfresh : Scan.run front.toList = ⟨start, "", .name⟩)
    (hkept : Walk .name kept.toList .name)
    (hinsert : pathBefore? insert insert.utf8ByteSize = some (0, insert)) :
    pathBefore? (front ++ (kept ++ insert) ++ after)
        (start + kept.utf8ByteSize + insert.utf8ByteSize) = some (start, kept ++ insert) := by
  obtain ⟨-,-,mode,-,-,-,-,hwalk⟩ := pathBefore?_eq_some_iff.mp hinsert
  refine pathBefore?_eq_some_iff.mpr ⟨front,after,mode,rfl,hstart,?_,hfresh,?_⟩
  · rw [String.utf8ByteSize_append,Nat.add_assoc]
  · rw [String.toList_append]
    exact hkept.append hwalk

/-- Completions hit exactly what is being typed. As long as 32 bits can count them, they are the
proposals for it, numbered from zero, and each replaces the last part of the path, which ends at the
caret, by a text that starts with it up to case. Where this text is a path of its own, a scan of the
edited line finds at its end the path that was being typed with this text as its last part. -/
theorem completions_replace_last_part [Text.NameClass] (env : Environment) {line : String}
    (hlen : line.utf8ByteSize ≤ Region.limit) (caret : Nat) :
    (pathBefore? line caret = none → completions env line caret = .ok []) ∧
    ∀ start typed, pathBefore? line caret = some (start, typed) →
      (proposals env typed).length < UInt32.size →
      ∃ (items : List Completion) (front kept after : String),
        completions env line caret = .ok items ∧
        items.map (·.insert) = (proposals env typed).map (·.text) ∧
        line = front ++ (kept ++ lastText typed) ++ after ∧ typed = kept ++ lastText typed ∧
        front.utf8ByteSize = start ∧
        ∀ (i : Nat) (item : Completion), items[i]? = some item →
          item.priority.toNat = i ∧ item.replace.start = start + kept.utf8ByteSize ∧
          item.replace.stop = caret ∧
          item.replace.start + (lastText typed).utf8ByteSize = caret ∧
          Text.startsUpToCase item.insert (lastText typed) = true ∧
          (pathBefore? item.insert item.insert.utf8ByteSize = some (0, item.insert) →
            pathBefore? (front ++ (kept ++ item.insert) ++ after)
                (item.replace.start + item.insert.utf8ByteSize) =
              some (start, kept ++ item.insert)) := by
  refine ⟨completions_of_none env,?_⟩
  intro start typed hpath hcount
  have hitems := completions_of_path env hlen hpath
  rw [if_pos hcount] at hitems
  obtain ⟨front,after,mode,hline,hstart,hcaret,hfresh,hwalk⟩ := pathBefore?_eq_some_iff.mp hpath
  obtain ⟨⟨kept,hcut,hkept⟩,-⟩ := lastText_of_walk hwalk
  have hsize := congrArg String.utf8ByteSize hline
  have htyped := congrArg String.utf8ByteSize hcut
  simp only [String.utf8ByteSize_append] at hsize htyped
  refine ⟨_,front,kept,after,hitems,?_,hcut ▸ hline,hcut,hstart,?_⟩
  · apply List.ext_getElem?
    intro i
    simp only [List.getElem?_map, List.getElem?_mapIdx, Option.map_map]
    rfl
  · intro i item hitem
    rw [List.getElem?_mapIdx,Option.map_eq_some_iff] at hitem
    obtain ⟨p,hp,rfl⟩ := hitem
    obtain ⟨hlast,hfits⟩ := typed_of_mem_proposals (List.mem_of_getElem? hp)
    have hi := (List.getElem?_eq_some_iff.mp hp).choose
    have hpriority : (UInt32.ofNat i).toNat = i := UInt32.toNat_ofNat_of_lt (by omega)
    have hbegin : caret - (lastText typed).utf8ByteSize = start + kept.utf8ByteSize := by omega
    have hfirst : Region.clamp (start + kept.utf8ByteSize) = start + kept.utf8ByteSize :=
      Region.clamp_of_le (by omega)
    have hend : Region.clamp (start + kept.utf8ByteSize + (lastText typed).utf8ByteSize) = caret := by
      rw [Region.clamp_of_le] <;> omega
    simp only [Completion.placed, Completion.replacing, hpriority, hlast, hbegin, Region.span_start,
      Region.span_stop, hfirst, hend]
    exact ⟨trivial,trivial,trivial,by omega,hfits,pathBefore?_edited after hstart hfresh hkept⟩

theorem completions_replace_last_part_sum :
    let line := "2 * covers[0].Su + 1"
    line.utf8ByteSize ≤ Region.limit ∧ pathBefore? line 16 = some (4, "covers[0].Su") ∧
      (proposals sampleEnvironment "covers[0].Su").length < UInt32.size ∧
      pathBefore? "sum" 3 = some (0, "sum") ∧
      ∃ front kept after, line = front ++ (kept ++ "Su") ++ after ∧
        pathBefore? (front ++ (kept ++ "sum") ++ after) 17 = some (4, kept ++ "sum") := by
  intro line
  have hlen : line.utf8ByteSize ≤ Region.limit := by decide
  have hpath : pathBefore? line 16 = some (4, "covers[0].Su") := by decide +kernel
  have hcount : (proposals sampleEnvironment "covers[0].Su").length < UInt32.size := by
    decide +kernel
  have hsum : pathBefore? "sum" 3 = some (0, "sum") := by decide +kernel
  have hlast : lastText "covers[0].Su" = "Su" := by decide +kernel
  have htexts : (completions sampleEnvironment line 16).map (·[0]?.map (·.insert)) =
      .ok (some "sum") := by decide +kernel
  obtain ⟨items,front,kept,after,hitems,-,hline,-,-,hall⟩ :=
    (completions_replace_last_part sampleEnvironment hlen 16).2 4 _ hpath hcount
  rw [hlast] at hline hall
  rw [hitems] at htexts
  obtain ⟨item,hitem,hinsert⟩ := Option.map_eq_some_iff.mp (Except.ok.inj htexts)
  obtain ⟨-,-,-,hcaret,-,hedited⟩ := hall 0 item hitem
  have hsize : ("Su").utf8ByteSize = 2 := rfl
  rw [hinsert] at hedited
  have hend : item.replace.start + "sum".utf8ByteSize = 17 := by
    have hsize' : "sum".utf8ByteSize = 3 := rfl
    omega
  rw [hend] at hedited
  exact ⟨hlen,hpath,hcount,hsum,front,kept,after,hline,hedited hsum⟩

end FormulaPath
