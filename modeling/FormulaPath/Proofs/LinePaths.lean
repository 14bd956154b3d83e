import FormulaPath.Line
import Mathlib.Data.List.Induction

/-!
# The paths of a line

A line is read in two ways: a scan from its start finds where the path at a caret begins, and
`takePath` goes on from the caret to the end of the path. Both have the same idea of the next
character of a path, `Mode.next?`, and a `Walk` is a run of such characters. What a scan can answer
is then said without the scan (`scanTo?_eq_some_iff`): it stands at the end of a walk that begins
where a scan starts anew. Of the path at an offset (`pathAt?_eq_some_iff`) the same can be said, and
there the offset only occurs as a place within the text. So all the places of a path find the same
path, and the paths of a line do not touch. Which characters a name may hold is left open throughout.
-/
namespace FormulaPath.Line
open Text

section Names
variable [NameClass]

/-- The mode behind a character that continues a path. There is none if the path ends in front of
the character. -/
def Mode.next? : Mode → Char → Option Mode
  | .literal, _ => none
  | .bracket quoted, c =>
    if c = '"' then some (.bracket !quoted)
    else if c = ']' ∧ quoted = false then some .name
    else some (.bracket quoted)
  | .name, c =>
    if c = '[' then some (.bracket false)
    else if c = '.' ∨ isNameChar c then some .name
    else none

theorem Mode.next?_name_eq_none_iff {c : Char} :
    Mode.name.next? c = none ↔ c ≠ '[' ∧ c ≠ '.' ∧ isNameChar c = false := by
  by_cases hopen : c = '['
  · simp [Mode.next?, hopen]
  · simp [Mode.next?, hopen]

theorem Mode.next?_ne_literal {m : Mode} {c : Char} : m.next? c ≠ some .literal := by
  cases m with
  | literal => simp [Mode.next?]
  | bracket quoted =>
      simp only [Mode.next?]
      split_ifs <;> simp
  | name =>
      simp only [Mode.next?]
      split_ifs <;> simp

/-- A run of characters each of which continues a path, and the modes in front of and behind it. -/
inductive Walk : Mode → List Char → Mode → Prop
  | nil (m : Mode) : Walk m [] m
  | cons {m next last : Mode} {c : Char} {cs : List Char} :
      m.next? c = some next → Walk next cs last → Walk m (c :: cs) last

namespace Walk
variable {m next last : Mode} {l r : List Char}

theorem append (hl : Walk m l next) (hr : Walk next r last) : Walk m (l ++ r) last := by
  induction hl with
  | nil => exact hr
  | cons hc _ ih => exact .cons hc (ih hr)

theorem of_append (h : Walk m (l ++ r) last) : ∃ next, Walk m l next ∧ Walk next r last := by
  induction l generalizing m with
  | nil => exact ⟨m,.nil m,h⟩
  | cons c l ih =>
      cases h with
      | cons hc h =>
          obtain ⟨next,hl,hr⟩ := ih h
          exact ⟨next,.cons hc hl,hr⟩

theorem ne_literal (h : Walk m l last) (hm : m ≠ .literal) : last ≠ .literal := by
  induction h with
  | nil => exact hm
  | cons hc _ ih =>
      apply ih
      rintro rfl
      exact Mode.next?_ne_literal hc

end Walk

theorem takePath_cons (m : Mode) (c : Char) (cs : List Char) :
    takePath m (c :: cs) = (m.next? c).elim [] fun next => c :: takePath next cs := by
  cases m with
  | literal => rfl
  | bracket quoted =>
      simp only [takePath, Mode.next?]
      split_ifs <;> rfl
  | name =>
      simp only [takePath, Mode.next?]
      split_ifs <;> rfl

/-- What continues a path is taken whole, and taking goes on behind it. -/
theorem Walk.takePath_append {m last : Mode} {l : List Char} (h : Walk m l last)
    (r : List Char) : takePath m (l ++ r) = l ++ takePath last r := by
  induction h with
  | nil => rfl
  | cons hc _ ih => simp [takePath_cons, hc, ih]

theorem takePath_of_stop {m : Mode} {rest : List Char} (h : ∀ c ∈ rest.head?, m.next? c = none) :
    takePath m rest = [] := by
  cases rest with
  | nil => simp [takePath]
  | cons c rest => simp [takePath_cons, h c rfl]

/-- What is taken continues the path, and the character behind it does not. -/
theorem takePath_spec (m : Mode) (cs : List Char) :
    ∃ last rest, cs = takePath m cs ++ rest ∧ Walk m (takePath m cs) last ∧
      ∀ c ∈ rest.head?, last.next? c = none := by
  induction cs generalizing m with
  | nil =>
      have htake : takePath m [] = [] := takePath_of_stop (by simp)
      rw [htake]
      exact ⟨m,[],rfl,.nil m,by simp⟩
  | cons c cs ih =>
      cases hc : m.next? c with
      | none =>
          have hstop : ∀ d ∈ (c :: cs).head?, m.next? d = none := by simpa using hc
          rw [takePath_of_stop hstop]
          exact ⟨m,c :: cs,rfl,.nil m,hstop⟩
      | some next =>
          have htake : takePath m (c :: cs) = c :: takePath next cs := by
            simp [takePath_cons, hc]
          obtain ⟨last,rest,happ,hwalk,hstop⟩ := ih next
          refine ⟨last,rest,?_,?_,hstop⟩
          · rw [htake,List.cons_append,← happ]
          · rw [htake]
            exact .cons hc hwalk

namespace Scan
variable {s : Scan} {c : Char}

theorem step_of_next? {m : Mode} (h : s.mode.next? c = some m) : s.step c = s.extend c m := by
  unfold step
  cases hmode : s.mode with
  | literal => simp [hmode, Mode.next?] at h
  | bracket quoted =>
      rw [hmode,Mode.next?] at h
      split_ifs at h <;> simp_all
  | name =>
      rw [hmode,Mode.next?] at h
      split_ifs at h with hopen hname
      · simp_all
      · have hquote : c ≠ '"' := by
          rintro rfl
          simp at hname
        simp_all

/-- What one character does to a scan: it continues the path, it leaves the scan in a literal, or
the scan starts anew behind it. -/
theorem step_cases (s : Scan) (c : Char) :
    (∃ m, s.mode.next? c = some m ∧ s.step c = s.extend c m) ∨
    s.step c = s.extend c .literal ∨
    s.step c = s.skip c ∧ (s.mode = .literal ∧ c = '"' ∨ c ≠ '"' ∧ Mode.name.next? c = none) := by
  cases hnext : s.mode.next? c with
  | some m => exact Or.inl ⟨m,rfl,step_of_next? hnext⟩
  | none =>
      right
      cases hmode : s.mode with
      | literal =>
          by_cases hc : c = '"'
          · exact Or.inr ⟨by simp [step, hmode, hc],Or.inl ⟨rfl,hc⟩⟩
          · exact Or.inl (by simp [step, hmode, hc])
      | bracket quoted =>
          rw [hmode,Mode.next?] at hnext
          split_ifs at hnext
      | name =>
          rw [hmode] at hnext
          have hstop := Mode.next?_name_eq_none_iff.mp hnext
          by_cases hc : c = '"'
          · exact Or.inl (by simp [step, hmode, hc])
          · exact Or.inr ⟨by simp [step, hmode, hc, hstop],Or.inr ⟨hc,hnext⟩⟩

theorem run_append (l r : List Char) : run (l ++ r) = r.foldl step (run l) := by
  simp [run]

theorem run_concat (cs : List Char) (c : Char) : run (cs ++ [c]) = (run cs).step c := by
  simp [run]

/-- A scan takes up all that continues its path. -/
theorem foldl_step_of_walk {cs : List Char} {m : Mode} (h : Walk s.mode cs m) :
    cs.foldl step s = ⟨s.start, s.typed ++ String.ofList cs, m⟩ := by
  generalize hmode : s.mode = first at h
  induction h generalizing s with
  | nil => simp [← hmode]
  | cons hc _ ih =>
      rw [← hmode] at hc
      rw [List.foldl_cons,step_of_next? hc,ih rfl]
      simp [extend, String.ofList_cons, ← String.append_assoc]

/-- The characters `cs` have brought a scan to where it stands: its path ends where they end, it
begins where a scan starts anew and, outside a literal, all its characters belong to it. -/
structure Reads (s : Scan) (cs : List Char) : Prop where
  ends : s.start + s.typed.utf8ByteSize = bytes cs
  begins : ∃ front, cs = front ++ s.typed.toList ∧ run front = ⟨s.start, "", .name⟩
  walk : s.mode ≠ .literal → Walk .name s.typed.toList s.mode

theorem Reads.extend {cs : List Char} (h : s.Reads cs) {m : Mode}
    (hm : m ≠ .literal → s.mode.next? c = some m) : (s.extend c m).Reads (cs ++ [c]) := by
  obtain ⟨front,hcut,hfresh⟩ := h.begins
  refine ⟨?_,⟨front,?_,hfresh⟩,fun hmode => ?_⟩
  · rw [bytes_append,← h.ends]
    simp [Scan.extend, Nat.add_assoc]
  · rw [Scan.extend,String.toList_push,← List.append_assoc,← hcut]
  · have hnext := hm hmode
    have hbefore : s.mode ≠ .literal := by
      intro hliteral
      simp [hliteral, Mode.next?] at hnext
    rw [Scan.extend,String.toList_push]
    exact (h.walk hbefore).append (.cons hnext (.nil m))

theorem reads_concat {cs : List Char} (h : (run cs).Reads cs) (c : Char) :
    (run (cs ++ [c])).Reads (cs ++ [c]) := by
  have hstep := run_concat cs c
  rcases step_cases (run cs) c with ⟨m,hnext,hextend⟩ | hextend | ⟨hskip,-⟩
  · rw [hstep,hextend]
    exact h.extend fun _ => hnext
  · rw [hstep,hextend]
    exact h.extend fun hmode => absurd rfl hmode
  · rw [hskip] at hstep
    rw [hstep]
    refine ⟨?_,⟨cs ++ [c],by simp [skip],hstep⟩,fun _ => .nil .name⟩
    rw [bytes_append,← h.ends]
    simp [skip]

/-- Whatever the characters are, a scan has read them. -/
theorem run_reads (cs : List Char) : (run cs).Reads cs := by
  induction cs using List.reverseRecOn with
  | nil => exact ⟨rfl,⟨[],rfl,rfl⟩,fun _ => .nil .name⟩
  | append_singleton cs c ih => exact reads_concat ih c

theorem start_of_fresh {front : List Char} {start : Nat} {mode : Mode}
    (h : run front = ⟨start, "", mode⟩) : start = bytes front := by
  have hends := (run_reads front).ends
  rw [h] at hends
  simpa using hends

end Scan

/-- A scan stands at a caret exactly if what stands in front of the caret is a walk from a place
where a scan starts anew. -/
theorem scanTo?_eq_some_iff {line : String} {caret : Nat} {scan : Scan} {after : List Char} :
    scanTo? line caret = some (scan, after) ↔ ∃ front,
      line.toList = front ++ scan.typed.toList ++ after ∧
      bytes (front ++ scan.typed.toList) = caret ∧
      Scan.run front = ⟨scan.start, "", .name⟩ ∧ Walk .name scan.typed.toList scan.mode := by
  unfold scanTo?
  constructor
  · intro h
    split at h
    · cases h
    next before rest hcut =>
      dsimp only at h
      split_ifs at h with hmode
      obtain ⟨rfl,rfl⟩ := Prod.mk.inj (Option.some.inj h)
      obtain ⟨hline,hbytes⟩ := cut?_eq_some_iff.mp hcut
      have hreads := Scan.run_reads before
      obtain ⟨front,hbefore,hfresh⟩ := hreads.begins
      refine ⟨front,?_,?_,hfresh,hreads.walk hmode⟩
      · rw [← hbefore,hline]
      · rw [← hbefore,hbytes]
  · rintro ⟨front,hline,hbytes,hfresh,hwalk⟩
    have hcut : cut? line.toList caret = some (front ++ scan.typed.toList, after) :=
      cut?_eq_some_iff.mpr ⟨hline,hbytes⟩
    have hrun : Scan.run (front ++ scan.typed.toList) = scan := by
      rw [Scan.run_append,hfresh,Scan.foldl_step_of_walk hwalk]
      simp
    simp [hcut, hrun, hwalk.ne_literal]

/-- What is being typed at a caret is a walk up to the caret from a place where a scan starts
anew. -/
theorem pathBefore?_eq_some_iff {line typed : String} {caret start : Nat} :
    pathBefore? line caret = some (start, typed) ↔ ∃ (front after : String) (mode : Mode),
      line = front ++ typed ++ after ∧ front.utf8ByteSize = start ∧
      start + typed.utf8ByteSize = caret ∧ Scan.run front.toList = ⟨start, "", .name⟩ ∧
      Walk .name typed.toList mode := by
  unfold pathBefore?
  rw [Option.map_eq_some_iff]
  constructor
  · rintro ⟨⟨scan,after⟩,hscan,hpath⟩
    obtain ⟨rfl,rfl⟩ := Prod.mk.inj hpath
    obtain ⟨front,hline,hbytes,hfresh,hwalk⟩ := scanTo?_eq_some_iff.mp hscan
    have hstart := Scan.start_of_fresh hfresh
    refine ⟨String.ofList front,String.ofList after,scan.mode,?_,?_,?_,?_,hwalk⟩
    · apply String.toList_injective
      simpa using hline
    · rw [utf8ByteSize_ofList,hstart]
    · rw [← hbytes,bytes_append,bytes_toList,hstart]
    · rw [String.toList_ofList]
      exact hfresh
  · rintro ⟨front,after,mode,rfl,rfl,rfl,hfresh,hwalk⟩
    refine ⟨(⟨front.utf8ByteSize, typed, mode⟩, after.toList),?_,rfl⟩
    apply scanTo?_eq_some_iff.mpr
    refine ⟨front.toList,by simp,?_,hfresh,hwalk⟩
    rw [bytes_append,bytes_toList,bytes_toList]

theorem pathBefore?_bounds {line typed : String} {caret start : Nat}
    (h : pathBefore? line caret = some (start, typed)) :
    start + typed.utf8ByteSize = caret ∧ caret ≤ line.utf8ByteSize := by
  obtain ⟨front,after,-,rfl,rfl,rfl,-,-⟩ := pathBefore?_eq_some_iff.mp h
  refine ⟨rfl,?_⟩
  simp only [String.utf8ByteSize_append]
  omega

/-- The characters `text` are a path of a line, between those in front of it and those behind it: a
scan starts anew in front of it, all of it belongs to the path, and what follows does not. -/
structure IsPath (front text rest : List Char) : Prop where
  nonempty : text ≠ []
  fresh : Scan.run front = ⟨bytes front, "", .name⟩
  whole : ∃ last, Walk .name text last ∧ ∀ c ∈ rest.head?, last.next? c = none

/-- What is found at an offset is a path of the line, and the offset is a place of it. -/
theorem isPath_of_pathAt? {line : String} {offset start : Nat} {text : String}
    (h : pathAt? line offset = some (start, text)) : ∃ front rest left right,
      line.toList = front ++ text.toList ++ rest ∧ IsPath front text.toList rest ∧
      start = bytes front ∧ text.toList = left ++ right ∧ offset = start + bytes left := by
  unfold pathAt? at h
  split at h
  · cases h
  next scan after hscan =>
    dsimp only at h
    split_ifs at h with hempty
    obtain ⟨rfl,rfl⟩ := Prod.mk.inj (Option.some.inj h)
    obtain ⟨front,hline,hbytes,hfresh,hwalk⟩ := scanTo?_eq_some_iff.mp hscan
    obtain ⟨last,rest,hafter,htake,hstop⟩ := takePath_spec scan.mode after
    have hstart := Scan.start_of_fresh hfresh
    rw [hstart] at hfresh
    have htext : (scan.typed ++ String.ofList (takePath scan.mode after)).toList =
        scan.typed.toList ++ takePath scan.mode after := by simp
    refine ⟨front,rest,scan.typed.toList,takePath scan.mode after,?_,⟨?_,hfresh,?_⟩,hstart,
      htext,?_⟩
    · rw [htext,hline]
      simp [← hafter]
    · simpa using hempty
    · rw [htext]
      exact ⟨last,hwalk.append htake,hstop⟩
    · rw [hstart,← hbytes,bytes_append]

/-- A path of the line is found at each of its places. -/
theorem pathAt?_of_isPath {line : String} {front left right rest : List Char}
    (hline : line.toList = front ++ (left ++ right) ++ rest)
    (hpath : IsPath front (left ++ right) rest) :
    pathAt? line (bytes front + bytes left) =
      some (bytes front, String.ofList (left ++ right)) := by
  obtain ⟨last,hwalk,hstop⟩ := hpath.whole
  obtain ⟨mode,hleft,hright⟩ := hwalk.of_append
  have hscan : scanTo? line (bytes front + bytes left) =
      some (⟨bytes front, String.ofList left, mode⟩, right ++ rest) := by
    apply scanTo?_eq_some_iff.mpr
    refine ⟨front,?_,?_,hpath.fresh,?_⟩
    · simp [hline]
    · simp
    · simpa using hleft
  have htake : takePath mode (right ++ rest) = right := by
    rw [hright.takePath_append,takePath_of_stop hstop,List.append_nil]
  simp only [pathAt?, hscan, htake, ← String.ofList_append]
  simpa using hpath.nonempty

/-- The path at an offset is the path of the line in which the offset falls between two characters
or at an end. -/
theorem pathAt?_eq_some_iff {line : String} {offset start : Nat} {text : String} :
    pathAt? line offset = some (start, text) ↔ ∃ front rest left right,
      line.toList = front ++ text.toList ++ rest ∧ IsPath front text.toList rest ∧
      start = bytes front ∧ text.toList = left ++ right ∧ offset = start + bytes left := by
  constructor
  · exact isPath_of_pathAt?
  · rintro ⟨front,rest,left,right,hline,hpath,rfl,htext,rfl⟩
    rw [htext] at hline hpath
    rw [pathAt?_of_isPath hline hpath,← htext,String.ofList_toList]

section Places
variable {line text : String} {offset start : Nat}

theorem pathAt?_bounds (h : pathAt? line offset = some (start, text)) :
    start ≤ offset ∧ offset ≤ start + text.utf8ByteSize ∧
      start + text.utf8ByteSize ≤ line.utf8ByteSize := by
  obtain ⟨front,rest,left,right,hline,-,rfl,htext,rfl⟩ := pathAt?_eq_some_iff.mp h
  rw [← bytes_toList,← bytes_toList,hline,htext]
  simp only [bytes_append]
  omega

/-- All the places of a path give this path. -/
theorem pathAt?_of_inside (h : pathAt? line offset = some (start, text)) {place : Nat}
    (hplace : (cut? line.toList place).isSome = true) (hstart : start ≤ place)
    (hstop : place ≤ start + text.utf8ByteSize) : pathAt? line place = some (start, text) := by
  obtain ⟨front,rest,-,-,hline,hpath,rfl,-,-⟩ := pathAt?_eq_some_iff.mp h
  obtain ⟨⟨before,after⟩,hcut⟩ := Option.isSome_iff_exists.mp hplace
  obtain ⟨hsplit,rfl⟩ := cut?_eq_some_iff.mp hcut
  rw [hsplit,List.append_assoc] at hline
  obtain ⟨left,rfl,hrest⟩ := exists_append_of_bytes_le hline.symm hstart
  rw [bytes_append,← bytes_toList] at hstop
  obtain ⟨right,htext,-⟩ := exists_append_of_bytes_le hrest.symm (by omega)
  refine pathAt?_eq_some_iff.mpr ⟨front,rest,left,right,?_,hpath,rfl,htext,bytes_append _ _⟩
  rw [hsplit,List.append_assoc,List.append_assoc,hrest]

/-- Two paths of which the second begins within the first are one. -/
theorem path_eq_of_start {other : Nat} {text' : String} {start' : Nat}
    (h : pathAt? line offset = some (start, text))
    (h' : pathAt? line other = some (start', text')) (hle : start ≤ start')
    (htouch : start' ≤ start + text.utf8ByteSize) : (start', text') = (start, text) := by
  have hcut : (cut? line.toList start').isSome = true := by
    obtain ⟨front,rest,-,-,hline,-,rfl,-,-⟩ := pathAt?_eq_some_iff.mp h'
    rw [List.append_assoc] at hline
    exact Option.isSome_iff_exists.mpr ⟨_,cut?_eq_some_iff.mpr ⟨hline,rfl⟩⟩
  have hfirst := pathAt?_of_inside h hcut hle htouch
  have hsecond := pathAt?_of_inside h' hcut (Nat.le_refl _) (by omega)
  rw [hfirst] at hsecond
  exact (Option.some.inj hsecond).symm

end Places

/-- The paths of a line do not touch each other: an offset lies within the path found there, every
other place of this path finds it too, and the path found elsewhere is this one or stands apart. -/
theorem line_paths_partition {line text : String} {offset start : Nat}
    (h : pathAt? line offset = some (start, text)) :
    start ≤ offset ∧ offset ≤ start + text.utf8ByteSize ∧
    (∀ place, (cut? line.toList place).isSome = true → start ≤ place →
      place ≤ start + text.utf8ByteSize → pathAt? line place = some (start, text)) ∧
    ∀ other start' text', pathAt? line other = some (start', text') →
      (start', text') = (start, text) ∨ start + text.utf8ByteSize < start' ∨
        start' + text'.utf8ByteSize < start := by
  obtain ⟨hstart,hstop,-⟩ := pathAt?_bounds h
  refine ⟨hstart,hstop,fun place => pathAt?_of_inside h,?_⟩
  intro other start' text' h'
  by_cases hapart : start + text.utf8ByteSize < start' ∨ start' + text'.utf8ByteSize < start
  · exact Or.inr hapart
  · left
    rcases Nat.le_total start start' with hle | hle
    · exact path_eq_of_start h h' hle (by omega)
    · exact (path_eq_of_start h' h hle (by omega)).symm

end Names

theorem line_paths_partition_covers :
    let line := "2 * prämie[\"A] B\"].sum + \"x.y\""
    let path := "prämie[\"A] B\"].sum"
    pathAt? line 14 = some (4, path) ∧ pathAt? line 23 = some (4, path) := by
  intro line path
  have h : pathAt? line 14 = some (4, path) := by decide +kernel
  exact ⟨h,(line_paths_partition h).2.2.1 23 (by decide) (by decide) (by decide)⟩

end FormulaPath.Line
