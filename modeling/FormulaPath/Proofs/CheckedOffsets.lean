import FormulaPath.Proofs.CompletionEdit
import FormulaPath.Proofs.HoverNode
import FormulaPath.Proofs.Locator

/-!
# Requests without faults

All requests once more, as they are answered by offsets: a locator passes the parts of a path, and
the path of a line is cut out of it between the offset where a scan started anew and the one where
the path ends. A loop that passes from part to part is only allowed as many parts as the text has
bytes, and one more. Here everything that can go wrong is a fault, and the answers are still the
same as those of the definitions that work on characters. Only the numbering of completions is left
as a fault of these, so nothing goes wrong as long as the proposals can be counted.

The end of a path is looked for in the bytes of the line. In a bracket the search passes places
inside characters, but it leaves the bracket only behind a character (`pathEnd_char`).
-/
namespace FormulaPath

/-- The proposals for the last of some parts behind a trail. -/
def proposalsFor (env : Environment) (trail : Trail) (parts : List Part) : List Proposal :=
  match settle? env trail parts.dropLast, parts.getLast? with
  | some trail, some part =>
    if part.separator = .missing then [] else proposalsAt env trail part.text
  | _, _ => []

theorem proposalsFor_singleton (env : Environment) (trail : Trail) (part : Part) :
    proposalsFor env trail [part] =
      if part.separator = .missing then [] else proposalsAt env trail part.text := rfl

theorem proposalsFor_cons (env : Environment) (trail : Trail) (part : Part) {parts : List Part}
    (h : parts ≠ []) : proposalsFor env trail (part :: parts) =
      if (partNode env trail part).isInvalid then []
      else proposalsFor env (partNode env trail part :: trail) parts := by
  cases parts with
  | nil => exact absurd rfl h
  | cons later parts =>
      simp only [proposalsFor, List.dropLast_cons_cons, List.getLast?_cons_cons, settle?]
      split_ifs <;> rfl

namespace Locator

/-- The parts from here on, if there are at most `count`. -/
def listParts : Nat → Locator → Except Fault (List Part)
  | 0, _ => .error .endless
  | count + 1, l => do
    let part ← l.current
    if l.hasNext then
      let later ← listParts count (← l.next)
      .ok (part :: later)
    else .ok [part]

/-- The chain of the parts from here on behind a trail, if they are at most `count`. -/
def listNodes (env : Environment) (trail : Trail) : Nat → Locator → Except Fault (List Node)
  | 0, _ => .error .endless
  | count + 1, l => do
    let part ← l.current
    let node := partNode env trail part
    if node.isInvalid || !l.hasNext then .ok [node]
    else
      let later ← listNodes env (node :: trail) count (← l.next)
      .ok (node :: later)

/-- The proposals for the last of the parts from here on behind a trail, if they are at most
`count`. -/
def listProposals (env : Environment) (trail : Trail) :
    Nat → Locator → Except Fault (List Proposal)
  | 0, _ => .error .endless
  | count + 1, l =>
    if l.hasNext then do
      let part ← l.current
      let node := partNode env trail part
      if node.isInvalid then .ok [] else listProposals env (node :: trail) count (← l.next)
    else if l.separator = .missing then .ok []
    else do
      let typed ← l.text
      .ok (proposalsAt env trail typed)

namespace Yields
variable {l : Locator} {list : List Part}

theorem listParts (h : Yields l list) (extra : Nat) :
    l.listParts (extra + list.length) = .ok list := by
  induction h with
  | last hcurrent hhas => simp [Locator.listParts, hcurrent, hhas, bind, Except.bind]
  | next hcurrent hhas hnext _ ih =>
      rw [List.length_cons,← Nat.add_assoc]
      simp [Locator.listParts, hcurrent, hhas, hnext, ih, bind, Except.bind]

theorem listNodes (h : Yields l list) (env : Environment) (trail : Trail) (extra : Nat) :
    l.listNodes env trail (extra + list.length) = .ok (resolveFrom env trail list) := by
  induction h generalizing trail with
  | last hcurrent hhas => simp [Locator.listNodes, hcurrent, hhas, bind, Except.bind, resolveFrom]
  | next hcurrent hhas hnext _ ih =>
      rw [List.length_cons,← Nat.add_assoc]
      simp only [Locator.listNodes, resolveFrom, hcurrent, hhas, hnext, ih, bind, Except.bind,
        Bool.not_true, Bool.or_false]
      split_ifs <;> rfl

theorem listProposals (h : Yields l list) (env : Environment) (trail : Trail) (extra : Nat) :
    l.listProposals env trail (extra + list.length) = .ok (proposalsFor env trail list) := by
  induction h generalizing trail with
  | last hcurrent hhas =>
      obtain ⟨htext,hseparator⟩ := text_of_current hcurrent
      simp only [List.length_singleton, Locator.listProposals, hhas, Bool.false_eq_true, if_false,
        htext, hseparator, proposalsFor_singleton, bind, Except.bind]
      split_ifs <;> rfl
  | next hcurrent hhas hnext hyields ih =>
      rw [proposalsFor_cons env trail _ hyields.ne_nil,List.length_cons,← Nat.add_assoc]
      simp only [Locator.listProposals, hcurrent, hhas, hnext, ih, bind, Except.bind, if_true]
      split_ifs <;> rfl

end Yields

end Locator

namespace Checked
open Text Line

/-- The number of parts that a text may have. -/
def allowance (text : String) : Nat := text.utf8ByteSize + 1

/-- The parts of a text. -/
def split (text : String) : Except Fault (List Part) := do
  let first ← Locator.ofText text
  first.listParts (allowance text)

/-- The chain of a path. -/
def resolve (env : Environment) (path : String) : Except Fault (List Node) := do
  let first ← Locator.ofText path
  if path.isEmpty then .ok [⟨first.region, .empty⟩] else first.listNodes env [] (allowance path)

/-- The proposals for a path that is being typed. -/
def proposals (env : Environment) (path : String) : Except Fault (List Proposal) := do
  let first ← Locator.ofText path
  first.listProposals env [] (allowance path)

/-- The path that is being typed at a caret, cut out of the line. -/
def pathBefore [NameClass] (line : String) (caret : Nat) : Except Fault (Option (Nat × String)) :=
  match scanTo? line caret with
  | none => .ok none
  | some (scan, _) => do
    let typed ← slice line scan.start caret
    .ok (some (scan.start, typed))

/-- The mode behind a byte in a bracket. -/
def behindByte (quoted : Bool) (b : UInt8) : Mode :=
  if b = '"'.toUInt8 then .bracket !quoted
  else if b = ']'.toUInt8 ∧ quoted = false then .name
  else .bracket quoted

/-- The offset at which a path ends that goes on at an offset. In a bracket the line is read byte by
byte, which passes places inside characters. -/
def pathEnd [NameClass] (line : String) (mode : Mode) (stop : Nat) : Except Fault (Option Nat) :=
  if h : stop < (octets line).length then
    match mode with
    | .bracket quoted => pathEnd line (behindByte quoted (octets line)[stop]) (stop + 1)
    | _ =>
      if (octets line)[stop] = '['.toUInt8 then pathEnd line (.bracket false) (stop + 1)
      else if (octets line)[stop] = '.'.toUInt8 then pathEnd line mode (stop + 1)
      else
        match cut? line.toList stop with
        | none => .error .misplaced
        | some (_, []) => .ok none
        | some (_, c :: _) =>
          if isNameChar c then pathEnd line mode (stop + c.utf8Size) else .ok (some stop)
  else .ok (some stop)
termination_by (octets line).length - stop
decreasing_by
  · omega
  · omega
  · omega
  · have := c.utf8Size_pos
    omega

/-- The whole path around an offset, cut out of the line. -/
def pathAt [NameClass] (line : String) (offset : Nat) : Except Fault (Option (Nat × String)) :=
  match scanTo? line offset with
  | none => .ok none
  | some (scan, _) => do
    match ← pathEnd line scan.mode offset with
    | none => .ok none
    | some stop =>
      let text ← slice line scan.start stop
      .ok (if text.isEmpty then none else some (scan.start, text))

/-- The completions at a caret of a line. -/
def completions [NameClass] (env : Environment) (line : String) (caret : Nat) :
    Except Fault (List Completion) := do
  match ← pathBefore line caret with
  | none => .ok []
  | some (_, typed) =>
    match ← proposals env typed with
    | [] => .ok []
    | first :: rest => do
      let start ← distance first.typed.utf8ByteSize caret
      Completion.ofProposals start 0 (first :: rest)

/-- What is shown for an offset of a line. -/
def hover [NameClass] (env : Environment) (line : String) (offset : Nat) :
    Except Fault (Option Hover) := do
  match ← pathAt line offset with
  | none => .ok none
  | some (start, path) =>
    let chain ← resolve env path
    let inside ← distance start offset
    match Hover.nodeAt? chain inside with
    | none => .ok none
    | some node => do
      let region ← node.region.shift start
      .ok (some ⟨Hover.describe node.meaning, region, node.datatype?, node.problem?⟩)

section Line
variable [NameClass] {line : String} {stop : Nat}

theorem pathEnd_bracket {b : UInt8} (hb : (octets line)[stop]? = some b) (quoted : Bool) :
    pathEnd line (.bracket quoted) stop = pathEnd line (behindByte quoted b) (stop + 1) := by
  obtain ⟨hlt,rfl⟩ := List.getElem?_eq_some_iff.mp hb
  rw [pathEnd,dif_pos hlt]

/-- Bytes other than quotes and closing brackets are passed in a bracket, whether or not they are
those of whole characters. -/
theorem pathEnd_append {quoted : Bool} {l r : List UInt8} (hdrop : (octets line).drop stop = l ++ r)
    (hclose : quoted = false → ']'.toUInt8 ∉ l) (hquote : '"'.toUInt8 ∉ l) :
    pathEnd line (.bracket quoted) stop = pathEnd line (.bracket quoted) (stop + l.length) := by
  induction l generalizing stop with
  | nil => rfl
  | cons b l ih =>
      have hbyte : (octets line)[stop]? = some b := by
        rw [← List.head?_drop,hdrop]
        rfl
      have hdrop' : (octets line).drop (stop + 1) = l ++ r := by
        rw [← List.drop_drop,hdrop]
        rfl
      simp only [List.mem_cons, not_or] at hclose hquote
      have hstay : behindByte quoted b = .bracket quoted := by
        rw [behindByte,if_neg (Ne.symm hquote.1),if_neg fun h => (hclose h.2).1 h.1.symm]
      rw [pathEnd_bracket hbyte,hstay,ih hdrop' (fun h => (hclose h).2) hquote.2,List.length_cons]
      congr 1
      omega

theorem pathEnd_bracket_char {front rest : List Char} {c : Char}
    (h : line.toList = front ++ c :: rest) {quoted : Bool} {next : Mode}
    (hnext : (Mode.bracket quoted).next? c = some next) :
    pathEnd line (.bracket quoted) (bytes front) = pathEnd line next (bytes (front ++ [c])) := by
  obtain ⟨b,hb,hbyte⟩ := exists_getElem?_octets h
  by_cases hquote : c = '"'
  · subst hquote
    obtain rfl := (eq_toUInt8_iff (by decide) hb).mpr rfl
    obtain rfl := Option.some.inj hnext
    rw [pathEnd_bracket hbyte,bytes_append]
    rfl
  by_cases hclose : c = ']' ∧ quoted = false
  · obtain ⟨rfl,rfl⟩ := hclose
    obtain rfl := (eq_toUInt8_iff (by decide) hb).mpr rfl
    obtain rfl := Option.some.inj hnext
    rw [pathEnd_bracket hbyte,bytes_append]
    rfl
  · have hdrop : (octets line).drop (bytes front) = String.utf8EncodeChar c ++ encode rest :=
      drop_octets h
    rw [Mode.next?,if_neg hquote,if_neg hclose] at hnext
    obtain rfl := Option.some.inj hnext
    rw [pathEnd_append hdrop,String.length_utf8EncodeChar,bytes_append]
    · rfl
    · intro hopen hmem
      exact hclose ⟨(mem_utf8EncodeChar_iff (by decide)).mp hmem,hopen⟩
    · intro hmem
      exact hquote ((mem_utf8EncodeChar_iff (by decide)).mp hmem)

theorem pathEnd_name_char {front rest : List Char} {c : Char}
    (h : line.toList = front ++ c :: rest) :
    pathEnd line .name (bytes front) = (Mode.name.next? c).elim (.ok (some (bytes front)))
      fun next => pathEnd line next (bytes (front ++ [c])) := by
  obtain ⟨b,hb,hbyte⟩ := exists_getElem?_octets h
  obtain ⟨hlt,rfl⟩ := List.getElem?_eq_some_iff.mp hbyte
  have hcut : cut? line.toList (bytes front) = some (front, c :: rest) :=
    cut?_eq_some_iff.mpr ⟨h,rfl⟩
  rw [pathEnd,dif_pos hlt]
  simp only [eq_toUInt8_iff (d := '[') (by decide) hb, eq_toUInt8_iff (d := '.') (by decide) hb,
    hcut, bytes_append, Mode.next?]
  by_cases hopen : c = '['
  · subst hopen
    rfl
  by_cases hdot : c = '.'
  · subst hdot
    rfl
  · by_cases hname : isNameChar c = true <;> simp [hopen, hdot, hname]

/-- A character that continues the path is passed as a whole, and the path ends in front of any
other. -/
theorem pathEnd_char {front rest : List Char} {c : Char} (h : line.toList = front ++ c :: rest)
    {mode : Mode} (hmode : mode ≠ .literal) :
    pathEnd line mode (bytes front) = (mode.next? c).elim (.ok (some (bytes front)))
      fun next => pathEnd line next (bytes (front ++ [c])) := by
  cases mode with
  | literal => exact absurd rfl hmode
  | name => exact pathEnd_name_char h
  | bracket quoted =>
      cases hnext : (Mode.bracket quoted).next? c with
      | none =>
          simp only [Mode.next?] at hnext
          split_ifs at hnext
      | some next => exact pathEnd_bracket_char h hnext

theorem pathEnd_of_append {front rest : List Char} (h : line.toList = front ++ rest) {mode : Mode}
    (hmode : mode ≠ .literal) :
    pathEnd line mode (bytes front) = .ok (some (bytes front + bytes (takePath mode rest))) := by
  induction rest generalizing front mode with
  | nil =>
      have hend : ¬ bytes front < (octets line).length := by
        rw [octets_eq_encode,length_encode,h,List.append_nil]
        exact Nat.lt_irrefl _
      rw [pathEnd,dif_neg hend,takePath_of_stop (by simp)]
      rfl
  | cons c rest ih =>
      rw [pathEnd_char h hmode,takePath_cons]
      cases hnext : mode.next? c with
      | none => rfl
      | some next =>
          have hlater : next ≠ .literal := by
            rintro rfl
            exact Mode.next?_ne_literal hnext
          have happ : line.toList = front ++ [c] ++ rest := by
            rw [h,List.append_assoc,List.singleton_append]
          rw [Option.elim_some,Option.elim_some,ih happ hlater,bytes_append,bytes_cons,
            Nat.add_assoc]
          rfl

theorem pathBefore_eq (line : String) (caret : Nat) :
    pathBefore line caret = .ok (pathBefore? line caret) := by
  unfold pathBefore pathBefore?
  cases hscan : scanTo? line caret with
  | none => rfl
  | some found =>
      obtain ⟨scan,after⟩ := found
      obtain ⟨front,hline,hbytes,hfresh,-⟩ := scanTo?_eq_some_iff.mp hscan
      have hslice := slice_of_append hline
      rw [← bytes_append,hbytes,← Scan.start_of_fresh hfresh,String.ofList_toList] at hslice
      simp only [hslice]
      rfl

theorem pathAt_eq (line : String) (offset : Nat) :
    pathAt line offset = .ok (pathAt? line offset) := by
  unfold pathAt pathAt?
  cases hscan : scanTo? line offset with
  | none => rfl
  | some found =>
      obtain ⟨scan,after⟩ := found
      obtain ⟨front,hline,hbytes,hfresh,hwalk⟩ := scanTo?_eq_some_iff.mp hscan
      have hend := pathEnd_of_append hline (hwalk.ne_literal (by simp))
      obtain ⟨-,rest,hafter,-,-⟩ := takePath_spec scan.mode after
      have happ : line.toList =
          front ++ (scan.typed.toList ++ takePath scan.mode after) ++ rest := by
        rw [hline,List.append_assoc,List.append_assoc,List.append_assoc,← hafter]
      have hslice := slice_of_append happ
      rw [bytes_append,← Nat.add_assoc,← bytes_append,hbytes,← Scan.start_of_fresh hfresh,
        String.ofList_append,String.ofList_toList] at hslice
      rw [hbytes] at hend
      simp only [hend, hslice, bind, Except.bind]

end Line

section Text
variable {text : String} (hlen : text.utf8ByteSize ≤ Region.limit)
include hlen

/-- Every loop over the parts of a text starts at its first part, and all the parts it passes are
allowed. -/
theorem exists_first : ∃ first extra, Locator.ofText text = .ok first ∧
    first.Yields (Path.split text) ∧ extra + (Path.split text).length = allowance text := by
  obtain ⟨first,hfirst,hinput,hstop,hyields⟩ := Locator.yields_split hlen
  have hcount := hyields.length_le (by rwa [hinput]) (by rwa [hinput])
  rw [hinput] at hcount
  refine ⟨first,allowance text - (Path.split text).length,hfirst,hyields,?_⟩
  unfold allowance
  omega

theorem split_eq : split text = .ok (Path.split text) := by
  obtain ⟨first,extra,hfirst,hyields,hcount⟩ := exists_first hlen
  rw [split,hfirst,← hcount]
  exact hyields.listParts extra

theorem resolve_eq (env : Environment) :
    resolve env text = .ok (FormulaPath.resolve env text) := by
  obtain ⟨first,extra,hfirst,hyields,hcount⟩ := exists_first hlen
  rw [resolve,hfirst,← hcount,FormulaPath.resolve]
  simp only [bind, Except.bind]
  split_ifs with h
  · obtain rfl := String.isEmpty_iff.mp h
    have hempty : "".toList = [] ++ [] := rfl
    obtain rfl := Except.ok.inj (hfirst.symm.trans (Locator.locate_of_append hempty .start))
    rfl
  · exact hyields.listNodes env [] extra

theorem proposals_eq (env : Environment) :
    proposals env text = .ok (FormulaPath.proposals env text) := by
  obtain ⟨first,extra,hfirst,hyields,hcount⟩ := exists_first hlen
  rw [proposals,hfirst,← hcount]
  exact hyields.listProposals env [] extra

end Text

section Answers
variable [NameClass] (env : Environment) {line : String} (hlen : line.utf8ByteSize ≤ Region.limit)
include hlen

theorem completions_eq (caret : Nat) :
    completions env line caret = FormulaPath.completions env line caret := by
  have hbefore := pathBefore_eq line caret
  cases hpath : pathBefore? line caret with
  | none =>
      rw [hpath] at hbefore
      rw [completions_of_none env hpath]
      simp only [completions, hbefore, bind, Except.bind]
  | some path =>
      obtain ⟨start,typed⟩ := path
      obtain ⟨hcaret,hline⟩ := pathBefore?_bounds hpath
      have htyped : typed.utf8ByteSize ≤ Region.limit := by omega
      have hproposals := proposals_eq htyped env
      rw [hpath] at hbefore
      cases hfound : FormulaPath.proposals env typed <;>
        simp only [completions, hbefore, hproposals, FormulaPath.completions, hpath, hfound, bind,
          Except.bind]

theorem hover_eq (offset : Nat) : ∃ shown,
    FormulaPath.hover env line offset = .ok shown ∧ hover env line offset = .ok shown := by
  have hat := pathAt_eq line offset
  cases hpath : pathAt? line offset with
  | none =>
      rw [hpath] at hat
      refine ⟨none,hover_of_none env hpath,?_⟩
      simp only [hover, hat, bind, Except.bind]
  | some path =>
      obtain ⟨start,text⟩ := path
      obtain ⟨hstart,hstop,hline⟩ := pathAt?_bounds hpath
      have htext : text.utf8ByteSize ≤ Region.limit := by omega
      have hresolve := resolve_eq htext env
      have hinside : offset - start ≤ text.utf8ByteSize := by omega
      obtain ⟨node,-,hnode,-⟩ := Hover.nodeAt?_resolve env htext hinside
      obtain ⟨shown,hshown,-⟩ := exists_hover env hlen hpath
      refine ⟨some shown,hshown,?_⟩
      rw [← hshown]
      rw [hpath] at hat
      simp only [hover, hat, hresolve, FormulaPath.hover, hpath, distance, if_pos hstart, hnode, bind,
        Except.bind]

end Answers

end Checked

/-- No request reaches a fault. With every offset, cut and step to the next part checked, a text
gets the same parts, the same chain and the same proposals as without, a line the same completions
and the same hover at any offset, and the loops never see more parts than allowed. Completions are
numbered in 32 bits, so they are promised where the proposals can be counted in these. A locator that
is not at the end of its text always finds a next part, and this part ends further behind. -/
theorem answers_without_fault [Text.NameClass] (env : Environment) :
    (∀ text : String, text.utf8ByteSize ≤ Region.limit →
      Checked.split text = .ok (Path.split text) ∧
      (Path.split text).length ≤ text.utf8ByteSize + 1 ∧
      Checked.resolve env text = .ok (resolve env text) ∧
      Checked.proposals env text = .ok (proposals env text)) ∧
    (∀ l : Locator, l.input.utf8ByteSize ≤ Region.limit → l.hasNext = true →
      ∃ l', l.next = .ok l' ∧ l'.input = l.input ∧ l.region.stop < l'.region.stop ∧
        l'.region.stop ≤ l.input.utf8ByteSize) ∧
    ∀ line : String, line.utf8ByteSize ≤ Region.limit → ∀ offset : Nat,
      Checked.completions env line offset = completions env line offset ∧
      (ProposalsCounted env line offset → ∃ items, completions env line offset = .ok items ∧
        Checked.completions env line offset = .ok items) ∧
      ∃ shown, hover env line offset = .ok shown ∧
        Checked.hover env line offset = .ok shown := by
  refine ⟨fun text hlen => ?_,fun l hlen hnext => ?_,fun line hlen offset => ?_⟩
  · obtain ⟨-,extra,-,-,hcount⟩ := Checked.exists_first hlen
    have hle : (Path.split text).length ≤ text.utf8ByteSize + 1 := by
      rw [Checked.allowance] at hcount
      omega
    exact ⟨Checked.split_eq hlen,hle,Checked.resolve_eq hlen env,Checked.proposals_eq hlen env⟩
  · exact Locator.next_advances hlen hnext
  · have hsame := Checked.completions_eq env hlen offset
    refine ⟨hsame,fun hcount => ?_,Checked.hover_eq env hlen offset⟩
    obtain ⟨items,hitems⟩ := exists_completions env hlen hcount
    exact ⟨items,hitems,hsame.trans hitems⟩

theorem answers_without_fault_umlauts :
    let path := "größe[\"ß]é\"].x"
    let first : Locator := ⟨path, Region.span 0 7, .start⟩
    let line := "größe + covers[0].Su"
    path.utf8ByteSize ≤ Region.limit ∧ first.hasNext = true ∧
      (Path.split path).map (fun part => (part.text, part.region.stop)) =
        [("größe", 7), ("[\"ß]é\"]", 16), ("x", 18)] ∧
      Checked.split path = .ok (Path.split path) ∧
      (∃ l', first.next = .ok l' ∧ l'.input = path ∧ 7 < l'.region.stop ∧
        l'.region.stop ≤ path.utf8ByteSize) ∧
      line.utf8ByteSize ≤ Region.limit ∧ ProposalsCounted sampleEnvironment line 22 ∧
      (completions sampleEnvironment line 22).map (·.map (·.insert)) = .ok ["sum"] ∧
      (∃ items, completions sampleEnvironment line 22 = .ok items ∧
        Checked.completions sampleEnvironment line 22 = .ok items) ∧
      ∃ shown, hover sampleEnvironment line 12 = .ok shown ∧
        Checked.hover sampleEnvironment line 12 = .ok shown := by
  intro path first line
  have hlen : path.utf8ByteSize ≤ Region.limit := by decide
  have hnext : first.hasNext = true := by decide
  have hline : line.utf8ByteSize ≤ Region.limit := by decide
  have hpath : Line.pathBefore? line 22 = some (10, "covers[0].Su") := by decide +kernel
  have hcount : ProposalsCounted sampleEnvironment line 22 :=
    (proposalsCounted_iff sampleEnvironment hpath).mpr (by decide +kernel)
  obtain ⟨htexts,hlocators,hlines⟩ := answers_without_fault sampleEnvironment
  exact ⟨hlen,hnext,by decide +kernel,(htexts path hlen).1,hlocators first hlen hnext,hline,hcount,
    by decide +kernel,(hlines line hline 22).2.1 hcount,(hlines line hline 12).2.2⟩

end FormulaPath
