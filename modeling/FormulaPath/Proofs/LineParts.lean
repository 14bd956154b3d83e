import FormulaPath.Proofs.LinePaths
import FormulaPath.Proofs.Terminated

/-!
# The parts of a path in a line

The scan of a line and the splitting of a path know the same brackets and quotes, each in its own
way: the scan carries a mode from character to character, splitting looks for the end of each part.
Along a walk they agree. `walk_takeBracket` says so of one bracket, `parts_of_walk` of a whole path:
what is no bracket consists of name characters, and the mode behind the path can be told from its
last part (`Mode.behind`).
-/
namespace FormulaPath.Line
open Text FormulaPath.Path Separator

namespace Walk
variable [NameClass] {m last other : Mode} {cs : List Char}

theorem unique (h : Walk m cs last) (h' : Walk m cs other) : last = other := by
  induction h with
  | nil =>
      cases h'
      rfl
  | cons hc _ ih =>
      cases h' with
      | cons hc' h' =>
          obtain rfl := Option.some.inj (hc.symm.trans hc')
          exact ih h'

/-- Without a dot or a bracket, a walk through a name stays in it. -/
theorem of_name (h : Walk .name cs last) (hname : ∀ c ∈ cs, endsName c = false) :
    last = .name ∧ ∀ c ∈ cs, isNameChar c = true := by
  induction cs with
  | nil =>
      cases h
      simp
  | cons c cs ih =>
      have hc : c ≠ '.' ∧ c ≠ '[' := by simpa [endsName] using hname c List.mem_cons_self
      cases h with
      | cons hnext h =>
          rw [Mode.next?] at hnext
          split_ifs at hnext with hopen hchar
          · exact absurd hopen hc.2
          · obtain rfl := Option.some.inj hnext
            obtain ⟨hlast,hrest⟩ := ih h fun d hd => hname d (List.mem_cons_of_mem c hd)
            exact ⟨hlast,List.forall_mem_cons.mpr ⟨hchar.resolve_left hc.1,hrest⟩⟩

end Walk

/-- The mode behind characters that were read in a bracket, up to its end. -/
def bracketMode (quoted : Bool) (cs : List Char) : Mode :=
  if cs.getLast? = some ']' ∧ opensQuote cs = quoted then .name
  else .bracket (quoted != opensQuote cs)

theorem bracketMode_cons {quoted : Bool} {c : Char} (hc : ¬ (c = ']' ∧ quoted = false))
    (cs : List Char) :
    bracketMode quoted (c :: cs) = bracketMode ((c == '"') != quoted) cs := by
  cases cs with
  | nil =>
      have hopen : ¬ (c = ']' ∧ opensQuote [c] = quoted) := by
        rintro ⟨rfl,rfl⟩
        exact hc ⟨rfl,rfl⟩
      simp only [bracketMode, List.getLast?_singleton, Option.some.injEq, if_neg hopen]
      simp [opensQuote_cons, Bool.xor_comm]
  | cons d cs =>
      simp only [bracketMode, List.getLast?_cons_cons, opensQuote_cons c]
      cases quoted <;> cases c == '"' <;> simp

/-- The scan follows a bracket to its end, and the quotes in it to the last. -/
theorem walk_takeBracket [NameClass] (quoted : Bool) (cs : List Char) :
    Walk (.bracket quoted) (takeBracket quoted cs).1
      (bracketMode quoted (takeBracket quoted cs).1) := by
  induction cs generalizing quoted with
  | nil =>
      have hmode : bracketMode quoted [] = .bracket quoted := by simp [bracketMode]
      rw [takeBracket,hmode]
      exact .nil _
  | cons c cs ih =>
      by_cases hc : c = ']' ∧ quoted = false
      · obtain ⟨rfl,rfl⟩ := hc
        exact .cons rfl (.nil _)
      · have hnext : (Mode.bracket quoted).next? c = some (.bracket ((c == '"') != quoted)) := by
          by_cases hquote : c = '"'
          · simp [Mode.next?, hquote]
          · simp [Mode.next?, hquote, hc, beq_false_of_ne hquote]
        rw [takeBracket_cons hc,bracketMode_cons hc]
        exact .cons hnext (ih _)

/-- The mode in which a scan stands behind a path, told from the last part of the path. -/
def Mode.behind (text : String) : Mode :=
  if isBracketText text && !isTerminated text then .bracket (opensQuote text.toList) else .name

theorem Mode.behind_eq_bracket_iff {text : String} {quoted : Bool} :
    Mode.behind text = .bracket quoted ↔
      (isBracketText text && !isTerminated text) = true ∧ opensQuote text.toList = quoted := by
  unfold Mode.behind
  split_ifs with h <;> simp [h]

theorem Mode.behind_bracket (body : List Char) :
    Mode.behind (String.ofList ('[' :: body)) = bracketMode false body := by
  have hquotes : opensQuote ('[' :: body) = opensQuote body := by simp [opensQuote_cons]
  cases body with
  | nil => decide
  | cons c body =>
      simp only [Mode.behind, isBracketText, isTerminated, bracketMode, String.toList_ofList,
        hquotes, List.getLast?_cons_cons]
      cases opensQuote (c :: body) <;> by_cases hlast : (c :: body).getLast? = some ']' <;>
        simp [hlast]

theorem Mode.behind_name {text : String} (h : ∀ c ∈ text.toList, endsName c = false) :
    Mode.behind text = .name := by
  simp [Mode.behind, isBracketText_of_name h]

/-- A part that something follows is not left open. -/
theorem behind_of_next {cs rest : List Char} {c : Char} (h : (takePart cs).2 = c :: rest) :
    Mode.behind (String.ofList (takePart cs).1) = .name := by
  by_cases hopen : cs.head? = some '['
  · obtain ⟨body,rfl⟩ := List.head?_eq_some_iff.mp hopen
    change (takeBracket false body).2 = c :: rest at h
    rw [takePart,Mode.behind_bracket]
    rcases takeBracket_cases false body with ⟨inside,hinside,hquotes,-⟩ | ⟨hall,-⟩
    · rw [hinside]
      simp [bracketMode, opensQuote_cons, hquotes]
    · simp [hall] at h
  · rw [takePart_of_head hopen]
    exact Mode.behind_name (by simpa using fun c => mem_takeName)

section Names
variable [NameClass]

section Parts
variable {cs : List Char} {m : Mode}

/-- The first part of a walk: it ends in the mode that can be told from it, the walk goes on from
there, and if it is no bracket it consists of name characters. -/
theorem walk_takePart (h : Walk .name cs m) :
    Walk .name (takePart cs).1 (Mode.behind (String.ofList (takePart cs).1)) ∧
      Walk (Mode.behind (String.ofList (takePart cs).1)) (takePart cs).2 m ∧
      (isBracketText (String.ofList (takePart cs).1) = false →
        ∀ c ∈ (takePart cs).1, isNameChar c = true) := by
  rw [← takePart_append cs] at h
  obtain ⟨next,hfirst,hrest⟩ := h.of_append
  by_cases hopen : cs.head? = some '['
  · obtain ⟨body,rfl⟩ := List.head?_eq_some_iff.mp hopen
    have hbracket : Walk .name ('[' :: (takeBracket false body).1)
        (bracketMode false (takeBracket false body).1) := .cons rfl (walk_takeBracket false body)
    obtain rfl := hfirst.unique hbracket
    rw [takePart,Mode.behind_bracket]
    exact ⟨hfirst,hrest,by simp [isBracketText]⟩
  · rw [takePart_of_head hopen] at hfirst hrest ⊢
    obtain ⟨rfl,hchars⟩ := hfirst.of_name fun c => mem_takeName
    have hmode : Mode.behind (String.ofList (takeName cs).1) = .name :=
      Mode.behind_name (by simpa using fun c => mem_takeName)
    rw [hmode]
    exact ⟨hfirst,hrest,fun _ => hchars⟩

/-- A separator between two parts leaves a walk between them. -/
theorem walk_separator (c : Char) : Walk .name (ofChar c).text.toList .name := by
  by_cases hdot : c = '.'
  · rw [hdot]
    exact .cons rfl (.nil .name)
  · have htext : (ofChar c).text = "" := by
      by_cases hopen : c = '[' <;> simp [ofChar, hdot, hopen, text]
    rw [htext]
    exact .nil .name

/-- Along a walk the parts that are no brackets consist of name characters, a walk leads in between
two parts to the last one, and it ends in the mode that can be told from this part. -/
theorem parts_of_walk {sep : Separator} {start : Nat} (h : Walk .name cs m) :
    (∀ part ∈ splitFrom sep start cs, part.isBracket = false →
      ∀ c ∈ part.text.toList, isNameChar c = true) ∧
    ∃ front last, (splitFrom sep start cs).getLast? = some last ∧
      cs = front ++ last.text.toList ∧ Walk .name front .name ∧ m = Mode.behind last.text := by
  -- The induction is on what is left of the text; `walk_takePart` settles its first part.
  induction hlen : cs.length using Nat.strong_induction_on generalizing sep start cs with
  | _ n ih =>
      obtain ⟨hfirst,hwalk,hchars⟩ := walk_takePart h
      cases hnext : (takePart cs).2 with
      | nil =>
          have hall := takePart_append cs
          rw [hnext,List.append_nil] at hall
          rw [hnext] at hwalk
          rw [hall] at hwalk hchars
          rw [splitFrom_last hnext]
          cases hwalk
          refine ⟨?_,[],_,rfl,by simp,.nil .name,rfl⟩
          intro part hpart
          rw [List.mem_singleton.mp hpart,String.toList_ofList]
          exact hchars
      | cons c rest =>
          rw [hnext,behind_of_next hnext] at hwalk
          rw [behind_of_next hnext] at hfirst
          have hlater : Walk .name ((c :: rest).drop (ofChar c).width) m := by
            by_cases hdot : c = '.'
            · subst hdot
              cases hwalk with
              | cons hc hrest =>
                  cases hc
                  exact hrest
            · rw [width_of_ne_dot hdot]
              exact hwalk
          obtain ⟨hnames,front,last,hlast,hcut,hfront,hmode⟩ :=
            ih _ (hlen ▸ length_next_lt hnext) hlater rfl
          rw [splitFrom_next hnext]
          refine ⟨List.forall_mem_cons.mpr ⟨?_,hnames⟩,
            (takePart cs).1 ++ ((ofChar c).text.toList ++ front),last,?_,?_,
            hfirst.append ((walk_separator c).append hfront),hmode⟩
          · rw [String.toList_ofList]
            exact hchars
          · rw [List.getLast?_cons,hlast,Option.getD_some]
          · rw [List.append_assoc,List.append_assoc,← hcut,ofChar_text_append,← hnext,
              takePart_append]

end Parts

/-- The parts of a path in a line that are no brackets consist of name characters. -/
theorem names_of_walk {text : String} {m : Mode} (h : Walk .name text.toList m) :
    ∀ part ∈ split text, part.isBracket = false → ∀ c ∈ part.text.toList, isNameChar c = true :=
  (parts_of_walk h).1

/-- A walk along a path leads to its last part outside of any bracket, and it ends in the mode that
can be told from this part. -/
theorem lastText_of_walk {path : String} {m : Mode} (h : Walk .name path.toList m) :
    (∃ kept : String, path = kept ++ lastText path ∧ Walk .name kept.toList .name) ∧
      m = Mode.behind (lastText path) := by
  obtain ⟨-,front,last,hlast,hcut,hfront,rfl⟩ := @parts_of_walk _ path.toList m .start 0 h
  have htext : lastText path = last.text := by
    rw [← split,List.getLast?_eq_some_getLast (split_ne_nil path)] at hlast
    exact congrArg Part.text (Option.some.inj hlast)
  rw [htext]
  refine ⟨⟨String.ofList front,?_,by simpa using hfront⟩,rfl⟩
  apply String.toList_injective
  rw [String.toList_append,String.toList_ofList]
  exact hcut

/-- A scan starts anew at the start of the line, behind the end of a literal, and behind a character
that no path can hold outside brackets. -/
theorem fresh_cases {front : List Char} {start : Nat} {mode : Mode}
    (h : Scan.run front = ⟨start, "", mode⟩) :
    front = [] ∨ ∃ before c, front = before ++ [c] ∧
      (c = '"' ∧ (Scan.run before).mode = .literal ∨
        c ≠ '"' ∧ isNameChar c = false ∧ c ≠ '.' ∧ c ≠ '[') := by
  cases front using List.reverseRecOn with
  | nil => exact Or.inl rfl
  | append_singleton before c =>
      refine Or.inr ⟨before,c,rfl,?_⟩
      rw [Scan.run_concat] at h
      have hextend : ∀ m, (Scan.run before).extend c m ≠ ⟨start, "", mode⟩ := by
        intro m heq
        have htyped := congrArg (·.typed.toList) heq
        simp [Scan.extend] at htyped
      rcases Scan.step_cases (Scan.run before) c with ⟨m,-,hstep⟩ | hstep | ⟨-,hclose⟩
      · exact absurd (hstep ▸ h) (hextend m)
      · exact absurd (hstep ▸ h) (hextend .literal)
      · rcases hclose with ⟨hmode,hc⟩ | ⟨hc,hstop⟩
        · exact Or.inl ⟨hc,hmode⟩
        · obtain ⟨hopen,hdot,hname⟩ := Mode.next?_name_eq_none_iff.mp hstop
          exact Or.inr ⟨hc,hname,hdot,hopen⟩

/-- The scan of a line agrees with the splitting of the path at which it stands. The path reaches
from a place where a scan starts anew to the caret; the parts of it that are no brackets consist of
name characters; and the scan stands in a bracket exactly if the last part is a bracket without an
end, inside quotes exactly if the quotes in it are odd in number. The parts of a whole path in the
line consist of name characters too, unless they are brackets. -/
theorem scan_agrees_with_split (line : String) (offset : Nat) :
    (∀ scan after, scanTo? line offset = some (scan, after) →
      (∃ front, cut? line.toList offset = some (front ++ scan.typed.toList, after) ∧
        bytes front = scan.start ∧
        (front = [] ∨ ∃ before c, front = before ++ [c] ∧
          (c = '"' ∧ (Scan.run before).mode = .literal ∨
            c ≠ '"' ∧ isNameChar c = false ∧ c ≠ '.' ∧ c ≠ '['))) ∧
      (∀ part ∈ split scan.typed, part.isBracket = false →
        ∀ c ∈ part.text.toList, isNameChar c = true) ∧
      ∀ quoted, scan.mode = .bracket quoted ↔
        endsOpen scan.typed = true ∧ opensQuote (lastText scan.typed).toList = quoted) ∧
    ∀ start text, pathAt? line offset = some (start, text) →
      ∀ part ∈ split text, part.isBracket = false →
        ∀ c ∈ part.text.toList, isNameChar c = true := by
  constructor
  · intro scan after hscan
    obtain ⟨front,hline,hbytes,hfresh,hwalk⟩ := scanTo?_eq_some_iff.mp hscan
    refine ⟨⟨front,cut?_eq_some_iff.mpr ⟨hline,hbytes⟩,(Scan.start_of_fresh hfresh).symm,
      fresh_cases hfresh⟩,names_of_walk hwalk,?_⟩
    intro quoted
    rw [(lastText_of_walk hwalk).2,Mode.behind_eq_bracket_iff]
    rfl
  · intro start text hpath
    obtain ⟨front,rest,left,right,-,⟨-,-,last,hwalk,-⟩,-⟩ := pathAt?_eq_some_iff.mp hpath
    exact names_of_walk hwalk

end Names

theorem scan_agrees_with_split_covers :
    let line := "\"x\"covers[\"A"
    let typed := "covers[\"A"
    scanTo? line 12 = some (⟨3, typed, .bracket true⟩, []) ∧ endsOpen typed = true ∧
      opensQuote (lastText typed).toList = true := by
  intro line typed
  have h : scanTo? line 12 = some (⟨3, typed, .bracket true⟩, []) := by decide +kernel
  exact ⟨h,(((scan_agrees_with_split line 12).1 _ _ h).2.2 true).mp rfl⟩

end FormulaPath.Line
