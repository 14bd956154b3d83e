import FormulaPath.Proofs.ByteScan

/-!
# Passing the parts of a text by offsets

A `Locator` stands at a part of a text and knows its offsets only. The end of the part is searched
in the bytes, the text of the part is cut out where it is needed, and the byte behind the part tells
how the next one is separated. Each of these steps can fail: a cut may fall inside a character or
behind the end, bounds may be reversed, and there may be no next part.

One step takes a locator further, whatever the text and wherever it stands
(`Locator.next_advances`). From the first part of a text on, it passes exactly the parts of the text
and none of the steps fails (`Locator.yields_split`).
-/
namespace FormulaPath

namespace Text

/-- The text between two offsets, which have to fall between characters. -/
def slice (text : String) (start stop : Nat) : Except Fault String :=
  match cut? text.toList stop with
  | none => .error .misplaced
  | some (before, _) =>
    match cut? before start with
    | none => .error .misplaced
    | some (_, inside) => .ok (String.ofList inside)

theorem slice_of_append {text : String} {front inside rest : List Char}
    (h : text.toList = front ++ inside ++ rest) :
    slice text (bytes front) (bytes front + bytes inside) = .ok (String.ofList inside) := by
  have hstop : cut? text.toList (bytes front + bytes inside) = some (front ++ inside, rest) :=
    cut?_eq_some_iff.mpr ⟨h,bytes_append front inside⟩
  have hstart : cut? (front ++ inside) (bytes front) = some (front, inside) :=
    cut?_eq_some_iff.mpr ⟨rfl,rfl⟩
  simp only [slice, hstop, hstart]

end Text

/-- The separator in front of a part, told from the byte behind the part before it. -/
def Separator.ofByte (b : UInt8) : Separator :=
  if b = '.'.toUInt8 then dot else if b = '['.toUInt8 then bracket else missing

theorem Separator.ofByte_of_mem {c : Char} {b : UInt8} (h : b ∈ String.utf8EncodeChar c) :
    ofByte b = ofChar c := by
  simp only [ofByte, ofChar, Text.eq_toUInt8_iff (d := '.') (by decide) h,
    Text.eq_toUInt8_iff (d := '[') (by decide) h]

theorem Separator.width_ofByte (b : UInt8) :
    (ofByte b).width = if b = '.'.toUInt8 then 1 else 0 := by
  unfold ofByte
  split_ifs <;> rfl

/-- A part of a text, known by its offsets. -/
structure Locator where
  input : String
  region : Region
  separator : Separator
deriving DecidableEq, Repr

namespace Locator
open Text FormulaPath.Path Separator

/-- The offset behind the part that starts at an offset. -/
def partEnd (input : String) (start : Nat) : Except Fault Nat :=
  if start ≤ input.utf8ByteSize then .ok (start + partWidth ((octets input).drop start))
  else .error .misplaced

/-- The part that starts at an offset behind a separator. -/
def locate (input : String) (start : Nat) (separator : Separator) : Except Fault Locator := do
  let stop ← partEnd input start
  let region ← Region.ofBounds start stop
  .ok ⟨input, region, separator⟩

/-- The first part of a text. -/
def ofText (input : String) : Except Fault Locator := locate input 0 .start

/-- The text of the part. -/
def text (l : Locator) : Except Fault String := slice l.input l.region.start l.region.stop

/-- The part with its text. -/
def current (l : Locator) : Except Fault Part := do
  let text ← l.text
  .ok ⟨text, l.region, l.separator⟩

/-- Whether a part follows. -/
def hasNext (l : Locator) : Bool := decide (l.region.stop < l.input.utf8ByteSize)

/-- The next part. There has to be one. -/
def next (l : Locator) : Except Fault Locator :=
  match (octets l.input)[l.region.stop]? with
  | none => .error .exhausted
  | some b => locate l.input (l.region.stop + (ofByte b).width) (ofByte b)

theorem hasNext_iff {l : Locator} :
    l.hasNext = true ↔ l.region.stop < l.input.utf8ByteSize := decide_eq_true_iff

theorem locate_of_le {input : String} {start : Nat} (h : start ≤ input.utf8ByteSize)
    (separator : Separator) : locate input start separator =
      .ok ⟨input, Region.span start (partWidth ((octets input).drop start)), separator⟩ := by
  simp only [locate, partEnd, if_pos h, bind, Except.bind, Region.ofBounds_add]

theorem add_partWidth_le {input : String} {start : Nat} (h : start ≤ input.utf8ByteSize) :
    start + partWidth ((octets input).drop start) ≤ input.utf8ByteSize := by
  have hwidth := partWidth_le ((octets input).drop start)
  rw [List.length_drop,length_octets] at hwidth
  omega

/-- Where a part follows, a step never fails, and the next part ends further behind. -/
theorem next_advances {l : Locator} (hlen : l.input.utf8ByteSize ≤ Region.limit)
    (h : l.hasNext = true) : ∃ l', l.next = .ok l' ∧ l'.input = l.input ∧
      l.region.stop < l'.region.stop ∧ l'.region.stop ≤ l.input.utf8ByteSize := by
  have hlt : l.region.stop < (octets l.input).length := by
    rw [length_octets]
    exact hasNext_iff.mp h
  have hbyte := List.getElem?_eq_getElem hlt
  have hdrop := List.drop_eq_getElem_cons hlt
  generalize (octets l.input)[l.region.stop] = b at hbyte hdrop
  have hwidth := width_ofByte b
  have hstart : l.region.stop + (ofByte b).width ≤ l.input.utf8ByteSize := by
    rw [length_octets] at hlt
    split_ifs at hwidth <;> omega
  have hstop := add_partWidth_le hstart
  have hnext : l.next = locate l.input (l.region.stop + (ofByte b).width) (ofByte b) := by
    simp only [next, hbyte]
  refine ⟨_,hnext.trans (locate_of_le hstart _),rfl,?_,?_⟩
  · rw [Region.span_stop,Region.clamp_of_le (hstop.trans hlen)]
    split_ifs at hwidth with hdot
    · omega
    · have hpos := partWidth_pos hdot ((octets l.input).drop (l.region.stop + 1))
      rw [hwidth,Nat.add_zero,hdrop]
      omega
  · rw [Region.span_stop,Region.clamp_of_le (hstop.trans hlen)]
    exact hstop

/-- Locators of a text, with characters in front of the part. -/
theorem locate_of_append {input : String} {front rest : List Char}
    (h : input.toList = front ++ rest) (separator : Separator) :
    locate input (bytes front) separator =
      .ok ⟨input, Region.span (bytes front) (bytes (takePart rest).1), separator⟩ := by
  have hle : bytes front ≤ input.utf8ByteSize := by
    rw [← bytes_toList,h,bytes_append]
    omega
  rw [locate_of_le hle,drop_octets h,partWidth_encode]

theorem next_of_append {l : Locator} {front rest : List Char} {c : Char}
    (h : l.input.toList = front ++ c :: rest) (hstop : l.region.stop = bytes front) :
    l.next = locate l.input (bytes (front ++ (ofChar c).text.toList)) (ofChar c) := by
  obtain ⟨b,hb,hbyte⟩ := exists_getElem?_octets h
  rw [← hstop] at hbyte
  simp only [next, hbyte]
  rw [ofByte_of_mem hb,hstop,bytes_append,bytes_text]

theorem text_of_current {l : Locator} {part : Part} (h : l.current = .ok part) :
    l.text = .ok part.text ∧ l.separator = part.separator := by
  unfold current at h
  cases htext : l.text with
  | error fault =>
      rw [htext] at h
      cases h
  | ok text =>
      rw [htext] at h
      obtain rfl := Except.ok.inj h
      exact ⟨rfl,rfl⟩

/-- A locator passes these parts one after another, and each of them can be read. -/
inductive Yields : Locator → List Part → Prop
  | last {l : Locator} {part : Part} :
      l.current = .ok part → l.hasNext = false → Yields l [part]
  | next {l l' : Locator} {part : Part} {parts : List Part} :
      l.current = .ok part → l.hasNext = true → l.next = .ok l' → Yields l' parts →
      Yields l (part :: parts)

section Text
variable {input : String} (hlen : input.utf8ByteSize ≤ Region.limit)
include hlen

theorem span_of_append {front inside rest : List Char}
    (h : input.toList = front ++ inside ++ rest) :
    (Region.span (bytes front) (bytes inside)).start = bytes front ∧
      (Region.span (bytes front) (bytes inside)).stop = bytes front + bytes inside := by
  rw [← bytes_toList,h] at hlen
  simp only [bytes_append] at hlen
  exact ⟨Region.clamp_of_le (by omega),Region.clamp_of_le (by omega)⟩

theorem current_of_append {front inside rest : List Char}
    (h : input.toList = front ++ inside ++ rest) (separator : Separator) :
    current ⟨input, Region.span (bytes front) (bytes inside), separator⟩ =
      .ok ⟨String.ofList inside, Region.span (bytes front) (bytes inside), separator⟩ := by
  obtain ⟨hstart,hstop⟩ := span_of_append hlen h
  have hslice := slice_of_append h
  rw [← hstop] at hslice
  simp only [current, text, hstart]
  rw [hslice]
  rfl

theorem yields_splitFrom {front rest : List Char} (h : input.toList = front ++ rest)
    (separator : Separator) :
    Yields ⟨input, Region.span (bytes front) (bytes (takePart rest).1), separator⟩
      (splitFrom separator (bytes front) rest) := by
  -- what is left of the text gets shorter from part to part
  induction hn : rest.length using Nat.strong_induction_on generalizing front rest separator with
  | _ n ih =>
    subst hn
    have happ : input.toList = front ++ (takePart rest).1 ++ (takePart rest).2 := by
      rw [List.append_assoc,takePart_append,h]
    have hcurrent := current_of_append hlen happ separator
    have hstop := (span_of_append hlen happ).2
    cases hrest : (takePart rest).2 with
    | nil =>
        have hall := takePart_append rest
        rw [hrest,List.append_nil] at hall
        rw [splitFrom_last hrest]
        rw [hall] at hcurrent hstop ⊢
        refine .last hcurrent (decide_eq_false ?_)
        rw [hstop,← bytes_toList,h,bytes_append]
        exact Nat.lt_irrefl _
    | cons c more =>
        rw [hrest] at happ
        have happ' : input.toList = front ++ (takePart rest).1 ++ (ofChar c).text.toList ++
            (c :: more).drop (ofChar c).width := by
          rw [List.append_assoc _ (ofChar c).text.toList,ofChar_text_append,happ]
        have hbytes : bytes front + bytes (takePart rest).1 + (ofChar c).width =
            bytes (front ++ (takePart rest).1 ++ (ofChar c).text.toList) := by
          rw [bytes_append,bytes_append,bytes_text]
        rw [splitFrom_next hrest,hbytes]
        refine .next hcurrent ?_ ((next_of_append happ ?_).trans (locate_of_append happ' _)) ?_
        · rw [hasNext_iff,hstop,← bytes_toList,happ]
          have := c.utf8Size_pos
          simp only [bytes_append, bytes_cons]
          omega
        · rw [hstop,bytes_append]
        · exact ih _ (length_next_lt hrest) happ' (ofChar c) rfl

/-- From the first part of a text on, exactly the parts of the text are passed. -/
theorem yields_split : ∃ l, ofText input = .ok l ∧ l.input = input ∧
    l.region.stop ≤ input.utf8ByteSize ∧ Yields l (split input) := by
  have hfront : input.toList = [] ++ input.toList := rfl
  have happ : input.toList = [] ++ (takePart input.toList).1 ++ (takePart input.toList).2 := by
    rw [List.nil_append,takePart_append]
  refine ⟨_,locate_of_append hfront .start,rfl,?_,yields_splitFrom hlen hfront .start⟩
  have hsize := congrArg bytes happ
  rw [bytes_toList,bytes_append,bytes_append] at hsize
  rw [(span_of_append hlen happ).2,hsize]
  omega

end Text

namespace Yields
variable {l : Locator} {list : List Part} {count : Nat}

/-- Each part ends further behind than the one before it, so there are not more parts than bytes
are left, and one. -/
theorem length_le (h : Yields l list) (hlen : l.input.utf8ByteSize ≤ Region.limit)
    (hstop : l.region.stop ≤ l.input.utf8ByteSize) :
    list.length + l.region.stop ≤ l.input.utf8ByteSize + 1 := by
  induction h with
  | last _ _ =>
      rw [List.length_singleton]
      omega
  | next _ hhas hnext _ ih =>
      obtain ⟨_,hnext',hinput,hlt,hle⟩ := next_advances hlen hhas
      obtain rfl := Except.ok.inj (hnext.symm.trans hnext')
      rw [hinput] at ih
      have := ih hlen hle
      rw [List.length_cons]
      omega

theorem ne_nil (h : Yields l list) : list ≠ [] := by
  cases h <;> exact List.cons_ne_nil _ _

end Yields

end Locator

end FormulaPath
