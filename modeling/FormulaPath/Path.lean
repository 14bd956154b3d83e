import FormulaPath.Region

/-!
An identifier is a path: names joined by dots, with bracketed suffixes such as `["BASE"]` or `[0]`
as parts of their own. `split` cuts a text into its parts. A bracket part runs to the first `]`
outside double quotes, or to the end of the text; a name part runs up to the next dot or opening
bracket. Every text has at least one part, possibly empty.

A part carries its region, and regions end at `Region.limit`. Within that many bytes a reader that
goes by offsets finds the very parts of `split`; `Checked.split` is such a reader, and it is proved
equal to `split` up to the limit. In a longer text it would cut the parts off together with their
regions, while `split` keeps them whole. So `split`, and every result about it that is stated for
texts of any length, speaks for the program within the limit only.
-/
namespace FormulaPath

/-- What stands in front of a part. -/
inductive Separator where
  /-- Nothing: the first part. -/
  | start
  /-- A dot. -/
  | dot
  /-- Nothing, in front of a bracket part. -/
  | bracket
  /-- Nothing, in front of a name glued to a bracket part, such as the `x` in `a[0]x`. -/
  | missing
deriving DecidableEq, Repr

namespace Separator

def text : Separator → String
  | dot => "."
  | _ => ""

def width : Separator → Nat
  | dot => 1
  | _ => 0

end Separator

/-- A part of a path, with its place in the text and what stands in front of it. -/
structure Part where
  text : String
  region : Region
  separator : Separator
deriving DecidableEq, Repr

def isBracketText (text : String) : Bool := text.toList.head? == some '['

def Part.isBracket (p : Part) : Bool := isBracketText p.text

namespace Path

/-- The characters up to and with the first `]` outside quotes, and those after it. `quoted` tells
whether a double quote is open. Without such a `]` all characters are taken. -/
def takeBracket (quoted : Bool) : List Char → List Char × List Char
  | [] => ([], [])
  | c :: cs =>
    if c = ']' ∧ quoted = false then ([c], cs)
    else
      let (inside, rest) := takeBracket (if c = '"' then !quoted else quoted) cs
      (c :: inside, rest)

def endsName (c : Char) : Bool := c == '.' || c == '['

def takeName (cs : List Char) : List Char × List Char :=
  (cs.takeWhile (fun c => !endsName c), cs.dropWhile (fun c => !endsName c))

/-- The first part of the characters, and what follows it. -/
def takePart : List Char → List Char × List Char
  | '[' :: cs =>
    let (inside, rest) := takeBracket false cs
    ('[' :: inside, rest)
  | cs => takeName cs

theorem takeBracket_append (quoted : Bool) (cs : List Char) :
    (takeBracket quoted cs).1 ++ (takeBracket quoted cs).2 = cs := by
  induction cs generalizing quoted with
  | nil => rfl
  | cons c cs ih =>
    simp only [takeBracket]
    split
    · rfl
    · simp [ih]

/-- Taking a part loses no character. -/
theorem takePart_append (cs : List Char) : (takePart cs).1 ++ (takePart cs).2 = cs := by
  unfold takePart
  split
  · simp [takeBracket_append]
  · simp [takeName]

theorem length_takePart_le (cs : List Char) : (takePart cs).2.length ≤ cs.length := by
  have h := congrArg List.length (takePart_append cs)
  simp only [List.length_append] at h
  omega

/-- What follows a part is shorter than the text, unless it opens with a dot. -/
theorem length_takePart_lt {cs : List Char} (hne : cs ≠ []) (hdot : cs.head? ≠ some '.') :
    (takePart cs).2.length < cs.length := by
  have happ := takePart_append cs
  have hlen := congrArg List.length happ
  simp only [List.length_append] at hlen
  have hpos : (takePart cs).1 ≠ [] := by
    unfold takePart
    split
    · simp
    next hopen =>
      cases cs with
      | nil => exact absurd rfl hne
      | cons c cs =>
        have h1 : c ≠ '.' := by simpa using hdot
        have h2 : c ≠ '[' := fun h => hopen cs (by rw [h])
        simp [takeName, endsName, h1, h2]
  have := List.length_pos_iff.mpr hpos
  omega

/-- If anything but a dot follows a part, the part was not empty. -/
theorem length_rest_lt {cs rest : List Char} (h : (takePart cs).2 = rest) (hne : rest ≠ [])
    (hdot : rest.head? ≠ some '.') : rest.length < cs.length := by
  have happ := takePart_append cs
  rw [h] at happ
  have hcs : cs ≠ [] := by
    intro h0
    rw [h0] at happ
    simp_all
  rw [← h]
  refine length_takePart_lt hcs ?_
  intro hd
  cases cs with
  | nil => exact hcs rfl
  | cons c cs =>
    simp only [List.head?_cons, Option.some.injEq] at hd
    subst hd
    have hsnd : (takePart ('.' :: cs)).2 = '.' :: cs := by
      simp [takePart, takeName, endsName]
    rw [hsnd] at h
    subst h
    simp at hdot

/-- The parts of the characters `cs`, the first of which starts at byte `start` after `sep`. -/
def splitFrom (sep : Separator) (start : Nat) (cs : List Char) : List Part :=
  let text := (takePart cs).1
  let part : Part := ⟨String.ofList text, Region.span start (Text.bytes text), sep⟩
  let stop := start + Text.bytes text
  match h : (takePart cs).2 with
  | [] => [part]
  | c :: rest =>
    if c = '.' then part :: splitFrom .dot (stop + 1) rest
    else part :: splitFrom (if c = '[' then .bracket else .missing) stop (c :: rest)
termination_by cs.length
decreasing_by
  · have := length_takePart_le cs
    rw [h] at this
    simp only [List.length_cons] at this
    omega
  · exact length_rest_lt h (by simp) (by simpa)

def split (text : String) : List Part := splitFrom .start 0 text.toList

/-- The text that a list of parts was cut from. -/
def join (parts : List Part) : String := String.join (parts.map fun p => p.separator.text ++ p.text)

theorem splitFrom_ne_nil (sep : Separator) (start : Nat) (cs : List Char) :
    splitFrom sep start cs ≠ [] := by
  rw [splitFrom]
  split
  · simp
  · split <;> simp

theorem split_ne_nil (text : String) : split text ≠ [] := splitFrom_ne_nil _ _ _

/-- A position in a path: the part it stands at and those still to come. -/
structure Cursor where
  input : String
  part : Part
  later : List Part
deriving DecidableEq, Repr

namespace Cursor

def ofText (input : String) : Cursor :=
  ⟨input, (split input).head (split_ne_nil input), (split input).tail⟩

def hasNext (c : Cursor) : Bool := !c.later.isEmpty

/-- The position at the next part, if one follows. -/
def next? (c : Cursor) : Option Cursor :=
  match c.later with
  | [] => none
  | p :: ps => some { c with part := p, later := ps }

def exhausted (c : Cursor) : String :=
  "no identifier part after " ++ c.part.region.display ++ " in '" ++ c.input ++ "'"

def parts (c : Cursor) : List Part := c.part :: c.later

@[simp] theorem parts_ofText (input : String) : (ofText input).parts = split input :=
  List.cons_head_tail _

end Cursor

end Path

end FormulaPath
