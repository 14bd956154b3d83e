import FormulaPath.Text.Bytes
import FormulaPath.Text.NameChar

/-!
Paths inside a line of a formula. A scan from the start of the line finds the path that is being
typed at a caret: names, dots and brackets belong to it, and any other character starts a new one.
A double quote outside brackets opens a literal of the formula, in which there are no paths.
-/
namespace FormulaPath.Line

variable [Text.NameClass]

/-- Where in a line a scan stands. -/
inductive Mode where
  /-- At a name, a dot, or between paths. -/
  | name
  /-- In a bracket of a path, possibly inside quotes. -/
  | bracket (quoted : Bool)
  /-- In a literal of the formula. -/
  | literal
deriving DecidableEq, Repr

/-- The path at which a scan stands: its byte offset, its text so far, and the mode. -/
structure Scan where
  start : Nat
  typed : String
  mode : Mode
deriving DecidableEq, Repr

namespace Scan

def initial : Scan := ⟨0, "", .name⟩

/-- The scan behind a character that belongs to no path. -/
def skip (s : Scan) (c : Char) : Scan :=
  ⟨s.start + s.typed.utf8ByteSize + c.utf8Size, "", .name⟩

/-- The scan behind a character that belongs to the path. -/
def extend (s : Scan) (c : Char) (mode : Mode) : Scan := ⟨s.start, s.typed.push c, mode⟩

def step (s : Scan) (c : Char) : Scan :=
  match s.mode with
  | .literal => if c = '"' then s.skip c else s.extend c .literal
  | .bracket quoted =>
    if c = '"' then s.extend c (.bracket !quoted)
    else if c = ']' ∧ quoted = false then s.extend c .name
    else s.extend c (.bracket quoted)
  | .name =>
    if c = '[' then s.extend c (.bracket false)
    else if c = '"' then s.extend c .literal
    else if c = '.' ∨ Text.isNameChar c then s.extend c .name
    else s.skip c

def run (cs : List Char) : Scan := cs.foldl step initial

end Scan

/-- The scan at a caret and the characters behind it. There is none inside a literal, inside a
character, or behind the line. -/
def scanTo? (line : String) (caret : Nat) : Option (Scan × List Char) :=
  match Text.cut? line.toList caret with
  | none => none
  | some (before, after) =>
    let scan := Scan.run before
    if scan.mode = .literal then none else some (scan, after)

/-- The path that is being typed at a caret: its offset and its text up to the caret. -/
def pathBefore? (line : String) (caret : Nat) : Option (Nat × String) :=
  (scanTo? line caret).map fun (scan, _) => (scan.start, scan.typed)

/-- The first characters that continue a path. An open bracket goes on to its closing `]` outside
quotes, or to the end. -/
def takePath : Mode → List Char → List Char
  | _, [] => []
  | .literal, _ :: _ => []
  | .bracket quoted, c :: cs =>
    if c = '"' then c :: takePath (.bracket !quoted) cs
    else if c = ']' ∧ quoted = false then c :: takePath .name cs
    else c :: takePath (.bracket quoted) cs
  | .name, c :: cs =>
    if c = '[' then c :: takePath (.bracket false) cs
    else if c = '.' ∨ Text.isNameChar c then c :: takePath .name cs
    else []

/-- The whole path around an offset: its start and its text. There is none if the text is empty. -/
def pathAt? (line : String) (offset : Nat) : Option (Nat × String) :=
  match scanTo? line offset with
  | none => none
  | some (scan, after) =>
    let text := scan.typed ++ String.ofList (takePath scan.mode after)
    if text.isEmpty then none else some (scan.start, text)

end FormulaPath.Line
