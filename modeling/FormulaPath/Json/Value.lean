import FormulaPath.Json.Token

/-!
JSON texts as values. The reader goes through the tokens once and keeps the open arrays and objects
on a stack, so no depth of nesting is too deep for it.
-/
namespace FormulaPath.Json

/-- A JSON value. An object keeps its members in order, and may have a key more than once. -/
inductive Value where
  | null
  | bool (b : Bool)
  | number (natural : Option Nat)
  | string (pieces : List Piece)
  | array (items : List Value)
  | object (members : List (List Piece × Value))

/-- An open container and its content so far, the latest first. -/
inductive Frame where
  /-- An array whose next item is being read. -/
  | items (done : List Value)
  /-- An object in which the value of a key is being read. -/
  | member (done : List (List Piece × Value)) (key : List Piece)

/-- What a reader waits for, inside the given open containers. -/
inductive Reader where
  | value (frames : List Frame)
  | firstItem (frames : List Frame)
  | afterItem (frames : List Frame) (done : List Value)
  | firstKey (frames : List Frame)
  | nextKey (frames : List Frame) (done : List (List Piece × Value))
  | colon (frames : List Frame) (done : List (List Piece × Value)) (key : List Piece)
  | afterMember (frames : List Frame) (done : List (List Piece × Value))
  /-- Nothing: the value is complete. -/
  | finished (v : Value)

namespace Reader

def complete : List Frame → Value → Reader
  | [], v => .finished v
  | .items done :: frames, v => .afterItem frames (v :: done)
  | .member done key :: frames, v => .afterMember frames ((key, v) :: done)

/-- The reader behind the first token of a value. -/
def begin? (frames : List Frame) : Token → Option Reader
  | .null => some (complete frames .null)
  | .bool b => some (complete frames (.bool b))
  | .number n => some (complete frames (.number n))
  | .string ps => some (complete frames (.string ps))
  | .openArray => some (.firstItem frames)
  | .openObject => some (.firstKey frames)
  | _ => none

/-- The reader behind a token, if the token can stand there. -/
def step? : Reader → Token → Option Reader
  | .value frames, t => begin? frames t
  | .firstItem frames, .closeArray => some (complete frames (.array []))
  | .firstItem frames, t => begin? (.items [] :: frames) t
  | .afterItem frames done, .comma => some (.value (.items done :: frames))
  | .afterItem frames done, .closeArray => some (complete frames (.array done.reverse))
  | .firstKey frames, .closeObject => some (complete frames (.object []))
  | .firstKey frames, .string key => some (.colon frames [] key)
  | .nextKey frames done, .string key => some (.colon frames done key)
  | .colon frames done key, .colon => some (.value (.member done key :: frames))
  | .afterMember frames done, .comma => some (.nextKey frames done)
  | .afterMember frames done, .closeObject => some (complete frames (.object done.reverse))
  | _, _ => none

/-- The value of the tokens that follow, if they are exactly one value. -/
def run? (reader : Reader) : List Token → Option Value
  | [] =>
    match reader with
    | .finished v => some v
    | _ => none
  | t :: ts =>
    match reader.step? t with
    | some next => run? next ts
    | none => none

end Reader

/-- The value of a text, if it is exactly one value. -/
def Value.ofText? (text : String) : Option Value :=
  (Token.readAll? text).bind (Reader.value []).run?

end FormulaPath.Json
