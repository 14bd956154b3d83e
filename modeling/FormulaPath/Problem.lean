/-!
Why a part of a path does not resolve, and the message that says so. The cause fixes the code and
the wording of the message.
-/
namespace FormulaPath

inductive Severity where
  | error
  | warning
  | info
deriving DecidableEq, Repr

def Severity.protocolNumber : Severity → Nat
  | .error => 1
  | .warning => 2
  | .info => 3

structure Message where
  code : String
  text : String
  severity : Severity
deriving DecidableEq, Repr

/-- The message as one line, with its code in front. -/
def Message.display (m : Message) : String := "[" ++ m.code ++ "] " ++ m.text

/-- Why a part of a path does not resolve. -/
inductive Problem where
  /-- Nothing of that name can stand there. -/
  | undefined (text : String)
  /-- An index after an association with a single target. -/
  | noIndex (association text : String)
  /-- A bracket that names no component of an association. -/
  | unknownQualifier (association text : String)
deriving DecidableEq, Repr

namespace Problem

def code : Problem → String
  | undefined _ => "F0001"
  | noIndex _ _ => "F0002"
  | unknownQualifier _ _ => "F0003"

def text : Problem → String
  | undefined t => "Undefined identifier: " ++ t
  | noIndex a t =>
    "Index " ++ t ++ " is not allowed, association '" ++ a ++ "' is a 1-to-1 association"
  | unknownQualifier a t => "Unknown qualifier " ++ t ++ " for association '" ++ a ++ "'"

def message (p : Problem) : Message := ⟨p.code, p.text, .error⟩

end Problem

end FormulaPath
