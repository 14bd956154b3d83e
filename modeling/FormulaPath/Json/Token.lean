import FormulaPath.Text.Decimal

/-!
The tokens of a JSON text. Strings keep their escapes apart from their plain characters, so that a
text with half of a surrogate pair is still well formed; `Piece.decode?` tells which strings are
texts. Of a number it is only kept whether it is written as a natural number, and which one.
-/
namespace FormulaPath.Json

inductive Piece where
  | char (c : Char)
  /-- An escape by the number of a UTF-16 code unit. -/
  | unit (code : Nat)
deriving DecidableEq, Repr

namespace Piece

def isLead (code : Nat) : Bool := decide (0xD800 ≤ code) && decide (code < 0xDC00)

def isTrail (code : Nat) : Bool := decide (0xDC00 ≤ code) && decide (code < 0xE000)

def pair (lead trail : Nat) : Char :=
  Char.ofNat (0x10000 + 0x400 * (lead - 0xD800) + (trail - 0xDC00))

/-- The text of a string behind `done`, if no surrogate stands alone. -/
def decodeFrom (done : String) : List Piece → Option String
  | [] => some done
  | .char c :: ps => decodeFrom (done.push c) ps
  | .unit u :: ps =>
    if isTrail u then none
    else if isLead u then
      match ps with
      | .unit v :: rest => if isTrail v then decodeFrom (done.push (pair u v)) rest else none
      | _ => none
    else decodeFrom (done.push (Char.ofNat u)) ps

def decode? (ps : List Piece) : Option String := decodeFrom "" ps

end Piece

inductive Token where
  | openObject
  | closeObject
  | openArray
  | closeArray
  | colon
  | comma
  | null
  | bool (b : Bool)
  /-- A number, with its value if it is written as a natural number. -/
  | number (natural : Option Nat)
  | string (pieces : List Piece)
deriving DecidableEq, Repr

namespace Token

def isBlank (c : Char) : Bool := c == ' ' || c == '\n' || c == '\t' || c == '\r'

def hexDigit? (c : Char) : Option Nat :=
  if c.isDigit then some (c.toNat - '0'.toNat)
  else if 'a' ≤ c ∧ c ≤ 'f' then some (c.toNat - 'a'.toNat + 10)
  else if 'A' ≤ c ∧ c ≤ 'F' then some (c.toNat - 'A'.toNat + 10)
  else none

/-- The number that four hexadecimal digits write. -/
def hex4? (a b c d : Char) : Option Nat := do
  some (4096 * (← hexDigit? a) + 256 * (← hexDigit? b) + 16 * (← hexDigit? c) + (← hexDigit? d))

/-- The character that a backslash and a letter stand for. -/
def escaped? (c : Char) : Option Char :=
  match c with
  | '"' => some '"'
  | '\\' => some '\\'
  | '/' => some '/'
  | 'b' => some (Char.ofNat 8)
  | 'f' => some (Char.ofNat 12)
  | 'n' => some '\n'
  | 'r' => some '\r'
  | 't' => some '\t'
  | _ => none

/-- The pieces up to the closing quote, behind those in `done`, the latest of which is first, and
the characters behind the quote. A control character cannot stand in a string. -/
def readString (done : List Piece) : List Char → Option (List Piece × List Char)
  | [] => none
  | '"' :: cs => some (done.reverse, cs)
  | '\\' :: 'u' :: a :: b :: c :: d :: cs =>
    match hex4? a b c d with
    | some code => readString (.unit code :: done) cs
    | none => none
  | '\\' :: e :: cs =>
    match escaped? e with
    | some c => readString (.char c :: done) cs
    | none => none
  | c :: cs => if c = '\\' ∨ c.toNat < 32 then none else readString (.char c :: done) cs

/-- A run of at least one digit, and what follows. -/
def readDigits (cs : List Char) : Option (List Char × List Char) :=
  let digits := cs.takeWhile Char.isDigit
  if digits.isEmpty then none else some (digits, cs.dropWhile Char.isDigit)

/-- What follows the fraction of a number, and whether there is a fraction. -/
def readFraction : List Char → Option (Bool × List Char)
  | '.' :: cs => (readDigits cs).map fun (_, rest) => (true, rest)
  | cs => some (false, cs)

def dropSign : List Char → List Char
  | '+' :: cs => cs
  | '-' :: cs => cs
  | cs => cs

/-- What follows the exponent of a number, and whether there is an exponent. -/
def readExponent : List Char → Option (Bool × List Char)
  | 'e' :: cs => (readDigits (dropSign cs)).map fun (_, rest) => (true, rest)
  | 'E' :: cs => (readDigits (dropSign cs)).map fun (_, rest) => (true, rest)
  | cs => some (false, cs)

/-- An unsigned number: its value if it has neither fraction nor exponent, and what follows. A
number of several digits does not start with zero. -/
def readUnsigned (cs : List Char) : Option (Option Nat × List Char) :=
  match readDigits cs with
  | none => none
  | some (digits, rest) =>
    if digits.head? = some '0' ∧ 1 < digits.length then none
    else do
      let (fraction, rest) ← readFraction rest
      let (exponent, rest) ← readExponent rest
      some (if fraction || exponent then none else some (Text.decimal digits), rest)

def readWord (word : List Char) (cs : List Char) : Option (List Char) :=
  if word.isPrefixOf cs then some (cs.drop word.length) else none

/-- The token that starts with `c`, and what follows it. -/
def read? (c : Char) (cs : List Char) : Option (Token × List Char) :=
  match c with
  | '\x7b' => some (.openObject, cs)
  | '\x7d' => some (.closeObject, cs)
  | '[' => some (.openArray, cs)
  | ']' => some (.closeArray, cs)
  | ':' => some (.colon, cs)
  | ',' => some (.comma, cs)
  | '"' => (readString [] cs).map fun (pieces, rest) => (.string pieces, rest)
  | 'n' => (readWord "ull".toList cs).map fun rest => (.null, rest)
  | 't' => (readWord "rue".toList cs).map fun rest => (.bool true, rest)
  | 'f' => (readWord "alse".toList cs).map fun rest => (.bool false, rest)
  | '-' => (readUnsigned cs).map fun (_, rest) => (.number none, rest)
  | _ =>
    if c.isDigit then
      (readUnsigned (c :: cs)).map fun (natural, rest) => (.number natural, rest)
    else none

theorem readString_length {done ps : List Piece} {cs rest : List Char}
    (h : readString done cs = some (ps, rest)) : rest.length ≤ cs.length := by
  fun_induction readString done cs with
  | case1 => cases h
  | case2 done cs =>
    cases h
    simp
  | case3 done a b c d cs code hcode ih =>
    have := ih h
    simp only [List.length_cons]
    omega
  | case4 => cases h
  | case5 done e cs _ c hc ih =>
    have := ih h
    simp only [List.length_cons]
    omega
  | case6 => cases h
  | case7 => cases h
  | case8 done c cs _ _ _ _ ih =>
    have := ih h
    simp only [List.length_cons]
    omega

theorem readDigits_length {cs digits rest : List Char} (h : readDigits cs = some (digits, rest)) :
    rest.length < cs.length := by
  simp only [readDigits] at h
  split at h
  · cases h
  next hne =>
    simp only [Option.some.injEq, Prod.mk.injEq] at h
    obtain ⟨rfl, rfl⟩ := h
    have hlen := congrArg List.length (cs.takeWhile_append_dropWhile (p := Char.isDigit))
    have hpos : 0 < (cs.takeWhile Char.isDigit).length := by
      rw [List.length_pos_iff]
      simpa using hne
    simp only [List.length_append] at hlen
    omega

theorem readFraction_length {cs rest : List Char} {b : Bool}
    (h : readFraction cs = some (b, rest)) : rest.length ≤ cs.length := by
  unfold readFraction at h
  split at h
  · obtain ⟨⟨digits, r⟩, hd, heq⟩ := Option.map_eq_some_iff.mp h
    have := readDigits_length hd
    cases heq
    simp only [List.length_cons]
    omega
  · cases h
    exact Nat.le_refl _

theorem dropSign_length (cs : List Char) : (dropSign cs).length ≤ cs.length := by
  unfold dropSign
  split <;> simp

theorem readExponent_length {cs rest : List Char} {b : Bool}
    (h : readExponent cs = some (b, rest)) : rest.length ≤ cs.length := by
  unfold readExponent at h
  split at h
  iterate 2
    next cs =>
      obtain ⟨⟨digits, r⟩, hd, heq⟩ := Option.map_eq_some_iff.mp h
      have := readDigits_length hd
      have := dropSign_length cs
      cases heq
      simp only [List.length_cons]
      omega
  · cases h
    exact Nat.le_refl _

theorem readUnsigned_length {cs rest : List Char} {natural : Option Nat}
    (h : readUnsigned cs = some (natural, rest)) : rest.length < cs.length := by
  unfold readUnsigned at h
  split at h
  · cases h
  next digits r1 h1 =>
    have hlt := readDigits_length h1
    split at h
    · cases h
    · obtain ⟨⟨fraction, r2⟩, h2, h⟩ := Option.bind_eq_some_iff.mp h
      obtain ⟨⟨exponent, r3⟩, h3, h⟩ := Option.bind_eq_some_iff.mp h
      have hle2 := readFraction_length h2
      have hle3 := readExponent_length h3
      simp only [Option.some.injEq, Prod.mk.injEq] at h
      obtain ⟨-, rfl⟩ := h
      omega

theorem readWord_length {word cs rest : List Char} (h : readWord word cs = some rest) :
    rest.length ≤ cs.length := by
  unfold readWord at h
  split at h
  · cases h
    simp
  · cases h

/-- Reading a token takes at least its first character. -/
theorem read?_length {c : Char} {cs rest : List Char} {t : Token}
    (h : read? c cs = some (t, rest)) : rest.length ≤ cs.length := by
  unfold read? at h
  split at h
  iterate 6
    · cases h
      exact Nat.le_refl _
  · obtain ⟨p, hp, heq⟩ := Option.map_eq_some_iff.mp h
    cases heq
    exact readString_length hp
  iterate 3
    · obtain ⟨r, hr, heq⟩ := Option.map_eq_some_iff.mp h
      cases heq
      exact readWord_length hr
  · obtain ⟨p, hp, heq⟩ := Option.map_eq_some_iff.mp h
    cases heq
    exact Nat.le_of_lt (readUnsigned_length hp)
  · split at h
    · obtain ⟨p, hp, heq⟩ := Option.map_eq_some_iff.mp h
      cases heq
      have := readUnsigned_length hp
      simp only [List.length_cons] at this
      omega
    · cases h

/-- The tokens of the characters behind those in `done`, the latest of which is first. -/
def readAllFrom (done : List Token) (cs : List Char) : Option (List Token) :=
  match cs with
  | [] => some done.reverse
  | c :: rest =>
    if isBlank c then readAllFrom done rest
    else
      match _found : read? c rest with
      | none => none
      | some (t, rest) => readAllFrom (t :: done) rest
termination_by cs.length
decreasing_by
  · simp
  · have := read?_length _found
    simp only [List.length_cons]
    omega

/-- The tokens of a text, if it has no other parts. -/
def readAll? (text : String) : Option (List Token) := readAllFrom [] text.toList

end Token

end FormulaPath.Json
