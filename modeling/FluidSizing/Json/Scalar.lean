import FluidSizing.Json.Number
import FluidSizing.Json.String

/-! Reading JSON values of an expected type. A value of another type is a fault that names it; of a list or
an object only the bracket is looked at. -/

namespace FluidSizing

namespace Json

def isBlank (c : Char) : Bool := c = ' ' || c = '\n' || c = '\t' || c = '\r'

def skipBlanks (text : Text) : Text := text.dropWhile isBlank

/-- What follows a word, which has to stand at the start. -/
def readWord : Text → Text → Except Fault Text
  | [], text => .ok text
  | _ :: _, [] => .error (.before .endInValue [])
  | w :: word, c :: rest =>
    if c = w then readWord word rest else .error (.firstByte .expectedWord (c :: rest))

/-- The scalar or the opening bracket at the start, and what follows the scalar. -/
def readFound (text : Text) : Except Fault (Found × Text) :=
  match text with
  | [] => .error (.before .endInValue [])
  | c :: rest =>
    if c = 'n' then (readWord ['u', 'l', 'l'] rest).map fun rest => (.null, rest)
    else if c = 't' then (readWord ['r', 'u', 'e'] rest).map fun rest => (.boolean true, rest)
    else if c = 'f' then (readWord ['a', 'l', 's', 'e'] rest).map fun rest => (.boolean false, rest)
    else if c = '-' || c.isDigit then
      (readNumber text).map fun (number, rest) => (number.found, rest)
    else if c = '\x22' then (readString rest).map fun (string, rest) => (.string string, rest)
    else if c = '[' then .ok (.sequence, text)
    else if c = '\x7b' then .ok (.map, text)
    else .error (.firstByte .expectedValue text)

def wrongType (expected : Text) (text : Text) : Fault :=
  match readFound text with
  | .error fault => fault
  | .ok (found, rest) => .before (.wrongType found expected) rest

/-- A boolean behind white space, and what follows it. -/
def readBool (text : Text) : Except Fault (Bool × Text) :=
  match skipBlanks text with
  | [] => .error (.before .endInValue [])
  | 't' :: rest => (readWord ['r', 'u', 'e'] rest).map fun rest => (true, rest)
  | 'f' :: rest => (readWord ['a', 'l', 's', 'e'] rest).map fun rest => (false, rest)
  | text => .error (wrongType "a boolean".toList text)

/-- A number behind white space, and what follows it. -/
def readBinary64 (text : Text) : Except Fault (Binary64 × Text) :=
  match skipBlanks text with
  | [] => .error (.before .endInValue [])
  | c :: rest =>
    if c = '-' || c.isDigit then
      (readNumber (c :: rest)).map fun (number, rest) => (number.toBinary64, rest)
    else .error (wrongType "f64".toList (c :: rest))

end Json

end FluidSizing
