import FluidSizing.Binary64.Decimal
import FluidSizing.Text.Position
import FluidSizing.Text.Quoted

/-! What can be wrong with a JSON text, and where. A fault keeps the number of bytes behind it; with the
text as a whole that gives its place. -/

namespace FluidSizing

namespace Json

/-- A value as a message names it: scalars are shown, lists and objects only named. -/
inductive Found where
  | null
  | boolean (value : Bool)
  | integer (value : Int)
  | float (value : Binary64)
  | string (value : Text)
  | sequence
  | map
  deriving DecidableEq

/-- What is wrong: the text ends too early, something else was expected, a scalar or an escape is
malformed, a value has a wrong type, or a member of an object has a wrong name. -/
inductive Problem where
  | endInValue
  | endInObject
  | endInList
  | endInString
  | expectedValue
  | expectedWord
  | expectedColon
  | expectedObjectEnd
  | expectedListEnd
  | keyNotString
  | trailingComma
  | trailingCharacters
  | invalidNumber
  | numberOutOfRange
  | invalidEscape
  | loneSurrogate
  | unfinishedSurrogate
  | controlCharacter
  | wrongType (found : Found) (expected : Text)
  | unknownField (name : Text) (known : List Text)
  | duplicateField (name : Text)
  deriving DecidableEq

/-- A problem, and the number of bytes behind its place. -/
structure Fault where
  problem : Problem
  behind : Nat
  deriving DecidableEq

namespace Fault

/-- A problem that shows in front of a text. -/
def before (problem : Problem) (rest : Text) : Fault := ⟨problem, Text.byteSize rest⟩

/-- A problem that shows in the first byte of a text, or at the end of it if there is none. -/
def firstByte (problem : Problem) (text : Text) : Fault := ⟨problem, Text.byteSize text - 1⟩

end Fault

/-- The digits of a decimal that is shown with an exponent. -/
def scientificDigits (digits : Text) : Text :=
  match digits with
  | first :: second :: rest => first :: '.' :: second :: rest
  | digits => digits

def showInteger : Int → Text
  | .ofNat n => Text.ofNat n
  | .negSucc n => '-' :: Text.ofNat (n + 1)

/-- An exponent, with its sign in every case. -/
def showExponent : Int → Text
  | .ofNat n => '+' :: Text.ofNat n
  | .negSucc n => '-' :: Text.ofNat (n + 1)

/-- A magnitude that is not zero in the fewest digits that read back. Up to sixteen places before the
point and four zeros behind it are written out, with a point in every case; beyond that an exponent is
used. -/
def showMagnitude (units : Nat) : Text :=
  let decimal := Binary64.shortest .even units
  let digits := Text.ofNat decimal.digits
  let point := digits.length + decimal.exponent
  if 0 ≤ decimal.exponent && point ≤ 16 then decimal.positional ++ ['.', '0']
  else if -5 < point && point ≤ 16 then decimal.positional
  else scientificDigits digits ++ 'e' :: showExponent (point - 1)

/-- A number with a point or an exponent. -/
def showFloat : Binary64 → Text
  | .finite negative units _ =>
    (if negative then ['-'] else []) ++
      if units = 0 then ['0', '.', '0'] else showMagnitude units
  | x => x.render

namespace Found

def render : Found → Text
  | null => "null".toList
  | boolean value => "boolean `".toList ++ (if value then "true" else "false").toList ++ ['\x60']
  | integer value => "integer `".toList ++ showInteger value ++ ['\x60']
  | float value => "floating point `".toList ++ showFloat value ++ ['\x60']
  | string value => "string ".toList ++ Text.quoted value
  | sequence => "sequence".toList
  | map => "map".toList

end Found

namespace Problem

/-- A name between backquotes. -/
def tick (name : Text) : Text := '\x60' :: name ++ ['\x60']

def message : Problem → Text
  | endInValue => "EOF while parsing a value".toList
  | endInObject => "EOF while parsing an object".toList
  | endInList => "EOF while parsing a list".toList
  | endInString => "EOF while parsing a string".toList
  | expectedValue => "expected value".toList
  | expectedWord => "expected ident".toList
  | expectedColon => "expected `:`".toList
  | expectedObjectEnd => "expected `,` or `\x7d`".toList
  | expectedListEnd => "expected `,` or `]`".toList
  | keyNotString => "key must be a string".toList
  | trailingComma => "trailing comma".toList
  | trailingCharacters => "trailing characters".toList
  | invalidNumber => "invalid number".toList
  | numberOutOfRange => "number out of range".toList
  | invalidEscape => "invalid escape".toList
  | loneSurrogate => "lone leading surrogate in hex escape".toList
  | unfinishedSurrogate => "unexpected end of hex escape".toList
  | controlCharacter =>
    "control character (\\u0000-\\u001F) found while parsing a string".toList
  | wrongType found expected =>
    "invalid type: ".toList ++ found.render ++ ", expected ".toList ++ expected
  | unknownField name known =>
    "unknown field ".toList ++ tick name ++ ", expected one of ".toList ++
      ", ".toList.intercalate (known.map tick)
  | duplicateField name => "duplicate field ".toList ++ tick name

end Problem

/-- The line and the column of a place in a text, given by the number of bytes before it: lines end with
line feeds, and columns count the bytes behind the last one. -/
def locationFrom (line column : Nat) : Text → Nat → Location
  | [], _ => ⟨line, column⟩
  | _, 0 => ⟨line, column⟩
  | c :: rest, index + 1 =>
    if c = '\n' then locationFrom (line + 1) 0 rest index
    else
      let size := min c.utf8Size (index + 1)
      locationFrom line (column + size) rest (index + 1 - size)

/-- The place of a fault in the text it was found in. -/
def Fault.location (fault : Fault) (text : Text) : Location :=
  locationFrom 1 0 text (Text.byteSize text - fault.behind)

def Fault.message (fault : Fault) (text : Text) : Text :=
  let location := fault.location text
  fault.problem.message ++ " at line ".toList ++ Text.ofNat location.line ++ " column ".toList ++
    Text.ofNat location.column

end Json

end FluidSizing
