import FluidSizing.Text

/-! Names in style sheets: the characters they are made of, and escapes. Lengths count characters. A
backslash before a newline is no escape; any other one is, at the end of the text too. -/

namespace FluidSizing

namespace Token

/-- White space between tokens: space, tab and the newline characters. -/
def isBlank (c : Char) : Bool := c = ' ' || c = '\t' || c = '\n' || c = '\r' || c = '\x0c'

def isNewline (c : Char) : Bool := c = '\n' || c = '\r' || c = '\x0c'

/-- The characters that start a name: letters, the underscore, the null character and everything that
is not ASCII. -/
def isNameStart (c : Char) : Bool := c.isAlpha || c = '_' || c = '\x00' || 0x80 ≤ c.toNat

def isNameChar (c : Char) : Bool := isNameStart c || c.isDigit || c = '-'

def isHexDigit (c : Char) : Bool :=
  c.isDigit || ('a' ≤ c && c ≤ 'f') || ('A' ≤ c && c ≤ 'F')

def hexValue (c : Char) : Nat :=
  if c.isDigit then c.toNat - 48
  else if 'a' ≤ c then c.toNat - 87
  else c.toNat - 55

def startsNewline : Text → Bool
  | c :: _ => isNewline c
  | [] => false

/-- The number of characters of the newline at the start; a carriage return and a line feed are one. -/
def newlineLength : Text → Nat
  | '\r' :: '\n' :: _ => 2
  | c :: _ => if isNewline c then 1 else 0
  | [] => 0

/-- The hexadecimal digits at the start, six at most. -/
def hexDigits (text : Text) : Text := (text.takeWhile isHexDigit).take 6

/-- The number of characters of the white space at the start that an escape takes: one, or a whole
newline. -/
def spaceLength : Text → Nat
  | [] => 0
  | c :: rest => if c = ' ' || c = '\t' then 1 else newlineLength (c :: rest)

/-- The number of characters that a backslash before this text takes as its escape: hexadecimal digits
with the white space behind them, or one character. -/
def escapeLength (text : Text) : Nat :=
  match hexDigits text with
  | [] => min text.length 1
  | digits => digits.length + spaceLength (text.drop digits.length)

/-- The number of characters at the start that are taken together: `step` says for a character whether
it is taken and how many behind it are taken with it. `skip` characters are taken at once. -/
def spanLength (step : Char → Text → Option Nat) : Nat → Text → Nat
  | _, [] => 0
  | skip + 1, _ :: rest => 1 + spanLength step skip rest
  | 0, c :: rest =>
    match step c rest with
    | none => 0
    | some more => 1 + spanLength step more rest

/-- A character of a name, or an escape. -/
def nameStep (c : Char) (rest : Text) : Option Nat :=
  if c = '\\' then
    if startsNewline rest then none else some (escapeLength rest)
  else if isNameChar c then some 0
  else none

def nameLength (text : Text) : Nat := spanLength nameStep 0 text

/-- Whether a name stands at the start. A hyphen needs another start of a name, a hyphen or a backslash
behind it. -/
def startsName : Text → Bool
  | [] => false
  | c :: rest =>
    if c = '-' then
      match rest with
      | [] => false
      | d :: _ => isNameStart d || d = '-' || d = '\\'
    else if c = '\\' then !startsNewline rest
    else isNameStart c

/-- The character that stands for what no character is. -/
def replacement : Char := '\uFFFD'

/-- The character of a code point that may not be one. -/
def charOfCode (code : Nat) : Char :=
  if code = 0 || (0xD800 ≤ code && code ≤ 0xDFFF) || 0x10FFFF < code then replacement
  else Char.ofNat code

/-- The character that a backslash before this text denotes. -/
def escapedChar (text : Text) : Char :=
  match hexDigits text with
  | [] =>
    match text with
    | [] => replacement
    | c :: _ => if c = '\x00' then replacement else c
  | digits => charOfCode (digits.foldl (fun code c => 16 * code + hexValue c) 0)

/-- The characters that a spelled name denotes, the first `skip` of the spelling left out. -/
def unescapeFrom : Nat → Text → Text
  | _, [] => []
  | skip + 1, _ :: rest => unescapeFrom skip rest
  | 0, c :: rest =>
    if c = '\\' then escapedChar rest :: unescapeFrom (escapeLength rest) rest
    else (if c = '\x00' then replacement else c) :: unescapeFrom 0 rest

/-- The name that a spelling denotes. -/
def unescape (spelling : Text) : Text := unescapeFrom 0 spelling

end Token

end FluidSizing
