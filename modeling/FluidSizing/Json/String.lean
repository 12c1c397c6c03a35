import FluidSizing.Json.Fault
import FluidSizing.Token.Name

/-! Reading JSON strings. Escapes in hexadecimal take four bytes, and two of them make up a character
beyond the basic plane. -/

namespace FluidSizing

namespace Json

/-- Whether a code unit is the first half of a pair. -/
def isLeadingSurrogate (unit : Nat) : Bool := 0xD800 ≤ unit && unit ≤ 0xDBFF

/-- Whether a code unit is the second half of a pair. -/
def isTrailingSurrogate (unit : Nat) : Bool := 0xDC00 ≤ unit && unit ≤ 0xDFFF

/-- The code unit of four hexadecimal digits at the start. -/
def readUnit (text : Text) : Except Fault Nat :=
  if Text.byteSize text < 4 then .error (.before .endInString [])
  else
    let digits := text.take 4
    if digits.length = 4 && digits.all Token.isHexDigit then
      .ok (digits.foldl (fun unit c => 16 * unit + Token.hexValue c) 0)
    else .error ⟨.invalidEscape, Text.byteSize text - 4⟩

/-- The second half of a pair behind the first, with its own `\u` in front. -/
def readTrailing (text : Text) : Except Fault Nat :=
  match text with
  | [] => .error (.before .endInString [])
  | '\\' :: [] => .error (.before .endInString [])
  | '\\' :: 'u' :: rest =>
    match readUnit rest with
    | .error fault => .error fault
    | .ok unit =>
      if isTrailingSurrogate unit then .ok unit
      else .error ⟨.loneSurrogate, Text.byteSize rest - 4⟩
  | '\\' :: rest => .error (.firstByte .unfinishedSurrogate rest)
  | text => .error (.firstByte .unfinishedSurrogate text)

/-- The character of an escape behind `\u`, and the number of characters it takes. -/
def readCodePoint (text : Text) : Except Fault (Char × Nat) :=
  match readUnit text with
  | .error fault => .error fault
  | .ok unit =>
    if isTrailingSurrogate unit then .error ⟨.loneSurrogate, Text.byteSize text - 4⟩
    else if isLeadingSurrogate unit then
      match readTrailing (text.drop 4) with
      | .error fault => .error fault
      | .ok second =>
        .ok (Char.ofNat ((unit - 0xD800) * 0x400 + (second - 0xDC00) + 0x10000), 10)
    else .ok (Char.ofNat unit, 4)

/-- The character of an escape that is one letter. -/
def escapedLetter? (c : Char) : Option Char :=
  if c = '\x22' || c = '\\' || c = '/' then some c
  else if c = 'b' then some '\x08'
  else if c = 'f' then some '\x0c'
  else if c = 'n' then some '\n'
  else if c = 'r' then some '\r'
  else if c = 't' then some '\t'
  else none

/-- The character of an escape behind its backslash, and the number of characters it takes. -/
def readEscape (text : Text) : Except Fault (Char × Nat) :=
  match text with
  | [] => .error (.before .endInString [])
  | c :: rest =>
    if c = 'u' then (readCodePoint rest).map fun (d, size) => (d, size + 1)
    else
      match escapedLetter? c with
      | some d => .ok (d, 1)
      | none => .error (.firstByte .invalidEscape text)

/-- The rest of a string behind its first quote and `skip` characters, and what follows the string. -/
def readStringFrom : Nat → Text → Except Fault (Text × Text)
  | _, [] => .error (.before .endInString [])
  | skip + 1, _ :: rest => readStringFrom skip rest
  | 0, c :: rest =>
    if c = '\x22' then .ok ([], rest)
    else if c = '\\' then
      match readEscape rest with
      | .error fault => .error fault
      | .ok (d, size) => (readStringFrom size rest).map fun (text, rest) => (d :: text, rest)
    else if c.toNat < 0x20 then .error (.before .controlCharacter rest)
    else (readStringFrom 0 rest).map fun (text, rest) => (c :: text, rest)

/-- A string behind its first quote, and what follows it. -/
def readString (text : Text) : Except Fault (Text × Text) := readStringFrom 0 text

end Json

end FluidSizing
