import FluidSizing.Binary64.Decimal

/-! Canonical numbers. A text is the canonical spelling of a number when it has the plain form (an
optional minus, digits without a leading zero, optionally a point and digits that do not end in zero,
and not minus zero) and is the shortest spelling of the number it denotes. -/

namespace FluidSizing

inductive NumberError where
  | empty
  | notCanonical
  deriving DecidableEq, Repr

namespace Number

/-- The text without a leading minus. -/
def magnitudeText : Text → Text
  | '-' :: rest => rest
  | text => text

/-- Digits without a leading zero, or zero alone. -/
def isPlainWhole (text : Text) : Bool :=
  match text with
  | [] => false
  | first :: rest =>
    if first = '0' then rest.isEmpty else first.isDigit && rest.all Char.isDigit

/-- A point and digits that do not end in zero, or nothing. -/
def isPlainFraction (text : Text) : Bool :=
  match text with
  | [] => true
  | _ :: digits =>
    !digits.isEmpty && digits.all Char.isDigit && digits.getLast? != some '0'

def isPlain (text : Text) : Bool :=
  let (whole, fraction) := (magnitudeText text).span (· != '.')
  isPlainWhole whole && isPlainFraction fraction && text != ['-', '0']

/-- The number of which a text is the canonical spelling. -/
def read (text : Text) : Except NumberError Binary64 :=
  if text.isEmpty then .error .empty
  else if isPlain text then
    match Binary64.read? text with
    | some number => if number.render = text then .ok number else .error .notCanonical
    | none => .error .notCanonical
  else .error .notCanonical

end Number

end FluidSizing
