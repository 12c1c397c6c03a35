import FluidSizing.Binary64.Basic
import FluidSizing.Binary64.Decimal
import FluidSizing.Text

/-! Fixed lengths: an unsigned number directly before one of the units `px`, `em` and `rem`. Both units
relative to a font count sixteen pixels. -/

namespace FluidSizing

inductive LengthUnit where
  | pixels
  | ems
  | rootEms
  deriving DecidableEq, Repr

structure Length where
  value : Binary64
  unit : LengthUnit
  deriving DecidableEq

inductive LengthError where
  | notALength
  | unsupportedUnit
  deriving DecidableEq, Repr

namespace LengthUnit

def ofText? (text : Text) : Option LengthUnit :=
  if text = ['p', 'x'] then some pixels
  else if text = ['e', 'm'] then some ems
  else if text = ['r', 'e', 'm'] then some rootEms
  else none

end LengthUnit

namespace Length

/-- The pixels of one `rem`, and of one `em`. -/
def pixelsPerEm : Binary64 := Binary64.ofNat 16

def pixels (length : Length) : Binary64 :=
  match length.unit with
  | .pixels => length.value
  | .ems => length.value.mul pixelsPerEm
  | .rootEms => length.value.mul pixelsPerEm

def isNumeric (c : Char) : Bool := c.isDigit || c = '.'

/-- The longest part at the start that is digits with at most one point. -/
def leadingDecimal (text : Text) : Text :=
  match text.span Char.isDigit with
  | (whole, '.' :: rest) => whole ++ '.' :: rest.takeWhile Char.isDigit
  | (whole, _) => whole

/-- The length that a text denotes. White space at the ends does not count; of the numeric part what
stands behind a second point is ignored. -/
def read (text : Text) : Except LengthError Length :=
  let (number, suffix) := (Text.trim text).span isNumeric
  match Binary64.readDecimal? false (leadingDecimal number) with
  | none => .error .notALength
  | some value =>
    if suffix.isEmpty || !suffix.all Char.isAlpha then .error .notALength
    else
      match LengthUnit.ofText? suffix with
      | some unit => .ok ⟨value, unit⟩
      | none => .error .unsupportedUnit

end Length

end FluidSizing
