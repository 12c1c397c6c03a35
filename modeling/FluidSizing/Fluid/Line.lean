import FluidSizing.Binary64.Basic
import FluidSizing.Binary64.Decimal

/-! Sizes that grow with the viewport: the line through two points of width and size, and its written
form. Written numbers are rounded to five decimal places, a half away from zero. -/

namespace FluidSizing

/-- Ten to the power of the decimal places that are kept. -/
def roundingScale : Binary64 := Binary64.ofNat 100000

/-- A number rounded to five decimal places; a negative zero becomes zero. -/
def round5 (x : Binary64) : Binary64 :=
  ((x.mul roundingScale).roundHalfAway.div roundingScale).add (Binary64.zero false)

/-- The written form of a number, zero without a sign. -/
def formatNumber (x : Binary64) : Text := (x.add (Binary64.zero false)).render

/-- The widths and the base size in effect for one call. -/
structure FluidRange where
  minWidth : Binary64
  maxWidth : Binary64
  baseFontSize : Binary64
  deriving DecidableEq

/-- The size at a width is `slope` times the width plus `intercept`, all in pixels. -/
structure Line where
  slope : Binary64
  intercept : Binary64
  deriving DecidableEq

namespace Line

/-- The line through the two sizes at the ends of a range, if the widths differ. -/
def between (minSize maxSize : Binary64) (range : FluidRange) : Option Line :=
  let widths := range.maxWidth.sub range.minWidth
  if widths.isEqual (Binary64.zero false) then none
  else
    let slope := (maxSize.sub minSize).div widths
    some ⟨slope, slope.mulAdd range.minWidth.neg minSize⟩

/-- The slope per hundredth of the viewport width, rounded. -/
def slopePerHundredth (line : Line) : Binary64 := round5 (line.slope.mul (Binary64.ofNat 100))

def roundedIntercept (line : Line) : Binary64 := round5 line.intercept

end Line

/-- What replaces a fluid call: a size in pixels, or a line. -/
inductive FluidSize where
  | fixed (size : Binary64)
  | growing (line : Line)
  deriving DecidableEq

namespace FluidSize

def render : FluidSize → Text
  | fixed size => formatNumber size ++ "px".toList
  | growing line =>
    "calc(".toList ++ formatNumber line.roundedIntercept ++ "px + ".toList ++
      formatNumber line.slopePerHundredth ++ "vw)".toList

end FluidSize

end FluidSizing
