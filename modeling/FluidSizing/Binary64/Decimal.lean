import FluidSizing.Binary64.Basic
import FluidSizing.Text

/-! Binary64 numbers as decimals. A number is written as the shortest decimal that reads back as it: the
decimal grids are searched from the coarse ones down, on the grid of a power of ten the two neighbours of
the number are tried, and the first grid on which one of them reads back ends the search. Of two
neighbours the nearer is taken, and a tie goes as asked. What is read is an optional sign, then digits
with at most one point and at least one digit, then optionally `e` and a whole exponent; `inf`, `infinity`
and `nan` are read in any case. The result is the number nearest to the decimal. -/

namespace FluidSizing

/-- The number `digits` times ten to the power `exponent`. -/
structure Decimal where
  digits : Nat
  exponent : Int
  deriving DecidableEq, Repr

namespace Decimal

/-- Digits with a point that has `places` of them behind it and at least one before it. -/
def withPoint (digits : Text) (places : Nat) : Text :=
  let padded := List.replicate (places + 1 - digits.length) '0' ++ digits
  padded.take (padded.length - places) ++ '.' :: padded.drop (padded.length - places)

/-- The positional form: zeros up to the units where the exponent is not negative, a point otherwise. -/
def positional (number : Decimal) : Text :=
  match number.exponent with
  | .ofNat e => Text.ofNat number.digits ++ List.replicate e '0'
  | .negSucc e => withPoint (Text.ofNat number.digits) (e + 1)

end Decimal

namespace Binary64

/-- Which of two neighbours at one distance is taken. -/
inductive Tie where
  | upper
  | even
  deriving DecidableEq, Repr

namespace Tie

/-- Whether the neighbour above `below` is taken. -/
def takesUpper (tie : Tie) (below : Nat) : Bool :=
  match tie with
  | upper => true
  | even => below % 2 == 1

end Tie

/-- A magnitude over a power of ten, as a quotient of natural numbers. -/
def overPowerOfTen (units : Nat) : Int → Nat × Nat
  | .ofNat e => (units, one * Nat.pow 10 e)
  | .negSucc e => (units * Nat.pow 10 (e + 1), one)

/-- Whether `digits` times ten to the power `exponent` rounds to the magnitude. -/
def readsBack (units digits : Nat) (exponent : Int) : Bool :=
  nearestDecimal digits exponent == units

/-- The neighbour of the magnitude on the grid of a power of ten that reads back, the nearer one if
both do. -/
def onGrid? (tie : Tie) (units : Nat) (exponent : Int) : Option Nat :=
  let (num, den) := overPowerOfTen units exponent
  let below := num / den
  let twice := 2 * (num % den)
  match readsBack units below exponent, readsBack units (below + 1) exponent with
  | true, true =>
    some (if den < twice || (den == twice && tie.takesUpper below) then below + 1 else below)
  | true, false => some below
  | false, true => some (below + 1)
  | false, false => none

/-- The search from the grid `gridsLeft` steps above the finest, on which every magnitude lies. -/
def shortestFrom (tie : Tie) (units : Nat) : Nat → Decimal
  | 0 => ⟨units * Nat.pow 5 1074, -1074⟩
  | gridsLeft + 1 =>
    let exponent : Int := (gridsLeft + 1 : Nat) - 1074
    match onGrid? tie units exponent with
    | some digits => ⟨digits, exponent⟩
    | none => shortestFrom tie units gridsLeft

/-- The shortest decimal that reads back as the magnitude, which is not zero. -/
def shortest (tie : Tie) (units : Nat) : Decimal :=
  shortestFrom tie units ((units / one).log2 + 1 + 1074)

def renderMagnitude (units : Nat) : Text :=
  if units = 0 then ['0'] else (shortest .upper units).positional

/-- The written form: the fewest digits that read back, without an exponent. -/
def render : Binary64 → Text
  | nan => ['N', 'a', 'N']
  | infinity false => ['i', 'n', 'f']
  | infinity true => ['-', 'i', 'n', 'f']
  | finite false units _ => renderMagnitude units
  | finite true units _ => '-' :: renderMagnitude units

/-- The digits at the start of a text, and what follows them. -/
def spanDigits (text : Text) : Text × Text := text.span Char.isDigit

/-- A text of digits as a number, if it is not empty and holds nothing else. -/
def digits? (text : Text) : Option Nat :=
  if !text.isEmpty && text.all Char.isDigit then some (Nat.ofDigitChars 10 text 0) else none

/-- What follows the significant digits: nothing, or an exponent. -/
def exponent? : Text → Option Int
  | [] => some 0
  | mark :: rest =>
    if mark = 'e' || mark = 'E' then
      match rest with
      | '-' :: digits => (digits? digits).map fun n => -(n : Int)
      | '+' :: digits => (digits? digits).map Int.ofNat
      | digits => (digits? digits).map Int.ofNat
    else none

/-- The fraction digits behind a point, if a point stands at the start, and what follows. -/
def spanFraction : Text → Text × Text
  | '.' :: rest => spanDigits rest
  | rest => ([], rest)

/-- A decimal without a sign. -/
def readDecimal? (negative : Bool) (text : Text) : Option Binary64 :=
  let (whole, rest) := spanDigits text
  let (fraction, rest) := spanFraction rest
  if whole.isEmpty && fraction.isEmpty then none
  else
    (exponent? rest).map fun exponent =>
      ofDecimal negative (Nat.ofDigitChars 10 (whole ++ fraction) 0) (exponent - fraction.length)

/-- A number without a sign: a decimal or the name of a number that is not finite. -/
def readMagnitude? (negative : Bool) (text : Text) : Option Binary64 :=
  let name := Text.toLowerAscii text
  if name = "inf".toList || name = "infinity".toList then some (infinity negative)
  else if name = "nan".toList then some nan
  else readDecimal? negative text

def read? : Text → Option Binary64
  | '-' :: rest => readMagnitude? true rest
  | '+' :: rest => readMagnitude? false rest
  | text => readMagnitude? false text

end Binary64

end FluidSizing
