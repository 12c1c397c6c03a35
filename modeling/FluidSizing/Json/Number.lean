import FluidSizing.Binary64.Basic
import FluidSizing.Json.Fault

/-! Reading JSON numbers. Digits are collected while they fit into 64 bits; those behind only count as
places. A number with a point or an exponent is the collected integer scaled by a power of ten, each of
the two rounded to binary64. -/

namespace FluidSizing

namespace Json

/-- A number: an integer, if it is written as one and fits, or a binary64 number. -/
inductive Number where
  | integer (value : Int)
  | float (value : Binary64)
  deriving DecidableEq

namespace Number

def toBinary64 : Number → Binary64
  | integer value => Binary64.ofSignedRatio false (value * Binary64.one) 1
  | float value => value

def found : Number → Found
  | integer value => .integer value
  | float value => .float value

end Number

def maxSignificand : Nat := Nat.pow 2 64 - 1

/-- The largest exponent that is told from larger ones. -/
def maxExponent : Nat := Nat.pow 2 31 - 1

def digitValue (c : Char) : Nat := c.toNat - 48

/-- Appends digits to a significand while it stays within bounds: the significand, the number of digits
appended, and what follows. -/
def collectDigits (significand : Nat) : Text → Nat × Nat × Text
  | [] => (significand, 0, [])
  | c :: rest =>
    let next := 10 * significand + digitValue c
    if c.isDigit && next ≤ maxSignificand then
      let (whole, count, rest) := collectDigits next rest
      (whole, count + 1, rest)
    else (significand, 0, c :: rest)

/-- A number over a power of ten, taken in steps of at most 308 places. -/
def scaleDown (x : Binary64) (places : Nat) : Binary64 :=
  if places ≤ 308 then x.div (Binary64.ofDecimal false 1 places)
  else if x.isEqual (Binary64.zero false) then x
  else scaleDown (x.div (Binary64.ofDecimal false 1 308)) (places - 308)
termination_by places

/-- A significand times a power of ten, if that is in range. -/
def scale? (significand : Nat) (exponent : Int) : Option Binary64 :=
  let x := Binary64.ofNat significand
  match exponent with
  | .ofNat places =>
    if places ≤ 308 then
      let scaled := x.mul (Binary64.ofDecimal false 1 places)
      if scaled.isFinite then some scaled else none
    else if significand = 0 then some x
    else none
  | .negSucc places => some (scaleDown x (places + 1))

/-- The number of a sign, a significand and an exponent, in front of `rest`. -/
def scaled (negative : Bool) (significand : Nat) (exponent : Int) (rest : Text) :
    Except Fault (Number × Text) :=
  match scale? significand exponent with
  | some x => .ok (.float (if negative then x.neg else x), rest)
  | none => .error (.before .numberOutOfRange rest)

/-- The digits of an exponent behind `value`: the exponent with what follows, or only what follows the
first digit with which it is beyond all bounds. -/
def exponentDigits (value : Nat) : Text → Except Text (Nat × Text)
  | [] => .ok (value, [])
  | c :: rest =>
    if c.isDigit then
      let next := 10 * value + digitValue c
      if next ≤ maxExponent then exponentDigits next rest else .error rest
    else .ok (value, c :: rest)

def exponentSign : Text → Bool × Text
  | '+' :: rest => (false, rest)
  | '-' :: rest => (true, rest)
  | text => (false, text)

/-- A number behind the mark of its exponent. -/
def readExponent (negative : Bool) (significand : Nat) (exponent : Int) (text : Text) :
    Except Fault (Number × Text) :=
  let (down, digits) := exponentSign text
  match digits with
  | [] => .error (.before .endInValue [])
  | c :: _ =>
    if c.isDigit then
      match exponentDigits 0 digits with
      | .ok (value, rest) =>
        scaled negative significand (if down then exponent - value else exponent + value) rest
      | .error rest =>
        if significand ≠ 0 && !down then .error (.before .numberOutOfRange rest)
        else .ok (.float (Binary64.zero negative), rest.dropWhile Char.isDigit)
    else .error (.firstByte .invalidNumber digits)

def startsExponent : Text → Bool
  | c :: _ => c = 'e' || c = 'E'
  | [] => false

/-- A number behind its digits, which has an exponent or not. -/
def readScaled (negative : Bool) (significand : Nat) (exponent : Int) (text : Text) :
    Except Fault (Number × Text) :=
  if startsExponent text then readExponent negative significand exponent (text.drop 1)
  else scaled negative significand exponent text

/-- A number behind its point. -/
def readFraction (negative : Bool) (significand : Nat) (exponent : Int) (text : Text) :
    Except Fault (Number × Text) :=
  let (collected, count, rest) := collectDigits significand text
  let behind := rest.dropWhile Char.isDigit
  if count = 0 && behind = rest then
    match rest with
    | [] => .error (.before .endInValue [])
    | _ => .error (.firstByte .invalidNumber rest)
  else readScaled negative collected (exponent - count) behind

/-- An integer, in front of `rest`. A negative one that is zero or does not fit into 64 bits is a binary64
number. -/
def integer (negative : Bool) (significand : Nat) (rest : Text) : Number × Text :=
  if !negative then (.integer significand, rest)
  else if 0 < significand && significand ≤ Nat.pow 2 63 then (.integer (-(significand : Int)), rest)
  else (.float (Binary64.ofNat significand).neg, rest)

/-- A number behind its first digits, of which `dropped` more were not collected. -/
def readTail (negative : Bool) (significand dropped : Nat) (text : Text) :
    Except Fault (Number × Text) :=
  match text with
  | '.' :: rest => readFraction negative significand dropped rest
  | _ =>
    if dropped = 0 && !startsExponent text then .ok (integer negative significand text)
    else readScaled negative significand dropped text

/-- A number behind its sign. A zero at the start stands alone. -/
def readUnsigned (negative : Bool) (text : Text) : Except Fault (Number × Text) :=
  match text with
  | [] => .error (.before .endInValue [])
  | '0' :: rest =>
    match rest with
    | c :: _ =>
      if c.isDigit then .error (.firstByte .invalidNumber rest)
      else readTail negative 0 0 rest
    | [] => readTail negative 0 0 []
  | c :: _ =>
    if c.isDigit then
      let (significand, _, rest) := collectDigits 0 text
      let dropped := rest.takeWhile Char.isDigit
      readTail negative significand dropped.length (rest.drop dropped.length)
    else .error (.firstByte .invalidNumber text)

/-- The number at the start of a text that starts with a digit or a minus. -/
def readNumber : Text → Except Fault (Number × Text)
  | '-' :: rest => readUnsigned true rest
  | text => readUnsigned false text

end Json

end FluidSizing
