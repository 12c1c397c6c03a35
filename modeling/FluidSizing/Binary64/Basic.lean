/-! The numbers of the binary64 format. A finite number is a sign and a magnitude that counts the
smallest positive number, 2 to the power -1074; a magnitude fits when 53 significant bits and the range
of exponents hold it. Zero has both signs. A quotient is rounded to the nearest number, ties to the even
neighbour; `fits_nearest` says that the rounded magnitude has at most 53 significant bits, so all that
can go wrong is the range. Each operation on finite numbers is the exact result rounded once, the
multiplication with addition included; an exact zero is negative only where both parts are. -/

namespace FluidSizing

namespace Binary64

/-- The number of units in one: the unit is 2 to the power -1074. -/
def one : Nat := Nat.pow 2 1074

/-- The first magnitude beyond the range: 2 to the power 1024. -/
def limit : Nat := Nat.pow 2 2098

/-- A magnitude, in units, that the format holds: in range, with all but its 53 leading bits zero. -/
def Fits (units : Nat) : Prop := units < limit ∧ Nat.pow 2 (units.log2 - 52) ∣ units

instance (units : Nat) : Decidable (Fits units) := inferInstanceAs (Decidable (_ ∧ _))

theorem one_pos : 0 < one := by simp only [one, Nat.pow_eq, Nat.two_pow_pos]

theorem limit_pos : 0 < limit := by simp only [limit, Nat.pow_eq, Nat.two_pow_pos]

theorem fits_zero : Fits 0 := ⟨limit_pos, Nat.dvd_zero _⟩

end Binary64

inductive Binary64 where
  | nan
  | infinity (negative : Bool)
  | finite (negative : Bool) (units : Nat) (fits : Binary64.Fits units)
  deriving DecidableEq

namespace Binary64

/-- The zero of a sign. -/
def zero (negative : Bool) : Binary64 := finite negative 0 fits_zero

instance : Inhabited Binary64 := ⟨zero false⟩

def isFinite : Binary64 → Bool
  | finite .. => true
  | _ => false

/-- A magnitude with a sign, as an integer. -/
def signed (negative : Bool) (magnitude : Nat) : Int :=
  if negative then -(magnitude : Int) else magnitude

/-- Whether the first number is smaller; an undefined number is not comparable. -/
def isLess : Binary64 → Binary64 → Bool
  | nan, _ => false
  | _, nan => false
  | infinity s, infinity t => s && !t
  | infinity s, finite .. => s
  | finite .., infinity t => !t
  | finite s a _, finite t b _ => signed s a < signed t b

/-- Whether two numbers have one value; the two zeros have, an undefined number has none. -/
def isEqual : Binary64 → Binary64 → Bool
  | infinity s, infinity t => s == t
  | finite s a _, finite t b _ => signed s a == signed t b
  | _, _ => false

/-- The quotient rounded to the nearest integer, a tie to the even one. -/
def roundQuotient (num den : Nat) : Nat :=
  let below := num / den
  let twice := 2 * (num % den)
  if den < twice || (den == twice && below % 2 == 1) then below + 1 else below

/-- The distance between the neighbours of a magnitude whose whole part is given. -/
def spacing (whole : Nat) : Nat := Nat.pow 2 (whole.log2 - 52)

/-- The quotient, in units, rounded to 53 significant bits and to whole units. -/
def nearest (num den : Nat) : Nat :=
  let step := spacing (num / den)
  roundQuotient num (den * step) * step

theorem roundQuotient_le (num den : Nat) : roundQuotient num den ≤ num / den + 1 := by
  simp only [roundQuotient]
  split <;> omega

private theorem div_spacing_lt (whole : Nat) : whole / spacing whole < Nat.pow 2 53 := by
  rw [spacing, Nat.pow_eq, Nat.pow_eq, Nat.div_lt_iff_lt_mul (Nat.two_pow_pos _), ← Nat.pow_add]
  exact Nat.lt_of_lt_of_le Nat.lt_log2_self (Nat.pow_le_pow_right (by decide) (by omega))

private theorem pow_log2_dvd_mul {significand shift : Nat} (h : significand ≤ Nat.pow 2 53) :
    Nat.pow 2 ((significand * Nat.pow 2 shift).log2 - 52) ∣ significand * Nat.pow 2 shift := by
  simp only [Nat.pow_eq] at h ⊢
  rcases Nat.lt_or_eq_of_le h with hlt | rfl
  · rcases Nat.eq_zero_or_pos significand with rfl | hpos
    · simp
    · have hne : significand * 2 ^ shift ≠ 0 :=
        Nat.mul_ne_zero (by omega) (Nat.pos_iff_ne_zero.1 (Nat.two_pow_pos _))
      have hlog : (significand * 2 ^ shift).log2 < 53 + shift := by
        rw [Nat.log2_lt hne, Nat.pow_add]
        exact Nat.mul_lt_mul_of_pos_right hlt (Nat.two_pow_pos _)
      exact Nat.dvd_trans (Nat.pow_dvd_pow 2 (by omega)) (Nat.dvd_mul_left _ _)
  · rw [← Nat.pow_add, Nat.log2_two_pow]
    exact Nat.pow_dvd_pow 2 (by omega)

theorem pow_log2_dvd_nearest (num den : Nat) :
    Nat.pow 2 ((nearest num den).log2 - 52) ∣ nearest num den := by
  refine pow_log2_dvd_mul (Nat.le_trans (roundQuotient_le _ _) ?_)
  rw [← Nat.div_div_eq_div_mul]
  exact div_spacing_lt _

theorem fits_nearest {num den : Nat} (h : nearest num den < limit) : Fits (nearest num den) :=
  ⟨h, pow_log2_dvd_nearest num den⟩

/-- The number nearest to a quotient in units, infinite when that is beyond the range. -/
def ofRatio (negative : Bool) (num den : Nat) : Binary64 :=
  if h : nearest num den < limit then finite negative (nearest num den) (fits_nearest h)
  else infinity negative

/-- The number nearest to a quotient in units, whose sign is that of the numerator; an exact zero takes
the sign given for it. -/
def ofSignedRatio (zeroNegative : Bool) (num : Int) (den : Nat) : Binary64 :=
  if num = 0 then zero zeroNegative else ofRatio (num < 0) num.natAbs den

def ofNat (n : Nat) : Binary64 := ofRatio false (n * one) 1

/-- The magnitude nearest to `digits` times ten to the power `exponent`, in units. -/
def nearestDecimal (digits : Nat) : Int → Nat
  | .ofNat e => nearest (digits * Nat.pow 10 e * one) 1
  | .negSucc e => nearest (digits * one) (Nat.pow 10 (e + 1))

/-- The number nearest to `digits` times ten to the power `exponent`. Exponents are first brought into
bounds beyond which the number is infinite, or zero, all the same. -/
def ofDecimal (negative : Bool) (digits : Nat) (exponent : Int) : Binary64 :=
  let bounded := max (min exponent 400) (-(digits.log2 + 400 : Nat))
  if h : nearestDecimal digits bounded < limit then
    finite negative (nearestDecimal digits bounded) <| by
      revert h
      cases bounded <;> exact fits_nearest
  else infinity negative

def neg : Binary64 → Binary64
  | nan => nan
  | infinity s => infinity (!s)
  | finite s a h => finite (!s) a h

def add : Binary64 → Binary64 → Binary64
  | nan, _ => nan
  | _, nan => nan
  | infinity s, infinity t => if s = t then infinity s else nan
  | infinity s, finite .. => infinity s
  | finite .., infinity t => infinity t
  | finite s a _, finite t b _ => ofSignedRatio (s && t) (signed s a + signed t b) 1

def sub (x y : Binary64) : Binary64 := add x (neg y)

def mul : Binary64 → Binary64 → Binary64
  | nan, _ => nan
  | _, nan => nan
  | infinity s, infinity t => infinity (s != t)
  | infinity s, finite t b _ => if b = 0 then nan else infinity (s != t)
  | finite s a _, infinity t => if a = 0 then nan else infinity (s != t)
  | finite s a _, finite t b _ => ofRatio (s != t) (a * b) one

def div : Binary64 → Binary64 → Binary64
  | nan, _ => nan
  | _, nan => nan
  | infinity _, infinity _ => nan
  | infinity s, finite t .. => infinity (s != t)
  | finite s .., infinity t => zero (s != t)
  | finite s a _, finite t b _ =>
    if b = 0 then
      if a = 0 then nan else infinity (s != t)
    else ofRatio (s != t) (a * one) b

/-- The product of the first two numbers plus the third, rounded once. -/
def mulAdd : Binary64 → Binary64 → Binary64 → Binary64
  | finite s a _, finite t b _, finite u c _ =>
    ofSignedRatio ((s != t) && u) (signed (s != t) (a * b) + signed u (c * one)) one
  | finite .., finite .., z => z
  | x, y, z => add (mul x y) z

/-- The nearest whole number, a half away from zero. -/
def roundHalfAway : Binary64 → Binary64
  | finite s a _ => ofRatio s ((2 * a + one) / (2 * one) * one) 1
  | x => x

end Binary64

end FluidSizing
