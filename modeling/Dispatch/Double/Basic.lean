/-!
# Binary64 numbers

A finite double is a sign and a rank: its place among the finite non-negative doubles in
ascending order, zero first. Ranks are dense, so the neighbours of a double have the ranks beside
its own, and rounding up past the last significand of a binade lands on the first of the next.

Arithmetic is exact on quotients of naturals and rounds once, to the nearest double, with a half
going to the even significand. A decimal is a coefficient and a power of ten, and a double is
nearest to it; the digits of a coefficient read back as the coefficient.
-/

namespace Dispatch

/-- The power of a base, as far as it is whole: one for a negative exponent. -/
def wholePower (base : Nat) (exponent : Int) : Nat := Nat.pow base exponent.toNat

abbrev Double.binadeSize : Nat := 4503599627370496

/-- The number of finite non-negative doubles. -/
abbrev Double.ranks : Nat := 2047 * Double.binadeSize

inductive Double
  | nan
  | infinite (negative : Bool)
  | finite (negative : Bool) (rank : Fin Double.ranks)
  deriving DecidableEq

theorem wholePower_pos {base : Nat} (h : 0 < base) {exponent : Int} :
    0 < wholePower base exponent := Nat.pow_pos h

namespace Double

instance : Inhabited Double := ⟨.finite false ⟨0, by decide⟩⟩

def significand (rank : Nat) : Nat :=
  if rank < binadeSize then rank else binadeSize + rank % binadeSize

def exponent (rank : Nat) : Int :=
  if rank < binadeSize then -1074 else (rank / binadeSize : Nat) - 1075

/-- A rank's number is `numerator rank / denominator rank`, one of them a whole power of two
times the significand. -/
def numerator (rank : Nat) : Nat := significand rank * wholePower 2 (exponent rank)

def denominator (rank : Nat) : Nat := wholePower 2 (-exponent rank)

theorem denominator_pos (rank : Nat) : 0 < denominator rank := wholePower_pos (by decide)

-- ---------------------------------------------------------------------
-- Rounding
-- ---------------------------------------------------------------------

/-- The whole number nearest to `num / den`, the even one of two. -/
def roundQuotient (num den : Nat) : Nat :=
  let whole := num / den
  let left := 2 * (num % den)
  if left < den then whole else if den < left then whole + 1 else whole + whole % 2

/-- The `t` with `2 ^ t ≤ num / den < 2 ^ (t + 1)`, for a positive quotient. -/
def binade (num den : Nat) : Int :=
  let t : Int := num.log2 - den.log2
  if den * wholePower 2 t ≤ num * wholePower 2 (-t) then t else t - 1

/-- The exponent of the last significand bit that a positive quotient keeps. -/
def lastPlace (num den : Nat) : Int := max (binade num den - 52) (-1074)

/-- The rank nearest to `num / den`; one of `ranks` or more is out of range. A significand that
rounds up to `2 ^ 53` is carried into the next binade by the sum itself. -/
def nearestRank (num den : Nat) : Nat :=
  if num = 0 then 0 else
    let q := lastPlace num den
    (q + 1074).toNat * binadeSize
      + roundQuotient (num * wholePower 2 (-q)) (den * wholePower 2 q)

def ofRank (negative : Bool) (rank : Nat) : Double :=
  if h : rank < ranks then .finite negative ⟨rank, h⟩ else .infinite negative

def ofQuotient (negative : Bool) (num den : Nat) : Double :=
  ofRank negative (nearestRank num den)

def ofNat (n : Nat) : Double := ofQuotient false n 1

def ofInt (i : Int) : Double := ofQuotient (decide (i < 0)) i.natAbs 1

/-- Numeric equality: both zeros are one number, and NaN equals nothing. -/
def beq : Double → Double → Bool
  | .finite s r, .finite t q => r == q && (s == t || r.val == 0)
  | .infinite s, .infinite t => s == t
  | _, _ => false

instance : BEq Double := ⟨beq⟩

def neg : Double → Double
  | .nan => .nan
  | .infinite s => .infinite !s
  | .finite s r => .finite (!s) r

def isFinite : Double → Bool
  | .finite .. => true
  | _ => false

def isZero : Double → Bool
  | .finite _ r => r.val == 0
  | _ => false

def mul : Double → Double → Double
  | .finite s r, .finite t q =>
    ofQuotient (s != t) (numerator r * numerator q) (denominator r * denominator q)
  | .infinite s, .infinite t => .infinite (s != t)
  | .infinite s, .finite t q => if q.val = 0 then .nan else .infinite (s != t)
  | .finite s r, .infinite t => if r.val = 0 then .nan else .infinite (s != t)
  | _, _ => .nan

def div : Double → Double → Double
  | .finite s r, .finite t q =>
    if q.val = 0 then if r.val = 0 then .nan else .infinite (s != t)
    else ofQuotient (s != t) (numerator r * denominator q) (denominator r * numerator q)
  | .infinite s, .finite t _ => .infinite (s != t)
  | .finite s _, .infinite t => ofRank (s != t) 0
  | _, _ => .nan

@[simp] theorem neg_neg (x : Double) : x.neg.neg = x := by cases x <;> simp [neg]

theorem beq_self_iff (x : Double) : (x == x) = true ↔ x ≠ .nan := by
  cases x <;> simp [BEq.beq, beq]

theorem ofRank_of_lt {negative : Bool} {rank : Nat} (h : rank < ranks) :
    ofRank negative rank = .finite negative ⟨rank, h⟩ := by simp [ofRank, h]

theorem ofRank_ne_nan (negative : Bool) (rank : Nat) : ofRank negative rank ≠ .nan := by
  unfold ofRank; split <;> simp

end Double

-- ---------------------------------------------------------------------
-- Decimals
-- ---------------------------------------------------------------------

/-- The number `coefficient · 10 ^ exponent`. -/
structure Decimal where
  coefficient : Nat
  exponent : Int
  deriving DecidableEq

namespace Decimal

def numerator (d : Decimal) : Nat := d.coefficient * wholePower 10 d.exponent

def denominator (d : Decimal) : Nat := wholePower 10 (-d.exponent)

def toDouble (negative : Bool) (d : Decimal) : Double :=
  Double.ofQuotient negative d.numerator d.denominator

def ofDigits (whole fraction : List Char) : Decimal where
  coefficient := Nat.ofDigitChars 10 (whole ++ fraction) 0
  exponent := -(fraction.length : Int)

def digits (d : Decimal) : List Char := Nat.toDigits 10 d.coefficient

/-- Where the point stands in the digits, counted from their left end. -/
def point (d : Decimal) : Int := d.digits.length + d.exponent

/-- The same number without the zeros at the end of its coefficient. -/
def trim (d : Decimal) : Decimal :=
  let zeros := (d.digits.reverse.takeWhile (· = '0')).length
  if d.coefficient = 0 then d
  else ⟨d.coefficient / wholePower 10 zeros, d.exponent + zeros⟩

/-- The nearest double again, by way of a guard: a number from `10 ^ 400` on is out of range and
one below `10 ^ -400` is nearest to zero, so that no power with a written exponent is formed. -/
def toDoubleGuarded (negative : Bool) (d : Decimal) : Double :=
  if d.coefficient = 0 || d.point < -400 then Double.ofRank negative 0
  else if 400 < d.point then .infinite negative
  else d.toDouble negative

theorem denominator_pos (d : Decimal) : 0 < d.denominator := wholePower_pos (by decide)

theorem ofDigitChars_digits (d : Decimal) : Nat.ofDigitChars 10 d.digits 0 = d.coefficient :=
  Nat.ofDigitChars_toDigits (by decide) (by decide)

theorem toDouble_ne_nan (negative : Bool) (d : Decimal) : d.toDouble negative ≠ .nan :=
  Double.ofRank_ne_nan _ _

end Decimal

end Dispatch
