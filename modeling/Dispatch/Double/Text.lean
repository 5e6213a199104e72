import Dispatch.Double.Basic
import Dispatch.Text.Basic

/-!
# Doubles as text

A double is written with a shortest decimal: of all decimals that read back as the double, one with
the fewest digits, and of those the nearest. On the grid of `n`-digit decimals only the two
neighbours of the double are tried: if any point of the grid reads back, one of these does. A style
fixes which doubles are written without an exponent and how an exponent looks.

Reading takes the usual forms of a number: a sign, digits with a point among or beside them, an
exponent, and the words for what is not finite.
-/

namespace Dispatch

inductive Tie
  | upward
  | toEven
  deriving DecidableEq

namespace Double

/-- The `k` with `10 ^ (k - 1) ≤ num / den < 10 ^ k`, for a positive quotient. -/
def decade (num den : Nat) : Int :=
  if den ≤ num then (Nat.toDigits 10 (num / den)).length
  else
    let reciprocal := (den + num - 1) / num
    1 - ((Nat.toDigits 10 (reciprocal - 1)).length : Int)

def readsBack (rank : Nat) (d : Decimal) : Bool :=
  nearestRank d.numerator d.denominator == rank

/-- The neighbour with `n` digits that reads back, if there is one. -/
def neighbour? (tie : Tie) (rank n : Nat) : Option Decimal :=
  let exponent := decade (numerator rank) (denominator rank) - n
  let num := numerator rank * wholePower 10 (-exponent)
  let den := denominator rank * wholePower 10 exponent
  let below : Decimal := ⟨num / den, exponent⟩
  let above : Decimal := ⟨num / den + 1, exponent⟩
  let left := 2 * (num % den)
  let takesBelow :=
    left < den || (left == den && tie == .toEven && below.coefficient % 2 == 0)
  match readsBack rank below, readsBack rank above with
  | true, true => some (if takesBelow then below else above)
  | true, false => some below
  | false, true => some above
  | false, false => none

/-- Every double is a decimal: half a unit is five tenths. -/
def exact (rank : Nat) : Decimal where
  coefficient := numerator rank * wholePower 5 (-exponent rank)
  exponent := -((-exponent rank).toNat : Int)

/-- Seventeen digits tell any two doubles apart. -/
def shortest (tie : Tie) (rank : Nat) : Decimal :=
  (((List.range 17).findSome? fun n => neighbour? tie rank (n + 1)).getD (exact rank)).trim

theorem readsBack_of_neighbour? {tie : Tie} {rank n : Nat} {d : Decimal}
    (h : neighbour? tie rank n = some d) : readsBack rank d = true := by
  unfold neighbour? at h
  dsimp only at h
  split at h <;> simp only [Option.some.injEq, reduceCtorEq] at h
  · rename_i below above
    split at h <;> subst h
    · exact below
    · exact above
  · subst h; assumption
  · subst h; assumption

-- ---------------------------------------------------------------------
-- Writing
-- ---------------------------------------------------------------------

/-- Zero and the ranks from `plainFrom` on and below `plainBelow` are written without exponent. -/
structure Style where
  tie : Tie
  plainFrom : Nat
  plainBelow : Nat
  plusSign : Bool

def powerRank (exponent : Int) : Nat :=
  nearestRank (wholePower 10 exponent) (wholePower 10 (-exponent))

def Style.isPlain (style : Style) (rank : Nat) : Bool :=
  rank == 0 || (style.plainFrom ≤ rank && rank < style.plainBelow)

/-- The digits with their point, and at least one digit on each side of it. -/
def plainText (d : Decimal) : List Char :=
  if d.point ≤ 0 then '0' :: '.' :: (List.replicate (-d.point).toNat '0' ++ d.digits)
  else if d.digits.length ≤ d.point.toNat then
    d.digits ++ List.replicate (d.point.toNat - d.digits.length) '0' ++ ['.', '0']
  else d.digits.take d.point.toNat ++ '.' :: d.digits.drop d.point.toNat

def exponentText (plusSign : Bool) (d : Decimal) : List Char :=
  let mantissa := match d.digits with
    | [] => []
    | [c] => [c]
    | c :: rest => c :: '.' :: rest
  let power := d.point - 1
  mantissa ++ 'e' :: (if plusSign && 0 ≤ power then ['+'] else []) ++ Text.signed power

def Style.magnitude (style : Style) (rank : Nat) : List Char :=
  let d := shortest style.tie rank
  if style.isPlain rank then plainText d else exponentText style.plusSign d

def Style.finite (style : Style) (negative : Bool) (rank : Nat) : List Char :=
  (if negative then ['-'] else []) ++ style.magnitude rank

/-- The form of a double that is shown: plain from `0.0001` to below `1e16`. -/
def shown : Style where
  tie := .upward
  plainFrom := powerRank (-4)
  plainBelow := powerRank 16
  plusSign := false

def inspect : Double → List Char
  | .nan => ['N', 'a', 'N']
  | .infinite negative => (if negative then ['-'] else []) ++ ['i', 'n', 'f']
  | .finite negative rank => shown.finite negative rank

-- ---------------------------------------------------------------------
-- Reading
-- ---------------------------------------------------------------------

def splitSign : List Char → Bool × List Char
  | '-' :: rest => (true, rest)
  | '+' :: rest => (false, rest)
  | s => (false, s)

/-- The exponent at the end of a number; no text is the exponent zero. -/
def exponent? : List Char → Option Int
  | [] => some 0
  | c :: rest =>
    let (negative, ds) := splitSign rest
    if (c = 'e' || c = 'E') && !ds.isEmpty && ds.all Char.isDigit then
      some (Text.ofSigned negative ds)
    else none

def decimal? (s : List Char) : Option Decimal :=
  let whole := s.takeWhile Char.isDigit
  let (fraction, rest) := match s.dropWhile Char.isDigit with
    | '.' :: t => (t.takeWhile Char.isDigit, t.dropWhile Char.isDigit)
    | t => ([], t)
  if whole.isEmpty && fraction.isEmpty then none
  else (exponent? rest).map fun e =>
    let d := Decimal.ofDigits whole fraction
    ⟨d.coefficient, d.exponent + e⟩

def read? (s : List Char) : Option Double :=
  let (negative, rest) := splitSign s
  let word := String.ofList (rest.map Char.toLower)
  if word = "nan" then some .nan
  else if word = "inf" || word = "infinity" then some (.infinite negative)
  else (decimal? rest).map (·.toDoubleGuarded negative)

end Double

end Dispatch
