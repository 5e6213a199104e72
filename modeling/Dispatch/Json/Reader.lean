import Dispatch.Json.Basic
import Dispatch.Text.Scan

/-!
# Reading JSON texts

One value with space around it and nothing else. Strings are read in two steps: a text gives
UTF-16 units, whole characters where they stand for themselves, and the units give characters
where the halves of every surrogate pair stand together.

A number without fraction and exponent is an integer if it lies in the range of the 64-bit
integers, signed for a negative number and unsigned for any other. Every other number is real: the
digits that fit in 64 bits, as a double, times or over a power of ten that is itself rounded. So a
real is near the number in the text and not always the nearest double to it. A real out of range is
read as an infinity.
-/

namespace Dispatch.Json

-- ---------------------------------------------------------------------
-- Numbers
-- ---------------------------------------------------------------------

/-- The number of a run of digits as far as it fits in 64 bits, continued from `n`, and the digits
from the first that does not fit. -/
def fitted : Nat → List Char → Nat × List Char
  | n, [] => (n, [])
  | n, c :: ds =>
    let next := 10 * n + (c.toNat - '0'.toNat)
    if next < UInt64.size then fitted next ds else (n, c :: ds)

/-- A double times a power of ten. A power below `10 ^ -308` is taken in steps. -/
def scale (x : Double) (exponent : Int) : Double :=
  if exponent < -308 then
    if x.isZero then x else scale (x.div (Double.ofNat (wholePower 10 308))) (exponent + 308)
  else if exponent < 0 then x.div (Double.ofNat (wholePower 10 (-exponent)))
  else if exponent ≤ 308 then x.mul (Double.ofNat (wholePower 10 exponent))
  else if x.isZero then x
  else .infinite false
termination_by (-exponent).toNat

def exponentPart : List Char → Option (Option Int × List Char)
  | c :: s =>
    if c = 'e' || c = 'E' then
      let (negative, s) := match s with
        | '-' :: t => (true, t)
        | '+' :: t => (false, t)
        | t => (false, t)
      let ds := s.takeWhile Char.isDigit
      if ds.isEmpty then none
      else
        let n : Int := Nat.ofDigitChars 10 ds 0
        some (some (if negative then -n else n), s.dropWhile Char.isDigit)
    else some (none, c :: s)
  | [] => some (none, [])

def fractionPart : List Char → Option (Option (List Char) × List Char)
  | '.' :: s =>
    let ds := s.takeWhile Char.isDigit
    if ds.isEmpty then none else some (some ds, s.dropWhile Char.isDigit)
  | s => some (none, s)

/-- The digits in front: a zero stands alone. -/
def wholePart (s : List Char) : Option (List Char × List Char) :=
  let ds := s.takeWhile Char.isDigit
  if ds.isEmpty || (ds.head? = some '0' && ds.length != 1) then none
  else some (ds, s.dropWhile Char.isDigit)

def ofParts (negative : Bool) (whole : List Char) (fraction : Option (List Char))
    (exponent : Option Int) : Json :=
  let sign (x : Double) : Double := if negative then x.neg else x
  let (n, beyond) := fitted 0 whole
  match fraction, exponent, beyond with
  | none, none, [] =>
    if !negative then .integer n
    else if n = 0 || Int64.minValue.toInt.natAbs < n then .real (sign (Double.ofNat n))
    else .integer (-n)
  | _, _, _ =>
    let ds := fraction.getD []
    let (n, left) := fitted n ds
    let places : Int := beyond.length - (ds.length - left.length : Nat)
    .real (sign (scale (Double.ofNat n) (places + exponent.getD 0)))

def numberScan : Scan Json := fun s =>
  let (negative, s) := match s with
    | '-' :: t => (true, t)
    | t => (false, t)
  match wholePart s with
  | none => none
  | some (whole, s) =>
    match fractionPart s with
    | none => none
    | some (fraction, s) =>
      (exponentPart s).map fun (exponent, s) => (ofParts negative whole fraction exponent, s)

-- ---------------------------------------------------------------------
-- Strings
-- ---------------------------------------------------------------------

def hexDigit? (c : Char) : Option Nat :=
  if c.isDigit then some (c.toNat - '0'.toNat)
  else if 'a' ≤ c && c ≤ 'f' then some (c.toNat - 'a'.toNat + 10)
  else if 'A' ≤ c && c ≤ 'F' then some (c.toNat - 'A'.toNat + 10)
  else none

def hexUnit? (ds : List Char) : Option Nat :=
  ds.foldlM (fun n c => (hexDigit? c).map (16 * n + ·)) 0

def unescape : Char → Option Nat
  | '"' => some '"'.toNat
  | '\\' => some '\\'.toNat
  | '/' => some '/'.toNat
  | 'b' => some 0x08
  | 'f' => some 0x0C
  | 'n' => some 0x0A
  | 'r' => some 0x0D
  | 't' => some 0x09
  | _ => none

def units : List Char → Option (List Nat × List Char)
  | [] => none
  | '"' :: rest => some ([], rest)
  | '\\' :: 'u' :: a :: b :: c :: d :: s =>
    match hexUnit? [a, b, c, d], units s with
    | some u, some (us, rest) => some (u :: us, rest)
    | _, _ => none
  | '\\' :: m :: s =>
    match unescape m, units s with
    | some u, some (us, rest) => some (u :: us, rest)
    | _, _ => none
  | c :: s =>
    if c.toNat < 0x20 || c = '\\' then none
    else (units s).map fun (us, rest) => (c.toNat :: us, rest)

def isHighHalf (u : Nat) : Bool := 0xD800 ≤ u && u < 0xDC00

def isLowHalf (u : Nat) : Bool := 0xDC00 ≤ u && u < 0xE000

def ofUnits : List Nat → Option (List Char)
  | [] => some []
  | high :: low :: us =>
    if isHighHalf high && isLowHalf low then
      (ofUnits us).map (Char.ofNat (0x10000 + (high - 0xD800) * 0x400 + (low - 0xDC00)) :: ·)
    else if isHighHalf high || isLowHalf high then none
    else (ofUnits (low :: us)).map (Char.ofNat high :: ·)
  | [u] => if isHighHalf u || isLowHalf u then none else some [Char.ofNat u]

/-- A string, or nothing where its units make no characters. -/
def stringScan : Scan (Option String) :=
  Scan.after '"' (Scan.map (fun us => (ofUnits us).map String.ofList) units)

-- ---------------------------------------------------------------------
-- Values
-- ---------------------------------------------------------------------

def word (text : List Char) (j : Json) : Scan Json := fun s =>
  if text.isPrefixOf s then some (j, s.drop text.length) else none

def ofString : Option String → Json
  | some text => .string text
  | none => .garbled

/-- A field with a name that makes no characters spoils its object. -/
def ofFields (fields : List (Option String × Json)) : Json :=
  match fields.mapM fun (name, j) => name.map (·, j) with
  | some fields => .object fields
  | none => .garbled

def fieldScan (value : Scan Json) : Scan (Option String × Json) := fun s =>
  match stringScan s with
  | none => none
  | some (name, rest) =>
    Scan.after ':' (Scan.map (fun j => (name, j)) (Scan.spaced value)) (Scan.skip rest)

/-- A value with brackets in brackets up to the given depth. -/
def valueScan : Nat → Scan Json
  | 0 => fun _ => none
  | depth + 1 =>
    Scan.orElse (Scan.map ofFields (Scan.bracketed '{' '}' (fieldScan (valueScan depth)))) <|
    Scan.orElse (Scan.map Json.array (Scan.bracketed '[' ']' (valueScan depth))) <|
    Scan.orElse (Scan.map ofString stringScan) <|
    Scan.orElse (word ['n', 'u', 'l', 'l'] .null) <|
    Scan.orElse (word ['t', 'r', 'u', 'e'] (.bool true)) <|
    Scan.orElse (word ['f', 'a', 'l', 's', 'e'] (.bool false)) numberScan

/-- Every bracket takes a character, so the depth of a text is below its length. -/
def read? (s : List Char) : Option Json :=
  match Scan.padded (valueScan (s.length + 1)) s with
  | some (j, []) => some j
  | _ => none

end Dispatch.Json
