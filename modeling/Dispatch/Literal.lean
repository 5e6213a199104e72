import Dispatch.Text.Scan
import Dispatch.Value

/-!
# Literals

The values without parts, as they are written in signatures and calls: quoted texts, symbols,
numbers and words. A word that names no constant stands for itself as a string.
-/

namespace Dispatch

inductive Literal
  | nil
  | boolean (b : Bool)
  | integer (i : Int64)
  | float (x : Double)
  | string (text : String)
  | symbol (name : String)
  deriving DecidableEq

open Located

namespace Literal

def toValue : Literal → Value
  | .nil => .nil
  | .boolean b => .boolean b
  | .integer i => .integer i
  | .float x => .float x
  | .string text => .string text
  | .symbol name => .symbol name

def inspect (l : Literal) : List Char := l.toValue.inspect

def display (l : Literal) : String := String.ofList l.inspect

def ofInt? (i : Int) : Option Literal :=
  if Int64.minValue.toInt ≤ i ∧ i ≤ Int64.maxValue.toInt then some (.integer (Int64.ofInt i))
  else none

/-- The digits behind a point; without one behind it the point is no part of the number. -/
def fraction : Located (Option (List Char)) := optional (after '.' digits)

/-- The value of a number. A float has a fraction; an integer that needs more than 64 bits has no
value. -/
def ofDigits? (negative : Bool) (whole : List Char) : Option (List Char) → Option Literal
  | some fraction => some (.float ((Decimal.ofDigits whole fraction).toDouble negative))
  | none => ofInt? (Text.ofSigned negative whole)

/-- Digits behind a sign or none. If they have no value, the number fails at its front. -/
def unsigned (front : List Char) (negative : Bool) : Located Literal := fun s => do
  let (whole, s) ← digits s
  let (fraction, s) ← fraction s
  match ofDigits? negative whole fraction with
  | some l => .ok (l, s)
  | none => .error ⟨.value, front⟩

def number : Located Literal := fun s => do
  let (minus, t) ← optional (one .character (· = '-')) s
  unsigned s minus.isSome t

def ofWord (word : String) : Literal :=
  if word = "nil" then .nil
  else if word = "true" then .boolean true
  else if word = "false" then .boolean false
  else .string word

def read : Located Literal :=
  orElse (map .string Text.Quoted.double) <|
  orElse (map .string Text.Quoted.single) <|
  orElse (after ':' (map .symbol identifier)) <|
  orElse number (map ofWord identifier)

def scan : Scan Literal := read.toScan

end Literal

end Dispatch
