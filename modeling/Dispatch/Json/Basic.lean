import Dispatch.Double.Text
import Dispatch.Table

/-!
# JSON

Trees and their texts. The compact form has no space between its parts. The spread form puts each
element and field on a line of its own, two spaces deeper than the bracket around it. Both escape
quotes, backslashes and the characters below space, and nothing else.
-/

namespace Dispatch

/-- Objects keep their fields as they stand in a text, repeated names too. A text with half of a
surrogate pair in one of its strings is well formed and holds no characters to read: its tree has
`garbled` in that place. -/
inductive Json
  | null
  | bool (b : Bool)
  | integer (i : Int)
  | real (x : Double)
  | string (text : String)
  | array (elements : List Json)
  | object (fields : List (String × Json))
  | garbled

namespace Json

instance : Inhabited Json := ⟨.null⟩

def ofDouble (x : Double) : Json := if x.isFinite then .real x else .null

/-- The object with its fields in ascending order; the last field of a name counts. -/
def sorted (fields : List (String × Json)) : Json := .object (Table.ofList fields)

def field? (name : String) : Json → Option Json
  | .object fields => Table.lookup fields name
  | _ => none

/-- The form of a double in JSON: plain from `0.00001` to below `1e16`, and a sign on every
exponent. -/
def numberStyle : Double.Style where
  tie := .toEven
  plainFrom := Double.powerRank (-5)
  plainBelow := Double.powerRank 16
  plusSign := true

def number : Double → List Char
  | .finite negative rank => numberStyle.finite negative rank
  | _ => ['n', 'u', 'l', 'l']

def hexPair (n : Nat) : List Char := [Nat.digitChar (n / 16), Nat.digitChar (n % 16)]

def escape (c : Char) : List Char :=
  match c with
  | '"' => ['\\', '"']
  | '\\' => ['\\', '\\']
  | '\n' => ['\\', 'n']
  | '\t' => ['\\', 't']
  | '\r' => ['\\', 'r']
  | '\x08' => ['\\', 'b']
  | '\x0c' => ['\\', 'f']
  | c => if c.toNat < 0x20 then ['\\', 'u', '0', '0'] ++ hexPair c.toNat else [c]

def quote (text : String) : List Char := '"' :: (text.toList.flatMap escape ++ ['"'])

mutual
def compact : Json → List Char
  | .null => ['n', 'u', 'l', 'l']
  | .bool true => ['t', 'r', 'u', 'e']
  | .bool false => ['f', 'a', 'l', 's', 'e']
  | .integer i => Text.signed i
  | .real x => number x
  | .string text => quote text
  | .array elements => '[' :: (Text.joined [','] (compactElements elements) ++ [']'])
  | .object fields => '{' :: (Text.joined [','] (compactFields fields) ++ ['}'])
  | .garbled => ['n', 'u', 'l', 'l']
def compactElements : List Json → List (List Char)
  | [] => []
  | j :: rest => compact j :: compactElements rest
def compactFields : List (String × Json) → List (List Char)
  | [] => []
  | (name, j) :: rest => (quote name ++ ':' :: compact j) :: compactFields rest
end

def newLine (depth : Nat) : List Char := '\n' :: List.replicate (2 * depth) ' '

def block (opening closing : Char) (depth : Nat) (parts : List (List Char)) : List Char :=
  if parts.isEmpty then [opening, closing]
  else
    opening :: (newLine (depth + 1) ++ Text.joined (',' :: newLine (depth + 1)) parts
      ++ newLine depth ++ [closing])

mutual
def spread (depth : Nat) : Json → List Char
  | .array elements => block '[' ']' depth (spreadElements (depth + 1) elements)
  | .object fields => block '{' '}' depth (spreadFields (depth + 1) fields)
  | j => compact j
def spreadElements (depth : Nat) : List Json → List (List Char)
  | [] => []
  | j :: rest => spread depth j :: spreadElements depth rest
def spreadFields (depth : Nat) : List (String × Json) → List (List Char)
  | [] => []
  | (name, j) :: rest => (quote name ++ ':' :: ' ' :: spread depth j) :: spreadFields depth rest
end

def compactText (j : Json) : String := String.ofList j.compact

def spreadText (j : Json) : String := String.ofList (j.spread 0)

end Json

end Dispatch
