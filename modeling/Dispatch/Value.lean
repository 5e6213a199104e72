import Dispatch.Json.Basic

/-!
# Values

The values that methods take and return. A hash is a list of pairs and may hold a key more than
once: looking up goes by the last pair of a key, storing by the first, and collecting pairs
leaves one pair for each key.

Literals are shown as they are written in a call, a hash as its pairs with arrows between key and
value. As JSON a hash becomes an object whose names are the texts of its keys; where several keys
have one text the last pair counts, as it does for looking up.
-/

namespace Dispatch

inductive Value
  | nil
  | boolean (b : Bool)
  | integer (i : Int64)
  | float (x : Double)
  | string (text : String)
  | symbol (name : String)
  | hash (pairs : List (Value × Value))

instance : Inhabited Value := ⟨.nil⟩

inductive Kind
  | nil
  | boolean
  | integer
  | float
  | string
  | symbol
  | hash
  deriving DecidableEq

def Kind.className : Kind → String
  | .nil => "NilClass"
  | .boolean => "Boolean"
  | .integer => "Integer"
  | .float => "Float"
  | .string => "String"
  | .symbol => "Symbol"
  | .hash => "Hash"

def Kind.tag : Kind → String
  | .nil => "Nil"
  | kind => kind.className

abbrev Pairs := List (Value × Value)

namespace Value

def kind : Value → Kind
  | .nil => .nil
  | .boolean _ => .boolean
  | .integer _ => .integer
  | .float _ => .float
  | .string _ => .string
  | .symbol _ => .symbol
  | .hash _ => .hash

def isNil (v : Value) : Bool := v.kind = .nil

mutual
/-- Values of different kinds differ; floats compare as numbers, so a value with a NaN in it
differs from itself. -/
def beq : Value → Value → Bool
  | .nil, .nil => true
  | .boolean a, .boolean b => a == b
  | .integer i, .integer j => i == j
  | .float x, .float y => x == y
  | .string s, .string t => s == t
  | .symbol s, .symbol t => s == t
  | .hash ps, .hash qs => beqPairs ps qs
  | _, _ => false
/-- Hashes compare pair by pair in their order. -/
def beqPairs : Pairs → Pairs → Bool
  | [], [] => true
  | (k, v) :: ps, (l, w) :: qs => beq k l && beq v w && beqPairs ps qs
  | _, _ => false
end

instance : BEq Value := ⟨beq⟩

end Value

-- ---------------------------------------------------------------------
-- Pairs
-- ---------------------------------------------------------------------

namespace Pairs

/-- The value of the last pair with this key. -/
def lookup (ps : Pairs) (key : Value) : Option Value :=
  (ps.reverse.find? fun (k, _) => k == key).map Prod.snd

/-- The first pair with this key takes the value, or a new pair comes last. -/
def insert (key value : Value) : Pairs → Pairs
  | [] => [(key, value)]
  | (k, v) :: ps => if k == key then (k, value) :: ps else (k, v) :: insert key value ps

def collect (ps : Pairs) : Pairs := ps.foldl (fun acc (k, v) => insert k v acc) []

end Pairs

namespace Value

/-- Looking up in a value that is no hash finds nothing. -/
def get? (v key : Value) : Option Value :=
  match v with
  | .hash ps => Pairs.lookup ps key
  | _ => none

/-- Storing into a value that is no hash does nothing. -/
def insert (v key value : Value) : Value :=
  match v with
  | .hash ps => .hash (Pairs.insert key value ps)
  | other => other

/-- The hash of the pairs stored one after the other: a repeated key keeps its first place and
its last value. -/
def collect (ps : Pairs) : Value := .hash (Pairs.collect ps)

-- ---------------------------------------------------------------------
-- Texts and JSON
-- ---------------------------------------------------------------------

mutual
def inspect : Value → List Char
  | .nil => ['n', 'i', 'l']
  | .boolean true => ['t', 'r', 'u', 'e']
  | .boolean false => ['f', 'a', 'l', 's', 'e']
  | .integer i => Text.signed i.toInt
  | .float x => x.inspect
  | .string text => Text.Quoted.encode text.toList
  | .symbol name => ':' :: name.toList
  | .hash ps => '{' :: (Text.listed (inspectPairs ps) ++ ['}'])
def inspectPairs : Pairs → List (List Char)
  | [] => []
  | (k, v) :: ps => (inspect k ++ '=' :: '>' :: inspect v) :: inspectPairs ps
end

def display (v : Value) : String := String.ofList v.inspect

/-- The text of a key: what a string or symbol holds, and any other key as it is shown. -/
def keyText : Value → String
  | .string text => text
  | .symbol name => name
  | other => other.display

mutual
def toJson : Value → Json
  | .nil => .null
  | .boolean b => .bool b
  | .integer i => .integer i.toInt
  | .float x => .ofDouble x
  | .string text => .string text
  | .symbol name => .string name
  | .hash ps => .sorted (fieldsOf ps)
def fieldsOf : Pairs → List (String × Json)
  | [] => []
  | (k, v) :: ps => (k.keyText, toJson v) :: fieldsOf ps
end

end Value

end Dispatch
