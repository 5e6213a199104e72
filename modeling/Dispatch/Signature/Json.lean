import Dispatch.Json.Reader
import Dispatch.Signature.Basic

/-!
# Signatures as JSON

A record is an object with its fields in order, and is also read from an array of just those. A
choice without contents is its word; one with contents is an object with that word as its only
name. Reading skips fields that a record does not have and refuses a field given twice.
-/

namespace Dispatch

def Literal.toJson : Literal → Json
  | .nil => .string "Nil"
  | .boolean b => .object [("Boolean", .bool b)]
  | .integer i => .object [("Integer", .integer i.toInt)]
  | .float x => .object [("Float", .ofDouble x)]
  | .string text => .object [("String", .string text)]
  | .symbol name => .object [("Symbol", .string name)]

def ParamKind.toJson : ParamKind → Json
  | .required => .string "Required"
  | .optional d => .object [("Optional", d.toJson)]
  | .keyword none => .object [("Keyword", .null)]
  | .keyword (some d) => .object [("Keyword", d.toJson)]

def Param.toJson (p : Param) : Json :=
  .object [("name", .string p.name), ("kind", p.kind.toJson)]

def Signature.toJson (sig : Signature) : Json :=
  .object [("name", match sig.name with | some name => .string name | none => .null),
    ("params", .array (sig.params.map Param.toJson))]

namespace Json

def text? : Json → Option String
  | .string text => some text
  | _ => none

def double? : Json → Option Double
  | .integer i => some (Double.ofInt i)
  | .real x => if x.isFinite then some x else none
  | _ => none

def int64? : Json → Option Int64
  | .integer i =>
    if Int64.minValue.toInt ≤ i ∧ i ≤ Int64.maxValue.toInt then some (Int64.ofInt i) else none
  | _ => none

def bool? : Json → Option Bool
  | .bool b => some b
  | _ => none

def choice? : Json → Option (String × Option Json)
  | .string word => some (word, none)
  | .object [(word, j)] => some (word, some j)
  | _ => none

def isEmpty : Option Json → Bool
  | none => true
  | some .null => true
  | _ => false

/-- A field that stands once in an object. `none` for a field that stands there twice. -/
def fieldOnce? (name : String) (fields : List (String × Json)) : Option (Option Json) :=
  match fields.filter fun (n, _) => n == name with
  | [] => some none
  | [(_, j)] => some (some j)
  | _ => none

end Json

def Literal.ofJson? (j : Json) : Option Literal :=
  match j.choice? with
  | some ("Nil", contents) => if Json.isEmpty contents then some .nil else none
  | some ("Boolean", some c) => c.bool?.map .boolean
  | some ("Integer", some c) => c.int64?.map .integer
  | some ("Float", some c) => c.double?.map .float
  | some ("String", some c) => c.text?.map .string
  | some ("Symbol", some c) => c.text?.map .symbol
  | _ => none

def ParamKind.ofJson? (j : Json) : Option ParamKind :=
  match j.choice? with
  | some ("Required", contents) => if Json.isEmpty contents then some .required else none
  | some ("Optional", some c) => (Literal.ofJson? c).map .optional
  | some ("Keyword", some .null) => some (.keyword none)
  | some ("Keyword", some c) => (Literal.ofJson? c).map fun d => .keyword (some d)
  | _ => none

def Param.ofParts? (name kind : Json) : Option Param :=
  match name.text?, ParamKind.ofJson? kind with
  | some name, some kind => some ⟨name, kind⟩
  | _, _ => none

def Param.ofJson? : Json → Option Param
  | .array [name, kind] => ofParts? name kind
  | .object fields =>
    match Json.fieldOnce? "name" fields, Json.fieldOnce? "kind" fields with
    | some (some name), some (some kind) => ofParts? name kind
    | _, _ => none
  | _ => none

def Signature.nameOfJson? : Json → Option (Option String)
  | .null => some none
  | .string name => some (some name)
  | _ => none

def Signature.ofParts? (name params : Json) : Option Signature :=
  match nameOfJson? name, params with
  | some name, .array elements => (elements.mapM Param.ofJson?).map (⟨name, ·⟩)
  | _, _ => none

/-- The name may be left out of an object. -/
def Signature.ofJson? : Json → Option Signature
  | .array [name, params] => ofParts? name params
  | .object fields =>
    match Json.fieldOnce? "name" fields, Json.fieldOnce? "params" fields with
    | some name, some (some params) => ofParts? (name.getD .null) params
    | _, _ => none
  | _ => none

def Signature.jsonText (sig : Signature) : String := sig.toJson.compactText

def Signature.ofJsonText? (text : String) : Option Signature :=
  (Json.read? text.toList).bind ofJson?

end Dispatch
