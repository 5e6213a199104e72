import Dispatch.Call.Basic
import Dispatch.Registry

/-!
# Performing calls

A class-level method is called on the class. Any other name that the objects of the class know is
sent to a new object after its settings are applied in order, and `new` gives that object itself. A
setting is an attribute and its value, written `name=value`: the name ends at the first equals
sign, and blanks around it do not count.

A failure is an error that was raised, and what was being done when it was. Its chain goes from the
outermost thing done to the error at its root.
-/

namespace Dispatch

inductive Failure
  | raised (e : Error)
  | call (text : String) (cause : Error)
  | attribute (name : String) (cause : Error)
  | settingValue (name : String) (cause : Error)
  | settingForm (text : String)

def Error.report (e : Error) : String := e.className ++ ": " ++ e.message

namespace Failure

def message : Failure → String
  | .raised e => e.report
  | .call text _ => "parsing call `" ++ text ++ "` failed"
  | .attribute name _ => "setting `" ++ name ++ "` failed"
  | .settingValue name _ => "parsing value of `" ++ name ++ "` failed"
  | .settingForm text => "expected `name=value`, got `" ++ text ++ "`"

def cause? : Failure → Option Error
  | .call _ cause | .attribute _ cause | .settingValue _ cause => some cause
  | .raised _ | .settingForm _ => none

def chain (f : Failure) : List String :=
  match f.cause? with
  | some cause => [f.message, cause.report]
  | none => [f.message]

def indented (text : String) : String :=
  "    " ++ String.ofList (text.toList.flatMap fun c =>
    if c = '\n' then ['\n', ' ', ' ', ' ', ' '] else [c])

def report (f : Failure) : String :=
  "Error: " ++ f.message
    ++ (match f.cause? with
      | some cause => "\n\nCaused by:\n" ++ indented cause.report
      | none => "")
    ++ "\n"

end Failure

-- ---------------------------------------------------------------------
-- Settings
-- ---------------------------------------------------------------------

structure Setting where
  name : String
  value : Value

namespace Setting

def split? : List Char → Option (List Char × List Char)
  | [] => none
  | c :: s =>
    if c = '=' then some ([], s) else (split? s).map fun (name, value) => (c :: name, value)

def parse (text : String) : Except Failure Setting :=
  match split? text.toList with
  | none => .error (.settingForm text)
  | some (name, value) =>
    match Value.parse (String.ofList value) with
    | .ok v => .ok ⟨String.ofList (Text.trim name), v⟩
    | .error e => .error (.settingValue (String.ofList name) e)

end Setting

-- ---------------------------------------------------------------------
-- Calls
-- ---------------------------------------------------------------------

inductive Outcome
  | value (v : Value)
  | object (o : Object)

namespace Outcome

def kindName : Outcome → String
  | .value v => v.kind.className
  | .object _ => "Object"

def display : Outcome → String
  | .value v => v.display
  | .object o => o.display

/-- An object has its attributes as fields, behind a field for its class. -/
def toJson : Outcome → Json
  | .value v => v.toJson
  | .object o =>
    .sorted (("class", .string o.cls.name) :: o.cls.attributes.map fun a =>
      (a, ((o.get a).toOption.getD .nil).toJson))

end Outcome

def Object.configure (o : Object) : List Setting → Except Failure Object
  | [] => .ok o
  | ⟨name, v⟩ :: settings =>
    match o.send (writerName name) [v] with
    | (.ok _, o) => o.configure settings
    | (.error e, _) => .error (.attribute name e)

/-- The names that stand for something on the class's objects, and `new`. -/
def Class.responds (c : Class) (method : String) : Bool :=
  method = "new" || (c.find? .member method).isSome
    || c.attributes.any fun attr => attr = method || writtenName? method = some attr

namespace Call

/-- Where a call goes: to the class, to a new object of it, or nowhere. -/
inductive Route
  | onClass
  | onObject
  | undefined
  deriving DecidableEq

/-- Decided by the name alone, before anything is made or called. -/
def route (c : Class) (method : String) : Route :=
  if method ≠ "new" ∧ (c.find? .singleton method).isSome then .onClass
  else if c.responds method then .onObject
  else .undefined

def performOn (c : Class) (call : Call) (settings : List Setting) : Except Failure Outcome :=
  match route c call.method with
  | .onClass =>
    match c.call call.method call.args with
    | .ok v => .ok (.value v)
    | .error e => .error (.raised e)
  | .onObject => do
    let o ← (Object.new c).configure settings
    if call.method = "new" then
      if call.args.isEmpty then .ok (.object o)
      else .error (.raised (.arity call.args.length (.exactly 0)))
    else match (o.send call.method call.args).1 with
      | .ok v => .ok (.value v)
      | .error e => .error (.raised e)
  | .undefined => .error (.raised (c.noMethod call.method))

end Call

def Registry.perform (r : Registry) (text : String) (settings : List Setting) :
    Except Failure Outcome :=
  match Call.parse text with
  | .error e => .error (.call text e)
  | .ok call =>
    match r.get call.receiver with
    | .error e => .error (.raised e)
    | .ok c => call.performOn c settings

end Dispatch
