import Dispatch.Binding
import Dispatch.Table

/-!
# Classes and objects

A class has attributes, each with a reader and a writer, and methods of two kinds: those called on
the class and those sent to its objects. A method's body is a function of what it may look at: the
bound arguments, and for an object's method the object as its receiver.

An object keeps the class as it was when the object was made, and the attributes written since.
Setting an attribute and sending a message give the object back, also where they fail.
-/

namespace Dispatch

/-- An object as a method body sees it. -/
structure Receiver where
  className : String
  attributes : List String
  written : Table Value

namespace Receiver

def noMethod (r : Receiver) (method : String) : Error :=
  .noMethod method ("an instance of " ++ r.className)

/-- An attribute that was never written is nil. -/
def get (r : Receiver) (attr : String) : Except Error Value :=
  if attr ∈ r.attributes then .ok ((Table.lookup r.written attr).getD .nil)
  else .error (r.noMethod attr)

/-- The attributes that were written, in the order of the class. -/
def shown (r : Receiver) : List (String × Value) :=
  r.attributes.filterMap fun a => (Table.lookup r.written a).map fun v => (a, v)

def inspect (r : Receiver) : List Char :=
  let fields := r.shown.map fun (a, v) => a.toList ++ '=' :: v.inspect
  '#' :: '<' :: (r.className.toList
    ++ (if fields.isEmpty then [] else ' ' :: Text.listed fields) ++ ['>'])

def display (r : Receiver) : String := String.ofList r.inspect

end Receiver

inductive MethodKind
  | singleton
  | member
  deriving DecidableEq

inductive Body
  | singleton (run : BoundArgs → Except Error Value)
  | member (run : Receiver → BoundArgs → Except Error Value)

def Body.kind : Body → MethodKind
  | .singleton _ => .singleton
  | .member _ => .member

/-- A method, under the name in its signature, and the name of the function behind it. -/
structure Method where
  fnName : String
  signature : Signature
  body : Body

namespace Method

def name (m : Method) : String := m.signature.methodName

def kind (m : Method) : MethodKind := m.body.kind

def answersTo (m : Method) (kind : MethodKind) (name : String) : Bool :=
  m.kind = kind && m.name = name

/-- A method of the same kind and name gives its place to the new one. -/
def put (m : Method) : List Method → List Method
  | [] => [m]
  | old :: ms => if old.answersTo m.kind m.name then m :: ms else old :: put m ms

end Method

structure Class where
  name : String
  attributes : List String
  methods : List Method

inductive Member
  | reader (attr : String)
  | writer (attr : String)
  | method (m : Method)

def writerName (attr : String) : String := attr ++ "="

def writtenName? (method : String) : Option String :=
  match method.toList.reverse with
  | '=' :: rest => some (String.ofList rest.reverse)
  | _ => none

namespace Class

def empty (name : String) : Class := ⟨name, [], []⟩

/-- Declaring an attribute again changes nothing. -/
def declare (c : Class) (attr : String) : Except Error Class :=
  if Scan.isIdentifier attr then
    .ok (if attr ∈ c.attributes then c else { c with attributes := c.attributes ++ [attr] })
  else .error (.invalidName attr)

/-- The method goes by the name in its signature, or else by the function's. -/
def define (c : Class) (fnName signature : String) (body : Body) : Except Error Class := do
  let sig ← Signature.parse signature
  .ok { c with methods := Method.put ⟨fnName, sig.named fnName, body⟩ c.methods }

def find? (c : Class) (kind : MethodKind) (name : String) : Option Method :=
  c.methods.find? (·.answersTo kind name)

/-- Accessors come before methods of their name. -/
def member? (c : Class) (name : String) : Option Member :=
  if name ∈ c.attributes then some (.reader name)
  else match (writtenName? name).filter (· ∈ c.attributes) with
    | some attr => some (.writer attr)
    | none => (c.find? .member name).map .method

def noMethod (c : Class) (method : String) : Error := .noMethod method (c.name ++ ":Class")

def call (c : Class) (method : String) (args : List Value) : Except Error Value :=
  match c.find? .singleton method with
  | some ⟨_, sig, .singleton run⟩ => do run (← sig.bind args)
  | _ => .error (c.noMethod method)

end Class

theorem writtenName?_writerName (attr : String) : writtenName? (writerName attr) = some attr := by
  simp [writtenName?, writerName]

theorem writtenName?_eq_some_iff {method attr : String} :
    writtenName? method = some attr ↔ method = writerName attr := by
  constructor
  · intro h
    unfold writtenName? at h
    split at h
    · rename_i rest hm
      cases h
      have ht : method.toList = rest.reverse ++ ['='] := by
        rw [← List.reverse_reverse method.toList, hm, List.reverse_cons]
      rw [← String.toList_inj, ht, writerName, String.toList_append, String.toList_ofList]
      rfl
    · cases h
  · rintro rfl
    exact writtenName?_writerName attr

theorem writerName_inj {attr other : String} :
    writerName attr = writerName other ↔ attr = other := by
  constructor
  · intro h
    rw [← Option.some.injEq, ← writtenName?_writerName attr, h, writtenName?_writerName]
  · rintro rfl
    rfl

-- ---------------------------------------------------------------------
-- Objects
-- ---------------------------------------------------------------------

structure Object where
  cls : Class
  written : Table Value

namespace Object

def new (c : Class) : Object := ⟨c, []⟩

def receiver (o : Object) : Receiver := ⟨o.cls.name, o.cls.attributes, o.written⟩

def get (o : Object) (attr : String) : Except Error Value := o.receiver.get attr

def display (o : Object) : String := o.receiver.display

def set (o : Object) (attr : String) (v : Value) : Except Error Unit × Object :=
  if attr ∈ o.cls.attributes then (.ok (), { o with written := Table.put attr v o.written })
  else (.error (o.receiver.noMethod (writerName attr)), o)

/-- The answer to a method, and the object after it, whether the answer is a value or an error. -/
def send (o : Object) (method : String) (args : List Value) : Except Error Value × Object :=
  match o.cls.member? method with
  | some (.reader attr) =>
    match args with
    | [] => (o.get attr, o)
    | _ => (.error (.arity args.length (.exactly 0)), o)
  | some (.writer attr) =>
    match args with
    | [v] =>
      let (result, o) := o.set attr v
      (result.map fun _ => v, o)
    | _ => (.error (.arity args.length (.exactly 1)), o)
  | some (.method ⟨_, sig, .member run⟩) => ((sig.bind args).bind (run o.receiver), o)
  | _ => (.error (o.receiver.noMethod method), o)

end Object

end Dispatch
