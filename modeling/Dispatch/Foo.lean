import Dispatch.Registry

/-!
# The class Foo

`Foo` as a typed record with its two methods, and as a class of the registry. The class-level
method `test?` and the object's method `_hoge!` give back their argument or their default. An
object stands for a record if both of its attributes hold what the record's fields hold.
-/

namespace Dispatch

structure Foo where
  foo1 : String
  foo2 : Int64
  deriving DecidableEq

namespace Foo

def empty : Foo := ⟨"", 0⟩

def test (a : Option String) : String := a.getD "a"

def hoge (_ : Foo) (b : Option String) : String := b.getD "-112"

def field (α : Type) [Extract α] (r : Receiver) (attr : String) : Except Error α := do
  let v ← r.get attr
  if v.isNil then .error (.nilField attr) else v.extract α

/-- The first attribute is decided before the second. -/
def ofReceiver (r : Receiver) : Except Error Foo := do
  let foo1 ← field String r "foo1"
  let foo2 ← field Int64 r "foo2"
  .ok ⟨foo1, foo2⟩

def testSignature : Signature := ⟨some "test?", [⟨"a", .optional (.string "a")⟩]⟩

def hogeSignature : Signature := ⟨some "_hoge!", [⟨"b", .optional (.string "-112")⟩]⟩

def runTest (args : BoundArgs) : Except Error Value := do
  let a ← args.get String "a"
  .ok (.string (test (some a)))

/-- The receiver has to be a whole record, though the answer needs none of it. -/
def runHoge (r : Receiver) (args : BoundArgs) : Except Error Value := do
  let foo ← ofReceiver r
  let b ← args.get String "b"
  .ok (.string (foo.hoge (some b)))

def definition : Class where
  name := "Foo"
  attributes := ["foo1", "foo2"]
  methods :=
    [⟨"test", testSignature, .singleton runTest⟩, ⟨"hoge", hogeSignature, .member runHoge⟩]

theorem parse_testSignature : Signature.parse "test?(a = \"a\")" = .ok testSignature := by rfl

theorem parse_hogeSignature : Signature.parse "_hoge!(b = \"-112\")" = .ok hogeSignature := by rfl

def toObject (foo : Foo) : Object where
  cls := definition
  written := Table.ofList [("foo1", .string foo.foo1), ("foo2", .integer foo.foo2)]

def ofObject (o : Object) : Except Error Foo := ofReceiver o.receiver

end Foo

def Registry.builtin : Registry := Registry.register [] Foo.definition

end Dispatch
