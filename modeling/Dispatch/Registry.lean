import Dispatch.Class
import Dispatch.Signature.Json

/-!
# Registries

Classes by name. Registering a class under a name that is taken replaces the class.

The signatures that the classes of a registry answer to are listed for each class in the order of
the names: the reader and the writer of each attribute, then the methods.
-/

namespace Dispatch

abbrev Registry := Table Class

namespace Registry

def register (r : Registry) (c : Class) : Registry := Table.put c.name c r

def get (r : Registry) (name : String) : Except Error Class :=
  match Table.lookup r name with
  | some c => .ok c
  | none => .error (.uninitializedConstant name)

end Registry

/-- An accessor is listed by its attribute, any other signature by its method. -/
inductive Role
  | accessor
  | method (kind : MethodKind)
  deriving DecidableEq

def Role.label : Role → String
  | .accessor => "accessor"
  | .method .singleton => "singleton"
  | .method .member => "instance"

structure Listing where
  className : String
  role : Role
  signature : Signature

namespace Listing

def display (l : Listing) : String := l.signature.display

def toJson (l : Listing) : Json :=
  .object [("class", .string l.className), ("kind", .string l.role.label),
    ("signature", l.signature.toJson), ("display", .string l.display)]

def line (l : Listing) : String :=
  l.className ++ (if l.role = .method .singleton then "." else "#") ++ l.display

end Listing

def readerSignature (attr : String) : Signature := ⟨some attr, []⟩

def writerSignature (attr : String) : Signature := ⟨some (writerName attr), [⟨attr, .required⟩]⟩

def Class.listings (c : Class) : List Listing :=
  (c.attributes.flatMap fun a =>
    [⟨c.name, .accessor, readerSignature a⟩,
      ⟨c.name, .accessor, writerSignature a⟩])
  ++ c.methods.map fun m => ⟨c.name, .method m.kind, m.signature⟩

def Registry.listings (r : Registry) : List Listing := r.flatMap fun (_, c) => c.listings

end Dispatch
