import Dispatch.Signature.Basic

/-!
# Binding arguments to parameters

A trailing hash is taken as keywords by a signature that has any. Of the other arguments those
that the required parameters leave over go to the optional parameters from left to right, and the
optional parameters after them take their defaults.

A call is refused for its number of positional arguments first, then for a keyword that is
missing, then for a keyword that no parameter has.

A type of contents says what it takes out of a bound value. Integers also serve where floats are
asked for, and nil where the contents may be absent.
-/

namespace Dispatch

class Extract (α : Type) where
  extract : Value → Except Error α

namespace Value

def extract (α : Type) [Extract α] (v : Value) : Except Error α := Extract.extract v

instance : Extract String where
  extract
    | .string text => .ok text
    | v => .error (.typeMismatch .string v.kind)

instance : Extract Int64 where
  extract
    | .integer i => .ok i
    | v => .error (.typeMismatch .integer v.kind)

instance : Extract Bool where
  extract
    | .boolean b => .ok b
    | v => .error (.typeMismatch .boolean v.kind)

instance : Extract Double where
  extract
    | .float x => .ok x
    | .integer i => .ok (Double.ofInt i.toInt)
    | v => .error (.typeMismatch .float v.kind)

instance : Extract Value where
  extract v := .ok v

instance [Extract α] : Extract (Option α) where
  extract
    | .nil => .ok none
    | v => (v.extract α).map some

end Value

structure BoundArgs where
  entries : List (String × Value)

namespace BoundArgs

def value? (bound : BoundArgs) (name : String) : Option Value :=
  (bound.entries.find? fun (n, _) => n == name).map Prod.snd

def get (α : Type) [Extract α] (bound : BoundArgs) (name : String) : Except Error α :=
  match bound.value? name with
  | some v => v.extract α
  | none => .error (.missingArgument name)

def size (bound : BoundArgs) : Nat := bound.entries.length

end BoundArgs

namespace Signature

/-- The positional arguments, and the pairs of the trailing hash where it is taken as keywords. -/
def splitKeywords (sig : Signature) (args : List Value) : List Value × Option Pairs :=
  match args.getLast? with
  | some (.hash ps) => if sig.hasKeywords then (args.dropLast, some ps) else (args, none)
  | _ => (args, none)

/-- One entry for each parameter. `surplus` counts the arguments that the required parameters
leave over. -/
def fill (keywords : Pairs) :
    List Param → Nat → List Value → Except Error (List (String × Value))
  | [], _, _ => .ok []
  | ⟨name, .required⟩ :: ps, surplus, v :: vs => do
    let entries ← fill keywords ps surplus vs
    .ok ((name, v) :: entries)
  | ⟨name, .required⟩ :: _, _, [] => .error (.missingArgument name)
  | ⟨name, .optional _⟩ :: ps, surplus + 1, v :: vs => do
    let entries ← fill keywords ps surplus vs
    .ok ((name, v) :: entries)
  | ⟨name, .optional _⟩ :: _, _ + 1, [] => .error (.missingArgument name)
  | ⟨name, .optional d⟩ :: ps, 0, vs => do
    let entries ← fill keywords ps 0 vs
    .ok ((name, d.toValue) :: entries)
  | ⟨name, .keyword d⟩ :: ps, surplus, vs =>
    match Pairs.lookup keywords (.symbol name), d with
    | some v, _ => do
      let entries ← fill keywords ps surplus vs
      .ok ((name, v) :: entries)
    | none, some d => do
      let entries ← fill keywords ps surplus vs
      .ok ((name, d.toValue) :: entries)
    | none, none => .error (.missingKeyword name)

def knows (sig : Signature) : Value → Bool
  | .symbol name => sig.params.any fun p => p.name == name && p.kind.isKeyword
  | _ => false

def unknownKey (sig : Signature) (keywords : Pairs) : Option Value :=
  (keywords.find? fun (key, _) => !sig.knows key).map Prod.fst

def bind (sig : Signature) (args : List Value) : Except Error BoundArgs :=
  let (positional, keywords) := sig.splitKeywords args
  let keywords := keywords.getD []
  if sig.arity.accepts positional.length then do
    let entries ← fill keywords sig.params (positional.length - sig.arity.required) positional
    match sig.unknownKey keywords with
    | none => .ok ⟨entries⟩
    | some key => .error (.unknownKeyword key.keyText)
  else .error (.arity positional.length sig.arity)

end Signature

end Dispatch
