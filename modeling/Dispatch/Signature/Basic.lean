import Dispatch.Error
import Dispatch.Literal

/-!
# Signatures

The name that a method is called by and its parameters in order. A signature without a name takes
the name of the function that it is given to.

It is written as a name, parameters in brackets, both or neither. The parts that do not fit are
left, so scanning always succeeds; a whole text is a signature if only blanks are left and no
parameter has the name of an earlier one.
-/

namespace Dispatch

/-- A keyword without a default is mandatory. -/
inductive ParamKind
  | required
  | optional (default : Literal)
  | keyword (default : Option Literal)
  deriving DecidableEq

structure Param where
  name : String
  kind : ParamKind
  deriving DecidableEq

structure Signature where
  name : Option String
  params : List Param
  deriving DecidableEq

namespace ParamKind

def isRequired : ParamKind → Bool
  | .required => true
  | _ => false

def isOptional : ParamKind → Bool
  | .optional _ => true
  | _ => false

def isKeyword : ParamKind → Bool
  | .keyword _ => true
  | _ => false

section
variable (d : Literal) (k : Option Literal)

@[simp] theorem isRequired_required : isRequired .required = true := rfl
@[simp] theorem isRequired_optional : isRequired (.optional d) = false := rfl
@[simp] theorem isRequired_keyword : isRequired (.keyword k) = false := rfl
@[simp] theorem isOptional_required : isOptional .required = false := rfl
@[simp] theorem isOptional_optional : isOptional (.optional d) = true := rfl
@[simp] theorem isOptional_keyword : isOptional (.keyword k) = false := rfl

end

theorem isKeyword_iff {kind : ParamKind} : kind.isKeyword = true ↔ ∃ k, kind = .keyword k := by
  cases kind <;> simp [isKeyword]

end ParamKind

namespace Param

def inspect (p : Param) : List Char :=
  p.name.toList ++ match p.kind with
    | .required => []
    | .optional d => ' ' :: '=' :: ' ' :: d.inspect
    | .keyword (some d) => ':' :: ' ' :: d.inspect
    | .keyword none => [':']

def display (p : Param) : String := String.ofList p.inspect

end Param

namespace Signature

def arity (sig : Signature) : Arity where
  required := sig.params.countP (·.kind.isRequired)
  optional := sig.params.countP (·.kind.isOptional)

def hasKeywords (sig : Signature) : Bool := sig.params.any (·.kind.isKeyword)

def named (sig : Signature) (name : String) : Signature :=
  { sig with name := some (sig.name.getD name) }

def methodName (sig : Signature) : String := sig.name.getD ""

/-- No brackets stand behind a method without parameters. -/
def inspect (sig : Signature) : List Char :=
  sig.methodName.toList ++
    if sig.params.isEmpty then [] else '(' :: (Text.listed (sig.params.map Param.inspect) ++ [')'])

def display (sig : Signature) : String := String.ofList sig.inspect

def repeatedName (seen : List String) : List Param → Option String
  | [] => none
  | p :: ps => if p.name ∈ seen then some p.name else repeatedName (p.name :: seen) ps

theorem repeatedName_eq_none_iff (seen : List String) (ps : List Param) :
    repeatedName seen ps = none ↔
      (ps.map Param.name).Nodup ∧ ∀ p ∈ ps, p.name ∉ seen := by
  induction ps generalizing seen with
  | nil => simp [repeatedName]
  | cons p ps ih =>
    simp only [repeatedName]
    split
    · simp_all
    · rw [ih]
      simp only [List.map_cons, List.nodup_cons, List.mem_map, List.mem_cons, not_exists,
        not_and, not_or]
      grind

end Signature

-- ---------------------------------------------------------------------
-- Reading
-- ---------------------------------------------------------------------

open Located

/-- Behind a parameter's name: an equals sign and a literal, a colon and perhaps a literal, or
nothing. -/
def ParamKind.read : Located ParamKind :=
  orElse (map .optional (after '=' (spaced Literal.read))) <|
  orElse (map .keyword (after ':' (Located.optional (spaced Literal.read)))) (give .required)

def Param.read : Located Param := fun s => do
  let (name, s) ← identifier s
  let (kind, s) ← spaced ParamKind.read s
  return (⟨name, kind⟩, s)

namespace Signature

def readParams : Located (List Param) := bracketed '(' ')' Param.read

def read : Located Signature := fun s => do
  let (name, s) ← optional (spaced Located.methodName) s
  let (params, s) ← optional (spaced readParams) s
  return (⟨name, params.getD []⟩, Scan.skip s)

def parse (text : String) : Except Error Signature :=
  match read text.toList with
  | .ok (sig, rest) =>
    if Text.blank rest then
      match repeatedName [] sig.params with
      | none => .ok sig
      | some name => .error (.duplicateParam name)
    else .error (.signature text)
  | .error _ => .error (.signature text)

theorem read_eq (s : List Char) :
    let name := Scan.optional (Scan.spaced Scan.methodName) s
    let params := Scan.optional (Scan.spaced (Scan.bracketed '(' ')' Param.read.toScan)) name.2
    read s = .ok (⟨name.1, params.1.getD []⟩, Scan.skip params.2) := by
  have hparams : readParams.toScan = Scan.bracketed '(' ')' Param.read.toScan :=
    toScan_bracketed '(' ')'
  rw [← hparams]
  rfl

section
variable {text : String} {sig : Signature} {rest : List Char}

theorem parse_of_not_blank (h : read text.toList = .ok (sig, rest))
    (hb : ¬ Text.blank rest = true) : parse text = .error (.signature text) := by
  simp only [parse, h, if_neg hb]

theorem parse_of_blank (h : read text.toList = .ok (sig, rest)) (hb : Text.blank rest = true) :
    parse text = match repeatedName [] sig.params with
      | none => .ok sig
      | some name => .error (.duplicateParam name) := by
  simp only [parse, h, if_pos hb]

theorem names_nodup_of_parse (h : parse text = .ok sig) : (sig.params.map Param.name).Nodup := by
  cases hread : read text.toList with
  | error miss => simp only [parse, hread, reduceCtorEq] at h
  | ok result =>
    by_cases hb : Text.blank result.2 = true
    · rw [parse_of_blank hread hb] at h
      split at h
      · rename_i hr
        cases h
        exact ((repeatedName_eq_none_iff _ _).mp hr).1
      · cases h
    · rw [parse_of_not_blank hread hb] at h
      cases h

end

end Signature

end Dispatch
