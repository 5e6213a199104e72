import Dispatch.Error
import Dispatch.Literal

/-!
# Reading values and calls

A value is a literal or a hash in braces. The pairs of a hash have an arrow between key and value,
or a word, a colon and a value, which is short for a symbol as the key. Pairs are stored as they
are read, so a repeated key keeps its first place and its last value.

A call is a receiver, a method and arguments: `Repo.find(1, limit: 10)`. The arguments with a word
and a colon in front are gathered into one hash behind the others, wherever they stand among them.
-/

namespace Dispatch

namespace Value

def keywordScan (value : Scan Value) : Scan (String × Value) := fun s =>
  match Scan.identifier s with
  | some (name, rest) => Scan.after ':' (Scan.map (fun v => (name, v)) (Scan.spaced value)) rest
  | none => none

def arrowScan (value : Scan Value) : Scan (Value × Value) := fun s =>
  match value s with
  | some (key, rest) =>
    Scan.after '=' (Scan.after '>' (Scan.map (fun v => (key, v)) (Scan.spaced value)))
      (Scan.skip rest)
  | none => none

def pairScan (value : Scan Value) : Scan (Value × Value) :=
  Scan.orElse (Scan.map (fun (name, v) => (.symbol name, v)) (keywordScan value)) (arrowScan value)

def hashScan (value : Scan Value) : Scan Value :=
  Scan.map collect (Scan.bracketed '{' '}' (pairScan value))

def literalScan : Scan Value := Scan.map Literal.toValue Literal.scan

/-- A value with braces in braces up to the given depth. -/
def scan : Nat → Scan Value
  | 0 => literalScan
  | depth + 1 => Scan.orElse (hashScan (scan depth)) literalScan

/-- A whole text with one value and space around it. Every brace takes a character, so no text
holds braces deeper than its length. -/
def parse (text : String) : Except Error Value :=
  let s := text.toList
  match Scan.padded (scan s.length) s with
  | some (v, []) => .ok v
  | _ => .error (.call text)

end Value

structure Call where
  receiver : String
  method : String
  args : List Value

namespace Call

inductive Arg
  | positional (v : Value)
  | keyword (name : String) (v : Value)

def Arg.positional? : Arg → Option Value
  | .positional v => some v
  | .keyword .. => none

def Arg.pair? : Arg → Option (Value × Value)
  | .positional _ => none
  | .keyword name v => some (.symbol name, v)

def gather (args : List Arg) : List Value :=
  let keywords := args.filterMap Arg.pair?
  args.filterMap Arg.positional? ++ if keywords.isEmpty then [] else [Value.collect keywords]

def argScan (value : Scan Value) : Scan Arg :=
  Scan.orElse (Scan.map (fun (name, v) => .keyword name v) (Value.keywordScan value))
    (Scan.map .positional value)

def argsScan (depth : Nat) : Scan (List Arg) :=
  Scan.bracketed '(' ')' (argScan (Value.scan depth))

def scan (depth : Nat) : Scan Call := fun s =>
  match Scan.constant (Scan.skip s) with
  | none => none
  | some (receiver, rest) =>
    (Scan.after '.' Scan.methodName rest).map fun (method, rest) =>
      let (args, rest) := Scan.optional (Scan.spaced (argsScan depth)) rest
      (⟨receiver, method, gather (args.getD [])⟩, rest)

def parse (text : String) : Except Error Call :=
  let s := text.toList
  match scan s.length s with
  | some (call, rest) => if Text.blank rest then .ok call else .error (.call text)
  | none => .error (.call text)

end Call

end Dispatch
