import Dispatch.CommandLine
import Dispatch.Foo

/-!
# The program
-/

def main (args : List String) : IO UInt32 := do
  let answer := Dispatch.Registry.builtin.run args
  match answer with
  | .output text => IO.print text
  | .failure f => IO.eprint f.report
  | .usage =>
    IO.eprintln "usage: --call CALL [--set NAME=VALUE...] [--json] | --signatures [--json]"
  return answer.exitCode
