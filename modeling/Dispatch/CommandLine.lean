import Dispatch.Call.Perform

/-!
# The command line

Reading the arguments and what is written in answer to them. `--call` takes one value, `--set`
one or more, and both also take one behind an equals sign; `--json` and `--signatures` take none.
-/

namespace Dispatch

/-- What the arguments ask for. A failed option leaves no request. -/
structure Request where
  call : Option String
  settings : List Setting
  json : Bool
  signatures : Bool

namespace Request

/-- The arguments as far as they were read: how often each option was given, and its values. -/
structure Draft where
  calls : List (Option String)
  sets : Nat
  settings : List String
  jsons : Nat
  listings : Nat

inductive Pending
  | nothing
  | call
  | settings

def Draft.empty : Draft := ⟨[], 0, [], 0, 0⟩

/-- An argument with a dash in front is an option, but for a dash alone. -/
def isOption (arg : List Char) : Bool := arg.head? = some '-' && arg.length != 1

/-- The name of a long option, and the value behind its equals sign with no such sign in front. -/
def splitOption (arg : List Char) : String × Option String :=
  let body := arg.dropWhile (· = '-')
  let name := body.takeWhile (· ≠ '=')
  let value := if '=' ∈ arg then
    some (String.ofList ((body.dropWhile (· ≠ '=')).dropWhile (· = '='))) else none
  (String.ofList name, value)

def takeOption (d : Draft) (arg : List Char) : Option (Draft × Pending) :=
  if arg.take 2 ≠ ['-', '-'] then none
  else match splitOption arg with
    | ("call", some v) => some ({ d with calls := some v :: d.calls }, .nothing)
    | ("call", none) => some ({ d with calls := none :: d.calls }, .call)
    | ("set", some v) => some ({ d with sets := d.sets + 1, settings := v :: d.settings }, .nothing)
    | ("set", none) => some ({ d with sets := d.sets + 1 }, .settings)
    | ("json", _) => some ({ d with jsons := d.jsons + 1 }, .nothing)
    | ("signatures", _) => some ({ d with listings := d.listings + 1 }, .nothing)
    | _ => none

/-- Two dashes alone end the arguments: nothing may stand behind them. -/
def readArgs (d : Draft) (pending : Pending) : List String → Option Draft
  | [] => some d
  | arg :: args =>
    if arg = "--" then if args.isEmpty then some d else none
    else if isOption arg.toList then
      match takeOption d arg.toList with
      | some (d, pending) => readArgs d pending args
      | none => none
    else match pending with
      | .nothing => none
      | .call => readArgs { d with calls := some arg :: d.calls.drop 1 } .nothing args
      | .settings => readArgs { d with settings := arg :: d.settings } .settings args

/-- No option but `--set` is given twice, none lacks its value, every setting can be read, and
there is something to do. -/
def ofDraft? (d : Draft) : Option Request :=
  if d.jsons ≤ 1 && d.listings ≤ 1 && (d.sets = 0 || !d.settings.isEmpty) then
    match d.settings.reverse.mapM fun s => (Setting.parse s).toOption with
    | none => none
    | some settings =>
      let json := d.jsons = 1
      let signatures := d.listings = 1
      match d.calls with
      | [] => if signatures then some ⟨none, settings, json, signatures⟩ else none
      | [some call] => some ⟨some call, settings, json, signatures⟩
      | _ => none
  else none

def ofArgs? (args : List String) : Option Request :=
  (readArgs .empty .nothing args).bind ofDraft?

end Request

inductive Answer
  | output (text : String)
  | failure (f : Failure)
  | usage

namespace Answer

def exitCode : Answer → UInt32
  | .output _ => 0
  | .failure _ | .usage => 1

def output? : Answer → Option String
  | .output text => some text
  | _ => none

def report? : Answer → Option String
  | .failure f => some f.report
  | _ => none

end Answer

def Registry.listingText (r : Registry) (json : Bool) : String :=
  if json then (Json.array (r.listings.map Listing.toJson)).spreadText ++ "\n"
  else String.join (r.listings.map fun l => l.line ++ "\n")

/-- Listing the signatures comes before the call. -/
def Registry.answer (r : Registry) (request : Request) : Answer :=
  if request.signatures then .output (r.listingText request.json)
  else match request.call with
    | none => .usage
    | some text =>
      match r.perform text request.settings with
      | .error f => .failure f
      | .ok outcome =>
        .output ((if request.json then outcome.toJson.spreadText else outcome.display) ++ "\n")

def Registry.run (r : Registry) (args : List String) : Answer :=
  match Request.ofArgs? args with
  | some request => r.answer request
  | none => .usage

end Dispatch
