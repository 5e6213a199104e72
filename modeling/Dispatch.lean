import Dispatch.Main
import Dispatch.Proofs.Binding.Fill
import Dispatch.Proofs.Binding.Placement
import Dispatch.Proofs.Binding.Outcome
import Dispatch.Proofs.Grammar.Form
import Dispatch.Proofs.Grammar.Items
import Dispatch.Proofs.Grammar.Words
import Dispatch.Proofs.Grammar.Literal
import Dispatch.Proofs.Grammar.Signature
import Dispatch.Proofs.Grammar.Pieces
import Dispatch.Proofs.Pairs
import Dispatch.Proofs.Grammar.Value
import Dispatch.Proofs.Grammar.Call
import Dispatch.Proofs.Grammar.Taking
import Dispatch.Proofs.Equality
import Dispatch.Proofs.Keys
import Dispatch.Proofs.Binding.Keywords
import Dispatch.Proofs.Double.Rounding
import Dispatch.Proofs.Double.Exact
import Dispatch.Proofs.Display.Literal
import Dispatch.Proofs.Display.Signature
import Dispatch.Proofs.Display.Value
import Dispatch.Proofs.Repetition
import Dispatch.Proofs.WellFormed
import Dispatch.Proofs.Class.Building
import Dispatch.Proofs.Class.History
import Dispatch.Proofs.Object.Members
import Dispatch.Proofs.Object.Runs
import Dispatch.Proofs.Tables
import Dispatch.Proofs.Registry.Order
import Dispatch.Proofs.Registry.Listings
import Dispatch.Proofs.Registry.Enforcement
import Dispatch.Proofs.Registry.Settings
import Dispatch.Proofs.Registry.Accessors
import Dispatch.Proofs.Foo
import Dispatch.Proofs.Json.Numbers
import Dispatch.Proofs.Json.Reading
import Dispatch.Proofs.Json.Short
import Dispatch.Proofs.Json.Signature
import Dispatch.Proofs.Json.Hash
import Dispatch.Proofs.Json.Object
