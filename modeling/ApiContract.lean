import ApiContract.Calendar.Date
import ApiContract.Calendar.Reading
import ApiContract.Command.Line
import ApiContract.Command.Run
import ApiContract.Compilation
import ApiContract.Console
import ApiContract.Decimal.Lenient
import ApiContract.Decimal.Reading
import ApiContract.Decimal.Shortest
import ApiContract.Deployment
import ApiContract.Disk
import ApiContract.Document.Inline
import ApiContract.Document.Library
import ApiContract.Document.Source
import ApiContract.Document.Walk
import ApiContract.Edit
import ApiContract.Failure
import ApiContract.Gateway
import ApiContract.Generation
import ApiContract.Http.Headers
import ApiContract.Http.Request
import ApiContract.Http.Response
import ApiContract.Interface
import ApiContract.Json.Octets
import ApiContract.Json.Printer
import ApiContract.Json.Text
import ApiContract.Main
import ApiContract.MediaType
import ApiContract.Method
import ApiContract.Mismatch
import ApiContract.Models
import ApiContract.Naming
import ApiContract.Notice
import ApiContract.Operation.Basic
import ApiContract.Operation.Collect
import ApiContract.Operation.Form
import ApiContract.Plan.Basic
import ApiContract.Plan.Body
import ApiContract.Plan.Form
import ApiContract.Plan.Request
import ApiContract.Plan.Response
import ApiContract.Proofs.Compilation
import ApiContract.Proofs.Compile.Agreement
import ApiContract.Proofs.Compile.Anew
import ApiContract.Proofs.Compile.Composition
import ApiContract.Proofs.Compile.Constraints
import ApiContract.Proofs.Compile.Cycle
import ApiContract.Proofs.Compile.Dependencies
import ApiContract.Proofs.Compile.Duplicates
import ApiContract.Proofs.Compile.Fields
import ApiContract.Proofs.Compile.Genuine
import ApiContract.Proofs.Compile.Graph
import ApiContract.Proofs.Compile.Grounded
import ApiContract.Proofs.Compile.Growth
import ApiContract.Proofs.Compile.History
import ApiContract.Proofs.Compile.Inserted
import ApiContract.Proofs.Compile.Leaves
import ApiContract.Proofs.Compile.Merged
import ApiContract.Proofs.Compile.Order
import ApiContract.Proofs.Compile.Origin
import ApiContract.Proofs.Compile.Outcome
import ApiContract.Proofs.Compile.Reading
import ApiContract.Proofs.Compile.Related
import ApiContract.Proofs.Compile.Repeat
import ApiContract.Proofs.Compile.Run
import ApiContract.Proofs.Compile.Schema
import ApiContract.Proofs.Compile.Session
import ApiContract.Proofs.Compile.Sound
import ApiContract.Proofs.Compile.Table
import ApiContract.Proofs.Compile.Tags
import ApiContract.Proofs.Compile.Type
import ApiContract.Proofs.Compile.Union
import ApiContract.Proofs.Deployment
import ApiContract.Proofs.Edit
import ApiContract.Proofs.Except
import ApiContract.Proofs.Gateway.Discriminator
import ApiContract.Proofs.Gateway.Exact
import ApiContract.Proofs.Gateway.Integrated
import ApiContract.Proofs.Gateway.Place
import ApiContract.Proofs.Gateway.Strip
import ApiContract.Proofs.Gateway.Walk
import ApiContract.Proofs.Inline.Account
import ApiContract.Proofs.Inline.Chain
import ApiContract.Proofs.Inline.Closed
import ApiContract.Proofs.Inline.Collapse
import ApiContract.Proofs.Inline.Comparison
import ApiContract.Proofs.Inline.Consult
import ApiContract.Proofs.Inline.Cycle
import ApiContract.Proofs.Inline.Document
import ApiContract.Proofs.Inline.Relation
import ApiContract.Proofs.Inline.Spot
import ApiContract.Proofs.Inline.Stages
import ApiContract.Proofs.Inline.State
import ApiContract.Proofs.Inline.Table
import ApiContract.Proofs.Inline.Unfolding
import ApiContract.Proofs.Inline.Walk
import ApiContract.Proofs.Interface
import ApiContract.Proofs.Json.Number
import ApiContract.Proofs.Json.Printer
import ApiContract.Proofs.Json.RoundTrip
import ApiContract.Proofs.Json.Text
import ApiContract.Proofs.Json.Token
import ApiContract.Proofs.Lists
import ApiContract.Proofs.Models
import ApiContract.Proofs.Naming.Document
import ApiContract.Proofs.Naming.Following
import ApiContract.Proofs.Naming.Object
import ApiContract.Proofs.Naming.Outcome
import ApiContract.Proofs.Naming.Position
import ApiContract.Proofs.Naming.Relation
import ApiContract.Proofs.Naming.Restore
import ApiContract.Proofs.Naming.Schema
import ApiContract.Proofs.Naming.State
import ApiContract.Proofs.Naming.Stays
import ApiContract.Proofs.Naming.Still
import ApiContract.Proofs.Naming.TypeNames
import ApiContract.Proofs.Naming.Unfolding
import ApiContract.Proofs.Plan.Canonical
import ApiContract.Proofs.Plan.Collect
import ApiContract.Proofs.Plan.Names
import ApiContract.Proofs.Plan.Parameter
import ApiContract.Proofs.Plan.Repeat
import ApiContract.Proofs.Plan.Safe
import ApiContract.Proofs.Plan.Sound
import ApiContract.Proofs.Recompilation
import ApiContract.Proofs.Record
import ApiContract.Proofs.Reference.Name
import ApiContract.Proofs.Reference.Pointer
import ApiContract.Proofs.Scaffold
import ApiContract.Proofs.Serve.Answered
import ApiContract.Proofs.Serve.Body
import ApiContract.Proofs.Serve.CauseChain
import ApiContract.Proofs.Serve.Envelope
import ApiContract.Proofs.Serve.Extraction
import ApiContract.Proofs.Serve.Keywords
import ApiContract.Proofs.Serve.Pipeline
import ApiContract.Proofs.Serve.ResponseType
import ApiContract.Proofs.Serve.Routing
import ApiContract.Proofs.Serve.Run
import ApiContract.Proofs.Serve.Tagged
import ApiContract.Proofs.Serve.Untagged
import ApiContract.Proofs.Text.Identifier
import ApiContract.Proofs.Text.Legal
import ApiContract.Proofs.Text.Octets
import ApiContract.Proofs.Text.Spelling
import ApiContract.Proofs.Text.Splitting
import ApiContract.Proofs.Text.Unique
import ApiContract.Proofs.Text.Words
import ApiContract.Proofs.Tree.Plain
import ApiContract.Proofs.Tree.Same
import ApiContract.Proofs.Value.Conform
import ApiContract.Proofs.Value.Enumeration
import ApiContract.Proofs.Value.Fields
import ApiContract.Proofs.Value.RoundTrip
import ApiContract.Proofs.Value.Typed
import ApiContract.Proofs.Value.Variant
import ApiContract.Proofs.Value.Wire
import ApiContract.Record
import ApiContract.Reference
import ApiContract.Scaffold
import ApiContract.Schema
import ApiContract.Serve.Answer
import ApiContract.Serve.Argument
import ApiContract.Serve.Body
import ApiContract.Serve.CauseChain
import ApiContract.Serve.Dispatch
import ApiContract.Serve.Hooks
import ApiContract.Serve.Refusal
import ApiContract.Settings
import ApiContract.Text.Base64
import ApiContract.Text.Class
import ApiContract.Text.Identifier
import ApiContract.Text.Literal
import ApiContract.Text.Lower
import ApiContract.Text.NameChar
import ApiContract.Text.Percent
import ApiContract.Text.Utf8
import ApiContract.Tree.Basic
import ApiContract.Tree.Scalar
import ApiContract.TypeModel.Basic
import ApiContract.TypeModel.Compile
import ApiContract.TypeModel.Form
import ApiContract.TypeModel.Literal
import ApiContract.Unvisited
import ApiContract.Value.Basic
import ApiContract.Value.Conform
import ApiContract.Value.Form
import ApiContract.Value.Lexical
import ApiContract.Value.Written
import ApiContract.Yaml.Fault
import ApiContract.Yaml.Lexeme
import ApiContract.Yaml.Node
import ApiContract.Yaml.Page
import ApiContract.Yaml.Printer
import ApiContract.Yaml.Scalar
import ApiContract.Yaml.Style
import ApiContract.Yaml.Token
import ApiContract.Yaml.Value
