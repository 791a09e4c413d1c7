import ManifestForm.Command.Basic
import ManifestForm.Command.Catalog
import ManifestForm.Command.Codec
import ManifestForm.CommandLine.Arguments
import ManifestForm.CommandLine.Options
import ManifestForm.CommandLine.Run
import ManifestForm.File.Tree
import ManifestForm.Form.Reader
import ManifestForm.Form.Service
import ManifestForm.Host.Program
import ManifestForm.Json.Basic
import ManifestForm.Json.Decode
import ManifestForm.Json.Parser
import ManifestForm.Json.Printer
import ManifestForm.Kubeconfig.Basic
import ManifestForm.Kubeconfig.Load
import ManifestForm.Logging.Setup
import ManifestForm.Main
import ManifestForm.Manifest.Load
import ManifestForm.Number.Binary64
import ManifestForm.Number.Shortest
import ManifestForm.PathMap.Document
import ManifestForm.PathMap.Query
import ManifestForm.Proofs.Form.Binding
import ManifestForm.Proofs.Form.Creation
import ManifestForm.Proofs.Json.Decode
import ManifestForm.Proofs.Json.Object
import ManifestForm.Proofs.Json.Passing
import ManifestForm.Proofs.Json.Reading
import ManifestForm.Proofs.Json.Scalars
import ManifestForm.Proofs.Json.Spelling
import ManifestForm.Proofs.Manifest.Evaluation
import ManifestForm.Proofs.Manifest.Stream
import ManifestForm.Proofs.Manifest.Tags
import ManifestForm.Proofs.Number.Numeral
import ManifestForm.Proofs.PathMap.Ancestors
import ManifestForm.Proofs.PathMap.Dotted
import ManifestForm.Proofs.PathMap.Entries
import ManifestForm.Proofs.PathMap.Fragments
import ManifestForm.Proofs.PathMap.Lines
import ManifestForm.Proofs.PathMap.Nearest
import ManifestForm.Proofs.PathMap.Places
import ManifestForm.Proofs.PathMap.Stability
import ManifestForm.Proofs.PathMap.Values
import ManifestForm.Proofs.PathMap.Waiting
import ManifestForm.Proofs.Rpc.Answers
import ManifestForm.Proofs.Rpc.Requests
import ManifestForm.Proofs.Schema.Causes
import ManifestForm.Proofs.Schema.Descriptions
import ManifestForm.Proofs.Schema.Failures
import ManifestForm.Proofs.Schema.Fetches
import ManifestForm.Proofs.Schema.Freshness
import ManifestForm.Proofs.Schema.History
import ManifestForm.Proofs.Schema.InPlace
import ManifestForm.Proofs.Schema.Inlining
import ManifestForm.Proofs.Schema.Parts
import ManifestForm.Proofs.Schema.Preservation
import ManifestForm.Proofs.Schema.References
import ManifestForm.Proofs.Schema.RoundTrip
import ManifestForm.Proofs.Schema.Session
import ManifestForm.Proofs.Schema.Transparency
import ManifestForm.Proofs.Spec.Arrays
import ManifestForm.Proofs.Spec.Navigation
import ManifestForm.Proofs.Spec.Refusals
import ManifestForm.Proofs.Spec.Truncation
import ManifestForm.Proofs.Text.Lines
import ManifestForm.Proofs.Text.Utf8
import ManifestForm.Proofs.Yaml.Completion
import ManifestForm.Proofs.Yaml.Constructs
import ManifestForm.Proofs.Yaml.Cursor
import ManifestForm.Proofs.Yaml.Descent
import ManifestForm.Proofs.Yaml.Positions
import ManifestForm.Proofs.Yaml.Progress
import ManifestForm.Proofs.Yaml.Tokens
import ManifestForm.Proofs.Yaml.Tree
import ManifestForm.Proofs.Yaml.Turns
import ManifestForm.Rpc.Call
import ManifestForm.Rpc.Request
import ManifestForm.Rpc.Serve
import ManifestForm.Schema.Cache
import ManifestForm.Schema.Codec
import ManifestForm.Schema.Dereference
import ManifestForm.Schema.GroupVersionKind
import ManifestForm.Spec.Project
import ManifestForm.Spec.Simplify
import ManifestForm.Text.Basic
import ManifestForm.Text.Pem
import ManifestForm.Text.Quoted
import ManifestForm.Transport.Basic
import ManifestForm.Transport.Http
import ManifestForm.Watch.Directory
import ManifestForm.Yaml.Node
import ManifestForm.Yaml.Node.Grammar
import ManifestForm.Yaml.Token
import ManifestForm.Yaml.Token.Cursor
import ManifestForm.Yaml.Token.Scalar
import ManifestForm.Yaml.Token.Stream
