import Avroc.Build.Batch
import Avroc.Build.Directory
import Avroc.Build.Format
import Avroc.Build.Scan
import Avroc.Build.World
import Avroc.Build.Writing
import Avroc.Cache.Entry
import Avroc.Cache.Incremental
import Avroc.Cache.Store
import Avroc.Command.Arguments
import Avroc.Command.Option
import Avroc.Command.Run
import Avroc.Error.Basic
import Avroc.Error.Fault
import Avroc.File.Digest
import Avroc.File.Disk
import Avroc.File.Node
import Avroc.File.Path
import Avroc.Idl.Cursor
import Avroc.Idl.Declaration
import Avroc.Idl.DocComment
import Avroc.Idl.Lexer
import Avroc.Idl.Literal
import Avroc.Idl.Protocol
import Avroc.Idl.Token
import Avroc.Idl.TypeExpr
import Avroc.Json.Literal
import Avroc.Json.Printer
import Avroc.Json.Reader
import Avroc.Json.Value
import Avroc.Log
import Avroc.Main
import Avroc.Module.DefaultLiteral
import Avroc.Module.DocString
import Avroc.Module.Imports
import Avroc.Module.Naming
import Avroc.Module.Options
import Avroc.Module.Source
import Avroc.Module.TypeHint
import Avroc.Name
import Avroc.Number.Binary64
import Avroc.Number.Decimal
import Avroc.Number.Shortest
import Avroc.Project
import Avroc.Protocol.Basic
import Avroc.Protocol.Reader
import Avroc.Registry
import Avroc.Registry.Pool
import Avroc.Schema.Basic
import Avroc.Schema.Default
import Avroc.Schema.Document
import Avroc.Schema.Reachable
import Avroc.Schema.Reader
import Avroc.Schema.Scope
import Avroc.Settings.Basic
import Avroc.Settings.Reader
import Avroc.Settings.Value
import Avroc.Text.Blank
import Avroc.Text.Digit
import Avroc.Text.Lines
import Avroc.Text.Printable
import Avroc.Text.Quoted
import Avroc.Text.Split
import Avroc.Text.Utf8
import Avroc.Yaml.Line
import Avroc.Yaml.Reader
import Avroc.Yaml.Scalar
import Avroc.Yaml.Value
import Avroc.Proofs.Json.Members
import Avroc.Proofs.Schema.Alike
import Avroc.Proofs.Step
import Avroc.Proofs.Schema.Document
import Avroc.Proofs.Schema.Scope
import Avroc.Proofs.Name
import Avroc.Proofs.Schema.Laying
import Avroc.Proofs.Schema.Read
import Avroc.Proofs.Schema.Laid
import Avroc.Proofs.Schema.RoundTrip
import Avroc.Proofs.Protocol.Reread
import Avroc.Proofs.Protocol.RoundTrip
import Avroc.Proofs.Idl.Lexer
import Avroc.Proofs.Idl.Lexemes
import Avroc.Proofs.Idl.Outline
import Avroc.Proofs.Idl.Textual
import Avroc.Proofs.Idl.Types
import Avroc.Proofs.Idl.Declarations
import Avroc.Proofs.Idl.Agreement
import Avroc.Proofs.Schema.ParallelRead
import Avroc.Proofs.File.Modules
import Avroc.Proofs.Module.Naming
import Avroc.Proofs.Module.Alike
import Avroc.Proofs.Batch.Accounting
import Avroc.Proofs.Batch.Order
import Avroc.Proofs.Cache.Record
import Avroc.Proofs.File.Changes
import Avroc.Proofs.Module.Places
import Avroc.Proofs.Cache.Leftovers
import Avroc.Proofs.Registry.Isolation
import Avroc.Proofs.Module.Linking
import Avroc.Proofs.Module.Layout
import Avroc.Proofs.Module.LocalNames
import Avroc.Proofs.Module.Alternatives
import Avroc.Proofs.Module.Hints
import Avroc.Proofs.Module.Confinement
import Avroc.Proofs.Idl.JsonLiterals
import Avroc.Proofs.Idl.Recursion
import Avroc.Proofs.Idl.Optional
import Avroc.Proofs.Module.DocStrings
import Avroc.Proofs.Module.Members
import Avroc.Proofs.Registry.Attributes
import Avroc.Proofs.Registry.Defaults
import Avroc.Proofs.Batch.Stopping
import Avroc.Proofs.Registry.Embedding
import Avroc.Proofs.Registry.Linear
import Avroc.Proofs.Batch.Resolution
import Avroc.Proofs.Cache.Edits
import Avroc.Proofs.File.Making
import Avroc.Proofs.File.Sequence
import Avroc.Proofs.File.Scanning
import Avroc.Proofs.Schema.Fitting
import Avroc.Proofs.Module.Aliases
