import ApiEmit.Arena.Basic
import ApiEmit.Arena.Load
import ApiEmit.Arena.Query
import ApiEmit.Arena.Scope
import ApiEmit.Binary64.Basic
import ApiEmit.Binary64.Numeral
import ApiEmit.Binary64.Shortest
import ApiEmit.Command.Arguments
import ApiEmit.Command.Run
import ApiEmit.Config.Basic
import ApiEmit.Config.OptionError
import ApiEmit.Config.Setting
import ApiEmit.Document.Basic
import ApiEmit.Document.Fields
import ApiEmit.Document.Reader
import ApiEmit.Graph.Basic
import ApiEmit.Graph.Library
import ApiEmit.Graph.Load
import ApiEmit.Graph.Name
import ApiEmit.Graph.Query
import ApiEmit.Graph.Scope
import ApiEmit.Host.Disk
import ApiEmit.Host.Emission
import ApiEmit.Host.FileSystem
import ApiEmit.Host.LineEnding
import ApiEmit.Host.Memory
import ApiEmit.Host.Path
import ApiEmit.Json.Number
import ApiEmit.Json.Reader
import ApiEmit.Json.Token
import ApiEmit.Json.Value
import ApiEmit.Keyed
import ApiEmit.Main
import ApiEmit.Proofs.Aligned
import ApiEmit.Proofs.ArenaAccess
import ApiEmit.Proofs.ArenaDeclared
import ApiEmit.Proofs.ArenaEntries
import ApiEmit.Proofs.ArenaFilled
import ApiEmit.Proofs.ArenaLibrary
import ApiEmit.Proofs.ArenaNames
import ApiEmit.Proofs.ArenaOperations
import ApiEmit.Proofs.ArenaRefines
import ApiEmit.Proofs.ArenaSteps
import ApiEmit.Proofs.ArenaTypes
import ApiEmit.Proofs.ArenaWellFormed
import ApiEmit.Proofs.BaseOrder
import ApiEmit.Proofs.BasesFirst
import ApiEmit.Proofs.BodyNames
import ApiEmit.Proofs.CommonErrors
import ApiEmit.Proofs.Declarable
import ApiEmit.Proofs.Declaration
import ApiEmit.Proofs.DisplayNames
import ApiEmit.Proofs.DocLiteral
import ApiEmit.Proofs.DocumentOrder
import ApiEmit.Proofs.Emission
import ApiEmit.Proofs.ExampleTable
import ApiEmit.Proofs.Faults
import ApiEmit.Proofs.FieldArguments
import ApiEmit.Proofs.FileNames
import ApiEmit.Proofs.GroupHeadings
import ApiEmit.Proofs.HintNames
import ApiEmit.Proofs.HintNesting
import ApiEmit.Proofs.HostRuns
import ApiEmit.Proofs.Identifiers
import ApiEmit.Proofs.Imports
import ApiEmit.Proofs.Joined
import ApiEmit.Proofs.Keyed
import ApiEmit.Proofs.LineEndings
import ApiEmit.Proofs.Loaded
import ApiEmit.Proofs.Loading
import ApiEmit.Proofs.NameLookup
import ApiEmit.Proofs.Naming
import ApiEmit.Proofs.Nesting
import ApiEmit.Proofs.OrderFree
import ApiEmit.Proofs.Parts
import ApiEmit.Proofs.Paths
import ApiEmit.Proofs.PrintedText
import ApiEmit.Proofs.ProgramTypes
import ApiEmit.Proofs.QualifiedNames
import ApiEmit.Proofs.QuotedLiteral
import ApiEmit.Proofs.Reach
import ApiEmit.Proofs.References
import ApiEmit.Proofs.Reordering
import ApiEmit.Proofs.Represented
import ApiEmit.Proofs.Resolved
import ApiEmit.Proofs.RootService
import ApiEmit.Proofs.SameDeclarations
import ApiEmit.Proofs.ScalarChains
import ApiEmit.Proofs.ScalarNames
import ApiEmit.Proofs.ScalarWalk
import ApiEmit.Proofs.Scoping
import ApiEmit.Proofs.ServiceDocument
import ApiEmit.Proofs.ServiceFiles
import ApiEmit.Proofs.Shadowing
import ApiEmit.Proofs.Sites
import ApiEmit.Proofs.Startup
import ApiEmit.Proofs.Substitution
import ApiEmit.Proofs.Successors
import ApiEmit.Proofs.Synthesis
import ApiEmit.Proofs.TableCells
import ApiEmit.Proofs.Unused
import ApiEmit.Proofs.Usage
import ApiEmit.Proofs.Walks
import ApiEmit.Proofs.WellFormed
import ApiEmit.Proofs.WireNames
import ApiEmit.Pydantic.Arguments
import ApiEmit.Pydantic.Definition
import ApiEmit.Pydantic.Emission
import ApiEmit.Pydantic.Module
import ApiEmit.Pydantic.Names
import ApiEmit.Pydantic.Options
import ApiEmit.Pydantic.TypeHint
import ApiEmit.Python.Docstring
import ApiEmit.Python.Identifier
import ApiEmit.Python.Printer
import ApiEmit.Python.Quoted
import ApiEmit.Python.Syntax
import ApiEmit.Reference.Document
import ApiEmit.Reference.Emission
import ApiEmit.Reference.Example
import ApiEmit.Reference.Markdown
import ApiEmit.Reference.OutputFile
import ApiEmit.Reference.StatusText
import ApiEmit.Reference.TypeName
import ApiEmit.Schema.Basic
import ApiEmit.Schema.Http
import ApiEmit.Schema.TypeExpr
import ApiEmit.Text.Blank
import ApiEmit.Text.Lines
import ApiEmit.Text.Split
import ApiEmit.Text.Substitution
import ApiEmit.Usage.Basic
import ApiEmit.Usage.Classify
import ApiEmit.Usage.Reach
import ApiEmit.Yaml.BlockScalar
import ApiEmit.Yaml.Cursor
import ApiEmit.Yaml.Directive
import ApiEmit.Yaml.Node
import ApiEmit.Yaml.Scalar
import ApiEmit.Yaml.Tag
import ApiEmit.Yaml.Token
import ApiEmit.Proofs.ArenaAnswers
