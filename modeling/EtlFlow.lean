import EtlFlow.Command.Arguments
import EtlFlow.Command.Failure
import EtlFlow.Command.Run
import EtlFlow.Dependency.Dag
import EtlFlow.Dependency.Reach
import EtlFlow.Files.Path
import EtlFlow.Files.Tree
import EtlFlow.Json
import EtlFlow.Json.Parser
import EtlFlow.Json.Printer
import EtlFlow.Main
import EtlFlow.Number.Digits
import EtlFlow.Number.Real64
import EtlFlow.Number.Shortest
import EtlFlow.Pipeline.Activation
import EtlFlow.Pipeline.Basic
import EtlFlow.Pipeline.Build
import EtlFlow.Pipeline.Compiler
import EtlFlow.Pipeline.Definition
import EtlFlow.Pipeline.Error
import EtlFlow.Pipeline.Start
import EtlFlow.Proofs.Dependency.Ancestry
import EtlFlow.Proofs.Dependency.Reduction
import EtlFlow.Proofs.Dependency.Verdict
import EtlFlow.Proofs.Dependency.Walk
import EtlFlow.Proofs.Files.Tree
import EtlFlow.Proofs.Number.Digits
import EtlFlow.Proofs.Outcome
import EtlFlow.Proofs.Pipeline.Activation
import EtlFlow.Proofs.Pipeline.Apart
import EtlFlow.Proofs.Pipeline.Bootstrap
import EtlFlow.Proofs.Pipeline.Closed
import EtlFlow.Proofs.Pipeline.Collisions
import EtlFlow.Proofs.Pipeline.Demand
import EtlFlow.Proofs.Pipeline.Failure
import EtlFlow.Proofs.Pipeline.Grounded
import EtlFlow.Proofs.Pipeline.Inputs
import EtlFlow.Proofs.Pipeline.Links
import EtlFlow.Proofs.Pipeline.Naming
import EtlFlow.Proofs.Pipeline.Nesting
import EtlFlow.Proofs.Pipeline.Order
import EtlFlow.Proofs.Pipeline.Placement
import EtlFlow.Proofs.Pipeline.Prefix
import EtlFlow.Proofs.Pipeline.Progress
import EtlFlow.Proofs.Pipeline.Rooted
import EtlFlow.Proofs.Pipeline.Roster
import EtlFlow.Proofs.Pipeline.Run
import EtlFlow.Proofs.Pipeline.Staged
import EtlFlow.Proofs.Pipeline.Start
import EtlFlow.Proofs.Pipeline.Teardown
import EtlFlow.Proofs.Pipeline.Transfers
import EtlFlow.Proofs.Pipeline.Variables
import EtlFlow.Proofs.Pipeline.Written
import EtlFlow.Proofs.Sequence.Founded
import EtlFlow.Proofs.Settings.Layers
import EtlFlow.Proofs.Sorted
import EtlFlow.Proofs.Sql.Clean
import EtlFlow.Proofs.Sql.ColumnText
import EtlFlow.Proofs.Sql.Command
import EtlFlow.Proofs.Sql.Dependencies
import EtlFlow.Proofs.Sql.Fragments
import EtlFlow.Proofs.Sql.Items
import EtlFlow.Proofs.Sql.Legible
import EtlFlow.Proofs.Sql.Lexemes
import EtlFlow.Proofs.Sql.Lookahead
import EtlFlow.Proofs.Sql.Pieces
import EtlFlow.Proofs.Sql.Projection
import EtlFlow.Proofs.Sql.Query
import EtlFlow.Proofs.Sql.Quiet
import EtlFlow.Proofs.Sql.Readers
import EtlFlow.Proofs.Sql.Reads
import EtlFlow.Proofs.Sql.Scan
import EtlFlow.Proofs.Sql.Settled
import EtlFlow.Proofs.Sql.Spans
import EtlFlow.Proofs.Sql.Spelling
import EtlFlow.Proofs.Sql.Splitting
import EtlFlow.Proofs.Sql.Stable
import EtlFlow.Proofs.Sql.Stages
import EtlFlow.Proofs.Sql.Surface
import EtlFlow.Proofs.Sql.TableComplete
import EtlFlow.Proofs.Sql.TableParts
import EtlFlow.Proofs.Sql.TableTree
import EtlFlow.Proofs.Sql.TopLevel
import EtlFlow.Proofs.Sql.Transaction
import EtlFlow.Proofs.Sql.ViewBody
import EtlFlow.Proofs.Sql.Words
import EtlFlow.Proofs.Sql.Wrapper
import EtlFlow.Proofs.Step.Contract
import EtlFlow.Proofs.Step.Endings
import EtlFlow.Proofs.Step.Expansion
import EtlFlow.Proofs.Step.Jobs
import EtlFlow.Proofs.Step.Objects
import EtlFlow.Proofs.Step.Places
import EtlFlow.Proofs.Step.Staged
import EtlFlow.Proofs.Step.Staging
import EtlFlow.Proofs.Step.Variables
import EtlFlow.Proofs.Storage.Location
import EtlFlow.Proofs.Storage.Puts
import EtlFlow.Proofs.Storage.Retry
import EtlFlow.Proofs.Storage.Root
import EtlFlow.Proofs.Text.Words
import EtlFlow.Proofs.Time.Instant
import EtlFlow.Proofs.Warehouse.Clone
import EtlFlow.Proofs.Warehouse.CreateScript
import EtlFlow.Proofs.Warehouse.CreationOrder
import EtlFlow.Proofs.Warehouse.Fresh
import EtlFlow.Proofs.Warehouse.Guard
import EtlFlow.Proofs.Warehouse.Header
import EtlFlow.Proofs.Warehouse.History
import EtlFlow.Proofs.Warehouse.Keys
import EtlFlow.Proofs.Warehouse.Matching
import EtlFlow.Proofs.Warehouse.Meaning
import EtlFlow.Proofs.Warehouse.Merge
import EtlFlow.Proofs.Warehouse.Partition
import EtlFlow.Proofs.Warehouse.Passes
import EtlFlow.Proofs.Warehouse.Reading
import EtlFlow.Proofs.Warehouse.Renaming
import EtlFlow.Proofs.Warehouse.Rows
import EtlFlow.Proofs.Warehouse.Table
import EtlFlow.Proofs.Workflow.Grounded
import EtlFlow.Proofs.Workflow.References
import EtlFlow.Proofs.Yaml.Merge
import EtlFlow.Proofs.Yaml.Same
import EtlFlow.Sequence
import EtlFlow.Settings.Basic
import EtlFlow.Settings.Connection
import EtlFlow.Settings.Error
import EtlFlow.Settings.Etl
import EtlFlow.Settings.Layers
import EtlFlow.Settings.Machines
import EtlFlow.Sorted
import EtlFlow.Sql.Error
import EtlFlow.Sql.Grammar
import EtlFlow.Sql.Json
import EtlFlow.Sql.Keyword
import EtlFlow.Sql.Sanitize
import EtlFlow.Sql.Script
import EtlFlow.Sql.Select.Projection
import EtlFlow.Sql.Select.Reads
import EtlFlow.Sql.TableDef
import EtlFlow.Sql.TableDef.Parser
import EtlFlow.Sql.Token
import EtlFlow.Sql.Token.Lexer
import EtlFlow.Sql.ViewDef
import EtlFlow.Step.Arguments
import EtlFlow.Step.Check
import EtlFlow.Step.Cluster
import EtlFlow.Step.Composite
import EtlFlow.Step.Context
import EtlFlow.Step.Descriptor
import EtlFlow.Step.Error
import EtlFlow.Step.Executor
import EtlFlow.Step.Expand
import EtlFlow.Step.Extract
import EtlFlow.Step.Kind
import EtlFlow.Step.Load
import EtlFlow.Step.Registry
import EtlFlow.Step.Sql
import EtlFlow.Step.Transform
import EtlFlow.Storage.Location
import EtlFlow.Storage.Retry
import EtlFlow.Storage.Store
import EtlFlow.Text.Blank
import EtlFlow.Text.Fold
import EtlFlow.Text.Letter
import EtlFlow.Text.Split
import EtlFlow.Time.Date
import EtlFlow.Time.Instant
import EtlFlow.Warehouse.Column
import EtlFlow.Warehouse.Command
import EtlFlow.Warehouse.Database
import EtlFlow.Warehouse.Error
import EtlFlow.Warehouse.Header
import EtlFlow.Warehouse.History
import EtlFlow.Warehouse.Merge
import EtlFlow.Warehouse.Query
import EtlFlow.Warehouse.Relation
import EtlFlow.Warehouse.Table
import EtlFlow.Workflow.Activity
import EtlFlow.Workflow.Frequency
import EtlFlow.Workflow.Graph
import EtlFlow.Workflow.Object
import EtlFlow.Workflow.Record
import EtlFlow.Workflow.Resource
import EtlFlow.Yaml.Decode
import EtlFlow.Yaml.Describe
import EtlFlow.Yaml.Document
import EtlFlow.Yaml.Error
import EtlFlow.Yaml.Glyph
import EtlFlow.Yaml.Merge
import EtlFlow.Yaml.Node
import EtlFlow.Yaml.OfJson
import EtlFlow.Yaml.Scalar
import EtlFlow.Yaml.ToJson
import EtlFlow.Yaml.Token.Lexer
import EtlFlow.Yaml.Token.Scalar
import EtlFlow.Yaml.Value
import EtlFlow.Yaml.Written
