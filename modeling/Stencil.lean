import Stencil.Address.Basic
import Stencil.Address.Fault
import Stencil.Address.Range
import Stencil.Address.Text
import Stencil.CommandLine.Arguments
import Stencil.CommandLine.Run
import Stencil.Document
import Stencil.Evaluation.AddressFunction
import Stencil.Evaluation.Arguments
import Stencil.Evaluation.Binding
import Stencil.Evaluation.Builtin
import Stencil.Evaluation.Evaluate
import Stencil.Evaluation.FormatFault
import Stencil.Evaluation.HostFunction
import Stencil.Evaluation.Operation
import Stencil.Evaluation.Outcome
import Stencil.Evaluation.Reference
import Stencil.Evaluation.Template
import Stencil.Evaluation.TextFunction
import Stencil.Expression.Basic
import Stencil.Expression.Outline
import Stencil.Expression.Parse
import Stencil.Expression.ParseError
import Stencil.Expression.Print
import Stencil.Expression.Scan
import Stencil.Expression.Token
import Stencil.Host.Answers
import Stencil.Host.Failure
import Stencil.Host.Memory
import Stencil.Host.Path
import Stencil.Host.Program
import Stencil.Host.Services
import Stencil.Host.Shell.Run
import Stencil.Host.Shell.Script
import Stencil.Host.Store
import Stencil.Host.World
import Stencil.Issue
import Stencil.Main
import Stencil.Node.Basic
import Stencil.Node.Data
import Stencil.Node.Json
import Stencil.Node.Kind
import Stencil.Node.Lookup
import Stencil.Node.Place
import Stencil.Node.Text
import Stencil.Number.Decimal
import Stencil.Number.Read
import Stencil.Number.Shortest
import Stencil.Number.Word
import Stencil.Proofs.Address.Enumeration
import Stencil.Proofs.Address.Networks
import Stencil.Proofs.Address.Text
import Stencil.Proofs.Address.Words
import Stencil.Proofs.Evaluation.Addresses
import Stencil.Proofs.Evaluation.Arithmetic
import Stencil.Proofs.Evaluation.Blindness
import Stencil.Proofs.Evaluation.Builtin
import Stencil.Proofs.Evaluation.Elementary
import Stencil.Proofs.Evaluation.Inheritance
import Stencil.Proofs.Evaluation.IntegerDirective
import Stencil.Proofs.Evaluation.KeyOrder
import Stencil.Proofs.Evaluation.Logic
import Stencil.Proofs.Evaluation.Mapping
import Stencil.Proofs.Evaluation.Networks
import Stencil.Proofs.Evaluation.Percent
import Stencil.Proofs.Evaluation.Precedence
import Stencil.Proofs.Evaluation.Reference
import Stencil.Proofs.Evaluation.Rendering
import Stencil.Proofs.Evaluation.Reordering
import Stencil.Proofs.Evaluation.Selective
import Stencil.Proofs.Evaluation.Splitting
import Stencil.Proofs.Evaluation.Stability
import Stencil.Proofs.Evaluation.StaticAddresses
import Stencil.Proofs.Evaluation.TemplateText
import Stencil.Proofs.Evaluation.Values
import Stencil.Proofs.Expression.Carrying
import Stencil.Proofs.Expression.Depth
import Stencil.Proofs.Expression.Derivation
import Stencil.Proofs.Expression.ErrorPosition
import Stencil.Proofs.Expression.Grammar
import Stencil.Proofs.Expression.Integers
import Stencil.Proofs.Expression.Layers
import Stencil.Proofs.Expression.Likeness
import Stencil.Proofs.Expression.Misfit
import Stencil.Proofs.Expression.Percent
import Stencil.Proofs.Expression.Placing
import Stencil.Proofs.Expression.Progress
import Stencil.Proofs.Expression.Refusal
import Stencil.Proofs.Expression.RoundTrip
import Stencil.Proofs.Expression.Scanning
import Stencil.Proofs.Expression.Shape
import Stencil.Proofs.Expression.Slices
import Stencil.Proofs.Expression.Spacing
import Stencil.Proofs.Expression.Stopping
import Stencil.Proofs.Expression.Table
import Stencil.Proofs.Expression.Termination
import Stencil.Proofs.Expression.TextLiteral
import Stencil.Proofs.Expression.Weight
import Stencil.Proofs.Expression.Writing
import Stencil.Proofs.Host.CommandKey
import Stencil.Proofs.Host.Memory
import Stencil.Proofs.Node.Canonical
import Stencil.Proofs.Node.Comparison
import Stencil.Proofs.Node.Elementary
import Stencil.Proofs.Node.Equality
import Stencil.Proofs.Node.Equivalence
import Stencil.Proofs.Node.Lookup
import Stencil.Proofs.Node.Masked
import Stencil.Proofs.Node.Matching
import Stencil.Proofs.Node.Ordered
import Stencil.Proofs.Node.Percent
import Stencil.Proofs.Node.Plain
import Stencil.Proofs.Node.Refinement
import Stencil.Proofs.Node.Reordered
import Stencil.Proofs.Node.Selective
import Stencil.Proofs.Node.Simple
import Stencil.Proofs.Node.Sorting
import Stencil.Proofs.Resolution.Absence
import Stencil.Proofs.Resolution.Agreement
import Stencil.Proofs.Resolution.Around
import Stencil.Proofs.Resolution.Cascade
import Stencil.Proofs.Resolution.Chains
import Stencil.Proofs.Resolution.ComputedText
import Stencil.Proofs.Resolution.Convergence
import Stencil.Proofs.Resolution.Decided
import Stencil.Proofs.Resolution.Draft
import Stencil.Proofs.Resolution.Elementary
import Stencil.Proofs.Resolution.Equations
import Stencil.Proofs.Resolution.FixedPoint
import Stencil.Proofs.Resolution.Graph
import Stencil.Proofs.Resolution.Heritage
import Stencil.Proofs.Resolution.KeyOrder
import Stencil.Proofs.Resolution.Keys
import Stencil.Proofs.Resolution.ListMerge
import Stencil.Proofs.Resolution.ListNames
import Stencil.Proofs.Resolution.Literal
import Stencil.Proofs.Resolution.MapMerge
import Stencil.Proofs.Resolution.Naming
import Stencil.Proofs.Resolution.Origins
import Stencil.Proofs.Resolution.Overlay
import Stencil.Proofs.Resolution.Overriding
import Stencil.Proofs.Resolution.Passage
import Stencil.Proofs.Resolution.Persistence
import Stencil.Proofs.Resolution.PlainMerge
import Stencil.Proofs.Resolution.Plan
import Stencil.Proofs.Resolution.PoolSize
import Stencil.Proofs.Resolution.Preferred
import Stencil.Proofs.Resolution.Redirects
import Stencil.Proofs.Resolution.References
import Stencil.Proofs.Resolution.Reordering
import Stencil.Proofs.Resolution.Replacement
import Stencil.Proofs.Resolution.Report
import Stencil.Proofs.Resolution.Run
import Stencil.Proofs.Resolution.Site
import Stencil.Proofs.Resolution.Solved
import Stencil.Proofs.Resolution.Splice
import Stencil.Proofs.Resolution.Visit
import Stencil.Proofs.Resolution.Within
import Stencil.Proofs.Text.Characters
import Stencil.Proofs.Text.Separated
import Stencil.Resolution.Marker
import Stencil.Resolution.Pass
import Stencil.Resolution.Resolve
import Stencil.Resolution.Unresolved
import Stencil.Table
import Stencil.Text.Blank
import Stencil.Text.Embedded
import Stencil.Text.Hidden
import Stencil.Text.Lossy
import Stencil.Text.Position
import Stencil.Text.Quoted
import Stencil.Text.Separated
import Stencil.Text.Shown
import Stencil.Tree
import Stencil.Yaml.BlockText
import Stencil.Yaml.Character
import Stencil.Yaml.Cursor
import Stencil.Yaml.Event
import Stencil.Yaml.Fault
import Stencil.Yaml.Gap
import Stencil.Yaml.Parse
import Stencil.Yaml.Pen
import Stencil.Yaml.Plain
import Stencil.Yaml.PlainText
import Stencil.Yaml.QuotedText
import Stencil.Yaml.Read
import Stencil.Yaml.Scan
import Stencil.Yaml.Style
import Stencil.Yaml.Tag
import Stencil.Yaml.Token
import Stencil.Yaml.Write
