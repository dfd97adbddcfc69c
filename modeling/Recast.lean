import Recast.Analysis.Await
import Recast.Analysis.Basic
import Recast.Analysis.Finding
import Recast.Edit.BaseType
import Recast.Edit.Call
import Recast.Edit.Container
import Recast.Edit.Error
import Recast.Edit.Import
import Recast.Edit.Marker
import Recast.Edit.Removal
import Recast.Edit.Signature
import Recast.Framework.Assertion
import Recast.Framework.Basic
import Recast.Framework.Constraint
import Recast.Framework.MSTest
import Recast.Framework.NUnit
import Recast.Framework.Rule
import Recast.Framework.XUnit
import Recast.Grammar.Cursor
import Recast.Grammar.Declaration
import Recast.Grammar.Expression
import Recast.Grammar.Fragment
import Recast.Grammar.Name
import Recast.Json.Basic
import Recast.Json.Decode
import Recast.Migration
import Recast.Plan.Apply
import Recast.Plan.Banner
import Recast.Plan.Basic
import Recast.Plan.Failure
import Recast.Plan.Import
import Recast.Plan.Record
import Recast.Settings
import Recast.Source.Lexer
import Recast.Source.Slice
import Recast.Source.Span
import Recast.Source.Token
import Recast.Source.Trivia
import Recast.Strategy
import Recast.Text.Basic
import Recast.Text.Letter
import Recast.Tree.Edit
import Recast.Tree.Kind
import Recast.Tree.Node
import Recast.Tree.Path
import Recast.Tree.Site
import Recast.Types.Catalog
import Recast.Types.Scope
import Recast.Types.SourceModel
import Recast.Types.Symbol
import Recast.View.Basic
import Recast.Proofs.Analysis.Annotation
import Recast.Proofs.Analysis.Awaiting
import Recast.Proofs.Analysis.Readiness
import Recast.Proofs.Analysis.Recording
import Recast.Proofs.Analysis.Requesting
import Recast.Proofs.Analysis.Signing
import Recast.Proofs.Edit.Capturing
import Recast.Proofs.Edit.Delisting
import Recast.Proofs.Edit.Editing
import Recast.Proofs.Edit.Effects
import Recast.Proofs.Edit.Flatness
import Recast.Proofs.Edit.Growing
import Recast.Proofs.Edit.Handover
import Recast.Proofs.Edit.Headers
import Recast.Proofs.Edit.Heading
import Recast.Proofs.Edit.Importing
import Recast.Proofs.Edit.Inroads
import Recast.Proofs.Edit.Passing
import Recast.Proofs.Edit.PlainImports
import Recast.Proofs.Edit.Preserving
import Recast.Proofs.Edit.Redeclaring
import Recast.Proofs.Edit.Relaying
import Recast.Proofs.Edit.Retaining
import Recast.Proofs.Edit.Retyping
import Recast.Proofs.Edit.Sparing
import Recast.Proofs.Edit.Thinning
import Recast.Proofs.Framework.Arguments
import Recast.Proofs.Framework.NamedArguments
import Recast.Proofs.Framework.Numerals
import Recast.Proofs.Framework.Wording
import Recast.Proofs.Grammar.Composing
import Recast.Proofs.Grammar.Declarations
import Recast.Proofs.Grammar.Depth
import Recast.Proofs.Grammar.Echoing
import Recast.Proofs.Grammar.EchoingExpressions
import Recast.Proofs.Grammar.EchoingMembers
import Recast.Proofs.Grammar.Ending
import Recast.Proofs.Grammar.Expressions
import Recast.Proofs.Grammar.Formatting
import Recast.Proofs.Grammar.Framing
import Recast.Proofs.Grammar.Housing
import Recast.Proofs.Grammar.Layout
import Recast.Proofs.Grammar.Listing
import Recast.Proofs.Grammar.Looping
import Recast.Proofs.Grammar.Lossless
import Recast.Proofs.Grammar.Mirroring
import Recast.Proofs.Grammar.Nesting
import Recast.Proofs.Grammar.Passages
import Recast.Proofs.Grammar.Placement
import Recast.Proofs.Grammar.Precedence
import Recast.Proofs.Grammar.Reading
import Recast.Proofs.Grammar.Spelling
import Recast.Proofs.Grammar.Steadiness
import Recast.Proofs.Grammar.Tiling
import Recast.Proofs.Grammar.Typing
import Recast.Proofs.Grammar.Wrapping
import Recast.Proofs.Migration.Directives
import Recast.Proofs.Migration.Leaving
import Recast.Proofs.Migration.Reprinting
import Recast.Proofs.Migration.Settling
import Recast.Proofs.Plan.Accounting
import Recast.Proofs.Plan.Adding
import Recast.Proofs.Plan.Carrying
import Recast.Proofs.Plan.Commuting
import Recast.Proofs.Plan.Covering
import Recast.Proofs.Plan.Landing
import Recast.Proofs.Plan.Reporting
import Recast.Proofs.Plan.Untouched
import Recast.Proofs.Plan.Variables
import Recast.Proofs.Plan.Weeding
import Recast.Proofs.Source.Cutting
import Recast.Proofs.Source.Hanging
import Recast.Proofs.Source.Pieces
import Recast.Proofs.Source.Quoting
import Recast.Proofs.Source.Rescanning
import Recast.Proofs.Source.Resuming
import Recast.Proofs.Source.Scanning
import Recast.Proofs.Tree.Binding
import Recast.Proofs.Tree.DocumentOrder
import Recast.Proofs.Tree.Observing
import Recast.Proofs.Tree.Outline
import Recast.Proofs.Tree.Putting
import Recast.Proofs.Tree.Retouching
import Recast.Proofs.Tree.Sites
import Recast.Proofs.Tree.Spans
import Recast.Proofs.Tree.Splicing
import Recast.Proofs.Tree.Tagging
import Recast.Proofs.Tree.Tracking
import Recast.Proofs.Types.Implementing
import Recast.Proofs.Types.Inferring
import Recast.Proofs.Types.Naming
import Recast.Proofs.Types.Overriding
import Recast.Proofs.Types.Reaching
