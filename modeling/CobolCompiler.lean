import CobolCompiler.Text.Blank
import CobolCompiler.Text.Printable
import CobolCompiler.Text.Quoted
import CobolCompiler.Text.Utf8
import CobolCompiler.Number.Numeral
import CobolCompiler.Number.FixedPoint
import CobolCompiler.Number.Binary64
import CobolCompiler.Number.Shortest
import CobolCompiler.Picture.Basic
import CobolCompiler.Picture.Reader
import CobolCompiler.Picture.Layout
import CobolCompiler.Source.Location
import CobolCompiler.Source.Span
import CobolCompiler.Source.Snippet
import CobolCompiler.Data.Usage
import CobolCompiler.Tree.Node
import CobolCompiler.Tree.Build
import CobolCompiler.Tree.Traversal
import CobolCompiler.Scope.Symbol
import CobolCompiler.Scope.Globals
import CobolCompiler.Report.Problem
import CobolCompiler.Report.Basic
import CobolCompiler.Machine.Module
import CobolCompiler.Machine.ValueOrder
import CobolCompiler.Machine.Listing
import CobolCompiler.Machine.Varint
import CobolCompiler.Machine.Codec
import CobolCompiler.Machine.Assembler
import CobolCompiler.FileStore
import CobolCompiler.Options
import CobolCompiler.Failure
import CobolCompiler.Pass.Schedule
import CobolCompiler.Pass.Bindings
import CobolCompiler.Pass.Journal
import CobolCompiler.Pass.Probe
import CobolCompiler.Pass.Basic
import CobolCompiler.Pass.Declaration
import CobolCompiler.Pass.CallSite
import CobolCompiler.Pass.Generation
import CobolCompiler.Pass.Core
import CobolCompiler.Session
import CobolCompiler.Proofs.SourcePositions
import CobolCompiler.Proofs.Grammar
import CobolCompiler.Proofs.Outcome
import CobolCompiler.Proofs.Walk
import CobolCompiler.Proofs.Syntax
import CobolCompiler.Proofs.Rewrite
import CobolCompiler.Proofs.DisplayLowering
import CobolCompiler.Proofs.NodeIdentity
import CobolCompiler.Proofs.Scope
import CobolCompiler.Proofs.LexicalScope
import CobolCompiler.Proofs.Standing
import CobolCompiler.Proofs.Reachable
import CobolCompiler.Proofs.Declaring
import CobolCompiler.Proofs.CallRules
import CobolCompiler.Proofs.CallPasses
import CobolCompiler.Proofs.CallAcceptance
import CobolCompiler.Proofs.Translation
import CobolCompiler.Proofs.Emission
import CobolCompiler.Proofs.Prototypes
import CobolCompiler.Proofs.Compilation
import CobolCompiler.Proofs.Safety
import CobolCompiler.Proofs.StackMachine
import CobolCompiler.Proofs.Verifier
import CobolCompiler.Proofs.Meaning
import CobolCompiler.Proofs.Preservation
import CobolCompiler.Proofs.Search
import CobolCompiler.Proofs.Scheduling
import CobolCompiler.Proofs.RegistrationOrder
import CobolCompiler.Proofs.ModuleFile
import CobolCompiler.Proofs.Nesting
import CobolCompiler.Proofs.Arena
import CobolCompiler.Proofs.FieldClauses
import CobolCompiler.Proofs.DefaultValues
import CobolCompiler.Proofs.Literals
import CobolCompiler.Proofs.InitialValues
import CobolCompiler.Proofs.FieldEntry
import CobolCompiler.Proofs.PictureRules
import CobolCompiler.Proofs.PictureText
import CobolCompiler.Proofs.PictureMerging
import CobolCompiler.Proofs.SideBySide
import CobolCompiler.Proofs.Growth
import CobolCompiler.Proofs.Twins
import CobolCompiler.Proofs.TwinCalls
import CobolCompiler.Proofs.TwinCode
import CobolCompiler.Proofs.TwinExports
import CobolCompiler.Proofs.SeparateCompilation
import CobolCompiler.Proofs.Recompilation
import CobolCompiler.Proofs.ScopeEffect
import CobolCompiler.Proofs.Undisturbed
import CobolCompiler.Proofs.Reexport
import CobolCompiler.Proofs.LeftAlone
import CobolCompiler.Proofs.ImportTable
import CobolCompiler.Proofs.Linking
import CobolCompiler.Proofs.Execution
import CobolCompiler.Proofs.CodeTyping
import CobolCompiler.Proofs.TypedTranslation
import CobolCompiler.Proofs.AcceptedTyping
import CobolCompiler.Proofs.TypeSoundness
import CobolCompiler.Proofs.Assembly
import CobolCompiler.Proofs.UsageNames
import CobolCompiler.Proofs.PendingModule
import CobolCompiler.Proofs.StableExports
import CobolCompiler.Proofs.ConstantPool
import CobolCompiler.Proofs.ModuleConstants
import CobolCompiler.Proofs.Frames
import CobolCompiler.Proofs.FloatLiterals
