import PlatformOverlay.Check.Report
import PlatformOverlay.Check.Validate
import PlatformOverlay.CommandLine.Arguments
import PlatformOverlay.CommandLine.Program
import PlatformOverlay.Config.Problem
import PlatformOverlay.Config.Project
import PlatformOverlay.Config.Read
import PlatformOverlay.Decimal.Binary64
import PlatformOverlay.Failure
import PlatformOverlay.Files.Cause
import PlatformOverlay.Files.Change
import PlatformOverlay.Files.Store
import PlatformOverlay.Files.Tree
import PlatformOverlay.Imports.Repair
import PlatformOverlay.Imports.Shorten
import PlatformOverlay.Imports.Statement
import PlatformOverlay.Imports.Union
import PlatformOverlay.Java.Decl
import PlatformOverlay.Java.Erasure
import PlatformOverlay.Java.Lexer
import PlatformOverlay.Java.Modifier
import PlatformOverlay.Java.Parser.Basic
import PlatformOverlay.Java.Parser.Declaration
import PlatformOverlay.Java.Parser.Shape
import PlatformOverlay.Java.Printer
import PlatformOverlay.Java.Reindent
import PlatformOverlay.Java.Signature
import PlatformOverlay.Java.Source
import PlatformOverlay.Java.Token
import PlatformOverlay.Java.Word
import PlatformOverlay.Main
import PlatformOverlay.Mark
import PlatformOverlay.Merge.EmitSet
import PlatformOverlay.Merge.Graft
import PlatformOverlay.Merge.Pass
import PlatformOverlay.Merge.Run
import PlatformOverlay.Model.Cache
import PlatformOverlay.Model.CommonClasses
import PlatformOverlay.Model.Name
import PlatformOverlay.Model.Source
import PlatformOverlay.Model.Visit
import PlatformOverlay.Output.Tree
import PlatformOverlay.Path
import PlatformOverlay.Proofs.Check.Exactness
import PlatformOverlay.Proofs.Check.Merged
import PlatformOverlay.Proofs.Check.Report
import PlatformOverlay.Proofs.Check.Validate
import PlatformOverlay.Proofs.Imports.Body
import PlatformOverlay.Proofs.Imports.Capture
import PlatformOverlay.Proofs.Imports.Keyword
import PlatformOverlay.Proofs.Imports.LiteralLines
import PlatformOverlay.Proofs.Imports.LiteralNames
import PlatformOverlay.Proofs.Imports.Literals
import PlatformOverlay.Proofs.Imports.Package
import PlatformOverlay.Proofs.Imports.Qualified
import PlatformOverlay.Proofs.Imports.Repair
import PlatformOverlay.Proofs.Imports.Runs
import PlatformOverlay.Proofs.Imports.Shorten
import PlatformOverlay.Proofs.Imports.Stability
import PlatformOverlay.Proofs.Imports.Statement
import PlatformOverlay.Proofs.Imports.Union
import PlatformOverlay.Proofs.Java.Documented
import PlatformOverlay.Proofs.Java.Indexed.Safety
import PlatformOverlay.Proofs.Java.Literals
import PlatformOverlay.Proofs.Java.Lexing.Closing
import PlatformOverlay.Proofs.Java.Lexing.Cover
import PlatformOverlay.Proofs.Java.Lexing.Longest
import PlatformOverlay.Proofs.Java.Lexing.Spaced
import PlatformOverlay.Proofs.Java.Parser.Leaf
import PlatformOverlay.Proofs.Java.Parser.Part
import PlatformOverlay.Proofs.Java.Parser.Termination
import PlatformOverlay.Proofs.Java.Parser.WellFormed
import PlatformOverlay.Proofs.Java.Places
import PlatformOverlay.Proofs.Java.Printer.Layout
import PlatformOverlay.Proofs.Java.Printer.Printed
import PlatformOverlay.Proofs.Java.Printer.Sound
import PlatformOverlay.Proofs.Java.Reading.Content
import PlatformOverlay.Proofs.Java.Reading.Declaration
import PlatformOverlay.Proofs.Java.Reading.Declarators
import PlatformOverlay.Proofs.Java.Reading.Part
import PlatformOverlay.Proofs.Java.Reading.Unit
import PlatformOverlay.Proofs.Java.RoundTrip
import PlatformOverlay.Proofs.Merge.Agreement
import PlatformOverlay.Proofs.Merge.Files
import PlatformOverlay.Proofs.Merge.Graft
import PlatformOverlay.Proofs.Merge.Idempotence
import PlatformOverlay.Proofs.Merge.Marks
import PlatformOverlay.Proofs.Merge.Origin
import PlatformOverlay.Proofs.Merge.Overlay
import PlatformOverlay.Proofs.Merge.Pass
import PlatformOverlay.Proofs.Merge.Preservation
import PlatformOverlay.Proofs.Merge.Printed
import PlatformOverlay.Proofs.Merge.Recorded
import PlatformOverlay.Proofs.Merge.Settled
import PlatformOverlay.Proofs.Merge.Signatures
import PlatformOverlay.Proofs.Merge.Strip
import PlatformOverlay.Proofs.Merge.Touched
import PlatformOverlay.Proofs.Model.Classes
import PlatformOverlay.Proofs.Model.Identifiers
import PlatformOverlay.Proofs.Model.Independence
import PlatformOverlay.Proofs.Model.Visit
import PlatformOverlay.Proofs.Text.Blank
import PlatformOverlay.Proofs.Text.Lines
import PlatformOverlay.Text.Blank
import PlatformOverlay.Text.Lines
import PlatformOverlay.Text.Position
import PlatformOverlay.Text.Quoted
import PlatformOverlay.Text.WordChar
import PlatformOverlay.Toml.Document
import PlatformOverlay.Toml.Lexeme
import PlatformOverlay.Toml.Statement
import PlatformOverlay.Toml.Value
import PlatformOverlay.Workspace.Load
import PlatformOverlay.Workspace.Roots
import PlatformOverlay.Workspace.Run
import PlatformOverlay.Proofs.Files.Place
import PlatformOverlay.Proofs.Files.Operations
import PlatformOverlay.Proofs.Files.Frame
import PlatformOverlay.Proofs.Files.Listing
import PlatformOverlay.Proofs.Workspace.Load
import PlatformOverlay.Proofs.Workspace.Run
import PlatformOverlay.Proofs.Workspace.Frame
import PlatformOverlay.Proofs.Files.Effects
import PlatformOverlay.Proofs.Output.Placing
import PlatformOverlay.Proofs.Output.Lockstep
import PlatformOverlay.Proofs.Workspace.Targets
import PlatformOverlay.Proofs.Workspace.Rerun
import PlatformOverlay.Proofs.CommandLine.Modules
import PlatformOverlay.Proofs.Merge.Counterparts
import PlatformOverlay.Proofs.Output.Contents
import PlatformOverlay.Proofs.Workspace.Contents
import PlatformOverlay.Proofs.Merge.Order
import PlatformOverlay.Proofs.Java.Reindent.TextBlock
import PlatformOverlay.Proofs.Java.Erasure.Text
import PlatformOverlay.Proofs.Java.Erasure.Layout
import PlatformOverlay.Proofs.Java.Erasure.TypeParameters
import PlatformOverlay.Proofs.Java.Erasure.Renaming
import PlatformOverlay.Proofs.Java.Erasure.Header
import PlatformOverlay.Proofs.Imports.KeyedUnion
import PlatformOverlay.Proofs.Imports.Header
import PlatformOverlay.Proofs.Output.Blocks
import PlatformOverlay.Proofs.Workspace.Blocks
import PlatformOverlay.Proofs.Java.DeclaredImports
import PlatformOverlay.Proofs.Imports.Declaration
import PlatformOverlay.Proofs.Imports.Readers
import PlatformOverlay.Proofs.Merge.Supertypes
import PlatformOverlay.Proofs.Model.Traversal
import PlatformOverlay.Proofs.Text.LineTable
import PlatformOverlay.Proofs.Check.Grouping
