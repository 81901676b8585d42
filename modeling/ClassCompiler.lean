import ClassCompiler.Text.Segments
import ClassCompiler.Text.Blank
import ClassCompiler.Text.Quoted
import ClassCompiler.Json.Parser
import ClassCompiler.Json.Printer
import ClassCompiler.Source.Shape
import ClassCompiler.Source.Decode
import ClassCompiler.Member.Signature
import ClassCompiler.Symbol
import ClassCompiler.Source.Outline
import ClassCompiler.Source.Detail
import ClassCompiler.Check
import ClassCompiler.Dispatch.Build
import ClassCompiler.Dispatch.Codec
import ClassCompiler.Assembly.Listing
import ClassCompiler.Codegen.Unit
import ClassCompiler.Output.Compile
import ClassCompiler.Command.Run
import ClassCompiler.Main
import ClassCompiler.Proofs.Codegen.Machine
import ClassCompiler.Proofs.Codegen.Meaning
import ClassCompiler.Proofs.Codegen.Bindings
import ClassCompiler.Proofs.Codegen.Generated
import ClassCompiler.Proofs.Codegen.Activation
import ClassCompiler.Proofs.Codegen.Operators
import ClassCompiler.Proofs.Codegen.ExprRuns
import ClassCompiler.Proofs.Codegen.StmtRuns
import ClassCompiler.Proofs.Codegen.RoutineRuns
import ClassCompiler.Proofs.Codegen.Points
import ClassCompiler.Proofs.Hierarchy.Sound
import ClassCompiler.Proofs.Hierarchy.Declared
import ClassCompiler.Proofs.Hierarchy.Agreement
import ClassCompiler.Proofs.Hierarchy.ByName
import ClassCompiler.Proofs.Hierarchy.OrderFree
import ClassCompiler.Proofs.Hierarchy.Orders
import ClassCompiler.Proofs.Dispatch.Superclasses
import ClassCompiler.Proofs.Dispatch.Subtypes
import ClassCompiler.Proofs.Dispatch.Vtables
import ClassCompiler.Proofs.Dispatch.Overriding
import ClassCompiler.Proofs.Dispatch.Selector
import ClassCompiler.Proofs.Dispatch.Renumbering
import ClassCompiler.Proofs.Text.Names
import ClassCompiler.Proofs.Symbol.Mangling
import ClassCompiler.Proofs.Codegen.Linkage
import ClassCompiler.Proofs.Codegen.Declarations
import ClassCompiler.Proofs.Codegen.UnitSymbols
import ClassCompiler.Proofs.Codegen.Linking
import ClassCompiler.Proofs.Output.Files
import ClassCompiler.Proofs.Source.Forms
import ClassCompiler.Proofs.Source.Readers
import ClassCompiler.Proofs.Json.Text
import ClassCompiler.Proofs.Source.RoundTrip
import ClassCompiler.Proofs.Codegen.Discipline
import ClassCompiler.Proofs.Codegen.Allocation
import ClassCompiler.Proofs.Codegen.TableRuns
import ClassCompiler.Proofs.Codegen.Initialisers
import ClassCompiler.Proofs.Hierarchy.Violations
import ClassCompiler.Proofs.Hierarchy.Visibility
import ClassCompiler.Proofs.Source.Parts
import ClassCompiler.Proofs.Source.SelfReferences
import ClassCompiler.Proofs.Codegen.Constructs
import ClassCompiler.Proofs.Codegen.Supported
import ClassCompiler.Proofs.Codegen.Lines
import ClassCompiler.Proofs.Output.Runs
import ClassCompiler.Proofs.Dispatch.Chains
import ClassCompiler.Proofs.Codegen.Jumps
import ClassCompiler.Proofs.Codegen.Relabelling
import ClassCompiler.Proofs.Codegen.Comments
import ClassCompiler.Proofs.Source.Walks
import ClassCompiler.Proofs.Source.Positions
import ClassCompiler.Proofs.Codegen.Variables
