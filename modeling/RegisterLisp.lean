import RegisterLisp.Assembly.Line
import RegisterLisp.Assembly.Listing
import RegisterLisp.Atom
import RegisterLisp.CommandLine
import RegisterLisp.Compiler
import RegisterLisp.Label
import RegisterLisp.Log
import RegisterLisp.Lowering
import RegisterLisp.Lowering.Code
import RegisterLisp.Lowering.State
import RegisterLisp.Main
import RegisterLisp.Number.Format
import RegisterLisp.Number.Parse
import RegisterLisp.Number.Shortest
import RegisterLisp.Number.Word
import RegisterLisp.Operator
import RegisterLisp.Reduction.Access
import RegisterLisp.Reduction.Definitions
import RegisterLisp.Reduction.Operators
import RegisterLisp.Reduction.Rules
import RegisterLisp.Register
import RegisterLisp.Register.File
import RegisterLisp.Register.Script
import RegisterLisp.Scopes
import RegisterLisp.Shape
import RegisterLisp.Store
import RegisterLisp.Store.Code
import RegisterLisp.Store.Normal
import RegisterLisp.Symbol
import RegisterLisp.Term
import RegisterLisp.Term.Normal
import RegisterLisp.Term.Outline
import RegisterLisp.Term.Parser
import RegisterLisp.Term.Reading
import RegisterLisp.Term.Token
import RegisterLisp.Text.Blank
import RegisterLisp.Text.Control
import RegisterLisp.Text.Lines
import RegisterLisp.Text.Printable
import RegisterLisp.Text.Quoted
import RegisterLisp.Proofs.Lowering.Frame
import RegisterLisp.Proofs.Lowering.Restoration
import RegisterLisp.Proofs.Lowering.Emission
import RegisterLisp.Proofs.Lowering.TermEmission
import RegisterLisp.Proofs.Evaluation
import RegisterLisp.Proofs.Simulation.Basic
import RegisterLisp.Proofs.Simulation.Operators
import RegisterLisp.Proofs.Simulation.Calls
import RegisterLisp.Proofs.Simulation.Correctness
import RegisterLisp.Proofs.Simulation.Functions
import RegisterLisp.Proofs.Reduction.Folding
import RegisterLisp.Proofs.Normalization
import RegisterLisp.Proofs.Number.Packing
import RegisterLisp.Proofs.Number.Scientific
import RegisterLisp.Proofs.Number.ShortestDecimal
import RegisterLisp.Proofs.Number.Layout
import RegisterLisp.Proofs.Reading.Readable
import RegisterLisp.Proofs.Reading.Printed
import RegisterLisp.Proofs.Reading.RoundTrip
import RegisterLisp.Proofs.Reduction.Arithmetic
import RegisterLisp.Proofs.Reduction.Conditions
import RegisterLisp.Proofs.Reduction.Naturality
import RegisterLisp.Proofs.Settling
import RegisterLisp.Proofs.Store.Layout
import RegisterLisp.Proofs.Store.Parts
import RegisterLisp.Proofs.Store.Steps
import RegisterLisp.Proofs.Store.Reduction
import RegisterLisp.Proofs.Store.Copies
import RegisterLisp.Proofs.Store.Sharing
import RegisterLisp.Proofs.Lowering.Arity
import RegisterLisp.Proofs.Recognition
import RegisterLisp.Proofs.Binders
import RegisterLisp.Proofs.Lowering.Room
import RegisterLisp.Proofs.Simulation.Connectives
import RegisterLisp.Proofs.Simulation.Conditions
import RegisterLisp.Proofs.Lowering.Truncation
import RegisterLisp.Proofs.Lowering.Isolation
import RegisterLisp.Proofs.Store.Quotes
import RegisterLisp.Proofs.Lowering.Extents
import RegisterLisp.Proofs.Lowering.LabelSoundness
import RegisterLisp.Proofs.Lowering.LaidCode
import RegisterLisp.Proofs.Register.Scripts
import RegisterLisp.Proofs.Reading.Grammar
import RegisterLisp.Proofs.Reading.Parsers
import RegisterLisp.Proofs.FoldedSource
import RegisterLisp.Proofs.Lowering.Arrangement
import RegisterLisp.Proofs.Lowering.NestedFunctions
import RegisterLisp.Proofs.Store.Linking
import RegisterLisp.Proofs.Store.Orderly
import RegisterLisp.Proofs.Store.Termination
import RegisterLisp.Proofs.Lowering.Metering
import RegisterLisp.Proofs.Lowering.Needs
import RegisterLisp.Proofs.Lowering.Temporaries
import RegisterLisp.Proofs.Lowering.CallingConvention
import RegisterLisp.Proofs.Register.Allocation
import RegisterLisp.Proofs.ScopeRuns
import RegisterLisp.Proofs.Assembly.Spelling
import RegisterLisp.Proofs.Number.Immediate
import RegisterLisp.Proofs.Text.Unquoting
import RegisterLisp.Proofs.Assembly.Words
import RegisterLisp.Proofs.Assembly.Reading
import RegisterLisp.Proofs.Names
import RegisterLisp.Proofs.Assembly.Recovery
import RegisterLisp.Proofs.Assembly.LabelSupply
import RegisterLisp.Proofs.Assembly.Comments
import RegisterLisp.Proofs.Register.FiniteSets
import RegisterLisp.Proofs.Number.Whole
import RegisterLisp.Proofs.Number.Bits
import RegisterLisp.Proofs.Reduction.Bitwise
