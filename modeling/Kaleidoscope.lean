import Kaleidoscope.Main
import Kaleidoscope.Syntax.Printer
import Kaleidoscope.Proofs.Lowering.Scopes
import Kaleidoscope.Proofs.Ssa.Growth
import Kaleidoscope.Proofs.Lowering.Growth
import Kaleidoscope.Proofs.Evaluation
import Kaleidoscope.Proofs.Number.Order
import Kaleidoscope.Proofs.Correctness.Realization
import Kaleidoscope.Proofs.Correctness.Layout
import Kaleidoscope.Proofs.Correctness.Position
import Kaleidoscope.Proofs.Correctness.Agreement
import Kaleidoscope.Proofs.Correctness.Expressions
import Kaleidoscope.Proofs.Correctness.Functions
import Kaleidoscope.Proofs.Correctness.Programs
import Kaleidoscope.Proofs.Parser.Reading
import Kaleidoscope.Proofs.Parser.Steps
import Kaleidoscope.Proofs.Parser.Soundness
import Kaleidoscope.Proofs.Parser.Completeness
import Kaleidoscope.Proofs.Compiler.Operators
import Kaleidoscope.Proofs.Parser.Statements
import Kaleidoscope.Proofs.Parser.Locality
import Kaleidoscope.Proofs.Parser.Continuation
import Kaleidoscope.Proofs.Token.Words
import Kaleidoscope.Proofs.Token.Splitting
import Kaleidoscope.Proofs.Token.Accounting
import Kaleidoscope.Proofs.Session.Consistency
import Kaleidoscope.Proofs.Session.Splitting
import Kaleidoscope.Proofs.Console.Dialogue
import Kaleidoscope.Proofs.Parser.Callees
import Kaleidoscope.Proofs.Lowering.Calls
import Kaleidoscope.Proofs.Correctness.Failures
import Kaleidoscope.Proofs.Compiler.Linking
import Kaleidoscope.Proofs.Session.Safety
import Kaleidoscope.Proofs.Ssa.ControlFlow
import Kaleidoscope.Proofs.Ssa.Labels
import Kaleidoscope.Proofs.Ssa.WellFormed
import Kaleidoscope.Proofs.Ssa.Regions
import Kaleidoscope.Proofs.Ssa.Names
import Kaleidoscope.Proofs.Ssa.Histories
import Kaleidoscope.Proofs.Ssa.Notation
import Kaleidoscope.Proofs.Ssa.Listing
import Kaleidoscope.Proofs.Ssa.Clarity
import Kaleidoscope.Proofs.Lowering.Soundness
import Kaleidoscope.Proofs.Lowering.Constructs
import Kaleidoscope.Proofs.Lowering.WellFormed
import Kaleidoscope.Proofs.Parser.Segments
import Kaleidoscope.Proofs.Session.Segments
import Kaleidoscope.Proofs.Lowering.Declarations
import Kaleidoscope.Proofs.Compiler.Effects
import Kaleidoscope.Proofs.Machine.Registers
import Kaleidoscope.Proofs.Machine.Recursion
import Kaleidoscope.Proofs.Machine.Refinement
import Kaleidoscope.Proofs.Machine.Waiting
import Kaleidoscope.Proofs.Ssa.Runnable
import Kaleidoscope.Proofs.Machine.Faultless
import Kaleidoscope.Proofs.Session.Execution
import Kaleidoscope.Proofs.Source.Places
import Kaleidoscope.Proofs.Token.Positions
import Kaleidoscope.Proofs.Session.Diagnostics
import Kaleidoscope.Proofs.Machine.Phis
import Kaleidoscope.Proofs.Machine.Reordering
import Kaleidoscope.Proofs.Machine.Untangled
import Kaleidoscope.Proofs.Lowering.Validity
import Kaleidoscope.Proofs.Lowering.Faults
import Kaleidoscope.Proofs.Machine.Depth
import Kaleidoscope.Proofs.Syntax.Parentheses
import Kaleidoscope.Proofs.Parser.Sentences
import Kaleidoscope.Proofs.Session.Parentheses
import Kaleidoscope.Proofs.Compiler.Lookups
import Kaleidoscope.Proofs.Compiler.Signatures
import Kaleidoscope.Proofs.Lowering.Arities
import Kaleidoscope.Proofs.Compiler.Ordering
import Kaleidoscope.Proofs.Number.Decimals
import Kaleidoscope.Proofs.Number.Rounding
import Kaleidoscope.Proofs.Text.Runs
import Kaleidoscope.Proofs.Syntax.Unambiguity
import Kaleidoscope.Proofs.Lowering.Legibility
import Kaleidoscope.Proofs.Parser.Legibility
import Kaleidoscope.Proofs.Compiler.Listings
import Kaleidoscope.Proofs.Parser.Readers
import Kaleidoscope.Proofs.Parser.Lookahead
import Kaleidoscope.Proofs.Token.Slices
import Kaleidoscope.Proofs.Parser.Spans
import Kaleidoscope.Proofs.Parser.Viability
import Kaleidoscope.Proofs.Parser.FirstError
import Kaleidoscope.Proofs.Source.Coordinates
import Kaleidoscope.Proofs.Ssa.Arrivals
