import WordLang.Main
import WordLang.Proofs.Lowering.Steps
import WordLang.Tree.Build
import WordLang.Tree.Listing
import WordLang.Proofs.Lowering.Chains
import WordLang.Proofs.Lowering.Soundness
import WordLang.Proofs.Resolution.Scoping
import WordLang.Proofs.Typing.Clean
import WordLang.Proofs.Lowering.Totality
import WordLang.Proofs.Program.Walks
import WordLang.Proofs.Asm.Completeness
import WordLang.Proofs.Pipeline
import WordLang.Proofs.Semantics.Run
import WordLang.Proofs.Semantics.World
import WordLang.Proofs.Semantics.Source
import WordLang.Proofs.Semantics.Graph
import WordLang.Proofs.Semantics.Tracking
import WordLang.Proofs.Simulation.Placement
import WordLang.Proofs.Simulation.Expressions
import WordLang.Proofs.Lowering.Locals
import WordLang.Proofs.Lowering.Bodies
import WordLang.Proofs.Simulation.Statements
import WordLang.Proofs.Simulation.Functions
import WordLang.Proofs.Preservation
import WordLang.Proofs.Semantics.Refinement
import WordLang.Proofs.Asm.Machine
import WordLang.Proofs.Asm.Arithmetic
import WordLang.Proofs.Asm.Stack
import WordLang.Proofs.Asm.Activation
import WordLang.Proofs.Asm.Blocks
import WordLang.Proofs.Asm.Calls
import WordLang.Proofs.Asm.Lines
import WordLang.Proofs.Asm.Control
import WordLang.Proofs.Asm.Execution
import WordLang.Proofs.Asm.Entry
import WordLang.Proofs.Asm.Fidelity
import WordLang.Proofs.Asm.Sufficiency
import WordLang.Proofs.Resolution.Lexical
import WordLang.Proofs.Typing.Equivalence
import WordLang.Proofs.Typing.Rules
import WordLang.Proofs.Typing.Exactness
import WordLang.Proofs.Program.Reach
import WordLang.Proofs.Lowering.Ends
import WordLang.Proofs.Lowering.Ways
import WordLang.Proofs.Coverage
import WordLang.Proofs.Asm.Convention
import WordLang.Proofs.Asm.Slots
import WordLang.Proofs.Lowering.Values
import WordLang.Proofs.Lowering.Faults
import WordLang.Proofs.Lowering.References
import WordLang.Proofs.Lowering.Places
import WordLang.Proofs.Asm.Names
import WordLang.Proofs.Resolution.Declarations
import WordLang.Proofs.Linkage
import WordLang.Proofs.Resolution.History
import WordLang.Proofs.Relabelling.Basic
import WordLang.Proofs.Relabelling.Resolution
import WordLang.Proofs.Relabelling.Typing
import WordLang.Proofs.Relabelling.Lowering
import WordLang.Proofs.Slots
import WordLang.Proofs.Relabelling.Assembly
import WordLang.Proofs.LocalNames
import WordLang.Proofs.Asm.Labels
import WordLang.Proofs.Asm.Reading
import WordLang.Proofs.Resolution.Spelling
import WordLang.Proofs.WellLinked
import WordLang.Proofs.Program.Schedule
import WordLang.Proofs.Format.Writing
import WordLang.Proofs.Format.Reading
import WordLang.Proofs.CommandLine
import WordLang.Proofs.Asm.Writing
import WordLang.Proofs.Asm.Streams
import WordLang.Proofs.Streaming
import WordLang.Proofs.Program.Ready
import WordLang.Proofs.Lowering.Ready
import WordLang.Proofs.Rearrangement.Basic
import WordLang.Proofs.Rearrangement.Assembly
import WordLang.Proofs.Typing.Reports
import WordLang.Proofs.Asm.Sinks
import WordLang.Proofs.Typing.Wording
import WordLang.Proofs.Lowering.Enclosure
import WordLang.Proofs.ClosedChains
import WordLang.Proofs.Lowering.Registers
import WordLang.Proofs.FrameSize
