import PegCompiler.Files.Tree
import PegCompiler.Main
import PegCompiler.Run.Parser
import PegCompiler.Proofs.Analysis.Consuming
import PegCompiler.Proofs.Analysis.Inference
import PegCompiler.Proofs.Analysis.Marks
import PegCompiler.Proofs.Check.Acceptance
import PegCompiler.Proofs.Check.Accepted
import PegCompiler.Proofs.Check.Transfer
import PegCompiler.Proofs.Code.Encoding
import PegCompiler.Proofs.Code.Lowered
import PegCompiler.Proofs.Code.Lowering
import PegCompiler.Proofs.Run.Agreement
import PegCompiler.Proofs.Run.Evaluation
import PegCompiler.Proofs.Run.Correctness
import PegCompiler.Proofs.Run.Records
import PegCompiler.Proofs.Compile.Generation
import PegCompiler.Proofs.Emit.Balance
import PegCompiler.Proofs.Run.Diagnostics
import PegCompiler.Proofs.Run.Expectations
import PegCompiler.Proofs.Run.Foresight
import PegCompiler.Proofs.Proxy.Resolution
import PegCompiler.Proofs.Run.Thorough
import PegCompiler.Proofs.Run.Bearings
import PegCompiler.Proofs.Run.CharClass
import PegCompiler.Proofs.Emit.ClassPattern
import PegCompiler.Proofs.Compile.Discipline
import PegCompiler.Proofs.Run.Forward
import PegCompiler.Proofs.Check.LeftRecursion
import PegCompiler.Proofs.Analysis.Fixpoint
import PegCompiler.Proofs.Analysis.Exposure
import PegCompiler.Proofs.Analysis.Settling
import PegCompiler.Proofs.Check.LabelScopes
import PegCompiler.Proofs.Run.IgnoredCase
import PegCompiler.Proofs.Grammar.CodeBlocks
import PegCompiler.Proofs.Grammar.Joining
import PegCompiler.Proofs.Grammar.Locations
import PegCompiler.Proofs.Grammar.Descriptions
import PegCompiler.Proofs.Code.Rebuilding
import PegCompiler.Proofs.Compile.Constants
import PegCompiler.Proofs.Emit.UserCode
import PegCompiler.Proofs.Run.Positions
import PegCompiler.Proofs.Run.Tracing
import PegCompiler.Proofs.CommandLine.Overriding
import PegCompiler.Proofs.CommandLine.ExitCodes
import PegCompiler.Proofs.Emit.Jumps
import PegCompiler.Proofs.Emit.Walking
import PegCompiler.Proofs.Run.Loading
