import TinkaCompiler.Main
import TinkaCompiler.Proofs.BlockBalance
import TinkaCompiler.Proofs.BuildEffects
import TinkaCompiler.Proofs.CallingConvention
import TinkaCompiler.Proofs.Concatenation
import TinkaCompiler.Proofs.DeclaredNames
import TinkaCompiler.Proofs.Diagnostics
import TinkaCompiler.Proofs.DistinctLabels
import TinkaCompiler.Proofs.FunctionCells
import TinkaCompiler.Proofs.Grammar
import TinkaCompiler.Proofs.JoinedSources
import TinkaCompiler.Proofs.LabelSteps
import TinkaCompiler.Proofs.OperandCells
import TinkaCompiler.Proofs.Partition
import TinkaCompiler.Proofs.Positions
import TinkaCompiler.Proofs.PrintedLines
import TinkaCompiler.Proofs.ReachableStates
import TinkaCompiler.Proofs.Rejoining
import TinkaCompiler.Proofs.Renaming
import TinkaCompiler.Proofs.Renumbering
import TinkaCompiler.Proofs.Scope
import TinkaCompiler.Proofs.Simulation
import TinkaCompiler.Proofs.SourceOrder
import TinkaCompiler.Proofs.Spilling
import TinkaCompiler.Proofs.Stepwise
import TinkaCompiler.Proofs.VariableCells
import TinkaCompiler.Proofs.Verdicts
import TinkaCompiler.Proofs.WriteBack
import TinkaCompiler.Proofs.OperandWords
import TinkaCompiler.Proofs.OpenBlocks
