import PassCompiler.Compile.Tree
import PassCompiler.Main
import PassCompiler.Proofs.Banner
import PassCompiler.Proofs.Compile.Mirror
import PassCompiler.Proofs.Emission.Baking
import PassCompiler.Proofs.Pass.Comments
import PassCompiler.Proofs.Pass.Concatenation
import PassCompiler.Proofs.Pass.FixedBlocks
import PassCompiler.Proofs.Pass.Grammar.Pass
import PassCompiler.Proofs.Pass.Clauses
import PassCompiler.Proofs.Pass.StrayTerminators
import PassCompiler.Proofs.Recording.Retarget
import PassCompiler.Proofs.Compile.Sources
import PassCompiler.Proofs.Compile.Again
import PassCompiler.Proofs.Source.NearMiss
import PassCompiler.Proofs.Emission.Names
import PassCompiler.Proofs.Emission.Parameters
import PassCompiler.Proofs.Pass.Argument.Entries
import PassCompiler.Proofs.CommandLine.Run
import PassCompiler.Proofs.Recording.Partition
import PassCompiler.Proofs.Recording.Candidate
import PassCompiler.Proofs.Emission.BakeParameters
import PassCompiler.Proofs.Emission.FixedArguments
import PassCompiler.Proofs.Emission.Independence
import PassCompiler.Proofs.Recording.Tokens
import PassCompiler.Proofs.Source.Decomposition
import PassCompiler.Proofs.Source.FirstMatch
import PassCompiler.Proofs.Pass.Argument.Uncommented
import PassCompiler.Proofs.Pass.FirstFault
import PassCompiler.Proofs.Pass.Readers
import PassCompiler.Proofs.Source.Matching
import PassCompiler.Proofs.Settings.Table
import PassCompiler.Proofs.Settings.Manifest
import PassCompiler.Proofs.Source.Position
