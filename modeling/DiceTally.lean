import DiceTally.Condition.Eval
import DiceTally.Main
import DiceTally.Proofs.Chart.Bars
import DiceTally.Proofs.Chart.Columns
import DiceTally.Proofs.Combination
import DiceTally.Proofs.CommandLine.Brackets
import DiceTally.Proofs.CommandLine.Tuning
import DiceTally.Proofs.Condition.Sentence
import DiceTally.Proofs.Condition.Truth
import DiceTally.Proofs.Dice.Dealing
import DiceTally.Proofs.Dice.Progressions
import DiceTally.Proofs.Dice.Schemes
import DiceTally.Proofs.ImageMeasure
import DiceTally.Proofs.Keys
import DiceTally.Proofs.Loading
import DiceTally.Proofs.Operation.Blocks
import DiceTally.Proofs.Operation.Faults
import DiceTally.Proofs.Operation.Guards
import DiceTally.Proofs.Operation.Inlining
import DiceTally.Proofs.Operation.Lengths
import DiceTally.Proofs.Operation.Misses
import DiceTally.Proofs.Operation.Pools
import DiceTally.Proofs.Operation.Positions
import DiceTally.Proofs.Operation.Reentry
import DiceTally.Proofs.Operation.Sharing
import DiceTally.Proofs.Operation.Stages
import DiceTally.Proofs.Outcome.Positivity
import DiceTally.Proofs.Outcome.Simulation
import DiceTally.Proofs.Pipeline.Chain
import DiceTally.Proofs.Pipeline.Extension
import DiceTally.Proofs.Pipeline.Numbering
import DiceTally.Proofs.Pipeline.Spelling
import DiceTally.Proofs.Reciprocals
import DiceTally.Proofs.Registration
import DiceTally.Proofs.Reordering
import DiceTally.Proofs.WholeCounts
