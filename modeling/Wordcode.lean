import Wordcode.InstructionSet.Tables
import Wordcode.Constant.Text
import Wordcode.Constant.Reading
import Wordcode.Pool.Growth
import Wordcode.Pool.Indexed
import Wordcode.CodeObject
import Wordcode.LineTable
import Wordcode.Hex
import Wordcode.Graph.Predecessors
import Wordcode.Graph.Splice
import Wordcode.Graph.Copy
import Wordcode.Stream
import Wordcode.Region
import Wordcode.Layout
import Wordcode.Relaxation
import Wordcode.Region.Flatten
import Wordcode.Assembly
import Wordcode.Simplify
import Wordcode.StackDepth
import Wordcode.CodeUnit
import Wordcode.Dump
import Wordcode.CommandLine
import Wordcode.Main
import Wordcode.Proofs.BuiltIn
import Wordcode.Proofs.Reachability
import Wordcode.Proofs.SameCode
import Wordcode.Proofs.Detours
import Wordcode.Proofs.Layout
import Wordcode.Proofs.SkipTrivial
import Wordcode.Proofs.Simplify
import Wordcode.Proofs.Reading
import Wordcode.Proofs.Relaxation
import Wordcode.Proofs.Emission
import Wordcode.Proofs.Widening
import Wordcode.Proofs.Numbering
import Wordcode.Proofs.Emits
import Wordcode.Proofs.InOrder
import Wordcode.Proofs.ReadBack
import Wordcode.Proofs.LineTable
import Wordcode.Proofs.Unedited
import Wordcode.Proofs.Standing
import Wordcode.Proofs.Opened
import Wordcode.Proofs.RoundTrip
import Wordcode.Proofs.Consistency
import Wordcode.Proofs.DepthWalk
import Wordcode.Proofs.Narrowing
import Wordcode.Proofs.Rereading
import Wordcode.Proofs.Reencoding
import Wordcode.Proofs.Predecessors
import Wordcode.Proofs.Producers
import Wordcode.Proofs.Consumers
import Wordcode.Proofs.Closing
import Wordcode.Proofs.Writing
import Wordcode.Proofs.BlockBalance
import Wordcode.Proofs.NestedRegions
import Wordcode.Proofs.Encoded
import Wordcode.Proofs.EmittedLines
import Wordcode.Proofs.LaidAgain
import Wordcode.Proofs.EncodeTwice
import Wordcode.Proofs.BackwardJumps
import Wordcode.Proofs.EmittedBlocks
import Wordcode.Proofs.ProtectedSpan
import Wordcode.Proofs.StackDepth
import Wordcode.Proofs.LineLookup
import Wordcode.Proofs.OptimiseTwice
import Wordcode.Proofs.RegionSearch
import Wordcode.Proofs.FlagBits
import Wordcode.Proofs.PackedOperands
import Wordcode.Proofs.Interning
import Wordcode.Proofs.CellPlaces
import Wordcode.Proofs.Gathering
import Wordcode.Proofs.Removal
import Wordcode.Proofs.Copies
import Wordcode.Proofs.IndexCache
import Wordcode.Proofs.ConstantText
import Wordcode.Proofs.HexDigits
import Wordcode.Proofs.ExtensionDigits
import Wordcode.Proofs.Splicing
