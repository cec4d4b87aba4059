import TileSched.Affine.Expr
import TileSched.Affine.Map
import TileSched.Cli.Args
import TileSched.Cli.Help
import TileSched.Cli.Run
import TileSched.Config
import TileSched.Decimal.Shortest
import TileSched.Error
import TileSched.Fault
import TileSched.Fusion.Evaluate
import TileSched.Fusion.Merge
import TileSched.Fusion.TileGraph
import TileSched.Graph.Dataflow
import TileSched.Graph.Op
import TileSched.Json.Shape
import TileSched.Json.Text
import TileSched.Json.Value
import TileSched.Log
import TileSched.Main
import TileSched.Memory.Lifetime
import TileSched.Memory.Persistent
import TileSched.Proofs.Affine.Arithmetic
import TileSched.Proofs.Affine.Compose
import TileSched.Proofs.Affine.Plain
import TileSched.Proofs.Fusion.Cache
import TileSched.Proofs.Fusion.Candidates
import TileSched.Proofs.Fusion.Forest
import TileSched.Proofs.Fusion.InPlace
import TileSched.Proofs.Fusion.MergeStep
import TileSched.Proofs.Fusion.Merged
import TileSched.Proofs.Fusion.Relations
import TileSched.Proofs.Fusion.Wellformed
import TileSched.Proofs.Fusion.Work
import TileSched.Proofs.Json.Compact
import TileSched.Proofs.Memory.Constants
import TileSched.Proofs.Memory.FirstFit
import TileSched.Proofs.Results
import TileSched.Proofs.Schedule.Accounted
import TileSched.Proofs.Schedule.Aliasing
import TileSched.Proofs.Schedule.Capacity
import TileSched.Proofs.Schedule.DefUse
import TileSched.Proofs.Schedule.ExactCounts
import TileSched.Proofs.Schedule.ExactTiling
import TileSched.Proofs.Schedule.Extents
import TileSched.Proofs.Schedule.FirstPass
import TileSched.Proofs.Schedule.Held
import TileSched.Proofs.Schedule.Objective
import TileSched.Proofs.Schedule.Placement
import TileSched.Proofs.Schedule.Runs
import TileSched.Proofs.Schedule.Solved
import TileSched.Proofs.Schedule.Volume
import TileSched.Proofs.Search.Merges
import TileSched.Proofs.Search.Nodes
import TileSched.Proofs.Search.Outcome
import TileSched.Proofs.Search.Rounding
import TileSched.Proofs.Search.Runs
import TileSched.Proofs.Search.Tally
import TileSched.Proofs.Search.Tree
import TileSched.Proofs.Solver.Bound
import TileSched.Proofs.Solver.Builders
import TileSched.Proofs.Solver.Built
import TileSched.Proofs.Solver.Decisions
import TileSched.Proofs.Solver.Divisors
import TileSched.Proofs.Solver.Grows
import TileSched.Proofs.Solver.Interval
import TileSched.Proofs.Solver.Minimize
import TileSched.Proofs.Solver.Overflow
import TileSched.Proofs.Solver.Search
import TileSched.Proofs.Solver.Semantics
import TileSched.Proofs.Solver.Split
import TileSched.Proofs.Tree.Edits
import TileSched.Proofs.Tree.Extract
import TileSched.Proofs.Tree.Paths
import TileSched.Proofs.Tree.Subtree
import TileSched.Proofs.Tree.Walks
import TileSched.Random.ChaCha
import TileSched.Schedule.Init
import TileSched.Schedule.Memo
import TileSched.Schedule.Pass
import TileSched.Schedule.Solve
import TileSched.Schedule.Writes
import TileSched.Search.Run
import TileSched.Search.Searcher
import TileSched.Search.State
import TileSched.Search.Value
import TileSched.Solver.Model
import TileSched.Solver.Search
import TileSched.Storage.Files
import TileSched.Target
import TileSched.Text.Combining
import TileSched.Text.Printable
import TileSched.Text.Quoted
import TileSched.Tree.Basic
import TileSched.Tree.Codec
import TileSched.Tree.Render
