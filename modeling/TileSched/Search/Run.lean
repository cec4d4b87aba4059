import TileSched.Search.State
import TileSched.Config
/-!
The merge search as a whole: from a dataflow graph, a target and the run's settings, search merge
sequences, dump the search tree, and give the best graph found with its solution, the merges
that reach it and the objective of the unmerged graph for comparison.
-/
namespace TileSched

structure ScheduleOutcome where
  graph : TileGraph
  solution : GraphSolution
  /-- The merges applied to reach `graph`. -/
  merges : List MergePoint
  /-- The objective of the unmerged graph, if it could be solved. -/
  baseline : Option Int
  rollouts : Nat
  /-- Distinct tree shapes solved. -/
  solvedShapes : Nat
  deriving Inhabited

def searchSource : String := "tileopt::mcts"

/-- The searcher before any iteration: the graph checked against the target, its tile graph
as the root state, a fresh cache. -/
def prepareSearch (g : Dataflow) (target : Target) (config : SchedulerConfig) (setting : SearchSetting) :
    Work (Searcher MergeState MergePoint) := do
  Work.lift (target.validateFor g)
  let tg ← TileGraph.build g target.topLevel
  modify fun w => { w with cache := {} }
  let root ← MergeState.start setting tg ""
  return (Searcher.new root config.seed).withExploration config.exploration config.temperature

/-- The number of actions the root offers at first, and the searcher after `iterations`
iterations with nothing dumped. -/
def exploreMerges (g : Dataflow) (target : Target) (config : SchedulerConfig) (iterations : Nat) :
    Work (Nat × Searcher MergeState MergePoint) := do
  let s ← prepareSearch g target config ⟨target, config.solverBudget, {}⟩
  let root := (s.nodes[0]?.map (·.state.legalActions)).getD 0
  return (root, (← (Searcher.search iterations).run s).2)

/-- Runs the merge search for the configured iterations (at least one) and gives the best
graph found. -/
def runSearch (g : Dataflow) (target : Target) (config : SchedulerConfig) : Work ScheduleOutcome := do
  let dump : DumpScope := ⟨config.dumpDir.map FilePath.ofName⟩
  let s ← prepareSearch g target config ⟨target, config.solverBudget, dump⟩
  let (_, s) ← (Searcher.search (max config.searchIterations 1)).run s
  if let .error e ← Work.dump dump "search_tree.json" (s.dump.pretty 0) then
    Work.note .warn searchSource ("failed to dump search tree: " ++ (Error.io e.message).message)
  let some best := s.bestNode? | throw (.noFeasibleTree s.rollouts)
  let some node := s.nodes[best]? | throw (.fault (.index s.nodes.size best))
  let some solution := node.state.solution | throw (.noFeasibleTree s.rollouts)
  let baseline := (s.nodes[0]?.bind (·.state.solution)).map (·.objective)
  let merges := s.path best
  let shapes := (← get).cache.len
  Work.note .info searchSource ("best objective " ++ toString solution.objective ++ " after " ++
    toString merges.length ++ " merges (" ++ toString s.rollouts ++ " rollouts, " ++ toString shapes ++
    " shapes solved, baseline " ++ SchedulerConfig.optionText toString baseline ++ ")")
  return ⟨node.state.graph, solution, merges, baseline, s.rollouts, shapes⟩

end TileSched
