import TileSched.Search.Searcher
/-!
States of the merge search. A state is a tile graph reached by a sequence of merges, named by
its dotted position (`.1.2` is the second child of the first child of the start). Its actions
are the graph's candidate merges, tried in their sorted order and each once. Its value is the
summed objective of its solved trees as a double, infinite when some tree cannot be solved; the
graph is solved once, the state keeps the solution, and a solved state writes it to its own dump
directory.
-/
namespace TileSched

/-- What every state of one search shares: the target, the budget of each tree solve and the
dump scope. -/
structure SearchSetting where
  target : Target
  budget : Budget
  dump : DumpScope := {}
  deriving Inhabited

structure MergeState where
  /-- What every state of the search shares. -/
  setting : SearchSetting
  graph : TileGraph
  /-- Dotted position in the search. -/
  path : String
  mergePoints : List MergePoint
  /-- Positions in `mergePoints` not yet tried. -/
  untried : List Nat
  /-- Actions taken so far; the next child's path ends in this count. -/
  performed : Nat := 0
  /-- Whether the state has been valued. -/
  rolled : Bool := false
  solution : Option GraphSolution := none
  deriving Inhabited

namespace MergeState

def source : String := "tileopt::mcts::state"

def start (setting : SearchSetting) (graph : TileGraph) (path : String) : Work MergeState := do
  let mps ← Work.lift graph.mergePoints
  return { setting, graph, path, mergePoints := mps, untried := List.range mps.length }

def legalActions (s : MergeState) : Nat := s.untried.length

def nextAction (s : MergeState) (index : Nat) : Option (MergePoint × MergeState) := do
  let k ← s.untried[index]?
  let mp ← s.mergePoints[k]?
  return (mp, { s with untried := s.untried.eraseIdx index, performed := s.performed + 1 })

def perform (s : MergeState) (mp : MergePoint) : Work (Option MergeState) := do
  match s.graph.merge mp with
  | .ok g => some <$> start s.setting g (s.path ++ "." ++ toString s.performed)
  | .error e =>
    if e.isRecoverable then
      Work.note .debug source ("merge " ++ mp.render ++ " rejected: " ++ e.message)
      return none
    else throw e

def dumpRollout (s : MergeState) (sol : GraphSolution) : Work Unit := do
  let scope := s.setting.dump.nested ("RollOut" ++ s.path)
  if !scope.isEnabled then return
  let written ← do
    match ← Work.dump scope "solution.json" (sol.toJson.pretty 0) with
    | .error e => pure (Except.error e)
    | .ok () => Work.dump scope "trees.txt" (← Work.lift (liftFault sol.render))
  match written with
  | .error e =>
    Work.note .warn source ("failed to dump rollout " ++ s.path ++ ": " ++ (Error.io e.message).message)
  | .ok () => pure ()

def worth : Option GraphSolution → Double
  | some sol => .ofInt sol.objective
  | none => .infinity

def value (s : MergeState) : Option Float := if s.rolled then some (worth s.solution).toFloat else none

def rollOut (s : MergeState) : Work (Double × MergeState) := do
  if s.rolled then return (worth s.solution, s)
  match ← Work.attempt (solveGraph s.graph s.setting.target s.setting.budget) with
  | .ok sol =>
    Work.note .debug source ("rollout" ++ s.path ++ " objective " ++ toString sol.objective)
    dumpRollout s sol
    return (worth (some sol), { s with rolled := true, solution := some sol })
  | .error e =>
    if e.isRecoverable then
      Work.note .debug source ("rollout" ++ s.path ++ " infeasible: " ++ e.message)
      return (worth none, { s with rolled := true })
    else throw e

instance : EnvironmentState MergeState MergePoint where
  legalActions := legalActions
  nextAction := nextAction
  perform := perform
  rollOut := rollOut

end MergeState

end TileSched
