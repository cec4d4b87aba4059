import TileSched.Fusion.TileGraph
import TileSched.Schedule.Solve
import TileSched.Storage.Files
import TileSched.Memory.Persistent
/-!
Solving a whole tile graph: every top-level tree is solved and the objectives are summed.

Trees of one shape give one constraint model, so their solutions are kept by structural key
and shared. A tree that failed for a reason of its own is remembered as failed with the text of
that failure; asking again gives an infeasibility whose reason is that text. Failures that break
a rule of the scheduler are not remembered.

The work runs in `Work`: the cache, the records made so far and the files written stay with the
state when a step fails, so a caller sees what happened before the failure.
-/
namespace TileSched

inductive CachedSolve where
  | solved (s : SolvedTree)
  | failed (reason : String)
  deriving Inhabited

structure SolveCache where
  entries : List (String × CachedSolve) := []
  deriving Inhabited

def SolveCache.len (c : SolveCache) : Nat := c.entries.length

structure Workspace where
  cache : SolveCache := {}
  log : Array LogRecord := #[]
  files : FileTree := {}
  deriving Inhabited

abbrev Work := ExceptT Error (StateM Workspace)

namespace Work

def lift {α : Type} (r : Outcome α) : Work α :=
  match r with
  | .ok a => pure a
  | .error e => throw e

def attempt {α : Type} (w : Work α) : Work (Outcome α) :=
  tryCatch (Except.ok <$> w) fun e => pure (.error e)

def note (level : LogLevel) (source message : String) : Work Unit :=
  modify fun w => { w with log := w.log.push ⟨level, source, message⟩ }

def noteAll (records : Array LogRecord) : Work Unit :=
  modify fun w => { w with log := w.log ++ records }

def dump (d : DumpScope) (file text : String) : Work (Except IoFailure Unit) := do
  match d.write file text (← get).files with
  | .ok fs => modify (fun w => { w with files := fs }); return .ok ()
  | .error e => return .error e

end Work

def TileGraph.build (g : Dataflow) (top : Nat) : Work TileGraph := do
  let tg ← Work.lift (TileGraph.new g top)
  Work.note .debug "tileopt::graph::tile_graph"
    ("tile graph '" ++ g.name ++ "': " ++ toString g.len ++ " ops, top level " ++ toString top)
  return tg

def Tiler.solveCached (tl : Tiler) (t : TileTree) : Work SolvedTree := do
  let key := (← Work.lift (liftFault (t.structuralKey t.root))).toJson.compact
  match (← get).cache.entries.lookup key with
  | some (.solved s) => return s
  | some (.failed reason) => throw (.infeasible reason)
  | none =>
    let (records, r) := tl.solve t
    Work.noteAll records
    let entry ← match r with
      | .ok s => pure (CachedSolve.solved s)
      | .error e => if e.isRecoverable then pure (CachedSolve.failed e.message) else throw e
    modify fun w => { w with cache := ⟨w.cache.entries ++ [(key, entry)]⟩ }
    match entry with
    | .solved s => return s
    | .failed reason => throw (.infeasible reason)

structure GraphSolution where
  trees : List SolvedTree
  objective : Int
  deriving Inhabited

namespace GraphSolution

def isOptimal (s : GraphSolution) : Bool := s.trees.all (·.isOptimal)

def render (s : GraphSolution) : Except Fault String := do
  return String.join (← s.trees.mapM (·.render))

def toJson (s : GraphSolution) : Json :=
  .obj [("trees", .arr (s.trees.map (·.toJson))), ("objective", .int s.objective)]

/-- The outer-memory buffers of all trees as one function: tree `i`'s buffers are named
`t{i}_{buffer}` and their lifetimes follow those of the trees before. -/
def toFunction (s : GraphSolution) (name kind : String) : Function :=
  let step (acc : Nat × Nat × List LiveBuffer) (tree : SolvedTree) :=
    let (i, base, out) := acc
    let bs := tree.outerBuffers
    let span := bs.foldl (fun m (b : LiveBuffer) => max m (b.lifetime.stop + 1)) 0
    let moved := bs.map fun (b : LiveBuffer) =>
      ({ name := "t" ++ toString i ++ "_" ++ b.name, sizeBytes := b.sizeBytes,
         lifetime := ⟨b.lifetime.start + base, b.lifetime.stop + base⟩ } : LiveBuffer)
    (i + 1, base + span, out ++ moved)
  { name, moduleKind := kind, dataBuffers := (s.trees.foldl step (0, 0, [])).2.2 }

end GraphSolution

def solveGraph (tg : TileGraph) (target : Target) (budget : Budget) : Work GraphSolution := do
  let tl : Tiler := ⟨tg.dataflow, target, budget⟩
  let tops ← Work.lift tg.topTrees
  let (trees, objective) ← tops.foldlM (fun (acc : List SolvedTree × Int) top => do
    let s ← tl.solveCached (← Work.lift (tg.extractTree top))
    return (acc.1 ++ [s], I64.satAdd acc.2 s.objective)) ([], 0)
  return ⟨trees, objective⟩

def solveUnmerged (g : Dataflow) (target : Target) (budget : Budget) : Work GraphSolution := do
  Work.lift (target.validateFor g)
  let tg ← TileGraph.build g target.topLevel
  modify fun w => { w with cache := {} }
  solveGraph tg target budget

/-- Tries each merge in turn on the graph reached so far: a legal one replaces the graph, a
refused one leaves it. Gives the graph and each merge's result. -/
def TileGraph.mergeAll (tg : TileGraph) (ms : List MergePoint) : TileGraph × List (Outcome Unit) :=
  ms.foldl (fun (acc : TileGraph × List (Outcome Unit)) mp =>
    match acc.1.merge mp with
    | .ok next => (next, acc.2 ++ [.ok ()])
    | .error e => (acc.1, acc.2 ++ [.error e])) (tg, [])

def solveMerged (g : Dataflow) (target : Target) (budget : Budget) (ms : List MergePoint) :
    Work (GraphSolution × List (Outcome Unit)) := do
  Work.lift (target.validateFor g)
  let (tg, results) := (← TileGraph.build g target.topLevel).mergeAll ms
  return (← solveGraph tg target budget, results)

end TileSched
