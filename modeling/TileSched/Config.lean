import TileSched.Solver.Model
import TileSched.Decimal.Shortest
import TileSched.Text.Quoted
/-!
Settings of a scheduling run: how many merge-search iterations to make, the budget of each tree
solve, where diagnostic files go, the seed of the search, its exploration weight and selection
temperature, and the alignment of outer-memory buffers. Three presets trade time for quality.
-/
namespace TileSched

structure SchedulerConfig where
  searchIterations : Nat := 32
  solverBudget : Budget := {}
  /-- The directory of diagnostic files; none writes nothing. -/
  dumpDir : Option String := none
  seed : Nat := 1010
  exploration : Float := 1.4142135623730951
  temperature : Float := 0.5
  alignment : Nat := 64
  deriving Inhabited

namespace SchedulerConfig

def quick : SchedulerConfig :=
  { searchIterations := 8, solverBudget := { nodeLimit := 20000, timeLimit := some ⟨10, 0⟩ } }

def thorough : SchedulerConfig :=
  { searchIterations := 256, solverBudget := { nodeLimit := 2000000, timeLimit := some ⟨60, 0⟩ } }

def preset? : String → Option SchedulerConfig
  | "quick" => some quick
  | "thorough" => some thorough
  | "default" | "new" => some {}
  | _ => none

def shape : Shape :=
  .record "SchedulerConfig" [("search_iterations", .int .usize, none), ("solver_budget", Budget.shape, none),
    ("dump_dir", .option .path, none), ("seed", .int .u64, none), ("exploration", .float, none),
    ("temperature", .float, none), ("alignment", .int .u64, none)]

def ofJson (j : Json) : SchedulerConfig :=
  { searchIterations := (j.fieldD "search_iterations").natD,
    solverBudget := Budget.ofJson (j.fieldD "solver_budget"),
    dumpDir := match j.fieldD "dump_dir" with
      | .str s => some s
      | _ => none,
    seed := (j.fieldD "seed").natD,
    exploration := (j.fieldD "exploration").floatD,
    temperature := (j.fieldD "temperature").floatD,
    alignment := (j.fieldD "alignment").natD }

def toJson (c : SchedulerConfig) : Json :=
  .obj [("search_iterations", .int c.searchIterations), ("solver_budget", c.solverBudget.toJson),
    ("dump_dir", Json.opt Json.str c.dumpDir), ("seed", .int c.seed), ("exploration", .float c.exploration),
    ("temperature", .float c.temperature), ("alignment", .int c.alignment)]

def optionText {α : Type} (f : α → String) : Option α → String
  | some a => "Some(" ++ f a ++ ")"
  | none => "None"

def budgetText (b : Budget) : String :=
  "SearchBudget \x7b node_limit: " ++ toString b.nodeLimit ++ ", time_limit: " ++
    optionText Duration.render b.timeLimit ++ ", backend: " ++
    (match b.backend with | .smt => "Smt" | .branchAndBound => "BranchAndBound") ++ " \x7d"

def render (c : SchedulerConfig) : String :=
  "SchedulerConfig \x7b search_iterations: " ++ toString c.searchIterations ++ ", solver_budget: " ++
    budgetText c.solverBudget ++ ", dump_dir: " ++ optionText Text.quoted c.dumpDir ++ ", seed: " ++
    toString c.seed ++ ", exploration: " ++ Decimal.debugText c.exploration ++ ", temperature: " ++
    Decimal.debugText c.temperature ++ ", alignment: " ++ toString c.alignment ++ " \x7d"

end SchedulerConfig

end TileSched
