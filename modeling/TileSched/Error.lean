import TileSched.Fault
/-!
Why scheduling fails. Some failures belong to one tree or one merge and leave the search free to
try others (`Error.isRecoverable`); the rest say that an input broke a rule the scheduler relies on.
-/
namespace TileSched

inductive Error where
  /-- A tile tree has no legal assignment. -/
  | infeasible (reason : String)
  /-- The tree search stopped at its node budget before finding any assignment. -/
  | noSolutionWithinBudget (nodes : Nat)
  /-- A buffer's defining entry is missing. -/
  | unresolvedBuffer (op index : Nat)
  /-- No child of a tile node fixes the extent of one of its dimensions. -/
  | unresolvedDimension (node dim : Nat)
  /-- A merge of a producer tile into a consumer tile is refused. -/
  | illegalMerge (producer consumer level : Nat) (reason : String)
  | invalidGraph (reason : String)
  | affineMismatch (reason : String)
  /-- The merge search never reached a tree that could be solved. -/
  | noFeasibleTree (rollouts : Nat)
  | invalidModel (reason : String)
  | io (reason : String)
  | serialization (reason : String)
  /-- An arithmetic or indexing fault. -/
  | fault (f : Fault)
  deriving Inhabited

namespace Error

def message : Error → String
  | .infeasible s => "Infeasible tile tree: " ++ s
  | .noSolutionWithinBudget n =>
    "No solution found within the search budget (" ++ toString n ++ " nodes explored)"
  | .unresolvedBuffer o i => "Unresolved buffer dependency: op" ++ toString o ++ "_" ++ toString i
  | .unresolvedDimension n d => "Unresolved dimension d" ++ toString d ++ " of tile node " ++ toString n
  | .illegalMerge p c l r =>
    "Illegal merge of op" ++ toString p ++ " into op" ++ toString c ++ " at level " ++ toString l ++ ": " ++ r
  | .invalidGraph s => "Invalid graph: " ++ s
  | .affineMismatch s => "Affine mismatch: " ++ s
  | .noFeasibleTree n => "No feasible tile tree found after " ++ toString n ++ " rollouts"
  | .invalidModel s => "Invalid constraint model: " ++ s
  | .io s => "I/O error: " ++ s
  | .serialization s => "Serialization error: " ++ s
  | .fault f => f.message

def kind : Error → String
  | .infeasible _ => "Infeasible"
  | .noSolutionWithinBudget _ => "NoSolutionWithinBudget"
  | .unresolvedBuffer _ _ => "UnresolvedBuffer"
  | .unresolvedDimension _ _ => "UnresolvedDimension"
  | .illegalMerge _ _ _ _ => "IllegalMerge"
  | .invalidGraph _ => "InvalidGraph"
  | .affineMismatch _ => "AffineMismatch"
  | .noFeasibleTree _ => "NoFeasibleTree"
  | .invalidModel _ => "InvalidModel"
  | .io _ => "Io"
  | .serialization _ => "Serialization"
  | .fault _ => "panic"

def isRecoverable : Error → Bool
  | .infeasible _ | .noSolutionWithinBudget _ | .illegalMerge _ _ _ _ => true
  | _ => false

end Error

abbrev Outcome (α : Type) := Except Error α

def liftFault {α : Type} (r : Except Fault α) : Outcome α :=
  r.mapError Error.fault

end TileSched
