import TileSched.Fusion.Evaluate
import TileSched.Random.ChaCha
import TileSched.Search.Value
/-!
Monte Carlo tree search over any state that offers untried actions and a value. Each iteration
walks down from the root through nodes with no untried action, picking a child at random with
weights that favour low values and few visits; expands the node reached by its next untried
action; values the new node; and passes the value up to the root, where every node keeps the
least value seen below it. Values are costs: lower is better.

The random child is drawn from thirty votes shared out in proportion to the weights (a share's
fraction is dropped); when no child gets a vote, every child is equally likely.
-/
namespace TileSched

class EnvironmentState (σ : Type) (α : outParam Type) where
  /-- The number of actions not yet tried. -/
  legalActions : σ → Nat
  /-- Takes the untried action at an index: the action, and the state that no longer offers it. -/
  nextAction : σ → Nat → Option (α × σ)
  /-- The state an action leads to; none when the action is refused and must not be expanded. -/
  perform : σ → α → Work (Option σ)
  /-- The value of the state, with the state after valuing it; an unusable state is worth
  infinity. -/
  rollOut : σ → Work (Double × σ)

structure SearchNode (σ α : Type) where
  state : σ
  parent : Option Nat
  children : List Nat := []
  /-- The action that led here from the parent. -/
  action : Option α := none
  /-- The least value seen below. -/
  quality : Double := .infinity
  visits : Nat := 0
  deriving Inhabited

structure Searcher (σ α : Type) where
  nodes : Array (SearchNode σ α)
  rng : Rng
  exploration : Float := 1.4142135623730951
  temperature : Float := 0.5
  bestValue : Double := .infinity
  bestNode : Option Nat := none
  rollouts : Nat := 0
  deriving Inhabited

abbrev Searching (σ α : Type) := StateT (Searcher σ α) Work

namespace Searcher

variable {σ α : Type}

def source : String := "tileopt::mcts::searcher"

def selectionVotes : Float := 30.0

def new (root : σ) (seed : Nat) : Searcher σ α :=
  { nodes := #[{ state := root, parent := none }], rng := Rng.seeded (UInt64.ofNat seed) }

/-- Sets the exploration weight and the temperature; a temperature that is not positive
becomes one half. -/
def withExploration (s : Searcher σ α) (exploration temperature : Float) : Searcher σ α :=
  { s with exploration, temperature := if temperature > 0.0 then temperature else 0.5 }

def node (i : Nat) : Searching σ α (SearchNode σ α) := do
  match entryAt (← get).nodes i with
  | .ok n => return n
  | .error f => throw (.fault f)

def setNode (i : Nat) (n : SearchNode σ α) : Searching σ α Unit :=
  modify fun s => { s with nodes := s.nodes.setIfInBounds i n }

def draw (n : Nat) : Searching σ α Nat := do
  let (k, g) := (← get).rng.below n
  modify fun s => { s with rng := g }
  return k

/-- The selection weight of a child: zero for a child never valued, else the exponential of
its scaled negated quality plus the exploration bonus, over the temperature. -/
def weight (s : Searcher σ α) (scale lnVisits : Float) (child : SearchNode σ α) : Float :=
  if !child.quality.isFinite then 0.0
  else
    let exploit := -child.quality.toFloat / scale
    let explore := s.exploration * Float.sqrt (lnVisits / Float.ofNat (max child.visits 1))
    Float.exp ((exploit + explore) / s.temperature)

def ballot (weights : List Float) : List Nat :=
  let sum := weights.foldl (· + ·) 0.0
  if sum > 0.0 && sum.isFinite then
    (weights.zipIdx.map fun (w, i) => List.replicate (w / sum * selectionVotes).toUInt64.toNat i).flatten
  else []

def selectChild (id : Nat) : Searching σ α Nat := do
  let n ← node id
  let s ← get
  let scale := if s.bestValue.isFinite && s.bestValue.toFloat > 0.0 then s.bestValue.toFloat else 1.0
  let lnVisits := Float.log (Float.ofNat (max n.visits 1))
  let weights ← n.children.mapM fun c => return weight s scale lnVisits (← node c)
  let candidates := ballot weights
  let pick ← if candidates.isEmpty then draw n.children.length
    else do
      let k ← draw candidates.length
      pure (candidates.getD k 0)
  match n.children[pick]? with
  | some c => return c
  | none => throw (.fault (.index n.children.length pick))

section Environment

variable [EnvironmentState σ α]

open EnvironmentState

def selectFrom : Nat → Nat → Searching σ α Nat
  | 0, id => return id
  | f + 1, id => do
    let n ← node id
    if legalActions n.state == 0 && !n.children.isEmpty then
      let c ← selectChild id
      selectFrom f c
    else return id

def select : Searching σ α Nat := do selectFrom ((← get).nodes.size + 1) 0

/-- The node to value: the node itself if it was never visited or has no untried action, else
a new child by its next action; none when that action is refused. -/
def expand [ToString α] (id : Nat) : Searching σ α (Option Nat) := do
  let n ← node id
  if n.visits == 0 || legalActions n.state == 0 then return some id
  let some (action, state) := nextAction n.state 0 | return none
  setNode id { n with state }
  match ← (perform state action : Work _) with
  | some child =>
    let c := (← get).nodes.size
    modify fun s => { s with nodes := s.nodes.push { state := child, parent := some id, action := some action } }
    setNode id { n with state, children := n.children ++ [c] }
    return some c
  | none =>
    (Work.note .debug source ("rejected action " ++ toString action) : Work Unit)
    return none

def simulate (id : Nat) : Searching σ α Double := do
  let n ← node id
  let (v, state) ← (rollOut n.state : Work _)
  setNode id { n with state }
  modify fun s => { s with rollouts := s.rollouts + 1 }
  if v < (← get).bestValue then modify fun s => { s with bestValue := v, bestNode := some id }
  return v

end Environment

/-- Passes a value up with fuel: every node on the way keeps the lesser quality and counts a
visit. -/
def backpropagate (value : Double) : Nat → Option Nat → Searching σ α Unit
  | 0, _ => return
  | _, none => return
  | f + 1, some id => do
    let n ← node id
    setNode id { n with quality := if value < n.quality then value else n.quality, visits := n.visits + 1 }
    backpropagate value f n.parent

section Environment

variable [EnvironmentState σ α] [ToString α]

/-- One iteration numbered `i`: the node valued and its value, none when the expansion was
refused. -/
def iterate (i : Nat) : Searching σ α (Option (Nat × Double)) := do
  let selected ← select
  match ← expand selected with
  | none =>
    (Work.note .trace source ("iteration " ++ toString i ++ ": expansion of node " ++ toString selected ++
      " rejected") : Work Unit)
    return none
  | some id =>
    let v ← simulate id
    (Work.note .debug source ("iteration " ++ toString i ++ ": node " ++ toString id ++ " value " ++
      Decimal.plainText v.toFloat) : Work Unit)
    backpropagate v ((← get).nodes.size + 1) (some id)
    return some (id, v)

def search (iterations : Nat) : Searching σ α (List (Nat × Double)) := do
  return ((← (List.range iterations).mapM iterate).filterMap id)

end Environment

def bestValue? (s : Searcher σ α) : Option Float :=
  if s.bestValue.isFinite then some s.bestValue.toFloat else none

def bestNode? (s : Searcher σ α) : Option Nat := if s.bestValue.isFinite then s.bestNode else none

def pathAux (s : Searcher σ α) : Nat → Option Nat → List α → List α
  | 0, _, acc => acc
  | _, none, acc => acc
  | f + 1, some id, acc =>
    match s.nodes[id]? with
    | none => acc
    | some n => pathAux s f n.parent (match n.action with | some a => a :: acc | none => acc)

def path (s : Searcher σ α) (id : Nat) : List α := s.pathAux (s.nodes.size + 1) (some id) []

def dumpAux [ToString α] (s : Searcher σ α) : Nat → Nat → Json
  | 0, _ => .null
  | f + 1, id =>
    match s.nodes[id]? with
    | none => .null
    | some n =>
      .obj [("id", .int id), ("action", Json.opt (fun (a : α) => .str (toString a)) n.action),
        ("quality", if n.quality.isFinite then .float n.quality.toFloat else .null), ("visits", .int n.visits),
        ("children", .arr (n.children.map (s.dumpAux f)))]

def dump [ToString α] (s : Searcher σ α) : Json := s.dumpAux (s.nodes.size + 1) 0

end Searcher

end TileSched
