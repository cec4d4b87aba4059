import TileSched.Error
import TileSched.Json.Text
/-!
Integer constraint models. A model is a list of expression nodes (constants, variables with
finite domains, linear sums and products), each referring only to earlier nodes, together with
posted constraints: equalities, inequalities and exactly-one groups of boolean variables. The
builders share constants and fold constant factors, so equal requests give equal nodes.
-/
namespace TileSched

inductive Node where
  | const (c : Int)
  /-- Variable `v` of the model. -/
  | var (v : Nat)
  /-- `constant + Σ coeff · expr`. -/
  | linear (terms : List (Int × Nat)) (constant : Int)
  /-- Product of the factors. -/
  | product (factors : List Nat)
  deriving DecidableEq, Repr, Inhabited

structure Var where
  name : String
  expr : Nat
  domain : List Int
  isBool : Bool
  group : Option Nat := none
  deriving DecidableEq, Repr, Inhabited

inductive Constraint where
  | equal (a b : Nat)
  | lessEqual (a b : Nat)
  deriving DecidableEq, Repr, Inhabited

inductive SolveError where
  /-- The search ended without any assignment. -/
  | infeasible (nodes : Nat)
  /-- The node budget ran out before any assignment was found. -/
  | noSolutionWithinBudget (nodes : Nat)
  | invalidModel (reason : String)
  | fault (f : Fault)
  deriving DecidableEq, Repr, Inhabited

namespace SolveError

def message : SolveError → String
  | .infeasible n => "model is infeasible (" ++ toString n ++ " nodes explored)"
  | .noSolutionWithinBudget n => "no solution within budget (" ++ toString n ++ " nodes explored)"
  | .invalidModel s => "invalid model: " ++ s
  | .fault f => f.message

def kind : SolveError → String
  | .infeasible _ => "Infeasible"
  | .noSolutionWithinBudget _ => "NoSolutionWithinBudget"
  | .invalidModel _ => "InvalidModel"
  | .fault _ => "panic"

def toError : SolveError → Error
  | .infeasible n => .infeasible ("search exhausted after " ++ toString n ++ " nodes")
  | .noSolutionWithinBudget n => .noSolutionWithinBudget n
  | .invalidModel s => .invalidModel s
  | .fault f => .fault f

end SolveError

inductive Backend where
  | smt
  | branchAndBound
  deriving DecidableEq, Repr, Inhabited

namespace Backend

def dataName : Backend → String
  | .smt => "smt"
  | .branchAndBound => "branch_and_bound"

def render : Backend → String
  | .smt => "smt"
  | .branchAndBound => "branch-and-bound"

def shape : Shape := .variants "SolverBackend" [("smt", none), ("branch_and_bound", none)]

def ofJson (j : Json) : Backend := if j.strD == "smt" then .smt else .branchAndBound

end Backend

structure Duration where
  secs : Nat
  nanos : Nat
  deriving DecidableEq, Repr, Inhabited

namespace Duration

def ofMillis (ms : Nat) : Duration := ⟨ms / 1000, (ms % 1000) * 1000000⟩

def checkCarry (j : Json) : Except String Json :=
  if (j.fieldD "secs").natD + (j.fieldD "nanos").natD / 1000000000 < 18446744073709551616 then .ok j
  else .error "overflow deserializing Duration"

def shape : Shape := .exact "Duration" [("secs", .int .u64), ("nanos", .int .u32)] checkCarry

def ofJson (j : Json) : Duration :=
  let n := (j.fieldD "nanos").natD
  ⟨(j.fieldD "secs").natD + n / 1000000000, n % 1000000000⟩

def toJson (d : Duration) : Json := .obj [("secs", .int d.secs), ("nanos", .int d.nanos)]

def render (d : Duration) : String :=
  if d.nanos = 0 then toString d.secs ++ "s"
  else
    let frac := (Nat.toDigits 10 (d.nanos + 1000000000)).drop 1
    let trimmed := String.ofList (frac.reverse.dropWhile (· == '0')).reverse
    toString d.secs ++ "." ++ trimmed ++ "s"

end Duration

structure Budget where
  nodeLimit : Nat := 200000
  timeLimit : Option Duration := none
  backend : Backend := .branchAndBound
  deriving DecidableEq, Repr, Inhabited

namespace Budget

/-- The number of nodes a search may visit. The clock is read before the first node and every
256 nodes after; only a time limit of zero is certain to have passed at a reading, so it allows no
node at all, and any other time limit is taken never to run out. -/
def effectiveNodeLimit (b : Budget) : Nat :=
  if b.timeLimit = some ⟨0, 0⟩ then 0 else b.nodeLimit

def shape : Shape :=
  .record "SearchBudget" [("node_limit", .int .u64, none), ("time_limit", .option Duration.shape, none),
    ("backend", Backend.shape, some (.str "branch_and_bound"))]

def ofJson (j : Json) : Budget :=
  ⟨(j.fieldD "node_limit").natD,
    match j.fieldD "time_limit" with
    | .null => none
    | d => some (Duration.ofJson d),
    Backend.ofJson (j.fieldD "backend")⟩

def toJson (b : Budget) : Json :=
  .obj [("node_limit", .int b.nodeLimit), ("time_limit", Json.opt Duration.toJson b.timeLimit),
    ("backend", .str b.backend.dataName)]

end Budget

inductive SolveStatus where
  | optimal
  | budgetExhausted
  deriving DecidableEq, Repr, Inhabited

def SolveStatus.render : SolveStatus → String
  | .optimal => "Optimal"
  | .budgetExhausted => "BudgetExhausted"

structure Solution where
  values : Array Int
  objective : Int
  status : SolveStatus
  nodes : Nat
  deriving Repr, Inhabited

namespace Solution

def value (s : Solution) (e : Nat) : Int := s.values.getD e 0

def isSet (s : Solution) (e : Nat) : Bool := s.value e != 0

end Solution

def insertInt (a : Int) : List Int → List Int
  | [] => [a]
  | b :: l => if a ≤ b then a :: b :: l else b :: insertInt a l

def sortInts (l : List Int) : List Int := l.foldr insertInt []

def dedupSorted : List Int → List Int
  | a :: b :: rest => if a = b then dedupSorted (b :: rest) else a :: dedupSorted (b :: rest)
  | xs => xs

structure Model where
  nodes : Array Node := #[]
  vars : Array Var := #[]
  constraints : Array Constraint := #[]
  groups : Array (List Nat) := #[]
  /-- The node of each constant made so far. -/
  constants : List (Int × Nat) := []
  deriving Inhabited

namespace Model

def push (m : Model) (n : Node) : Model × Nat := ({ m with nodes := m.nodes.push n }, m.nodes.size)

def newVar (m : Model) (name : String) (domain : List Int) (isBool : Bool) : Model × Nat :=
  let dom := dedupSorted (sortInts domain)
  let v := m.vars.size
  let (m, e) := m.push (.var v)
  ({ m with vars := m.vars.push ⟨name, e, dom, isBool, none⟩ }, e)

def newInt (m : Model) (name : String) (domain : List Int) : Except SolveError (Model × Nat) :=
  if domain.isEmpty then .error (.invalidModel ("variable " ++ name ++ " has an empty domain"))
  else .ok (m.newVar name domain false)

def newBool (m : Model) (name : String) : Model × Nat := m.newVar name [0, 1] true

def constant (m : Model) (c : Int) : Model × Nat :=
  match m.constants.lookup c with
  | some e => (m, e)
  | none =>
    let (m, e) := m.push (.const c)
    ({ m with constants := (c, e) :: m.constants }, e)

def linear (m : Model) (terms : List (Int × Nat)) (c : Int) : Model × Nat :=
  let ts := terms.filter (·.1 != 0)
  if ts.isEmpty then m.constant c else m.push (.linear ts c)

def varOf? (m : Model) (e : Nat) : Option Nat :=
  match m.nodes[e]? with
  | some (.var v) => some v
  | _ => none

/-- A product: constant factors are folded into one coefficient (stopping at the ends of the
word range), a zero coefficient gives zero, and what remains is a product node scaled by a
linear node when the coefficient is not one. -/
def product (m : Model) (factors : List Nat) : Except Fault (Model × Nat) := do
  let (c, rest) ← factors.foldlM (fun (acc : Int × List Nat) f => do
    match ← entryAt m.nodes f with
    | .const k => pure (I64.satMul acc.1 k, acc.2)
    | _ => pure (acc.1, acc.2 ++ [f])) ((1 : Int), ([] : List Nat))
  if c = 0 then return m.constant 0
  match rest with
  | [] => return m.constant c
  | [f] => if c = 1 then return (m, f) else return m.linear [(c, f)] 0
  | _ =>
    let (m, p) := m.push (.product rest)
    if c = 1 then return (m, p) else return m.linear [(c, p)] 0

def addEqual (m : Model) (a b : Nat) : Model := { m with constraints := m.constraints.push (.equal a b) }

def addLessEqual (m : Model) (a b : Nat) : Model :=
  { m with constraints := m.constraints.push (.lessEqual a b) }

/-- Posts that exactly one of the boolean variables is one. Each member must be a boolean
variable in no other group. -/
def addExactlyOne (m : Model) (bools : List Nat) : Except SolveError Model := do
  if bools.isEmpty then throw (.invalidModel "exactly-one over no variables")
  let g := m.groups.size
  let members ← bools.mapM fun b => do
    let name := "e" ++ toString b
    match m.varOf? b with
    | some v =>
      match m.vars[v]? with
      | some info =>
        if !info.isBool then throw (.invalidModel (name ++ " is not a boolean variable"))
        else if info.group.isSome then throw (.invalidModel (name ++ " already belongs to an exactly-one group"))
        else pure v
      | none => throw (.invalidModel (name ++ " is not a boolean variable"))
    | none => throw (.invalidModel (name ++ " is not a boolean variable"))
  let vars := members.foldl (fun vs v => vs.modify v fun info => { info with group := some g }) m.vars
  return { m with vars, groups := m.groups.push members }

def sum (m : Model) (es : List Nat) : Model × Nat :=
  match es with
  | [] => m.constant 0
  | [e] => (m, e)
  | _ => m.linear (es.map (1, ·)) 0

def mul (m : Model) (a b : Nat) : Except Fault (Model × Nat) := m.product [a, b]

def scale (m : Model) (e : Nat) (f : Int) : Model × Nat :=
  if f = 1 then (m, e) else m.linear [(f, e)] 0

def numVars (m : Model) : Nat := m.vars.size

def numConstraints (m : Model) : Nat := m.constraints.size + m.groups.size

end Model

end TileSched
