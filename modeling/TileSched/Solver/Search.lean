import TileSched.Solver.Model
import TileSched.Log
/-!
Depth-first branch and bound over a model. At every search node the interval of every
expression is recomputed from the partial assignment, the constraints are checked against the
intervals, and a lower bound of the objective is compared with the best value found. Integer
variables are tried from their largest value down, booleans from zero up, and an exactly-one
group is one choice of its member that is one, cheapest member first. Objective terms
`coeff · member · rest` of a group are bounded by the cheapest member still possible.

Interval sums are exact integers limited to 128 bits; interval ends are cut to 64-bit words.
-/
namespace TileSched

/-! Integers of 128 bits, used for interval sums. -/
namespace I128

def fits (v : Int) : Bool :=
  -170141183460469231731687303715884105728 ≤ v && v < 170141183460469231731687303715884105728

def add (a b : Int) : Except Fault Int :=
  let r := a + b
  if fits r then .ok r else .error (.overflow .add)

def sum (xs : List Int) : Except Fault Int := xs.foldlM add 0

end I128

abbrev Interval := Int × Int

def mulInterval (a b : Interval) : Interval :=
  let cs := [a.1 * b.1, a.1 * b.2, a.2 * b.1, a.2 * b.2]
  (I64.clamp (cs.foldl min (a.1 * b.1)), I64.clamp (cs.foldl max (a.1 * b.1)))

inductive Decision where
  | var (v : Nat)
  | group (g : Nat)
  deriving DecidableEq, Repr, Inhabited

structure GuardedTerm where
  var : Nat
  coeff : Int
  rest : List Nat
  deriving Repr, Inhabited

structure ObjectiveSplit where
  constant : Int
  free : List (Int × Nat)
  guarded : Array (List GuardedTerm)
  deriving Inhabited

/-- Search state: nodes visited, whether the budget ran out, the best value with its interval
lower ends, the partial assignment, and every improvement with the node count it came at. -/
structure SearchState where
  nodes : Nat
  exhausted : Bool
  best : Option (Int × Array Int)
  assignment : Array (Option Int)
  found : List (Int × Nat) := []
  deriving Inhabited

namespace Model

def forwardReference? (m : Model) : Option Fault :=
  (m.nodes.toList.zipIdx).findSome? fun (n, i) =>
    match n with
    | .linear terms _ => (terms.find? (·.2 ≥ i)).map (fun t => .index i t.2)
    | _ => none

def nodeInterval (m : Model) (assignment : Array (Option Int)) (out : Array Interval) :
    Node → Except Fault Interval
  | .const c => .ok (c, c)
  | .var v =>
    match assignment.getD v none with
    | some x => .ok (x, x)
    | none =>
      let d := (m.vars.getD v default).domain
      .ok (d.headD 0, d.getLastD 0)
  | .linear terms c => do
    let (lo, hi) ← terms.foldlM (fun (acc : Int × Int) (t : Int × Nat) => do
      let (elo, ehi) := out.getD t.2 (0, 0)
      let a := t.1 * elo
      let b := t.1 * ehi
      return (← I128.add acc.1 (min a b), ← I128.add acc.2 (max a b))) (c, c)
    return (I64.clamp lo, I64.clamp hi)
  | .product fs => .ok (fs.foldl (fun acc f => mulInterval acc (out.getD f (0, 0))) (1, 1))

def bounds (m : Model) (assignment : Array (Option Int)) : Except Fault (Array Interval) :=
  m.nodes.foldlM (fun out n => do return out.push (← m.nodeInterval assignment out n)) #[]

def consistent (m : Model) (b : Array Interval) : Except Fault Bool :=
  let get (e : Nat) : Except Fault Interval := entryAt b e
  let rec go : List Constraint → Except Fault Bool
    | [] => .ok true
    | .equal x y :: cs => do
      let (alo, ahi) ← get x
      let (blo, bhi) ← get y
      if alo ≤ bhi ∧ blo ≤ ahi then go cs else .ok false
    | .lessEqual x y :: cs => do
      let (alo, _) ← get x
      let (_, bhi) ← get y
      if alo ≤ bhi then go cs else .ok false
  go m.constraints.toList

def guardOf? (m : Model) (fs : List Nat) : Option (Nat × Nat × Nat) :=
  fs.zipIdx.findSome? fun (f, i) => do
    let v ← m.varOf? f
    let g ← (m.vars.getD v default).group
    return (i, v, g)

/-- Splits the objective into its constant, free terms, and terms guarded by a group member:
a term with a non-negative coefficient that is a grouped variable, or a product with a grouped
variable among its factors. -/
def splitObjective (m : Model) (objective : Nat) : Except Fault ObjectiveSplit := do
  let (c, terms) := match m.nodes.getD objective default with
    | .linear ts c => (c, ts)
    | _ => ((0 : Int), [((1 : Int), objective)])
  let init : ObjectiveSplit := ⟨c, [], Array.replicate m.groups.size []⟩
  let split ← terms.foldlM (fun (s : ObjectiveSplit) (t : Int × Nat) => do
    let (coeff, term) := t
    let node ← entryAt m.nodes term
    let guarded : Option GuardedTerm := match node with
      | .product fs =>
        if coeff ≥ 0 then
          (m.guardOf? fs).map fun (i, v, _) =>
            ⟨v, coeff, (fs.zipIdx.filter (·.2 != i)).map (·.1)⟩
        else none
      | .var v =>
        if coeff ≥ 0 then (m.vars.getD v default).group.map fun _ => ⟨v, coeff, []⟩ else none
      | _ => none
    match guarded with
    | some gt =>
      let g := ((m.vars.getD gt.var default).group).getD 0
      return { s with guarded := s.guarded.modify g (· ++ [gt]) }
    | none => return { s with free := s.free ++ [t] }) init
  return split

def guardedCost (t : GuardedTerm) (b : Array Interval) : Int :=
  t.coeff * (t.rest.foldl (fun acc f => mulInterval acc (b.getD f (0, 0))) (1, 1)).1

def memberCost (split : ObjectiveSplit) (g v : Nat) (b : Array Interval) : Except Fault Int :=
  I128.sum (((split.guarded.getD g []).filter (·.var == v)).map (guardedCost · b))

/-- Lower bound of the objective: the free terms at their least, and per group the cost of the
member set to one, or else the cheapest member not set to zero. -/
def objectiveBound (m : Model) (split : ObjectiveSplit) (b : Array Interval)
    (assignment : Array (Option Int)) : Except Fault Int := do
  let free ← I128.sum (split.free.map fun (c, e) =>
    let (lo, hi) := b.getD e (0, 0)
    min (c * lo) (c * hi))
  let total ← I128.add split.constant free
  (m.groups.toList.zipIdx).foldlM (fun total (members, g) => do
    if (split.guarded.getD g []).isEmpty then return total
    let cost ← match members.find? (fun v => assignment.getD v none == some 1) with
      | some v => memberCost split g v b
      | none => do
        let costs ← (members.filter (fun v => assignment.getD v none != some 0)).mapM
          (memberCost split g · b)
        pure (match costs with
          | [] => 0
          | c :: cs => cs.foldl min c)
    I128.add total cost) total

/-- Branching order: integer variables without group, then booleans without group and groups,
in variable order. -/
def decisions (m : Model) : List Decision :=
  let step (acc : List Decision × List Decision × List Nat) (p : Var × Nat) :=
    let (ints, rest, seen) := acc
    let (info, v) := p
    match info.group with
    | some g => if seen.contains g then acc else (ints, rest ++ [.group g], g :: seen)
    | none => if info.isBool then (ints, rest ++ [.var v], seen) else (ints ++ [.var v], rest, seen)
  let (ints, rest, _) := (m.vars.toList.zipIdx).foldl step ([], [], [])
  ints ++ rest

def sortCosts (xs : List (Int × Nat)) : List (Int × Nat) :=
  xs.mergeSort fun a b => a.1 < b.1 || (a.1 == b.1 && a.2 ≤ b.2)

def search (m : Model) (limit objective : Nat) (split : ObjectiveSplit) :
    List Decision → SearchState → Except Fault SearchState
  | ds, st => do
    if st.exhausted then return st
    if st.nodes ≥ limit then return { st with exhausted := true }
    let st := { st with nodes := st.nodes + 1 }
    let b ← m.bounds st.assignment
    if !(← m.consistent b) then return st
    let bound ← m.objectiveBound split b st.assignment
    if let some (best, _) := st.best then
      if bound ≥ best then return st
    match ds with
    | [] =>
      let value := (b.getD objective (0, 0)).1
      return { st with best := some (value, b.map (·.1)), found := st.found ++ [(value, st.nodes)] }
    | .var v :: rest =>
      let info := m.vars.getD v default
      let values := if info.isBool then info.domain else info.domain.reverse
      let st ← values.foldlM (fun st x =>
        if st.exhausted then pure st
        else search m limit objective split rest { st with assignment := st.assignment.set! v (some x) }) st
      return { st with assignment := st.assignment.set! v none }
    | .group g :: rest =>
      let members := m.groups.getD g []
      let costs ← members.mapM fun v => do return (← memberCost split g v b, v)
      let order := sortCosts costs
      let st ← order.foldlM (fun st (_, chosen) =>
        if st.exhausted then pure st
        else
          let a := members.foldl (fun a v => a.set! v (some (if v = chosen then 1 else 0))) st.assignment
          search m limit objective split rest { st with assignment := a }) st
      return { st with assignment := members.foldl (fun a v => a.set! v none) st.assignment }

/-- The search for the least value of an expression within the budget's node limit, to its
end: the final state. -/
def explore (m : Model) (objective : Nat) (budget : Budget) : Except SolveError SearchState := do
  if objective ≥ m.nodes.size then
    throw (.invalidModel ("unknown objective e" ++ toString objective))
  let ds := m.decisions
  let split ← (m.splitObjective objective).mapError .fault
  let start : SearchState :=
    { nodes := 0, exhausted := false, best := none, assignment := Array.replicate m.vars.size none }
  (do
    -- a forward reference is met by the first interval pass
    if budget.effectiveNodeLimit > 0 then
      if let some f := m.forwardReference? then throw f
    m.search budget.effectiveNodeLimit objective split ds start).mapError .fault

def outcomeOf (st : SearchState) : Except SolveError Solution :=
  match st.best with
  | some (value, values) =>
    .ok ⟨values, value, if st.exhausted then .budgetExhausted else .optimal, st.nodes⟩
  | none =>
    if st.exhausted then .error (.noSolutionWithinBudget st.nodes) else .error (.infeasible st.nodes)

def minimize (m : Model) (objective : Nat) (budget : Budget) : Except SolveError Solution := do
  outcomeOf (← m.explore objective budget)

def searchRecords (m : Model) (st : SearchState) : List LogRecord :=
  let src := "tileopt::solver::search"
  st.found.map (fun (v, n) => ⟨.trace, src, "solution " ++ toString v ++ " after " ++ toString n ++ " nodes"⟩) ++
    [⟨.trace, src, "search finished: " ++ toString m.vars.size ++ " vars, " ++ toString m.constraints.size ++
      " constraints, " ++ toString st.nodes ++ " nodes, exhausted = " ++ toString st.exhausted⟩]

def minimizeLogged (m : Model) (objective : Nat) (budget : Budget) :
    List LogRecord × Except SolveError Solution :=
  match m.explore objective budget with
  | .ok st => (m.searchRecords st, outcomeOf st)
  | .error e => ([], .error e)

end Model

def divisors (n : Int) : List Int :=
  if n ≤ 0 then []
  else
    let r := n.toNat.sqrt
    let small := ((List.range r).map (· + 1)).filter (fun d => n.toNat % d = 0)
    let large := (small.filter (fun d => d ≠ n.toNat / d)).map (fun d => n.toNat / d)
    (small ++ large.reverse).map Int.ofNat

end TileSched
