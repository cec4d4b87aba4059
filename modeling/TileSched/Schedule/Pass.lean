import TileSched.Schedule.Memo
import TileSched.Log
/-!
The state of a tree solve: the constraint model being built, the memo tables, the results of
nodes already visited, and the clock that stamps operation leaves. A pass runs in
`Solving`, where a failure stops the pass but keeps every expression it already made.
-/
namespace TileSched

structure SolveState where
  model : Model := {}
  memo : SolveMemo
  results : Array (Option InitResult)
  /-- The next time stamp; leaves take two steps each. -/
  clock : Nat := 0
  /-- Records made so far. -/
  log : Array LogRecord := #[]
  deriving Inhabited

def SolveState.new (model : Model) (n : Nat) : SolveState :=
  { model, memo := .empty n, results := Array.replicate n none }

abbrev Solving := ExceptT Error (StateM SolveState)

namespace Solving

def build (f : Model → Model × Nat) : Solving Nat :=
  modifyGet fun s => let (m, e) := f s.model; (e, { s with model := m })

def buildChecked (f : Model → Except Fault (Model × Nat)) : Solving Nat := do
  match f (← get).model with
  | .ok (m, e) => modify (fun s => { s with model := m }); pure e
  | .error flt => throw (.fault flt)

def buildSolved (f : Model → Except SolveError (Model × Nat)) : Solving Nat := do
  match f (← get).model with
  | .ok (m, e) => modify (fun s => { s with model := m }); pure e
  | .error e => throw e.toError

def post (f : Model → Model) : Solving Unit := modify fun s => { s with model := f s.model }

def const (c : Int) : Solving Nat := build (·.constant c)

def mul (a b : Nat) : Solving Nat := buildChecked (·.mul a b)

def product (es : List Nat) : Solving Nat := buildChecked (·.product es)

def scale (e : Nat) (f : Int) : Solving Nat := build (·.scale e f)

def linear (terms : List (Int × Nat)) (c : Int) : Solving Nat := build (·.linear terms c)

def sum (es : List Nat) : Solving Nat := build (·.sum es)

def tree {α : Type} (r : Except Fault α) : Solving α :=
  match r with
  | .ok a => pure a
  | .error f => throw (.fault f)

def lift {α : Type} (r : Outcome α) : Solving α :=
  match r with
  | .ok a => pure a
  | .error e => throw e

def record (level : LogLevel) (source message : String) : Solving Unit :=
  modify fun s => { s with log := s.log.push ⟨level, source, message⟩ }

def memo (f : SolveMemo → SolveMemo) : Solving Unit := modify fun s => { s with memo := f s.memo }

end Solving

/-- An affine expression over model expressions for the dimensions and values for the
symbols: a single dimension with coefficient one is that dimension's expression, anything else
a linear node. Every symbol needs a value, and every dimension with a coefficient an
expression. -/
def AffineExpr.toModel (e : AffineExpr) (dims : List Nat) (syms : List Int) : Solving Nat := do
  let c ← e.symCoeffs.zipIdx.foldlM (fun acc (k, i) => do
    let some v := syms[i]? | throw (.affineMismatch ("missing value for symbol s" ++ toString i))
    Solving.tree (do I64.add acc (← I64.mul k v))) e.constant
  let terms : List (Int × Nat) ← (e.coeffs.zipIdx.filter (·.1 != 0)).mapM fun (k, i) => do
    let some d := dims[i]?
      | throw (.affineMismatch ("expression " ++ e.render ++ " references d" ++ toString i ++
          " but only " ++ toString dims.length ++ " dims are bound"))
    pure ((k : Int), d)
  match terms with
  | [(1, d)] => if c = 0 then pure d else Solving.linear terms c
  | _ => Solving.linear terms c

def AffineMap.extentsToModel (m : AffineMap) (extents : List Nat) : Solving (List Nat) :=
  m.results.mapM fun r => r.extent.toModel extents []

def shapeAndSize (m : AffineMap) (extents : List Nat) (elemBytes : Int) : Solving (List Nat × Nat) := do
  let shape ← m.extentsToModel extents
  let elems ← Solving.product shape
  return (shape, ← Solving.scale elems elemBytes)

end TileSched
