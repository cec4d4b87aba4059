import TileSched.Graph.Op
/-!
Dataflow graphs: operations in topological order, each with its position as id. A graph is
valid when ids match positions, every domain has between one and 32 positive bounds, every
access map reads the whole domain, and every producer comes earlier and writes as many
dimensions as its consumer reads.
-/
namespace TileSched

structure Dataflow where
  name : String := ""
  ops : List OpNode := []
  deriving DecidableEq, Repr, Inhabited

namespace Dataflow

def add (g : Dataflow) (op : OpNode) : Dataflow × Nat :=
  ({ g with ops := g.ops ++ [{ op with id := g.ops.length }] }, g.ops.length)

def addElementwise (g : Dataflow) (name : String) (bounds : List Int) (inputs : List (Option Nat)) :
    Dataflow × Nat :=
  let n := bounds.length
  g.add { OpNode.new name bounds .elementwise with
    reads := inputs.map fun p => ⟨.identity n, 4, p⟩ }

def addMatmul (g : Dataflow) (name : String) (m n k : Int) (lhs rhs : Option Nat) : Dataflow × Nat :=
  g.add { OpNode.new name [m, n, k] .matmul with
    reads := [⟨.permutation 3 [0, 2], 4, lhs⟩, ⟨.permutation 3 [2, 1], 4, rhs⟩],
    write := ⟨.permutation 3 [0, 1], 4⟩ }

def len (g : Dataflow) : Nat := g.ops.length

def op (g : Dataflow) (i : Nat) : Outcome OpNode :=
  match g.ops[i]? with
  | some o => .ok o
  | none => .error (.invalidGraph ("unknown op" ++ toString i))

def consumers (g : Dataflow) (i : Nat) : List Nat :=
  (g.ops.filter fun o => o.producers.contains i).map (·.id)

def checkOp (g : Dataflow) (i : Nat) (op : OpNode) : Outcome Unit := do
  if op.id ≠ i then throw (.invalidGraph ("op at position " ++ toString i ++ " has id " ++ toString op.id))
  if op.rank = 0 ∨ op.rank > 32 then
    throw (.invalidGraph ("op" ++ toString i ++ " has rank " ++ toString op.rank))
  if let some b := op.domainBounds.find? (· ≤ 0) then
    throw (.invalidGraph ("op" ++ toString i ++ " has bound " ++ toString b))
  for idx in List.range op.numBuffers do
    if let some m := op.bufferMap? idx then
      if m.nIn ≠ op.rank then
        throw (.affineMismatch ("op" ++ toString i ++ " buffer " ++ toString idx ++ " map " ++ m.render ++
          " over rank " ++ toString op.rank))
  for r in op.reads do
    if let some p := r.producer then
      if p ≥ i then
        throw (.invalidGraph ("op" ++ toString i ++ " reads op" ++ toString p ++
          " which is not earlier in topological order"))
      let pw := ((g.ops.getD p default).write.map).nOut
      if pw ≠ r.map.nOut then
        throw (.affineMismatch ("op" ++ toString p ++ " writes rank " ++ toString pw ++ " but op" ++
          toString i ++ " reads rank " ++ toString r.map.nOut))

def validate (g : Dataflow) : Outcome Unit :=
  g.ops.zipIdx.forM fun (op, i) => g.checkOp i op

def shape : Shape :=
  .record "DataflowGraph" [("name", .string, some (.str "")), ("ops", .seq OpNode.shape, none)]

def ofJson (j : Json) : Dataflow :=
  { name := (j.fieldD "name").strD,
    ops := ((j.fieldD "ops").items.map OpNode.ofJson).zipIdx.map fun (op, i) =>
      if op.id = unassignedId then { op with id := i } else op }

def ofText (text : String) : Outcome Dataflow := do
  let j ← (Json.readText shape text).mapError Error.serialization
  let g := ofJson j
  g.validate
  return g

def toJson (g : Dataflow) : Json :=
  .obj [("name", .str g.name), ("ops", .arr (g.ops.map OpNode.toJson))]

end Dataflow

end TileSched
