import TileSched.Affine.Map
/-!
Operations of a dataflow graph. An operation has an iteration domain with fixed bounds, one
read access per input buffer and one write access; an access maps the domain to the buffer's
dimensions. A read that consumes the output of another operation names that producer.
-/
namespace TileSched

inductive KernelKind where
  | elementwise | matmul | reduction | other
  deriving DecidableEq, Repr, Inhabited

namespace KernelKind

def name : KernelKind → String
  | .elementwise => "elementwise" | .matmul => "matmul" | .reduction => "reduction" | .other => "other"

def shape : Shape :=
  .variants "KernelKind" [("elementwise", none), ("matmul", none), ("reduction", none), ("other", none)]

def ofJson (j : Json) : KernelKind :=
  match j.strD with
  | "matmul" => .matmul | "reduction" => .reduction | "other" => .other | _ => .elementwise

end KernelKind

def unassignedId : Nat := 18446744073709551615

structure ReadAccess where
  map : AffineMap
  elemBytes : Int
  producer : Option Nat := none
  deriving DecidableEq, Repr, Inhabited

structure WriteAccess where
  map : AffineMap
  elemBytes : Int
  deriving DecidableEq, Repr, Inhabited

structure OpNode where
  id : Nat := unassignedId
  name : String
  domainBounds : List Int
  reads : List ReadAccess := []
  write : WriteAccess
  kernel : KernelKind := .elementwise
  deriving DecidableEq, Repr, Inhabited

namespace OpNode

def new (name : String) (bounds : List Int) (kernel : KernelKind) : OpNode :=
  { name, domainBounds := bounds, write := ⟨.identity bounds.length, 4⟩, kernel }

def rank (op : OpNode) : Nat := op.domainBounds.length

def outputIndex (op : OpNode) : Nat := op.reads.length

def numBuffers (op : OpNode) : Nat := op.reads.length + 1

def bufferMap? (op : OpNode) (i : Nat) : Option AffineMap :=
  if h : i < op.reads.length then some (op.reads[i].map)
  else if i = op.reads.length then some op.write.map
  else none

def elemBytes (op : OpNode) (i : Nat) : Int :=
  match op.reads[i]? with
  | some r => r.elemBytes
  | none => op.write.elemBytes

def bufferShape (op : OpNode) (i : Nat) : Except Fault (List Int) :=
  match op.bufferMap? i with
  | some m => m.applyBounds op.domainBounds
  | none => .ok []

def bufferBytes (op : OpNode) (i : Nat) : Except Fault Int := do
  let eb := op.elemBytes i
  let shape ← op.bufferShape i
  I64.mul eb (← I64.product shape)

def producers (op : OpNode) : List Nat := op.reads.filterMap (·.producer)

def readOf? (op : OpNode) (p : Nat) : Option Nat := op.reads.findIdx? (·.producer == some p)

def render (op : OpNode) : String :=
  "op" ++ toString op.id ++ " " ++ op.name ++ " [" ++ ", ".intercalate (op.domainBounds.map toString) ++ "]"

def writeDims (op : OpNode) : List (Option Nat) :=
  (List.range op.rank).map fun d =>
    (op.write.map.results.zipIdx.find? (fun (r, _) => r.asPureDim? == some d)).map (·.2)

/-- The producer's domain seen through a view of its output: a domain dimension carried by an
output dimension takes that dimension's range in the view, any other spans its whole bound.
Nothing when the view lacks a carried dimension. -/
def producerRelation (op : OpNode) (view : AffineMap) : Option AffineMap := do
  let n := view.nIn
  let rs ← (op.writeDims.zipIdx).mapM fun (k, d) =>
    match k with
    | some k => view.results[k]?
    | none => some (AffineRange.const 0 (op.domainBounds.getD d 0) n 0)
  return AffineMap.ofResults n rs

def readShape : Shape :=
  .record "ReadAccess" [("map", AffineMap.shape, none), ("elem_bytes", .int .i64, none),
    ("producer", .option (.int .usize), some .null)]

def writeShape : Shape :=
  .record "WriteAccess" [("map", AffineMap.shape, none), ("elem_bytes", .int .i64, none)]

def shape : Shape :=
  .record "OpNode" [("id", .int .usize, some (.int unassignedId)), ("name", .string, none),
    ("domain_bounds", .seq (.int .i64), none), ("reads", .seq readShape, some (.arr [])),
    ("write", writeShape, none), ("kernel", KernelKind.shape, some (.str "elementwise"))]

def ofJson (j : Json) : OpNode :=
  { id := (j.fieldD "id").natD, name := (j.fieldD "name").strD,
    domainBounds := (j.fieldD "domain_bounds").items.map Json.intD,
    reads := (j.fieldD "reads").items.map fun r =>
      { map := .ofJson (r.fieldD "map"), elemBytes := (r.fieldD "elem_bytes").intD,
        producer := match r.fieldD "producer" with
          | .null => none
          | p => some p.natD },
    write := ⟨.ofJson ((j.fieldD "write").fieldD "map"), ((j.fieldD "write").fieldD "elem_bytes").intD⟩,
    kernel := .ofJson (j.fieldD "kernel") }

def toJson (op : OpNode) : Json :=
  .obj [("id", .int op.id), ("name", .str op.name), ("domain_bounds", Json.ofInts op.domainBounds),
    ("reads", .arr (op.reads.map fun r => .obj [("map", r.map.toJson), ("elem_bytes", .int r.elemBytes),
      ("producer", Json.opt (fun p => .int p) r.producer)])),
    ("write", .obj [("map", op.write.map.toJson), ("elem_bytes", .int op.write.elemBytes)]),
    ("kernel", .str op.kernel.name)]

end OpNode

end TileSched
