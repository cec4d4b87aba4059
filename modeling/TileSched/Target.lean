import TileSched.Graph.Dataflow
import TileSched.Solver.Search
/-!
Targets: the memory hierarchy (levels from the innermost out, each with an optional capacity
and a cost per byte moved) and the kernel facts that fix legal tile counts: per dimension a
primitive tile (the kernel's vector of lanes) and a range of multipliers of it.
-/
namespace TileSched

structure MemoryLevel where
  name : String
  capacityBytes : Option Nat := none
  transferCost : Int
  deriving DecidableEq, Repr, Inhabited

structure KernelInfo where
  primitives : List Int
  multipliers : List (Int × Int)
  deriving DecidableEq, Repr, Inhabited

def divisorsUpTo (n : Nat) : List Nat :=
  let r := n.sqrt
  let rec go (d : Nat) (small large : List Nat) : Nat → List Nat
    | 0 => small.reverse ++ large
    | fuel + 1 =>
      if d > r then small.reverse ++ large
      else if n % d = 0 then
        go (d + 1) (d :: small) (if d ≠ n / d then (n / d) :: large else large) fuel
      else go (d + 1) small large fuel
  go 1 [] [] r

namespace KernelInfo

def primitive (k : KernelInfo) (d : Nat) : Int := max (k.primitives.getD d 1) 1

/-- Legal tile counts of dimension `d` with bound `b`: the multipliers in range that divide
`b` in units of the primitive tile; none when the primitive does not divide `b`. -/
def opTileDomain (k : KernelInfo) (d : Nat) (b : Int) : List Int :=
  let p := k.primitive d
  let (lo, hi) := k.multipliers.getD d (1, I64.max)
  if b.tmod p ≠ 0 then []
  else
    let q := b.tdiv p
    if q ≤ 0 then [] else ((divisorsUpTo q.toNat).map Int.ofNat).filter fun v => lo ≤ v ∧ v ≤ hi

def shape : Shape :=
  .record "KernelInfo" [("primitives", .seq (.int .i64), none),
    ("multipliers", .seq (.tuple [.int .i64, .int .i64]), none)]

def pairOf (j : Json) : Int × Int := ((j.items.getD 0 .null).intD, (j.items.getD 1 .null).intD)

def ofJson (j : Json) : KernelInfo :=
  ⟨(j.fieldD "primitives").items.map Json.intD, (j.fieldD "multipliers").items.map pairOf⟩

def pairJson (p : Int × Int) : Json := Json.ofInts [p.1, p.2]

def toJson (k : KernelInfo) : Json :=
  .obj [("primitives", Json.ofInts k.primitives), ("multipliers", .arr (k.multipliers.map pairJson))]

end KernelInfo

def checkMultiplier (what : String) (r : Int × Int) : Outcome Unit :=
  if r.1 < 1 ∨ r.1 > r.2 then
    .error (.invalidGraph (what ++ " has an empty or non-positive multiplier range (" ++ toString r.1 ++
      ", " ++ toString r.2 ++ ")"))
  else .ok ()

structure KernelOverride where
  primitives : Option (List Int) := none
  multipliers : Option (List (Int × Int)) := none
  deriving DecidableEq, Repr, Inhabited

namespace KernelOverride

/-- Primitives must be positive and ranges legal; for an operation of known rank, each given
list has one entry per dimension. -/
def validate (o : KernelOverride) (name : String) (rank : Option Nat) : Outcome Unit := do
  if let some p := o.primitives then
    if let some b := p.find? (· < 1) then
      throw (.invalidGraph ("kernel override for " ++ name ++ " has primitive " ++ toString b))
  if let some ms := o.multipliers then
    for r in ms do checkMultiplier ("kernel override for " ++ name) r
  if let some rank := rank then
    for (field, len) in [("primitives", o.primitives.map List.length), ("multipliers", o.multipliers.map List.length)] do
      if let some len := len then
        if len ≠ rank then
          throw (.invalidGraph ("kernel override for " ++ name ++ " gives " ++ toString len ++ " " ++ field ++
            ", op has rank " ++ toString rank))

def shape : Shape :=
  .record "KernelOverride" [("primitives", .option (.seq (.int .i64)), some .null),
    ("multipliers", .option (.seq (.tuple [.int .i64, .int .i64])), some .null)]

def ofJson (j : Json) : KernelOverride :=
  ⟨match j.fieldD "primitives" with
    | .null => none
    | p => some (p.items.map Json.intD),
   match j.fieldD "multipliers" with
    | .null => none
    | m => some (m.items.map KernelInfo.pairOf)⟩

def toJson (o : KernelOverride) : Json :=
  .obj [("primitives", Json.opt Json.ofInts o.primitives),
    ("multipliers", Json.opt (fun ms => .arr (ms.map KernelInfo.pairJson)) o.multipliers)]

end KernelOverride

/-- A target: memory levels, vector width, default multipliers and overrides by operation name
(kept in name order, one per name). -/
structure Target where
  levels : List MemoryLevel
  vectorWidthBytes : Int := 32
  defaultMultiplier : Int × Int := (1, 4)
  kernelOverrides : List (String × KernelOverride) := []
  deriving DecidableEq, Repr, Inhabited

def insertSorted {α : Type} (k : String) (v : α) : List (String × α) → List (String × α)
  | [] => [(k, v)]
  | (k', v') :: rest =>
    if k = k' then (k, v) :: rest
    else if k < k' then (k, v) :: (k', v') :: rest
    else (k', v') :: insertSorted k v rest

namespace Target

def default : Target :=
  { levels := [⟨"L1", some 32768, 1⟩, ⟨"L2", some 1048576, 2⟩, ⟨"DDR", none, 4⟩] }

def withLevels (t : Target) (levels : List MemoryLevel) : Target := { t with levels }

def withVectorWidth (t : Target) (w : Int) : Target := { t with vectorWidthBytes := w }

def withKernelOverride (t : Target) (name : String) (o : KernelOverride) : Target :=
  { t with kernelOverrides := insertSorted name o t.kernelOverrides }

def topLevel (t : Target) : Nat := t.levels.length

def capacity (t : Target) (sl : Nat) : Option Nat := (t.levels[sl]?).bind (·.capacityBytes)

def transferCost (t : Target) (sl : Nat) : Int := ((t.levels[sl]?).map (·.transferCost)).getD 1

def override? (t : Target) (name : String) : Option KernelOverride := t.kernelOverrides.lookup name

/-- Kernel facts of an operation: an elementwise kernel vectorizes its innermost dimension when
the lanes of the vector width divide its bound; the default multipliers apply everywhere;
an override replaces whole fields. -/
def kernelInfo (t : Target) (op : OpNode) : KernelInfo :=
  let rank := op.rank
  let base := List.replicate rank (1 : Int)
  let prims :=
    if op.kernel = .elementwise ∧ rank > 0 then
      let lanes := t.vectorWidthBytes.tdiv (max op.write.elemBytes 1)
      let inner := op.domainBounds.getD (rank - 1) 0
      if lanes > 1 ∧ inner.tmod lanes = 0 then base.set (rank - 1) lanes else base
    else base
  let info : KernelInfo := ⟨prims, List.replicate rank t.defaultMultiplier⟩
  match t.override? op.name with
  | none => info
  | some o => ⟨o.primitives.getD info.primitives, o.multipliers.getD info.multipliers⟩

def validate (t : Target) : Outcome Unit := do
  if t.levels.isEmpty then throw (.invalidGraph "target has no memory levels")
  if let some l := t.levels.find? (·.transferCost < 0) then
    throw (.invalidGraph ("memory level " ++ l.name ++ " has negative transfer cost"))
  checkMultiplier "default kernel info" t.defaultMultiplier
  for (name, o) in t.kernelOverrides do o.validate name none

def validateFor (t : Target) (g : Dataflow) : Outcome Unit := do
  t.validate
  for op in g.ops do
    if let some o := t.override? op.name then o.validate op.name (some op.rank)

def levelShape : Shape :=
  .record "MemoryLevel" [("name", .string, none), ("capacity_bytes", .option (.int .u64), some .null),
    ("transfer_cost", .int .i64, none)]

def shape : Shape :=
  .record "TargetOptions" [("levels", .seq levelShape, none),
    ("vector_width_bytes", .int .i64, some (.int 32)),
    ("default_multiplier", .tuple [.int .i64, .int .i64], some (Json.ofInts [1, 4])),
    ("kernel_overrides", .dict KernelOverride.shape, some (.obj []))]

def levelOfJson (j : Json) : MemoryLevel :=
  ⟨(j.fieldD "name").strD, (match j.fieldD "capacity_bytes" with | .null => none | c => some c.natD),
    (j.fieldD "transfer_cost").intD⟩

def ofJson (j : Json) : Target :=
  { levels := (j.fieldD "levels").items.map levelOfJson,
    vectorWidthBytes := (j.fieldD "vector_width_bytes").intD,
    defaultMultiplier := KernelInfo.pairOf (j.fieldD "default_multiplier"),
    kernelOverrides := (j.fieldD "kernel_overrides").members.map fun (k, v) => (k, KernelOverride.ofJson v) }

def ofText (text : String) : Outcome Target := do
  let j ← (Json.readText shape text).mapError Error.serialization
  let t := ofJson j
  t.validate
  return t

def levelJson (l : MemoryLevel) : Json :=
  .obj [("name", .str l.name), ("capacity_bytes", Json.opt (fun c => .int c) l.capacityBytes),
    ("transfer_cost", .int l.transferCost)]

def toJson (t : Target) : Json :=
  .obj [("levels", .arr (t.levels.map levelJson)), ("vector_width_bytes", .int t.vectorWidthBytes),
    ("default_multiplier", KernelInfo.pairJson t.defaultMultiplier),
    ("kernel_overrides", .obj (t.kernelOverrides.map fun (k, o) => (k, o.toJson)))]

end Target

end TileSched
