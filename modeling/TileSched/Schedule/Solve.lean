import TileSched.Schedule.Writes
import TileSched.Tree.Render
import TileSched.Tree.Codec
/-!
Solving one tile tree. The two passes build the model; then every bounded memory level below
a tile's own gets a capacity constraint over the buffers placed there that are live at the same
time (those of enclosing tiles included), the objective weighs the bytes moved into each level
by that level's transfer cost, and the least objective is searched for. Tile counts and buffer
placements are read back from the best assignment. A tree that is a bare operation keeps every
buffer whole in the outermost level.
-/
namespace TileSched

structure PlacementFlags where
  /-- Held in the outermost memory level. -/
  materialized : Bool
  /-- Shared with a reader or producer. -/
  aliased : Bool
  /-- Placed at the root of the tree. -/
  root : Bool
  deriving DecidableEq, Repr, Inhabited

structure BufferPlacement where
  node : Nat
  buffer : BufferId
  aliases : List BufferId
  /-- Memory level, zero the innermost. -/
  level : Nat
  /-- The loop position the buffer is created in. -/
  createLoop : Nat
  sizeBytes : Int
  /-- Bytes moved into the level over the whole run. -/
  writeBytes : Int
  lifetime : Lifetime
  flags : PlacementFlags
  deriving DecidableEq, Repr, Inhabited

structure NodeSizes where
  node : Nat
  tileVars : List Int
  extents : List Int
  deriving DecidableEq, Repr, Inhabited

structure SolvedTree where
  tree : TileTree
  sizes : List NodeSizes
  placements : List BufferPlacement
  objective : Int
  status : SolveStatus
  numVars : Nat
  numConstraints : Nat
  searchNodes : Nat
  deriving Repr, Inhabited

namespace SolvedTree

def isOptimal (s : SolvedTree) : Bool := s.status == .optimal

def placement? (s : SolvedTree) (node : Nat) (b : BufferId) : Option BufferPlacement :=
  s.placements.find? fun p => p.node == node && p.aliases.contains b

def rootPlacements (s : SolvedTree) : List BufferPlacement := s.placements.filter (·.flags.root)

def nodeSizes? (s : SolvedTree) (node : Nat) : Option NodeSizes := s.sizes.find? (·.node == node)

def outerBuffers (s : SolvedTree) : List LiveBuffer :=
  let step (acc : List BufferId × List LiveBuffer) (p : BufferPlacement) :=
    if acc.1.contains p.buffer then acc
    else (p.buffer :: acc.1, acc.2 ++ [⟨p.buffer.render, p.sizeBytes.toNat, p.lifetime⟩])
  ((s.placements.filter (·.flags.materialized)).foldl step ([], [])).2

/-- A placement line: buffer, level, loop, bytes held, bytes moved, lifetime and whether it is
shared. -/
def placementLine (p : BufferPlacement) : String :=
  p.buffer.render ++ " @L" ++ toString p.level ++ " loop " ++ toString p.createLoop ++ " " ++
    toString p.sizeBytes ++ "B moved " ++ toString p.writeBytes ++ "B " ++ p.lifetime.render ++
    (if p.flags.aliased then " aliased" else "")

/-- Text: a summary line, then the tree with the sizes of every sized node and the placements
under the nodes they are made at. -/
def render (s : SolvedTree) : Except Fault String := do
  let head := "objective " ++ toString s.objective ++ " (" ++ s.status.render ++ ", " ++ toString s.numVars ++
    " vars, " ++ toString s.numConstraints ++ " constraints, " ++ toString s.searchNodes ++ " nodes searched)\n"
  let notes : TreeNotes :=
    { suffix := fun i => match s.nodeSizes? i with
        | some z => " tiles " ++ listText z.tileVars ++ " extents " ++ listText z.extents
        | none => "",
      details := fun i => (s.placements.filter (·.node == i)).map placementLine }
  return head ++ (← s.tree.renderWith notes 0)

def placementJson (p : BufferPlacement) : Json :=
  .obj [("node", .int p.node), ("buffer", p.buffer.toJson), ("aliases", .arr (p.aliases.map BufferId.toJson)),
    ("level", .int p.level), ("create_loop", .int p.createLoop), ("size_bytes", .int p.sizeBytes),
    ("write_bytes", .int p.writeBytes), ("lifetime", p.lifetime.toJson),
    ("flags", .obj [("materialized", .bool p.flags.materialized), ("aliased", .bool p.flags.aliased),
      ("root", .bool p.flags.root)])]

def summaryJson (s : SolvedTree) : List (String × Json) :=
  [("sizes", .arr (s.sizes.map fun z =>
      .obj [("node", .int z.node), ("tile_vars", Json.ofInts z.tileVars), ("extents", Json.ofInts z.extents)])),
    ("placements", .arr (s.placements.map placementJson)), ("objective", .int s.objective),
    ("status", .str s.status.render), ("num_vars", .int s.numVars),
    ("num_constraints", .int s.numConstraints), ("search_nodes", .int s.searchNodes)]

def toJson (s : SolvedTree) : Json := .obj ([("tree", s.tree.toJson)] ++ s.summaryJson)

end SolvedTree

structure Tiler where
  dataflow : Dataflow
  target : Target
  budget : Budget := {}
  deriving Inhabited

namespace Tiler

open Solving

def source : String := "tileopt::schedule::tiler"

def outerLevel (tl : Tiler) : Nat := tl.target.levels.length - 1

def noteBackend (tl : Tiler) : Solving Unit :=
  if tl.budget.backend == .smt then record .warn "tileopt::solver" "built without z3, using branch and bound"
  else pure ()

def ancestors (t : TileTree) : Nat → Option Nat → Solving (List Nat)
  | 0, _ => pure []
  | _ + 1, none => pure []
  | f + 1, some p => do return p :: (← ancestors t f (← tree (t.parent p)))

def heldTerms (sl : Nat) (held : List TileBuffer) : Solving (List Nat) :=
  held.flatMapM fun b => b.positions.zipIdx.mapM fun (_, slot) => do
    let row := b.places.getD slot []
    let place ← tree (itemAt row sl)
    mul place (← tree (itemAt b.sizes slot))

/-- Capacity constraints: for every tile and buffer there, and every bounded memory level
below the tile's own, the buffers live at the same time (at the tile and at enclosing tiles)
placed there fit. Each set of buffers is constrained once per level. -/
def postCapacity (tl : Tiler) (t : TileTree) : Solving Unit := do
  for (id, info) in (← get).memo.tileNodes do
    let level ← tree (t.level id)
    let memo := (← get).memo
    let ancs := (← ancestors t t.fuel (← tree (t.parent id))).filterMap memo.tile?
    let mut posted : List (Nat × List Nat × List (Nat × Nat)) := []
    for b in info.buffers do
      let overlapping := (info.buffers.zipIdx.filter (·.1.lifetime.overlaps b.lifetime)).map (·.2)
      let outer := ancs.zipIdx.flatMap fun (anc, a) =>
        (anc.buffers.zipIdx.filter (·.1.lifetime.overlaps b.lifetime)).map fun (_, i) => (a, i)
      for sl in List.range level do
        let some capacity := tl.target.capacity sl | continue
        if posted.contains (sl, overlapping, outer) then continue
        posted := posted ++ [(sl, overlapping, outer)]
        let held := overlapping.map (info.buffers.getD · default) ++
          outer.map fun (a, i) => (ancs.getD a default).buffers.getD i default
        let terms ← heldTerms sl held
        let used ← sum terms
        let cap ← const (Int.ofNat (min capacity I64.max.toNat))
        post (·.addLessEqual used cap)

/-- Terms `cost · place · moved` of the given buffers, one per placement boolean: the boolean of a
create position and memory level, times the bytes moved at the position, weighed by the level's
transfer cost. -/
def movedTerms (tgt : Target) (bufs : List TileBuffer) : Solving (List (Int × Nat)) :=
  bufs.flatMapM fun b =>
    (b.places.zipIdx.flatMap fun (row, slot) => row.zipIdx.map fun (place, sl) => (place, sl, slot)).mapM
      fun (place, sl, slot) => do
        let moved ← mul place (← tree (itemAt b.writes slot))
        pure (tgt.transferCost sl, moved)

def objective (tl : Tiler) (t : TileTree) : Solving Nat := do
  let memo := (← get).memo
  let terms ← movedTerms tl.target (memo.tileNodes.flatMap fun (_, info) => info.buffers)
  record .debug source ("tree with " ++ toString t.len ++ " nodes: " ++ toString terms.length ++ " objective terms")
  linear terms 0

def minimize (tl : Tiler) (obj : Nat) : Solving Solution := do
  let (recs, r) := (← get).model.minimizeLogged obj tl.budget
  for r in recs do record r.level r.source r.message
  match r with
  | .ok sol => pure sol
  | .error e => throw e.toError

def extract (tl : Tiler) (t : TileTree) (sol : Solution) : Solving SolvedTree := do
  let s ← get
  let memo := s.memo
  let sizes := (← tree (t.preorder t.root)).filterMap fun id => (memo.domain? id).map fun d =>
    ⟨id, d.tileVars.map sol.value, (memo.extentsAt id).map sol.value⟩
  let placements ← (memo.tileNodes.flatMap fun (id, info) => info.buffers.map (id, ·)).mapM fun (id, b) => do
    let some (pos, sl, _) := b.allPlaces.find? fun (_, _, e) => sol.isSet e
      | throw (.unresolvedBuffer b.id.op b.id.index)
    let slot := pos - b.firstPos
    let size ← tree (itemAt b.sizes slot)
    let moved ← tree (itemAt b.writes slot)
    let root := (← tree (t.parent id)).isNone
    pure ({ node := id, buffer := b.id, aliases := b.aliases, level := sl, createLoop := pos,
            sizeBytes := sol.value size, writeBytes := sol.value moved,
            lifetime := b.lifetime, flags := ⟨sl == tl.outerLevel, b.aliases.length > 1, root⟩ } : BufferPlacement)
  return ⟨t, sizes, placements, sol.objective, sol.status, s.model.numVars, s.model.numConstraints, sol.nodes⟩

/-- The model of a tree with tile nodes: both passes, capacity and the objective, whose node it
returns. -/
def buildModel (tl : Tiler) (t : TileTree) : Solving Nat := do
  noteBackend tl
  let _ ← t.createVariables tl.dataflow tl.target
  t.propagateWrites
  postCapacity tl t
  objective tl t

def solveTiled (tl : Tiler) (t : TileTree) : Solving SolvedTree := do
  let obj ← buildModel tl t
  let sol ← minimize tl obj
  if sol.status != .optimal then
    record .debug source ("solver budget exhausted after " ++ toString sol.nodes ++ " nodes, keeping objective " ++
      toString sol.objective)
  extract tl t sol

def solveSingle (tl : Tiler) (t : TileTree) (leaf : OpLeaf) : Solving SolvedTree := do
  let op ← lift (tl.dataflow.op leaf.op)
  noteBackend tl
  -- a running sum: each buffer's size is added as soon as it is known
  let total ← tree ((List.range op.numBuffers).foldlM (fun acc i => do I64.add acc (← op.bufferBytes i)) 0)
  let obj ← const total
  let sol ← minimize tl obj
  let bytes ← (List.range op.numBuffers).mapM fun i => tree (op.bufferBytes i)
  let s ← get
  let placements := bytes.zipIdx.map fun (b, index) =>
    let bid : BufferId := ⟨op.id, index⟩
    ({ node := t.root, buffer := bid, aliases := [bid], level := tl.outerLevel, createLoop := 0,
       sizeBytes := b, writeBytes := b, lifetime := ⟨0, 1⟩, flags := ⟨true, false, true⟩ } : BufferPlacement)
  return ⟨t, [⟨t.root, List.replicate op.rank 1, op.domainBounds⟩], placements, sol.objective, sol.status,
    s.model.numVars, s.model.numConstraints, sol.nodes⟩

/-- Solves a tree whose levels fall from every tile to its children; returns the records made
on the way with the result. -/
def solve (tl : Tiler) (t : TileTree) : Array LogRecord × Outcome SolvedTree :=
  match t.checkLevels with
  | .error e => (#[], .error e)
  | .ok () =>
    let run : Solving SolvedTree := do
      match ← tree (t.kind t.root) with
      | .leaf leaf => solveSingle tl t leaf
      | _ => solveTiled tl t
    let (r, s) := (run.run).run (SolveState.new {} t.len)
    (s.log, r)

end Tiler

end TileSched
