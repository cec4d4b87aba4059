import TileSched.Fusion.Merge
/-!
The tile graph: a dataflow graph with its forest of tile trees under one scope root. At first
every operation has its own chain of tile nodes, one per level from the top down to level one,
ending in its leaf. Merges fuse neighbouring trees level by level.
-/
namespace TileSched

structure TileGraph where
  dataflow : Dataflow
  tree : TileTree
  topLevel : Nat
  deriving Inhabited

namespace TileGraph

def addChain (top : Nat) (t : TileTree) (op : OpNode) : TileTree :=
  let rel := AffineMap.identity op.rank
  let (t, last) := (List.range top).foldl (fun (acc : TileTree × Nat) k =>
    acc.1.addChild acc.2 (.tile ⟨top - k, op.id, rel, op.domainBounds⟩)) (t, t.root)
  (t.addChild last (.leaf ⟨op.id, rel, op.domainBounds⟩)).1

def new (g : Dataflow) (topLevel : Nat) : Outcome TileGraph := do
  g.validate
  if topLevel = 0 then throw (.invalidGraph "tile graph needs at least one tiling level")
  return ⟨g, g.ops.foldl (addChain topLevel) (.new .scope), topLevel⟩

def topTrees (tg : TileGraph) : Outcome (List Nat) := liftFault (tg.tree.children tg.tree.root)

def extractTree (tg : TileGraph) (i : Nat) : Outcome TileTree := liftFault (tg.tree.extract i)

def structuralKey (tg : TileGraph) : Outcome StructuralKey :=
  liftFault (tg.tree.structuralKey tg.tree.root)

/-- Merge points across one pair of neighbouring siblings: none unless both are tiles of one
level; else one per producer edge from a leaf of the first into a leaf of the second. -/
def pairPoints (tg : TileGraph) (x y : Nat) : Except Fault (List MergePoint) := do
  match ← tg.tree.kind x, ← tg.tree.kind y with
  | .tile a, .tile b =>
    if a.level ≠ b.level then return []
    let producers := (← tg.tree.opLeaves x).map (·.1)
    let consumers := (← tg.tree.opLeaves y).map (·.1)
    return consumers.flatMap fun c =>
      match tg.dataflow.ops[c]? with
      | none => []
      | some op => (op.producers.filter producers.contains).map fun p => ⟨p, c, a.level⟩
  | _, _ => return []

/-- Candidate merges, sorted and without repeats: for every pair of neighbouring sibling tiles
of one level, one point per producer edge crossing from the first to the second. They are not
checked for legality. -/
def mergePoints (tg : TileGraph) : Outcome (List MergePoint) := liftFault do
  let nodes ← tg.tree.preorder tg.tree.root
  let pts ← nodes.flatMapM fun n => do
    let cs ← tg.tree.children n
    (cs.zip cs.tail).flatMapM fun (x, y) => tg.pairPoints x y
  return MergePoint.normalize pts

def merge (tg : TileGraph) (mp : MergePoint) : Outcome TileGraph :=
  match Id.run ((mp.apply tg.dataflow).run.run tg.tree) with
  | (.ok (), tree) => .ok { tg with tree }
  | (.error e, _) => .error e

end TileGraph

end TileSched
