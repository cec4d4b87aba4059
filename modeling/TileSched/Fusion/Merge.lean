import TileSched.Graph.Dataflow
import TileSched.Tree.Render
/-!
Merge points: fusing two adjacent tile subtrees into one. A merge point names a producer, a
consumer and a tiling level. The level's tile nodes holding the two operations must be
adjacent siblings, producer first. They become one tile node over the consumer's domain; the
producer's subtrees move under it through a relation read off the consumer's access to the
producer's output.

Each rejection has its own reason, checked in a fixed order: the leaves, the tile nodes at
the level, sibling and adjacency, then the relation.
-/
namespace TileSched

structure MergePoint where
  producer : Nat
  consumer : Nat
  level : Nat
  deriving DecidableEq, Repr, Inhabited

namespace MergePoint

def le (a b : MergePoint) : Bool :=
  a.producer < b.producer || (a.producer == b.producer &&
    (a.consumer < b.consumer || (a.consumer == b.consumer && a.level ≤ b.level)))

def render (mp : MergePoint) : String :=
  "op" ++ toString mp.producer ++ "->op" ++ toString mp.consumer ++ "@L" ++ toString mp.level

instance : ToString MergePoint := ⟨render⟩

def illegal (mp : MergePoint) (reason : String) : Error :=
  .illegalMerge mp.producer mp.consumer mp.level reason

def normalize (ps : List MergePoint) : List MergePoint :=
  (ps.mergeSort le).eraseDups

end MergePoint

namespace TileTree

def tileAtLevel (t : TileTree) (level : Nat) : Nat → Option Nat → Except Fault (Option Nat)
  | 0, _ => .ok none
  | _ + 1, none => .ok none
  | f + 1, some id => do
    match ← t.kind id with
    | .tile n =>
      if n.level = level then return some id
      else if n.level > level then return none
      else t.tileAtLevel level f (← t.parent id)
    | _ => t.tileAtLevel level f (← t.parent id)

def adjacentIn (x y : Nat) : List Nat → Bool
  | a :: b :: rest => (a == x && b == y) || adjacentIn x y (b :: rest)
  | _ => false

end TileTree

structure MergeSite where
  parent : Nat
  x : Nat
  y : Nat
  producerLeaf : Nat
  consumerLeaf : Nat
  deriving Repr, Inhabited

abbrev TreeEdit := ExceptT Error (StateM TileTree)

def TreeEdit.lift {α : Type} (r : Outcome α) : TreeEdit α :=
  match r with
  | .ok a => pure a
  | .error e => throw e

namespace MergePoint

def locate (mp : MergePoint) (t : TileTree) : Outcome MergeSite := do
  let some pl ← liftFault (t.findOp t.root mp.producer) | throw (mp.illegal "producer not in graph")
  let some cl ← liftFault (t.findOp t.root mp.consumer) | throw (mp.illegal "consumer not in graph")
  let some x ← liftFault (do t.tileAtLevel mp.level t.fuel (← t.parent pl))
    | throw (mp.illegal "producer has no tile node at this level")
  let some y ← liftFault (do t.tileAtLevel mp.level t.fuel (← t.parent cl))
    | throw (mp.illegal "consumer has no tile node at this level")
  if x = y then throw (mp.illegal "already merged")
  let py ← liftFault (t.parent y)
  let px ← liftFault (t.parent x)
  let some p := py.filter (fun p => px == some p) | throw (mp.illegal "not siblings")
  if !TileTree.adjacentIn x y (← liftFault (t.children p)) then throw (mp.illegal "not adjacent")
  return ⟨p, x, y, pl, cl⟩

/-- The relation from the consumer tile's domain to the producer tile's domain: the consumer's
view of the producer's output, carried back through the producer's write, with each dimension
of the producer tile recovered from its path down to the producer leaf. -/
def deriveRelation (mp : MergePoint) (t : TileTree) (g : Dataflow) (at_ : MergeSite) :
    Outcome AffineMap := do
  let producer ← g.op mp.producer
  let consumer ← g.op mp.consumer
  let some read := consumer.readOf? mp.producer | throw (mp.illegal "consumer does not read producer")
  if producer.write.map.results.any (·.asPureDim?.isNone) then
    throw (mp.illegal "producer write map is not a pure projection")
  let toConsumer ← t.relationBelow at_.y at_.consumerLeaf
  let readMap := (consumer.reads.getD read default).map
  let view ← (toConsumer.compose readMap).mapError fun e => mp.illegal e.message
  let some toProducer := producer.producerRelation view | throw (mp.illegal "read rank mismatch")
  let fromX ← t.relationBelow at_.x at_.producerLeaf
  let xBounds ← liftFault (t.bounds at_.x)
  let results ← (List.range xBounds.length).mapM fun j => do
    let some i := fromX.results.findIdx? (·.asPureDim? == some j)
      | throw (mp.illegal ("d" ++ toString j ++ " of the producer tile is not recoverable"))
    liftFault (itemAt toProducer.results i)
  let relation := AffineMap.ofResults view.nIn results
  if !relation.isPureOrConstant then
    throw (mp.illegal ("derived relation " ++ relation.render ++ " is not pure"))
  let yBounds ← liftFault (t.bounds at_.y)
  let projected ← liftFault (relation.applyBounds yBounds)
  if projected ≠ xBounds then
    throw (mp.illegal ("relation maps " ++ listText yBounds ++ " to " ++ listText projected ++
      ", producer tile spans " ++ listText xBounds))
  return relation

/-- Applies the merge to the tree in place: a new tile node over the consumer's domain replaces
the two, adopting the producer tile's children (their relations composed after the derived one)
and then the consumer tile's children. Every check reads the tree as it was; the edits (the
detached node, the adoptions, the splice) come after the last of them. -/
def apply (mp : MergePoint) (g : Dataflow) : TreeEdit Unit := do
  let t ← get
  let at_ ← TreeEdit.lift (mp.locate t)
  let relation ← TreeEdit.lift (mp.deriveRelation t g at_)
  let .tile yn ← TreeEdit.lift (liftFault (t.kind at_.y)) | throw (mp.illegal "consumer node is not a tile")
  let fromX ← TreeEdit.lift do
    (← liftFault (t.children at_.x)).mapM fun c => do
      let some r ← liftFault (t.relation c) | throw (mp.illegal "scope below producer tile")
      let r ← (relation.compose r).mapError fun e => mp.illegal e.message
      return (c, r)
  let fromY ← TreeEdit.lift do
    (← liftFault (t.children at_.y)).mapM fun c => do
      let some r ← liftFault (t.relation c) | throw (mp.illegal "scope below consumer tile")
      return (c, r)
  let merged ← modifyGet fun t => (t.addDetached (.tile { yn with level := mp.level })).swap
  modify fun t => (fromX ++ fromY).foldl (fun t (c, r) => t.adopt merged c r) t
  modify fun t => t.splice at_.parent at_.x at_.y merged

end MergePoint

end TileSched
