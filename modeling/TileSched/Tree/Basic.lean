import TileSched.Graph.Op
/-!
Tile trees. A tile tree nests scopes (groups of independent subtrees), tile nodes (one level
of loops over a domain) and operation leaves. Nodes live in a table addressed by position;
every node records its parent and its children.

A tree read from data may name nodes the table lacks; every lookup is therefore checked and
fails with an index fault. Walks that follow links take their fuel from the table size: in a
table without cycles no path is longer than the table.
-/
namespace TileSched

structure TileNode where
  /-- Nesting level: zero is the primitive level, growing outward. -/
  level : Nat
  /-- The operation whose domain the node tiles. -/
  op : Nat
  /-- Parent domain to this node's domain. -/
  relation : AffineMap
  /-- Extent of every domain dimension. -/
  bounds : List Int
  deriving DecidableEq, Repr, Inhabited

structure OpLeaf where
  op : Nat
  /-- Parent domain to the operation's domain. -/
  relation : AffineMap
  bounds : List Int
  deriving DecidableEq, Repr, Inhabited

inductive NodeKind where
  | scope
  | tile (t : TileNode)
  | leaf (o : OpLeaf)
  deriving DecidableEq, Repr, Inhabited

structure TreeNode where
  kind : NodeKind
  parent : Option Nat := none
  children : List Nat := []
  deriving DecidableEq, Repr, Inhabited

/-- The shape of a subtree without positions: two subtrees with the same key give the same
constraint model. -/
inductive StructuralKey where
  | scope (children : List StructuralKey)
  | tile (level op : Nat) (relation : AffineMap) (bounds : List Int) (children : List StructuralKey)
  | leaf (op : Nat) (relation : AffineMap)
  deriving Repr, Inhabited

structure TileTree where
  nodes : Array TreeNode
  root : Nat := 0
  deriving DecidableEq, Repr, Inhabited

def NodeKind.relation? : NodeKind → Option AffineMap
  | .tile t => some t.relation
  | .leaf o => some o.relation
  | .scope => none

def NodeKind.bounds : NodeKind → List Int
  | .tile t => t.bounds
  | .leaf o => o.bounds
  | .scope => []

namespace TileTree

def new (k : NodeKind) : TileTree := ⟨#[{ kind := k }], 0⟩

def singleOp (op : Nat) (bounds : List Int) : TileTree :=
  new (.leaf ⟨op, .identity bounds.length, bounds⟩)

def len (t : TileTree) : Nat := t.nodes.size

def addChild (t : TileTree) (parent : Nat) (k : NodeKind) : TileTree × Nat :=
  let id := t.nodes.size
  let nodes := (t.nodes.push { kind := k, parent := some parent }).modify parent
    fun n => { n with children := n.children ++ [id] }
  ({ t with nodes }, id)

def addDetached (t : TileTree) (k : NodeKind) : TileTree × Nat :=
  ({ t with nodes := t.nodes.push { kind := k } }, t.nodes.size)

def node (t : TileTree) (i : Nat) : Except Fault TreeNode := entryAt t.nodes i

def kind (t : TileTree) (i : Nat) : Except Fault NodeKind := return (← t.node i).kind

def children (t : TileTree) (i : Nat) : Except Fault (List Nat) := return (← t.node i).children

def parent (t : TileTree) (i : Nat) : Except Fault (Option Nat) := return (← t.node i).parent

def relation (t : TileTree) (i : Nat) : Except Fault (Option AffineMap) :=
  return (← t.kind i).relation?

def bounds (t : TileTree) (i : Nat) : Except Fault (List Int) := return (← t.kind i).bounds

def fuel (t : TileTree) : Nat := t.nodes.size + 1

def levelAux (t : TileTree) : Nat → Nat → Except Fault Nat
  | 0, _ => .ok 0
  | f + 1, i => do
    match ← t.kind i with
    | .tile n => return n.level
    | .leaf _ => return 0
    | .scope =>
      let ls ← (← t.children i).mapM (t.levelAux f)
      return ls.foldl (fun m l => max m (l + 1)) 0

/-- Level of node `i`: a tile's own level, zero for a leaf, and for a scope one above its
highest child (zero when empty). -/
def level (t : TileTree) (i : Nat) : Except Fault Nat := t.levelAux t.fuel i

def preorderAux (t : TileTree) : Nat → Nat → Except Fault (List Nat)
  | 0, _ => .ok []
  | f + 1, i => do
    let subs ← (← t.children i).mapM (t.preorderAux f)
    return i :: subs.flatten

def preorder (t : TileTree) (i : Nat) : Except Fault (List Nat) := t.preorderAux t.fuel i

def opLeaves (t : TileTree) (i : Nat) : Except Fault (List (Nat × Nat)) := do
  (← t.preorder i).filterMapM fun n => do
    match ← t.kind n with
    | .leaf o => return some (o.op, n)
    | _ => return none

def findOp (t : TileTree) (i op : Nat) : Except Fault (Option Nat) := do
  return ((← t.opLeaves i).find? (·.1 == op)).map (·.2)

def nodeName (i : Nat) : String := "n" ++ toString i

def pathUp (t : TileTree) (ancestor node : Nat) : Nat → Nat → Outcome (List Nat)
  | 0, _ => .ok []
  | f + 1, cur =>
    if cur = ancestor then .ok []
    else do
      match ← liftFault (t.parent cur) with
      | some p => return cur :: (← t.pathUp ancestor node f p)
      | none => throw (.invalidGraph (nodeName ancestor ++ " is not an ancestor of " ++ nodeName node))

/-- The relations strictly below `ancestor` down to `node`, composed: `ancestor`'s domain to
`node`'s domain. -/
def relationBelow (t : TileTree) (ancestor node : Nat) : Outcome AffineMap := do
  let path ← t.pathUp ancestor node t.fuel node
  let start := AffineMap.identity (← liftFault (t.bounds ancestor)).length
  path.reverse.foldlM (fun acc n => do
    match ← liftFault (t.relation n) with
    | some r => acc.compose r
    | none => throw (.invalidGraph ("scope " ++ nodeName n ++ " on a relation path"))) start

def tiledTop (t : TileTree) : Nat → Nat → Except Fault Nat
  | 0, i => .ok i
  | f + 1, i => do
    match ← t.parent i with
    | none => return i
    | some p => if (← t.kind p) = .scope then return i else t.tiledTop f p

/-- Relations from the outermost tiled ancestor of `node` down to it, that ancestor's own
relation included. -/
def absoluteRelation (t : TileTree) (node : Nat) : Outcome AffineMap := do
  let top ← liftFault (t.tiledTop t.fuel node)
  match ← liftFault (t.relation top) with
  | none => throw (.invalidGraph (nodeName top ++ " has no relation"))
  | some own => own.compose (← t.relationBelow top node)

/-- Copies the children of `src` below `dst` of `out`, all of them first, then the subtree of
each from the last to the first. -/
def copyBelow (t : TileTree) : Nat → Nat → Nat → TileTree → Except Fault TileTree
  | 0, _, _, out => .ok out
  | f + 1, src, dst, out => do
    let cs ← t.children src
    let (out, pairs) ← cs.foldlM (fun (acc : TileTree × List (Nat × Nat)) c => do
      let (o, nc) := acc.1.addChild dst (← t.kind c)
      return (o, (c, nc) :: acc.2)) (out, [])
    pairs.foldlM (fun o (c, nc) => t.copyBelow f c nc o) out

def extract (t : TileTree) (i : Nat) : Except Fault TileTree := do
  t.copyBelow t.fuel i 0 (new (← t.kind i))

def keyAux (t : TileTree) : Nat → Nat → Except Fault StructuralKey
  | 0, _ => .ok (.scope [])
  | f + 1, i => do
    match ← t.kind i with
    | .scope => return .scope (← (← t.children i).mapM (t.keyAux f))
    | .tile n => return .tile n.level n.op n.relation n.bounds (← (← t.children i).mapM (t.keyAux f))
    | .leaf o => return .leaf o.op o.relation

def structuralKey (t : TileTree) (i : Nat) : Except Fault StructuralKey := t.keyAux t.fuel i

/-- Replaces `old` by `new` among the children of `parent` and drops `removed` from them; the
two replaced nodes stay in the table without parent. -/
def splice (t : TileTree) (parent removed old new : Nat) : TileTree :=
  let nodes := t.nodes.modify parent fun n =>
    { n with children := (n.children.filter (· != removed)).map fun c => if c = old then new else c }
  let nodes := nodes.modify new fun n => { n with parent := some parent }
  let nodes := nodes.modify old fun n => { n with parent := none }
  { t with nodes := nodes.modify removed fun n => { n with parent := none } }

def adopt (t : TileTree) (parent child : Nat) (relation : AffineMap) : TileTree :=
  let nodes := t.nodes.modify child fun n =>
    { n with
      kind := match n.kind with
        | .tile x => .tile { x with relation }
        | .leaf o => .leaf { o with relation }
        | .scope => .scope,
      parent := some parent }
  { t with nodes := nodes.modify parent fun n => { n with children := n.children ++ [child] } }

end TileTree

end TileSched
