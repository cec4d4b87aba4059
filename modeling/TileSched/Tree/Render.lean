import TileSched.Tree.Basic
/-!
Tree text: one line per node, indented two spaces per depth. A scope line names the node, a
tile line adds level, operation and relation, a leaf line adds operation, relation and bounds.
A caller may append a suffix to tile and leaf lines and add detail lines under any node.
-/
namespace TileSched

def listText (xs : List Int) : String := "[" ++ ", ".intercalate (xs.map toString) ++ "]"

def pad (depth : Nat) : String := String.ofList (List.replicate (2 * depth) ' ')

/-- What a caller adds to the plain text: a suffix of tile and leaf lines, and lines shown two
steps deeper than the node. -/
structure TreeNotes where
  suffix : Nat → String := fun _ => ""
  details : Nat → List String := fun _ => []

namespace TileTree

def headLine (notes : TreeNotes) (i : Nat) : NodeKind → String
  | .scope => "Scope " ++ nodeName i ++ "\n"
  | .tile n => "Tile " ++ nodeName i ++ " L" ++ toString n.level ++ " op" ++ toString n.op ++ " " ++
      n.relation.render ++ notes.suffix i ++ "\n"
  | .leaf o => "Op " ++ nodeName i ++ " op" ++ toString o.op ++ " " ++ o.relation.render ++ " " ++
      listText o.bounds ++ notes.suffix i ++ "\n"

def renderAux (t : TileTree) (notes : TreeNotes) : Nat → Nat → Nat → Except Fault String
  | 0, _, _ => .ok ""
  | f + 1, depth, i => do
    let head := pad depth ++ headLine notes i (← t.kind i)
    let extra := String.join ((notes.details i).map fun l => pad (depth + 2) ++ l ++ "\n")
    let body ← (← t.children i).mapM (t.renderAux notes f (depth + 1))
    return head ++ extra ++ String.join body

def renderWith (t : TileTree) (notes : TreeNotes) (depth : Nat) : Except Fault String :=
  t.renderAux notes t.fuel depth t.root

def render (t : TileTree) : Except Fault String := t.renderWith {} 0

end TileTree

end TileSched
