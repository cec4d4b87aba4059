import TileSched.Tree.Basic
/-!
JSON of tile trees and structural keys. A node kind is a tagged value: the bare tag `Scope`, or
an object with the one key `Tile` or `Op` holding the node's fields.
-/
namespace TileSched

namespace TileNode

def shape : Shape :=
  .record "TileNode" [("level", .int .usize, none), ("op", .int .usize, none),
    ("relation", AffineMap.shape, none), ("bounds", .seq (.int .i64), none)]

def ofJson (j : Json) : TileNode :=
  ⟨(j.fieldD "level").natD, (j.fieldD "op").natD, .ofJson (j.fieldD "relation"),
    (j.fieldD "bounds").items.map Json.intD⟩

def toJson (n : TileNode) : Json :=
  .obj [("level", .int n.level), ("op", .int n.op), ("relation", n.relation.toJson),
    ("bounds", Json.ofInts n.bounds)]

end TileNode

namespace OpLeaf

def shape : Shape :=
  .record "OpLeaf" [("op", .int .usize, none), ("relation", AffineMap.shape, none),
    ("bounds", .seq (.int .i64), none)]

def ofJson (j : Json) : OpLeaf :=
  ⟨(j.fieldD "op").natD, .ofJson (j.fieldD "relation"), (j.fieldD "bounds").items.map Json.intD⟩

def toJson (o : OpLeaf) : Json :=
  .obj [("op", .int o.op), ("relation", o.relation.toJson), ("bounds", Json.ofInts o.bounds)]

end OpLeaf

namespace NodeKind

def shape : Shape :=
  .variants "NodeKind" [("Scope", none), ("Tile", some TileNode.shape), ("Op", some OpLeaf.shape)]

def ofJson : Json → NodeKind
  | .obj [("Tile", n)] => .tile (TileNode.ofJson n)
  | .obj [("Op", o)] => .leaf (OpLeaf.ofJson o)
  | _ => .scope

def toJson : NodeKind → Json
  | .scope => .str "Scope"
  | .tile n => .obj [("Tile", n.toJson)]
  | .leaf o => .obj [("Op", o.toJson)]

end NodeKind

namespace TreeNode

def shape : Shape :=
  .record "TreeNode" [("kind", NodeKind.shape, none), ("parent", .option (.int .usize), none),
    ("children", .seq (.int .usize), none)]

def ofJson (j : Json) : TreeNode :=
  ⟨.ofJson (j.fieldD "kind"),
    (match j.fieldD "parent" with | .null => none | p => some p.natD),
    (j.fieldD "children").items.map Json.natD⟩

def toJson (n : TreeNode) : Json :=
  .obj [("kind", n.kind.toJson), ("parent", Json.opt (fun p => .int p) n.parent),
    ("children", Json.ofNats n.children)]

end TreeNode

namespace TileTree

def shape : Shape :=
  .record "TileTree" [("nodes", .seq TreeNode.shape, none), ("root", .int .usize, none)]

def ofJson (j : Json) : TileTree :=
  ⟨((j.fieldD "nodes").items.map TreeNode.ofJson).toArray, (j.fieldD "root").natD⟩

def toJson (t : TileTree) : Json :=
  .obj [("nodes", .arr (t.nodes.toList.map TreeNode.toJson)), ("root", .int t.root)]

end TileTree

mutual
def StructuralKey.toJson : StructuralKey → Json
  | .scope cs => .obj [("Scope", .arr (StructuralKey.toJsonAll cs))]
  | .tile level op relation bounds cs =>
    .obj [("Tile", .obj [("level", .int level), ("op", .int op), ("relation", relation.toJson),
      ("bounds", Json.ofInts bounds), ("children", .arr (StructuralKey.toJsonAll cs))])]
  | .leaf op relation => .obj [("Op", .obj [("op", .int op), ("relation", relation.toJson)])]

/-- The keys of children one by one, by structural recursion so that keys evaluate by reduction. -/
def StructuralKey.toJsonAll : List StructuralKey → List Json
  | [] => []
  | c :: cs => c.toJson :: StructuralKey.toJsonAll cs
end

end TileSched
