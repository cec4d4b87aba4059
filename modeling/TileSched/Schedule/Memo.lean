import TileSched.Target
import TileSched.Tree.Basic
import TileSched.Memory.Lifetime
/-!
What a tree solve remembers per node: the tile variables of every tileable node, the extents
and buffer sizes of every operation leaf, and at every tile node the live buffers with their
placement variables, sizes, trip counts and bytes moved. All expressions are named by their
position in the constraint model.
-/
namespace TileSched

/-- A buffer of an operation: an index below the number of reads names a read, the index
equal to it the output. -/
structure BufferId where
  op : Nat
  index : Nat
  deriving DecidableEq, Repr, Inhabited

namespace BufferId

def render (b : BufferId) : String := "op" ++ toString b.op ++ "_" ++ toString b.index

def toJson (b : BufferId) : Json := .obj [("op", .int b.op), ("index", .int b.index)]

def le (a b : BufferId) : Bool := a.op < b.op || (a.op == b.op && a.index ≤ b.index)

end BufferId

structure DomainInfo where
  /-- Trip count of each domain dimension's loop at this node. -/
  tileVars : List Nat
  /-- Product of the trip counts from the root down to this node, per dimension. -/
  forwardExtents : List Nat
  /-- This node's dimension to the parent's, for dimensions passed straight through. -/
  dimsMap : List (Nat × Nat)
  deriving DecidableEq, Repr, Inhabited

structure OpInfo where
  op : Nat
  kernel : KernelInfo
  /-- Extents of the operation: tile variable times primitive. -/
  extents : List Nat
  accessMaps : List AffineMap
  shapes : List (List Nat)
  sizes : List Nat
  deriving DecidableEq, Repr, Inhabited

structure TileBuffer where
  /-- The identity the entry is known by: the source of an aliased pair. -/
  id : BufferId
  /-- Every identity sharing the entry, `id` first. -/
  aliases : List BufferId
  lifetime : Lifetime
  /-- Node domain to buffer. -/
  accessMap : AffineMap
  elemBytes : Int
  mask : LoopMask
  /-- Placement booleans, one row of memory levels per create position. -/
  places : List (List Nat)
  firstPos : Nat
  shapes : List (List Nat)
  sizes : List Nat
  dimTrips : List Nat := []
  trips : List Nat := []
  writes : List Nat := []
  deriving DecidableEq, Repr, Inhabited

namespace TileBuffer

def positions (b : TileBuffer) : List Nat := (List.range b.places.length).map (· + b.firstPos)

def allPlaces (b : TileBuffer) : List (Nat × Nat × Nat) :=
  b.places.zipIdx.flatMap fun (row, slot) => row.zipIdx.map fun (e, sl) => (slot + b.firstPos, sl, e)

end TileBuffer

structure TileInfo where
  /-- Sink to source of the aliasing resolved here, in sink order. -/
  defUse : List (BufferId × BufferId)
  buffers : List TileBuffer := []
  /-- Per create position, the extent of every dimension seen by a buffer created there. -/
  backwardExtents : List (List Nat)
  deriving DecidableEq, Repr, Inhabited

namespace TileInfo

def slotOf? (t : TileInfo) (id : BufferId) : Option Nat :=
  (t.buffers.zipIdx.reverse.find? fun (b, _) => b.aliases.contains id).map (·.2)

def buffer? (t : TileInfo) (id : BufferId) : Option TileBuffer :=
  (t.slotOf? id).bind fun i => t.buffers[i]?

def fullExtents (t : TileInfo) : List Nat := t.backwardExtents.headD []

end TileInfo

structure SolveMemo where
  domains : Array (Option DomainInfo)
  ops : Array (Option OpInfo)
  tiles : Array (Option TileInfo)
  deriving Inhabited

namespace SolveMemo

def empty (n : Nat) : SolveMemo := ⟨Array.replicate n none, Array.replicate n none, Array.replicate n none⟩

def domain? (m : SolveMemo) (i : Nat) : Option DomainInfo := m.domains.getD i none

def op? (m : SolveMemo) (i : Nat) : Option OpInfo := m.ops.getD i none

def tile? (m : SolveMemo) (i : Nat) : Option TileInfo := m.tiles.getD i none

/-- The extents node `i` reports: a tile's full extents, else a leaf's; none for a node
without either memo. -/
def extentsAt (m : SolveMemo) (i : Nat) : List Nat :=
  match m.tile? i, m.op? i with
  | some ti, _ => ti.fullExtents
  | none, some o => o.extents
  | none, none => []

def tileNodes (m : SolveMemo) : List (Nat × TileInfo) :=
  m.tiles.toList.zipIdx.filterMap fun (t, i) => t.map (i, ·)

end SolveMemo

structure BufferResult where
  bid : BufferId
  aliases : List BufferId
  lifetime : Lifetime
  /-- Child domain to buffer. -/
  accessMap : AffineMap
  elemBytes : Int
  deriving DecidableEq, Repr, Inhabited

structure InitResult where
  buffers : List BufferResult := []
  extents : List Nat := []
  deriving DecidableEq, Repr, Inhabited

end TileSched
