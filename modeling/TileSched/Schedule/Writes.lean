import TileSched.Schedule.Init
/-!
The second solve pass: trip counts and bytes moved. From a count of one at the root, every
tile node multiplies each live buffer's per-dimension trip count by its own tile variable
(when the buffer depends on that loop) and by the count the parent's matching dimension
carries. A buffer created at position `pos` is loaded once per entry of the loops outside that
position it depends on, times the counts carried in from above; the bytes moved there are its
size times that number of loads.
-/
namespace TileSched

namespace Writes

open Solving

/-- The trip counts carried into tile `id` per dimension for buffer `bid`: one at the root, else
the count of the parent's entry on the parent dimension the node's dimension passes through. -/
def inheritedTrips (memo : SolveMemo) (rank : Nat) (domain : DomainInfo) (parent : Option Nat) (one : Nat)
    (bid : BufferId) : Solving (List Nat) :=
  match parent with
  | none => pure (List.replicate rank one)
  | some p => do
    let some pb := (memo.tile? p).bind (·.buffer? bid) | throw (.unresolvedBuffer bid.op bid.index)
    pure ((List.range rank).map fun k => ((domain.dimsMap.lookup k).bind (pb.dimTrips[·]?)).getD one)

def fillBuffer (id rank : Nat) (domain : DomainInfo) (parent : Option Nat) (one : Nat) (bid : BufferId) :
    Solving Unit := do
  let memo := (← get).memo
  let inherited ← inheritedTrips memo rank domain parent one bid
  let some info := (memo.tile? id).bind (·.buffer? bid) | throw (.unresolvedBuffer bid.op bid.index)
  let dimTrips ← (List.range rank).mapM fun k => do
    let own ← if info.mask.isRelated k then tree (itemAt domain.tileVars k) else pure one
    mul own (← tree (itemAt inherited k))
  let total ← product inherited
  let tw ← info.positions.zipIdx.mapM fun (pos, slot) => do
    let factors ← ((List.range pos).filter info.mask.isRelated).mapM (tree <| itemAt domain.tileVars ·)
    let trip ← product (factors ++ [total])
    let moved ← mul (← tree (itemAt info.sizes slot)) trip
    pure (trip, moved)
  let some tile := memo.tile? id | throw (.unresolvedBuffer bid.op bid.index)
  let some slot := tile.slotOf? bid | throw (.unresolvedBuffer bid.op bid.index)
  let tile := { tile with buffers := tile.buffers.modify slot fun b =>
    { b with dimTrips, trips := tw.map (·.1), writes := tw.map (·.2) } }
  Solving.memo fun m => { m with tiles := m.tiles.set! id (some tile) }

def visit (t : TileTree) : Nat → Nat → Option Nat → Solving Unit
  | 0, _, _ => pure ()
  | f + 1, id, parent => do
    match ← tree (t.kind id) with
    | .leaf _ => pure ()
    | .tile n =>
      let some domain := (← get).memo.domain? id
        | throw (.invalidGraph ("tile " ++ TileTree.nodeName id ++ " has no tile variables"))
      let one ← const 1
      let some info := (← get).memo.tile? id
        | throw (.invalidGraph ("tile " ++ TileTree.nodeName id ++ " was never initialized"))
      for bid in info.buffers.map (·.id) do
        fillBuffer id n.bounds.length domain parent one bid
      for c in ← tree (t.children id) do visit t f c (some id)
    | .scope =>
      for c in ← tree (t.children id) do visit t f c parent

end Writes

def TileTree.propagateWrites (t : TileTree) : Solving Unit := Writes.visit t t.fuel t.root none

end TileSched
