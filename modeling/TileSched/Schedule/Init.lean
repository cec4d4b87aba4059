import TileSched.Schedule.Pass
/-!
The first solve pass: variables and buffers. One walk from the root creates the tile variables
of every tileable node (once per node: a later visit reuses them), multiplies trip counts on
the way down into forward extents, and on the way up reports each subtree's live buffers and
extents to its parent. A tile node ties its children's extents together, lifts their buffers
into its own domain, joins each read of a produced value with the produced buffer, and gives
every buffer one placement boolean per create position and memory level below its own.
-/
namespace TileSched

structure InitContext where
  parent : Option Nat := none
  forwardExtents : List Nat := []
  deriving DecidableEq, Repr, Inhabited

/-- Entry `e` sharing its storage with `sink`: the entry lives as long as both and takes the
reader's access map. -/
def BufferResult.absorb (e sink : BufferResult) : BufferResult :=
  { e with lifetime := e.lifetime.union sink.lifetime, accessMap := sink.accessMap,
           aliases := e.aliases ++ sink.aliases }

namespace Init

open Solving

def source : String := "tileopt::schedule::initializer"

/-- The tile variables of node `id`, made on the first visit: one variable per dimension over
its legal counts, and forward extents multiplied by the parent's for dimensions passed
straight through (none at a root). -/
def domainInfo (id : Nat) (relation : AffineMap) (domains : List (List Int)) (ctx : InitContext) :
    Solving DomainInfo := do
  if let some d := (← get).memo.domain? id then return d
  let tileVars ← domains.zipIdx.mapM fun (dom, d) => do
    if dom.isEmpty then
      throw (.infeasible (TileTree.nodeName id ++ " dim " ++ toString d ++ " has no legal tile count"))
    buildSolved (·.newInt ("tv_" ++ TileTree.nodeName id ++ "_" ++ toString d) dom)
  let dimsMap := if ctx.parent.isSome then relation.dimsMap else []
  let forward ← tileVars.zipIdx.mapM fun (tv, d) => do
    match (dimsMap.lookup d).bind (ctx.forwardExtents[·]?) with
    | some p => mul tv p
    | none => pure tv
  let info : DomainInfo := ⟨tileVars, forward, dimsMap⟩
  memo fun m => { m with domains := m.domains.set! id (some info) }
  return info

def nextStamp : Solving Nat := modifyGet fun s => (s.clock, { s with clock := s.clock + 2 })

def cached? (id : Nat) : Solving (Option InitResult) := return (← get).results.getD id none

def remember (id : Nat) (r : InitResult) : Solving Unit :=
  modify fun s => { s with results := s.results.set! id (some r) }

/-- A leaf: tile variables over the kernel's legal counts, the absolute extent of every
dimension pinned to its bound, and every buffer over the leaf's extents, live for one step. -/
def visitLeaf (g : Dataflow) (tgt : Target) (id : Nat) (leaf : OpLeaf) (ctx : InitContext) :
    Solving InitResult := do
  if let some r ← cached? id then return r
  let op ← lift (g.op leaf.op)
  let kernel := tgt.kernelInfo op
  let domains := op.domainBounds.zipIdx.map fun (b, d) => kernel.opTileDomain d b
  let domain ← domainInfo id leaf.relation domains ctx
  let extents ← op.domainBounds.zipIdx.mapM fun (bound, d) => do
    let p := kernel.primitive d
    let absolute ← scale (← tree (itemAt domain.forwardExtents d)) p
    let expected ← const bound
    post (·.addEqual absolute expected)
    scale (← tree (itemAt domain.tileVars d)) p
  let t ← nextStamp
  let parts ← (List.range op.numBuffers).mapM fun index => do
    let some m := op.bufferMap? index | throw (.unresolvedBuffer op.id index)
    let (shape, size) ← shapeAndSize m extents (op.elemBytes index)
    let bid : BufferId := ⟨op.id, index⟩
    return ((⟨bid, [bid], ⟨t, t + 1⟩, m, op.elemBytes index⟩ : BufferResult), m, shape, size)
  record .trace source ("op leaf " ++ TileTree.nodeName id ++ " (" ++ op.name ++ ") at t=" ++ toString t)
  memo fun mm => { mm with ops := mm.ops.set! id (some ⟨op.id, kernel, extents,
    parts.map (·.2.1), parts.map (·.2.2.1), parts.map (·.2.2.2)⟩) }
  let r : InitResult := ⟨parts.map (·.1), extents⟩
  remember id r
  return r

/-- The extent of every dimension of tile `id` from its children: a child dimension passed
straight through gives it (and must equal any earlier one), a child dimension over a constant
range is pinned to that range's extent. A dimension no child gives is unresolved. -/
def childExtents (t : TileTree) (id : Nat) (rank : Nat) (children : List (Nat × InitResult)) :
    Solving (List Nat) := do
  let found ← children.foldlM (fun (found : List (Option Nat)) (child, res) => do
    let some rel ← tree (t.relation child)
      | throw (.invalidGraph ("scope " ++ TileTree.nodeName child ++ " under tile " ++ TileTree.nodeName id))
    rel.results.zipIdx.foldlM (fun found (range, k) => do
      let some ext := res.extents[k]? | pure found
      match range.asPureDim? with
      | some j =>
        match found.getD j none with
        | some prev => post (·.addEqual prev ext); pure found
        | none => pure (if j < found.length then found.set j (some ext) else found)
      | none =>
        match range.asConstant? with
        | some (_, extent) =>
          let pinned ← const extent
          post (·.addEqual ext pinned)
          pure found
        | none => pure found) found) (List.replicate rank none)
  found.zipIdx.mapM fun (e, dim) => do
    let some e := e | throw (.unresolvedDimension id dim)
    pure e

/-- The pairs joined so far after buffer `b`: when `b` reads a produced value whose output is among
`present`, the pair of `b` with that output replaces any earlier pair of `b`. -/
def joinRead (g : Dataflow) (present : List BufferId) (du : List (BufferId × BufferId)) (b : BufferResult) :
    Solving (List (BufferId × BufferId)) := do
  let op ← lift (g.op b.bid.op)
  let some read := op.reads[b.bid.index]? | pure du
  let some producer := read.producer | pure du
  let source : BufferId := ⟨producer, (← lift (g.op producer)).outputIndex⟩
  if present.contains source then
    pure ((du.filter (·.1 != b.bid)) ++ [(b.bid, source)])
  else pure du

def absorbSink (sources : List BufferResult) (defUse : List (BufferId × BufferId))
    (merged : List BufferResult) (sink : BufferResult) : Solving (List BufferResult) := do
  let source := ((defUse.find? (·.1 == sink.bid)).map (·.2)).getD sink.bid
  let slot := (sources.zipIdx.reverse.find? fun (b, _) => b.aliases.contains source).map (·.2)
  let some slot := slot | throw (.unresolvedBuffer source.op source.index)
  pure (merged.modify slot (·.absorb sink))

/-- Joins reads of produced values with the produced buffers present: a read whose producer's
output is among the buffers becomes an alias of it, the entry living as long as both and taking
the reader's access map. Returns the buffers and the pairs joined, in sink order. -/
def resolveDefUse (g : Dataflow) (buffers : List BufferResult) :
    Solving (List BufferResult × List (BufferId × BufferId)) := do
  let present := buffers.flatMap (·.aliases)
  let defUse ← buffers.foldlM (joinRead g present) []
  let isSink (b : BufferResult) : Bool := defUse.any (·.1 == b.bid)
  let sources := buffers.filter (!isSink ·)
  let sinks := buffers.filter isSink
  let merged ← sinks.foldlM (absorbSink sources defUse) sources
  return (merged, defUse.mergeSort fun a b => a.1.le b.1)

/-- Rows of backward extents: at create position `pos`, dimensions before `pos` take the child
extent and the others that extent times the node's tile variable. -/
def backwardRows (tileVars inner : List Nat) : Solving (List (List Nat)) :=
  (List.range (inner.length + 1)).mapM fun pos =>
    inner.zipIdx.mapM fun (ext, j) => do
      if j < pos then pure ext else mul (← tree (itemAt tileVars j)) ext

/-- The placement booleans, shapes and sizes of one buffer at tile `id`, and the exactly-one
choice among its booleans. -/
def placeBuffer (id level firstPos : Nat) (backward : List (List Nat)) (b : BufferResult) :
    Solving TileBuffer := do
  let rows ← (List.range (backward.length - firstPos)).mapM fun k => do
    let pos := k + firstPos
    let row ← (List.range level).mapM fun sl =>
      build (·.newBool ("place_" ++ TileTree.nodeName id ++ "_" ++ b.bid.render ++ "_" ++ toString pos ++
        "_" ++ toString sl))
    let (shape, size) ← shapeAndSize b.accessMap (← tree (itemAt backward pos)) b.elemBytes
    return (row, shape, size)
  let all := rows.flatMap (·.1)
  let s ← get
  match s.model.addExactlyOne all with
  | .ok m => set { s with model := m }
  | .error e => throw e.toError
  return { id := b.bid, aliases := b.aliases, lifetime := b.lifetime, accessMap := b.accessMap,
           elemBytes := b.elemBytes, mask := b.accessMap.bufferMask, places := rows.map (·.1),
           firstPos, shapes := rows.map (·.2.1), sizes := rows.map (·.2.2) }

/-- A tile node after its children: extents, backward rows, the bounds pinned at a root, the
children's buffers lifted and joined, and the placement of every buffer. A root tile at the
target's top level may also create buffers outside all its loops. -/
def finishTile (g : Dataflow) (tgt : Target) (t : TileTree) (id : Nat) (tile : TileNode)
    (ctx : InitContext) (domain : DomainInfo) (children : List (Nat × InitResult)) :
    Solving InitResult := do
  let inner ← childExtents t id tile.bounds.length children
  let backward ← backwardRows domain.tileVars inner
  if ctx.parent.isNone then
    for (bound, j) in tile.bounds.zipIdx do
      let expected ← const bound
      let row ← tree (itemAt backward 0)
      let e ← tree (itemAt row j)
      post (·.addEqual e expected)
  let lifted ← children.foldlM (fun (acc : List BufferResult) (child, res) => do
    let some rel ← tree (t.relation child)
      | throw (.invalidGraph ("scope " ++ TileTree.nodeName child ++ " under tile " ++ TileTree.nodeName id))
    let bs ← res.buffers.mapM fun b => do return { b with accessMap := ← lift (rel.compose b.accessMap) }
    pure (acc ++ bs)) []
  let (buffers, defUse) ← resolveDefUse g lifted
  let firstPos := if ctx.parent.isNone ∧ tile.level = tgt.topLevel then 0 else 1
  let placed ← buffers.mapM (placeBuffer id tile.level firstPos backward)
  let info : TileInfo := ⟨defUse, placed, backward⟩
  record .trace source ("tile " ++ TileTree.nodeName id ++ " level " ++ toString tile.level ++ ": " ++
    toString placed.length ++ " buffers, " ++ toString defUse.length ++ " aliased")
  memo fun m => { m with tiles := m.tiles.set! id (some info) }
  let r : InitResult := ⟨buffers, info.fullExtents⟩
  remember id r
  return r

/-- The walk, with fuel for the depth. A scope passes its context through and gathers the
buffers of its children; it reports no extents and is not remembered. -/
def visit (g : Dataflow) (tgt : Target) (t : TileTree) : Nat → Nat → InitContext → Solving InitResult
  | 0, _, _ => pure {}
  | f + 1, id, ctx => do
    match ← tree (t.kind id) with
    | .leaf leaf => visitLeaf g tgt id leaf ctx
    | .tile tile =>
      if let some r ← cached? id then return r
      let domain ← domainInfo id tile.relation (tile.bounds.map divisors) ctx
      let childCtx : InitContext := ⟨some id, domain.forwardExtents⟩
      let children ← (← tree (t.children id)).mapM fun c => do
        return (c, ← visit g tgt t f c childCtx)
      finishTile g tgt t id tile ctx domain children
    | .scope =>
      let rs ← (← tree (t.children id)).mapM fun c => visit g tgt t f c ctx
      return ⟨rs.flatMap (·.buffers), []⟩

end Init

def TileTree.createVariables (t : TileTree) (g : Dataflow) (tgt : Target) : Solving InitResult :=
  Init.visit g tgt t t.fuel t.root {}

def TileTree.checkLevels (t : TileTree) : Outcome Unit := do
  for id in ← liftFault (t.preorder t.root) do
    if let .tile n ← liftFault (t.kind id) then
      if n.level = 0 then throw (.invalidGraph ("tile " ++ nodeName id ++ " at level 0"))
      for c in ← liftFault (t.children id) do
        if (← liftFault (t.level c)) ≥ n.level then
          throw (.invalidGraph ("child " ++ nodeName c ++ " of tile " ++ nodeName id ++
            " is not below level " ++ toString n.level))

end TileSched
