import TileSched.Affine.Expr
/-!
Affine maps between loop nests. A map sends `n` input dimensions, each an `(offset, extent)`
pair, to a list of result ranges: offsets are expressions over the input offsets and extents
over the input extents, so one map says both which element a loop index touches and how large
a tile is. Composition substitutes offsets into offsets and extents into extents.
-/
namespace TileSched

structure AffineRange where
  offset : AffineExpr
  extent : AffineExpr
  deriving DecidableEq, Repr, Inhabited

namespace AffineRange

def dim (k nDim nSym : Nat) : AffineRange := ⟨.dim k nDim nSym, .dim k nDim nSym⟩

def const (o e : Int) (nDim nSym : Nat) : AffineRange := ⟨.const o nDim nSym, .const e nDim nSym⟩

def asPureDim? (r : AffineRange) : Option Nat :=
  match r.offset.asPureDim?, r.extent.asPureDim? with
  | some a, some b => if a = b then some a else none
  | _, _ => none

def asConstant? (r : AffineRange) : Option (Int × Int) := do
  return (← r.offset.asConstant?, ← r.extent.asConstant?)

def shape : Shape :=
  .record "AffineRange" [("offset", AffineExpr.shape, none), ("extent", AffineExpr.shape, none)]

def ofJson (j : Json) : AffineRange :=
  ⟨.ofJson (j.fieldD "offset"), .ofJson (j.fieldD "extent")⟩

def toJson (r : AffineRange) : Json :=
  .obj [("offset", r.offset.toJson), ("extent", r.extent.toJson)]

end AffineRange

structure LoopMask where
  bits : Nat
  deriving DecidableEq, Repr, Inhabited

namespace LoopMask

def isRelated (m : LoopMask) (d : Nat) : Bool := d < 32 && m.bits.testBit d

def union (a b : LoopMask) : LoopMask := ⟨a.bits ||| b.bits⟩

def count (m : LoopMask) : Nat := ((List.range 32).filter m.isRelated).length

def render (m : LoopMask) : String := "0b" ++ String.ofList (Nat.toDigits 2 m.bits)

end LoopMask

structure AffineMap where
  nDim : Nat
  nSym : Nat := 0
  results : List AffineRange
  deriving DecidableEq, Repr, Inhabited

namespace AffineMap

def identity (n : Nat) : AffineMap := ⟨n, 0, (List.range n).map (fun i => .dim i n 0)⟩

def ofResults (nDim : Nat) (results : List AffineRange) : AffineMap :=
  ⟨nDim, (results.map fun r => max r.offset.nSym r.extent.nSym).foldl max 0, results⟩

def permutation (nDim : Nat) (perm : List Nat) : AffineMap :=
  ⟨nDim, 0, perm.map (fun i => .dim i nDim 0)⟩

def primitive (factors : List Int) : Except Fault AffineMap := do
  let n := factors.length
  let rs ← factors.zipIdx.mapM fun (f, i) => do
    return (⟨.dim i n 0, ← (AffineExpr.dim i n 0).scale f⟩ : AffineRange)
  return ⟨n, 0, rs⟩

def nIn (m : AffineMap) : Nat := m.nDim

def nOut (m : AffineMap) : Nat := m.results.length

def render (m : AffineMap) : String :=
  let dims := (List.range m.nDim).map (fun i => "d" ++ toString i)
  let exts := (List.range m.nDim).map (fun i => "t" ++ toString i)
  let syms := (List.range m.nSym).map (fun i => "s" ++ toString i)
  let rs := m.results.map fun r => r.offset.renderWith dims syms ++ "@" ++ r.extent.renderWith exts syms
  "(" ++ ", ".intercalate dims ++ ") -> (" ++ ", ".intercalate rs ++ ")"

def compose (m o : AffineMap) : Outcome AffineMap :=
  if m.nOut ≠ o.nIn then
    .error (.affineMismatch ("cannot compose " ++ m.render ++ " (" ++ toString m.nOut ++
      " results) with " ++ o.render ++ " (" ++ toString o.nIn ++ " inputs)"))
  else liftFault do
    let offsets := m.results.map (·.offset)
    let extents := m.results.map (·.extent)
    let rs ← o.results.mapM fun r => do
      let off ← r.offset.substitute offsets m.nDim
      let ext ← r.extent.substitute extents m.nDim
      return (⟨off, ext⟩ : AffineRange)
    return ofResults m.nDim rs

def applyRanges (m : AffineMap) (ranges : List (Int × Int)) (syms : List Int) :
    Except Fault (List (Int × Int)) :=
  let offs := ranges.map (·.1)
  let exts := ranges.map (·.2)
  m.results.mapM fun r => do
    let o ← r.offset.evaluate offs syms
    let e ← r.extent.evaluate exts syms
    return (o, e)

def applyBounds (m : AffineMap) (bounds : List Int) : Except Fault (List Int) := do
  let rs ← m.applyRanges (bounds.map fun b => (0, b)) []
  return rs.map (·.2)

def loopMask (m : AffineMap) (i : Nat) : LoopMask :=
  match m.results[i]? with
  | some r => ⟨r.offset.dimMask ||| r.extent.dimMask⟩
  | none => ⟨0⟩

def bufferMask (m : AffineMap) : LoopMask :=
  (List.range m.nOut).foldl (fun acc i => acc.union (m.loopMask i)) ⟨0⟩

def dimsMap (m : AffineMap) : List (Nat × Nat) :=
  m.results.zipIdx.filterMap fun (r, k) => r.asPureDim?.map (k, ·)

def dimOf? (m : AffineMap) (k : Nat) : Option Nat :=
  (m.dimsMap.find? (·.1 == k)).map (·.2)

def isPureOrConstant (m : AffineMap) : Bool :=
  m.results.all fun r => r.asPureDim?.isSome || r.asConstant?.isSome

def isIdentity (m : AffineMap) : Bool :=
  m.nIn == m.nOut && m.results.zipIdx.all fun (r, i) => r.asPureDim? == some i

def shape : Shape :=
  .record "AffineMap" [("n_dim", .int .usize, none), ("n_sym", .int .usize, some (.int 0)),
    ("results", .seq AffineRange.shape, none)]

def ofJson (j : Json) : AffineMap :=
  ⟨(j.fieldD "n_dim").natD, (j.fieldD "n_sym").natD, (j.fieldD "results").items.map AffineRange.ofJson⟩

def toJson (m : AffineMap) : Json :=
  .obj [("n_dim", .int m.nDim), ("n_sym", .int m.nSym), ("results", .arr (m.results.map AffineRange.toJson))]

end AffineMap

end TileSched
