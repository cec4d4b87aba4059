import TileSched.Error
import TileSched.Json.Text
/-!
Affine expressions over loop dimensions and symbols: a constant plus one integer coefficient
per dimension and per symbol. Arithmetic on them is word arithmetic and faults on overflow;
evaluation, scaling and substitution agree with the exact integer meaning whenever they succeed.
-/
namespace TileSched

structure AffineExpr where
  constant : Int
  coeffs : List Int
  symCoeffs : List Int := []
  deriving DecidableEq, Repr, Inhabited

namespace AffineExpr

def zero (nDim nSym : Nat) : AffineExpr :=
  ⟨0, List.replicate nDim 0, List.replicate nSym 0⟩

def const (v : Int) (nDim nSym : Nat) : AffineExpr :=
  ⟨v, List.replicate nDim 0, List.replicate nSym 0⟩

def dim (k nDim nSym : Nat) : AffineExpr :=
  ⟨0, (List.range nDim).map (fun i => if i = k then 1 else 0), List.replicate nSym 0⟩

def symbol (s nDim nSym : Nat) : AffineExpr :=
  ⟨0, List.replicate nDim 0, (List.range nSym).map (fun i => if i = s then 1 else 0)⟩

def nDim (e : AffineExpr) : Nat := e.coeffs.length

def nSym (e : AffineExpr) : Nat := e.symCoeffs.length

def isConstant (e : AffineExpr) : Bool :=
  e.coeffs.all (· == 0) && e.symCoeffs.all (· == 0)

def asConstant? (e : AffineExpr) : Option Int :=
  if e.isConstant then some e.constant else none

def pureDimOf : List Int → Nat → Option Nat → Option Nat
  | [], _, found => found
  | c :: cs, i, found =>
    if c = 0 then pureDimOf cs (i + 1) found
    else if c = 1 ∧ found.isNone then pureDimOf cs (i + 1) (some i)
    else none

def asPureDim? (e : AffineExpr) : Option Nat :=
  if e.constant ≠ 0 ∨ e.symCoeffs.any (· != 0) then none
  else pureDimOf e.coeffs 0 none

def coeff (e : AffineExpr) (d : Nat) : Int := e.coeffs.getD d 0

def dependsOn (e : AffineExpr) (d : Nat) : Bool := e.coeff d != 0

def dimMask (e : AffineExpr) : Nat :=
  (e.coeffs.zipIdx.filter (fun (c, i) => c != 0 && i < 32)).foldl (fun m (_, i) => m ||| Nat.pow 2 i) 0

def addTerms (acc : Int) : List Int → List Int → Except Fault Int
  | c :: cs, v :: vs => do addTerms (← I64.add acc (← I64.mul c v)) cs vs
  | _, _ => .ok acc

/-- Value at dimension values `dims` and symbol values `syms`; a missing value leaves its term
out. -/
def evaluate (e : AffineExpr) (dims syms : List Int) : Except Fault Int := do
  let r ← addTerms e.constant e.coeffs dims
  addTerms r e.symCoeffs syms

def scale (e : AffineExpr) (f : Int) : Except Fault AffineExpr := do
  let c ← I64.mul e.constant f
  let cs ← e.coeffs.mapM (I64.mul · f)
  let ss ← e.symCoeffs.mapM (I64.mul · f)
  return ⟨c, cs, ss⟩

def addInto : List Int → List Int → Except Fault (List Int)
  | x :: xs, y :: ys => do return (← I64.add x y) :: (← addInto xs ys)
  | xs, _ => .ok xs

def accumulate (e o : AffineExpr) : Except Fault AffineExpr := do
  let c ← I64.add e.constant o.constant
  let cs ← addInto e.coeffs o.coeffs
  let ss ← addInto e.symCoeffs o.symCoeffs
  return ⟨c, cs, ss⟩

/-- Replaces dimension `i` by `reps[i]` (a dimension without replacement drops out), giving an
expression over `nDim` dimensions and as many symbols as the widest operand. -/
def substitute (e : AffineExpr) (reps : List AffineExpr) (nDim : Nat) : Except Fault AffineExpr := do
  let nSym := max e.nSym ((reps.map nSym).foldl max 0)
  let base : AffineExpr := ⟨e.constant, List.replicate nDim 0,
    (List.range nSym).map (fun j => e.symCoeffs.getD j 0)⟩
  (e.coeffs.zipIdx.filter (fun (c, _) => c != 0)).foldlM (fun acc (c, i) =>
    match reps[i]? with
    | some rep => do acc.accumulate (← rep.scale c)
    | none => pure acc) base

def add (a b : AffineExpr) : Except Fault AffineExpr :=
  if a.coeffs.length = b.coeffs.length then a.accumulate b
  else .error (.lengthMismatch a.coeffs.length b.coeffs.length)

def sub (a b : AffineExpr) : Except Fault AffineExpr := do
  a.add (← b.scale (-1))

def neg (a : AffineExpr) : Except Fault AffineExpr := a.scale (-1)

def termText (c : Int) (name : String) : List String :=
  if c = 1 then [name]
  else if c = -1 then ["-" ++ name]
  else if c ≠ 0 then [toString c ++ "*" ++ name]
  else []

/-- Text with the given names for dimensions and symbols (`d{i}` and `s{j}` where none is
given): the constant, then the terms, joined by ` + `, a `+ -` written as `- `. -/
def renderWith (e : AffineExpr) (dimNames symNames : List String) : String :=
  let head := if e.constant ≠ 0 ∨ e.isConstant then [toString e.constant] else []
  let dims := e.coeffs.zipIdx.flatMap fun (c, i) => termText c (dimNames.getD i ("d" ++ toString i))
  let syms := e.symCoeffs.zipIdx.flatMap fun (c, i) => termText c (symNames.getD i ("s" ++ toString i))
  let parts := head ++ dims ++ syms
  if parts.isEmpty then "0" else (" + ".intercalate parts).replace "+ -" "- "

def render (e : AffineExpr) : String := e.renderWith [] []

def shape : Shape :=
  .record "AffineExpr" [("constant", .int .i64, none), ("coeffs", .seq (.int .i64), none),
    ("sym_coeffs", .seq (.int .i64), some (.arr []))]

def ofJson (j : Json) : AffineExpr :=
  ⟨(j.fieldD "constant").intD, (j.fieldD "coeffs").items.map Json.intD,
    (j.fieldD "sym_coeffs").items.map Json.intD⟩

def toJson (e : AffineExpr) : Json :=
  .obj [("constant", .int e.constant), ("coeffs", Json.ofInts e.coeffs),
    ("sym_coeffs", Json.ofInts e.symCoeffs)]

end AffineExpr

end TileSched
