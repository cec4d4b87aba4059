/-!
Shortest decimal text of a binary double: the fewest significant digits that read back as the
same double, and of those the nearest, together with the three layouts the scheduler writes
(data files, debug text and plain text).
-/
namespace TileSched.Decimal

structure Scientific where
  digits : Nat
  exp : Int
  deriving Repr, Inhabited

/-- A finite double as `m · 2 ^ q`, and whether the gap to the next smaller double is half the
gap to the next larger one (a power of two above the subnormal range). -/
def decodeBits (bits : UInt64) : Nat × Int × Bool :=
  let e := ((bits >>> 52) &&& 0x7FF).toNat
  let f := (bits &&& 0xFFFFFFFFFFFFF).toNat
  if e = 0 then (f, -1074, false)
  else (f + 4503599627370496, (e : Int) - 1075, f = 0 && e > 1)

def pow10 (n : Int) : Nat := Nat.pow 10 n.toNat

def digitCount (n : Nat) : Nat := (Nat.toDigits 10 n).length

def normalize (d : Nat) (e : Int) : Scientific :=
  go d e d
where
  go (d : Nat) (e : Int) : Nat → Scientific
    | 0 => ⟨d, e⟩
    | fuel + 1 => if d ≠ 0 ∧ d % 10 = 0 then go (d / 10) (e + 1) fuel else ⟨d, e⟩

def decimalExponent (num den : Nat) : Int :=
  if den ≤ num then (digitCount (num / den) : Int) - 1
  else
    match (List.range 400).find? (fun t => den ≤ num * Nat.pow 10 (t + 1)) with
    | some t => -((t : Int) + 1)
    | none => -400

/-- The shortest nearest decimal of `m · 2 ^ q` (with `m > 0`): candidates at `k` significant
digits are the two grid points around the value; the first precision with a candidate inside the
rounding interval wins, the nearer of two, and the even one on an exact tie. -/
def shortestOf (m : Nat) (q : Int) (lowerClose : Bool) : Scientific :=
  let den := Nat.pow 2 (2 - q).toNat
  let g := Nat.pow 2 (q - 2).toNat
  let v := 4 * m * g
  let hi := (4 * m + 2) * g
  let lo := (if lowerClose then 4 * m - 1 else 4 * m - 2) * g
  let inclusive := m % 2 == 0
  let e := decimalExponent v den
  let attempt (k : Nat) : Option Scientific :=
    let p : Int := e - k + 1
    let up := den * pow10 p
    let down := pow10 (-p)
    -- grid point `c · 10 ^ p` compared with `x / den` through `c * up` and `x * down`
    let inside (c : Nat) : Bool :=
      let a := c * up
      if inclusive then lo * down ≤ a && a ≤ hi * down
      else lo * down < a && a < hi * down
    let cf := (v * down) / up
    let below := inside cf
    let above := inside (cf + 1)
    if below && above then
      let dBelow := v * down - cf * up
      let dAbove := (cf + 1) * up - v * down
      if dBelow < dAbove then some (normalize cf p)
      else if dAbove < dBelow then some (normalize (cf + 1) p)
      else if cf % 2 == 0 then some (normalize cf p) else some (normalize (cf + 1) p)
    else if below then some (normalize cf p)
    else if above then some (normalize (cf + 1) p)
    else none
  match (List.range 17).findSome? (fun i => attempt (i + 1)) with
  | some s => s
  | none => normalize (v / den) 0

def shortest (x : Float) : Scientific :=
  let (m, q, close) := decodeBits (x.toBits &&& 0x7FFFFFFFFFFFFFFF)
  if m = 0 then ⟨0, 0⟩ else shortestOf m q close

def signBit (x : Float) : Bool := x.toBits >>> 63 == 1

def digitText (n : Nat) : String := String.ofList (Nat.toDigits 10 n)

def zeros (n : Nat) : String := String.ofList (List.replicate n '0')

/-- Text of an integer exponent: a minus sign when negative, and a plus sign otherwise when
`signed`. -/
def expText (e : Int) (signed : Bool) : String :=
  if e < 0 then "-" ++ digitText e.natAbs
  else if signed then "+" ++ digitText e.toNat
  else digitText e.toNat

def positional (s : Scientific) (minFrac : Nat) : String :=
  let ds := digitText s.digits
  let n := ds.length
  if 0 ≤ s.exp then
    let frac := if minFrac = 0 then "" else "." ++ zeros minFrac
    ds ++ zeros s.exp.toNat ++ frac
  else
    let point := (n : Int) + s.exp
    if 0 < point then
      let cs := ds.toList
      String.ofList (cs.take point.toNat) ++ "." ++ String.ofList (cs.drop point.toNat)
    else "0." ++ zeros (-point).toNat ++ ds

/-- Exponent text `d.ddde±x` of `digits · 10 ^ exp`; `signed` marks a positive exponent with a
plus sign. -/
def exponential (s : Scientific) (signed : Bool) : String :=
  let ds := (digitText s.digits).toList
  let lead := String.ofList (ds.take 1)
  let rest := String.ofList (ds.drop 1)
  let e := (ds.length : Int) + s.exp - 1
  (if rest.isEmpty then lead else lead ++ "." ++ rest) ++ "e" ++ expText e signed

/-- Data-file text of a finite double: positional with a `.0` while the decimal point stays
within 16 digits of the first digit and no more than five zeros follow it, otherwise an
exponent with its sign (`1e+16`, `5e-324`). -/
def dataText (x : Float) : String :=
  let sign := if signBit x then "-" else ""
  let s := shortest x
  if s.digits = 0 then sign ++ "0.0"
  else
    let n := (digitCount s.digits : Int)
    let point := n + s.exp
    if 0 ≤ s.exp ∧ point ≤ 16 then sign ++ positional s 1
    else if 0 < point ∧ point ≤ 16 then sign ++ positional s 0
    else if -5 < point ∧ point ≤ 0 then sign ++ positional s 0
    else sign ++ exponential s true

/-- Debug text of a double: an exponent below `1e-4` and from `1e16` on, otherwise positional
with at least one fraction digit. -/
def debugText (x : Float) : String :=
  if x.isNaN then "NaN"
  else
    let sign := if signBit x then "-" else ""
    if x.isInf then sign ++ "inf"
    else
      let s := shortest x
      if s.digits = 0 then sign ++ "0.0"
      else
        let point := (digitCount s.digits : Int) + s.exp
        if point ≤ -4 ∨ 17 ≤ point then sign ++ exponential s false
        else if 0 ≤ s.exp then sign ++ positional s 1
        else sign ++ positional s 0

def plainText (x : Float) : String :=
  if x.isNaN then "NaN"
  else
    let sign := if signBit x then "-" else ""
    if x.isInf then sign ++ "inf"
    else
      let s := shortest x
      if s.digits = 0 then sign ++ "0" else sign ++ positional s 0

end TileSched.Decimal
