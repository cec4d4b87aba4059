/-!
Faults and 64-bit arithmetic. Tile counts, extents and byte sizes are 64-bit words; an
operation whose exact result leaves the word's range is a fault that stops the computation,
never a wrapped value.
-/
namespace TileSched

inductive ArithOp where
  | add | sub | mul | neg
  deriving DecidableEq, Repr, Inhabited

inductive Fault where
  /-- A result outside the word's range. -/
  | overflow (op : ArithOp)
  /-- An index at or past the end of a list. -/
  | index (len idx : Nat)
  /-- Two lists that must have equal lengths do not. -/
  | lengthMismatch (left right : Nat)
  deriving DecidableEq, Repr, Inhabited

def Fault.message : Fault → String
  | .overflow .add => "attempt to add with overflow"
  | .overflow .sub => "attempt to subtract with overflow"
  | .overflow .mul => "attempt to multiply with overflow"
  | .overflow .neg => "attempt to negate with overflow"
  | .index len idx => "index out of bounds: the len is " ++ toString len ++ " but the index is " ++ toString idx
  | .lengthMismatch l r =>
    "assertion `left == right` failed\n  left: " ++ toString l ++ "\n right: " ++ toString r

/-! Signed 64-bit words. -/
namespace I64

def min : Int := -9223372036854775808

def max : Int := 9223372036854775807

def fits (v : Int) : Bool := min ≤ v && v ≤ max

def check (op : ArithOp) (v : Int) : Except Fault Int :=
  if fits v then .ok v else .error (.overflow op)

def add (a b : Int) : Except Fault Int := check .add (a + b)

def sub (a b : Int) : Except Fault Int := check .sub (a - b)

def mul (a b : Int) : Except Fault Int := check .mul (a * b)

def neg (a : Int) : Except Fault Int := check .neg (-a)

def clamp (v : Int) : Int := if v < min then min else if max < v then max else v

def satMul (a b : Int) : Int := clamp (a * b)

def satAdd (a b : Int) : Int := clamp (a + b)

def product (xs : List Int) : Except Fault Int :=
  xs.foldlM (fun acc x => mul acc x) 1

end I64

/-! Unsigned 64-bit words. -/
namespace U64

def max : Nat := 18446744073709551615

def check (op : ArithOp) (v : Nat) : Except Fault Nat :=
  if v ≤ max then .ok v else .error (.overflow op)

def add (a b : Nat) : Except Fault Nat := check .add (a + b)

def mul (a b : Nat) : Except Fault Nat := check .mul (a * b)

def sub (a b : Nat) : Except Fault Nat := if b ≤ a then .ok (a - b) else .error (.overflow .sub)

end U64

def itemAt {α : Type} (xs : List α) (i : Nat) : Except Fault α :=
  match xs[i]? with
  | some x => .ok x
  | none => .error (.index xs.length i)

def entryAt {α : Type} (xs : Array α) (i : Nat) : Except Fault α :=
  match xs[i]? with
  | some x => .ok x
  | none => .error (.index xs.size i)

end TileSched
