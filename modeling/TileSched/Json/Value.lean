import TileSched.Decimal.Shortest
/-!
JSON values as the scheduler reads and writes them. Integers and doubles are kept apart, since a
reader of the data tells `4` from `4.0`; objects are lists of members, so a writer keeps the order
in which a record declares its fields.
-/
namespace TileSched

inductive Json where
  | null
  | bool (b : Bool)
  /-- An integer written without fraction or exponent. -/
  | int (v : Int)
  /-- A double, written in its shortest form. -/
  | float (v : Float)
  | str (s : String)
  | arr (items : List Json)
  | obj (members : List (String × Json))
  deriving Inhabited

namespace Json

def hex4 (n : Nat) : String :=
  let d (k : Nat) : Char := "0123456789abcdef".toList.getD ((n / Nat.pow 16 k) % 16) '0'
  String.ofList [d 3, d 2, d 1, d 0]

/-- One character inside a quoted string: quote, backslash and control characters are escaped,
everything else is written as it is. -/
def escapeChar (c : Char) : String :=
  if c = '"' then "\\\""
  else if c = '\\' then "\\\\"
  else if c = '\n' then "\\n"
  else if c = '\r' then "\\r"
  else if c = '\t' then "\\t"
  else if c.toNat = 8 then "\\b"
  else if c.toNat = 12 then "\\f"
  else if c.toNat < 32 then "\\u" ++ hex4 c.toNat
  else c.toString

def quote (s : String) : String :=
  "\"" ++ String.join (s.toList.map escapeChar) ++ "\""

def numberText : Json → String
  | .int v => toString v
  | .float v => if v.isNaN || v.isInf then "null" else Decimal.dataText v
  | _ => ""

mutual
def compact : Json → String
  | .null => "null"
  | .bool b => if b then "true" else "false"
  | .int v => toString v
  | .float v => numberText (.float v)
  | .str s => quote s
  | .arr items => "[" ++ compactItems items ++ "]"
  | .obj members => "\x7b" ++ compactMembers members ++ "\x7d"

def compactItems : List Json → String
  | [] => ""
  | [x] => compact x
  | x :: xs => compact x ++ "," ++ compactItems xs

def compactMembers : List (String × Json) → String
  | [] => ""
  | [(k, v)] => quote k ++ ":" ++ compact v
  | (k, v) :: ms => quote k ++ ":" ++ compact v ++ "," ++ compactMembers ms
end

def indent (depth : Nat) : String := String.ofList (List.replicate (2 * depth) ' ')

mutual
/-- Pretty text: every item and member on a line of its own, two blanks per level, `[]` and
`{}` for empty containers. -/
def pretty (depth : Nat) : Json → String
  | .arr [] => "[]"
  | .obj [] => "\x7b\x7d"
  | .arr items => "[\n" ++ prettyItems (depth + 1) items ++ "\n" ++ indent depth ++ "]"
  | .obj members => "\x7b\n" ++ prettyMembers (depth + 1) members ++ "\n" ++ indent depth ++ "\x7d"
  | .null => "null"
  | .bool b => if b then "true" else "false"
  | .int v => toString v
  | .float v => numberText (.float v)
  | .str s => quote s

def prettyItems (depth : Nat) : List Json → String
  | [] => ""
  | [x] => indent depth ++ pretty depth x
  | x :: xs => indent depth ++ pretty depth x ++ ",\n" ++ prettyItems depth xs

def prettyMembers (depth : Nat) : List (String × Json) → String
  | [] => ""
  | [(k, v)] => indent depth ++ quote k ++ ": " ++ pretty depth v
  | (k, v) :: ms => indent depth ++ quote k ++ ": " ++ pretty depth v ++ ",\n" ++ prettyMembers depth ms
end

def get? (j : Json) (k : String) : Option Json :=
  match j with
  | .obj members => (members.find? (fun m => m.1 == k)).map (·.2)
  | _ => none

def items : Json → List Json
  | .arr xs => xs
  | _ => []

def members : Json → List (String × Json)
  | .obj ms => ms
  | _ => []

def toInt? : Json → Option Int
  | .int v => some v
  | _ => none

def intD (j : Json) : Int := j.toInt?.getD 0

def natD (j : Json) : Nat := j.intD.toNat

def strD : Json → String
  | .str s => s
  | _ => ""

def boolD : Json → Bool
  | .bool b => b
  | _ => false

def floatD : Json → Float
  | .float v => v
  | .int v => if v < 0 then -Float.ofNat v.natAbs else Float.ofNat v.toNat
  | _ => 0

def fieldD (j : Json) (k : String) : Json := (j.get? k).getD .null

def ofInts (xs : List Int) : Json := .arr (xs.map .int)

def ofNats (xs : List Nat) : Json := .arr (xs.map fun n => .int (Int.ofNat n))

def opt {α : Type} (f : α → Json) : Option α → Json
  | some a => f a
  | none => .null

end Json

end TileSched
