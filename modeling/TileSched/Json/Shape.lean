import TileSched.Json.Value
import TileSched.Text.Quoted
/-!
Shapes of the data the scheduler reads: a shape says which JSON a field accepts, which fields a
record has and which of them may be left out. Reading a value against a shape either gives the
value in normal form (records as objects in declaration order, defaults filled in) or the message
that names the first mismatch.
-/
namespace TileSched

inductive IntKind where
  | i64 | u64 | usize | u32 | u8
  deriving DecidableEq, Repr, Inhabited

namespace IntKind

def name : IntKind → String
  | .i64 => "i64" | .u64 => "u64" | .usize => "usize" | .u32 => "u32" | .u8 => "u8"

def lo : IntKind → Int
  | .i64 => -9223372036854775808
  | _ => 0

def hi : IntKind → Int
  | .i64 => 9223372036854775807
  | .u64 => 18446744073709551615
  | .usize => 18446744073709551615
  | .u32 => 4294967295
  | .u8 => 255

end IntKind

inductive Shape where
  | int (kind : IntKind)
  | float
  | bool
  | string
  /-- A string naming a file. -/
  | path
  /-- Only `null`. -/
  | unit
  /-- Any JSON at all. -/
  | any
  /-- `null` or the inner shape; a record field of this shape may be left out. -/
  | option (inner : Shape)
  | seq (item : Shape)
  | tuple (items : List Shape)
  /-- A record with named fields; a field with a default may be left out, and other keys are
  passed over. -/
  | record (name : String) (fields : List (String × Shape × Option Json))
  /-- A record of required fields that allows no other key, written as an object or as a list of
  its fields in order; the fields read must then pass `check`. -/
  | exact (name : String) (fields : List (String × Shape)) (check : Json → Except String Json)
  /-- An object with string keys and values of one shape. -/
  | dict (value : Shape)
  /-- One of named cases, written as the name alone or as an object with the name as its one
  key; a case with content takes the object form. -/
  | variants (name : String) (cases : List (String × Option Shape))
  deriving Inhabited

namespace Shape

def expected : Shape → String
  | .int k => k.name
  | .float => "f64"
  | .bool => "a boolean"
  | .string => "a string"
  | .path => "path string"
  | .unit => "unit"
  | .any => "any valid JSON value"
  | .option _ => "option"
  | .seq _ => "a sequence"
  | .tuple items => "a tuple of size " ++ toString items.length
  | .record name _ => "struct " ++ name
  | .exact name _ _ => "struct " ++ name
  | .dict _ => "a map"
  | .variants name _ => "enum " ++ name

def fieldDefault (s : Shape) (default : Option Json) : Option Json :=
  match default with
  | some d => some d
  | none => match s with
    | .option _ => some .null
    | _ => none

end Shape

namespace Json

def oneOf (names : List String) : String :=
  let q (n : String) := "`" ++ n ++ "`"
  match names with
  | [] => "there are no variants"
  | [a] => "expected " ++ q a
  | [a, b] => "expected " ++ q a ++ " or " ++ q b
  | _ => "expected one of " ++ ", ".intercalate (names.map q)

def floatWord (v : Float) : String :=
  if v.isNaN then "NaN"
  else if v.isInf then (if v < 0 then "-inf" else "inf")
  else Decimal.dataText v

def unexpected : Json → String
  | .null => "null"
  | .bool b => "boolean `" ++ (if b then "true" else "false") ++ "`"
  | .int v => "integer `" ++ toString v ++ "`"
  | .float v => "floating point `" ++ floatWord v ++ "`"
  | .str s => "string " ++ Text.quoted s
  | .arr _ => "sequence"
  | .obj _ => "map"

def invalidType (what exp : String) : String := "invalid type: " ++ what ++ ", expected " ++ exp

def invalidValue (what exp : String) : String := "invalid value: " ++ what ++ ", expected " ++ exp

def invalidLength (n : Nat) (exp : String) : String :=
  "invalid length " ++ toString n ++ ", expected " ++ exp

def checkInt (k : IntKind) : Json → Except String Json
  | .int v => if k.lo ≤ v ∧ v ≤ k.hi then .ok (.int v) else .error (invalidValue (unexpected (.int v)) k.name)
  | v => .error (invalidType (unexpected v) k.name)

def checkFloat : Json → Except String Json
  | .int v => .ok (.float (floatD (.int v)))
  | .float v => .ok (.float v)
  | v => .error (invalidType (unexpected v) "f64")

def recordAsList (name : String) (n : Nat) : String :=
  "struct " ++ name ++ " with " ++ toString n ++ " elements"

def exactFields (fs : List (String × Shape)) : List (String × Shape × Option Json) :=
  fs.map fun (f, s) => (f, s, none)

def unknownField (k : String) (fs : List (String × Shape × Option Json)) : String :=
  "unknown field `" ++ k ++ "`, " ++
    (if fs.isEmpty then "there are no fields" else oneOf (fs.map (·.1)))

/-- The record in declaration order from the fields seen, defaults filled in; the first field
that is neither seen nor optional is reported. -/
def fillFields (fs : List (String × Shape × Option Json))
    (seen : List (String × Json)) : Except String Json := do
  let rec go : List (String × Shape × Option Json) → Except String (List (String × Json))
    | [] => .ok []
    | (f, s, d) :: rest => do
      let v ← match seen.find? (·.1 == f) with
        | some (_, v) => pure v
        | none => match Shape.fieldDefault s d with
          | some dv => pure dv
          | none => throw ("missing field `" ++ f ++ "`")
      return (f, v) :: (← go rest)
  return .obj (← go fs)

mutual

/-- Reads a value against a shape, the way a value already in memory is read: objects are
visited in key order and a list with items to spare is refused. -/
def readValue : Nat → Shape → Json → Except String Json
  | 0, _, _ => .error "recursion limit exceeded"
  | _ + 1, .int k, v => checkInt k v
  | _ + 1, .float, v => checkFloat v
  | _ + 1, .bool, v => match v with
    | .bool b => .ok (.bool b)
    | _ => .error (invalidType (unexpected v) "a boolean")
  | _ + 1, .string, v => match v with
    | .str s => .ok (.str s)
    | _ => .error (invalidType (unexpected v) "a string")
  | _ + 1, .path, v => match v with
    | .str s => .ok (.str s)
    | _ => .error (invalidType (unexpected v) "path string")
  | _ + 1, .unit, v => match v with
    | .null => .ok .null
    | _ => .error (invalidType (unexpected v) "unit")
  | _ + 1, .any, v => .ok v
  | n + 1, .option s, v => match v with
    | .null => .ok .null
    | _ => readValue n s v
  | n + 1, .seq s, v => match v with
    | .arr xs => return .arr (← readItems n s xs)
    | _ => .error (invalidType (unexpected v) "a sequence")
  | n + 1, .tuple ss, v => match v with
    | .arr xs => readTuple n ss.length ss 0 xs []
    | _ => .error (invalidType (unexpected v) ("a tuple of size " ++ toString ss.length))
  | n + 1, .record name fs, v => match v with
    | .arr xs => readRecordList n (recordAsList name fs.length) fs 0 xs []
    | .obj ms => do
      let seen ← readMembers n fs false ms []
      fillFields fs seen
    | _ => .error (invalidType (unexpected v) ("struct " ++ name))
  | n + 1, .exact name fs check, v => match v with
    | .arr xs => do check (← readRecordList n ("struct " ++ name) (exactFields fs) 0 xs [])
    | .obj ms => do
      let seen ← readMembers n (exactFields fs) true ms []
      check (← fillFields (exactFields fs) seen)
    | _ => .error (invalidType (unexpected v) ("struct " ++ name))
  | n + 1, .dict s, v => match v with
    | .obj ms => return .obj (← readDict n s ms)
    | _ => .error (invalidType (unexpected v) "a map")
  | n + 1, .variants _ cases, v => match v with
    | .str tag => match cases.find? (·.1 == tag) with
      | none => .error ("unknown variant `" ++ tag ++ "`, " ++ oneOf (cases.map (·.1)))
      | some (_, none) => .ok (.str tag)
      | some (_, some _) => .error (invalidType "unit variant" "newtype variant")
    | .obj [(tag, content)] => match cases.find? (·.1 == tag) with
      | none => .error ("unknown variant `" ++ tag ++ "`, " ++ oneOf (cases.map (·.1)))
      | some (_, none) => match content with
        | .null => .ok (.str tag)
        | _ => .error (invalidType (unexpected content) "unit")
      | some (_, some s) => return .obj [(tag, ← readValue n s content)]
    | .obj _ => .error (invalidValue "map" "map with a single key")
    | _ => .error (invalidType (unexpected v) "string or map")

def readItems : Nat → Shape → List Json → Except String (List Json)
  | _, _, [] => .ok []
  | 0, _, _ :: _ => .error "recursion limit exceeded"
  | n + 1, s, x :: xs => return (← readValue n s x) :: (← readItems n s xs)

def readTuple : Nat → Nat → List Shape → Nat → List Json → List Json → Except String Json
  | 0, _, _, _, _, _ => .error "recursion limit exceeded"
  | _ + 1, _, [], i, rest, acc =>
    if rest.isEmpty then .ok (.arr acc.reverse)
    else .error (invalidLength (i + rest.length) "fewer elements in array")
  | _ + 1, size, _ :: _, i, [], _ => .error (invalidLength i ("a tuple of size " ++ toString size))
  | n + 1, size, s :: ss, i, x :: xs, acc => do
    let y ← readValue n s x
    readTuple n size ss (i + 1) xs (y :: acc)

/-- A record given as a list: fields in declaration order, a missing tail taken from defaults;
`exp` is what a short list is told it lacked. -/
def readRecordList : Nat → String → List (String × Shape × Option Json) → Nat → List Json →
    List (String × Json) → Except String Json
  | 0, _, _, _, _, _ => .error "recursion limit exceeded"
  | _ + 1, _, [], i, rest, acc =>
    if rest.isEmpty then .ok (.obj acc.reverse)
    else .error (invalidLength (i + rest.length) "fewer elements in array")
  | n + 1, exp, (f, _, d) :: fs, i, [], acc => match d with
    | some dv => readRecordList n exp fs (i + 1) [] ((f, dv) :: acc)
    | none => .error (invalidLength i exp)
  | n + 1, exp, (f, s, _) :: fs, i, x :: xs, acc => do
    let y ← readValue n s x
    readRecordList n exp fs (i + 1) xs ((f, y) :: acc)

/-- Members of a record given as an object, in the object's order; unknown keys are skipped, or
refused when the record is `closed`. -/
def readMembers : Nat → List (String × Shape × Option Json) → Bool → List (String × Json) →
    List (String × Json) → Except String (List (String × Json))
  | _, _, _, [], acc => .ok acc
  | 0, _, _, _ :: _, _ => .error "recursion limit exceeded"
  | n + 1, fs, closed, (k, v) :: ms, acc => match fs.find? (·.1 == k) with
    | none => if closed then .error (unknownField k fs) else readMembers n fs closed ms acc
    | some (_, s, _) => do
      let y ← readValue n s v
      readMembers n fs closed ms ((k, y) :: acc)

def readDict : Nat → Shape → List (String × Json) → Except String (List (String × Json))
  | _, _, [] => .ok []
  | 0, _, _ :: _ => .error "recursion limit exceeded"
  | n + 1, s, (k, v) :: ms => return (k, ← readValue n s v) :: (← readDict n s ms)

end

end Json

end TileSched
