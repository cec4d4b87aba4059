import TileSched.Json.Shape
/-!
Reading JSON text, alone or against a shape. The text is read in one pass from left to right, so
the first fault in the text is the one reported, whether it is a syntax fault or a value that
does not fit its field; a message carries the line and byte column where reading stopped.

Values that are built may nest at most 127 lists and objects deep. The value of a key a record
does not know is only skipped: it may nest without limit, its numbers may have any size and its
strings any escapes of the right form, but inside it a comma must be followed by another item.
-/
namespace TileSched

structure ReadError where
  msg : String
  offset : Option Nat := none
  deriving Inhabited

namespace Json

/-- Line and column of a byte offset: lines count from one, and the column is the number of
bytes of the line before the offset. -/
def lineColumn (bytes : ByteArray) (i : Nat) : Nat × Nat :=
  let before := (List.range i).filter (fun j => bytes.get! j == 10)
  match before.getLast? with
  | none => (1, i)
  | some nl => (before.length + 1, i - (nl + 1))

def ReadError.render (bytes : ByteArray) (e : ReadError) : String :=
  match e.offset with
  | none => e.msg
  | some i =>
    let (l, c) := lineColumn bytes i
    e.msg ++ " at line " ++ toString l ++ " column " ++ toString c

/-- Where reading stands: the offset of the next byte, and how many more lists and objects may
open inside those open now. -/
structure Cursor where
  pos : Nat := 0
  room : Nat := 128

abbrev Scan := ReaderT ByteArray (ExceptT ReadError (StateM Cursor))

def offset : Scan Nat := return (← get).pos

def moveTo (i : Nat) : Scan Unit := modify fun c => { c with pos := i }

def peek? : Scan (Option UInt8) := do
  let b ← read
  let i ← offset
  return if i < b.size then some (b.get! i) else none

def bump : Scan Unit := modify fun c => { c with pos := c.pos + 1 }

def next? : Scan (Option UInt8) := do
  let c ← peek?
  if c.isSome then bump
  return c

def failHere {α : Type} (msg : String) : Scan α := do
  throw { msg, offset := some (← offset) }

def failAhead {α : Type} (msg : String) : Scan α := do
  let b ← read
  throw { msg, offset := some (min b.size ((← offset) + 1)) }

def placed {α : Type} (m : Scan α) : Scan α :=
  tryCatch m fun e => do
    match e.offset with
    | some _ => throw e
    | none => throw { e with offset := some (← offset) }

def skipBlank : Scan (Option UInt8) := do
  let b ← read
  let i ← offset
  let rec go (j : Nat) (fuel : Nat) : Nat :=
    match fuel with
    | 0 => j
    | f + 1 =>
      if j < b.size then
        let c := b.get! j
        if c == 32 || c == 10 || c == 9 || c == 13 then go (j + 1) f else j
      else j
  moveTo (go i (b.size - i))
  peek?

def isDigit (c : UInt8) : Bool := 48 ≤ c && c ≤ 57

def expectWord : List UInt8 → Scan Unit
  | [] => pure ()
  | w :: ws => do
    match ← next? with
    | none => failHere "EOF while parsing a value"
    | some c => if c == w then expectWord ws else failHere "expected ident"

def utf8 (n : Nat) : List UInt8 :=
  if n < 0x80 then [n.toUInt8]
  else if n < 0x800 then [(0xC0 + n / 64).toUInt8, (0x80 + n % 64).toUInt8]
  else if n < 0x10000 then
    [(0xE0 + n / 4096).toUInt8, (0x80 + (n / 64) % 64).toUInt8, (0x80 + n % 64).toUInt8]
  else
    [(0xF0 + n / 262144).toUInt8, (0x80 + (n / 4096) % 64).toUInt8,
      (0x80 + (n / 64) % 64).toUInt8, (0x80 + n % 64).toUInt8]

def hexValue (c : UInt8) : Option Nat :=
  if 48 ≤ c && c ≤ 57 then some (c.toNat - 48)
  else if 97 ≤ c && c ≤ 102 then some (c.toNat - 87)
  else if 65 ≤ c && c ≤ 70 then some (c.toNat - 55)
  else none

def hexEscape : Scan Nat := do
  let b ← read
  let i ← offset
  if b.size < i + 4 then
    moveTo b.size
    failHere "EOF while parsing a string"
  else
    let ds := (List.range 4).map (fun k => hexValue (b.get! (i + k)))
    moveTo (i + 4)
    match ds with
    | [some a, some c, some d, some e] => return ((a * 16 + c) * 16 + d) * 16 + e
    | _ => failHere "invalid escape"

def trailingMark (mark : UInt8) : Scan Unit := do
  match ← peek? with
  | none => failHere "EOF while parsing a string"
  | some c =>
    bump
    if c != mark then failHere "unexpected end of hex escape"

def escape : Scan (List UInt8) := do
  match ← next? with
  | none => failHere "EOF while parsing a string"
  | some c =>
    if c == 34 then return [34]
    else if c == 92 then return [92]
    else if c == 47 then return [47]
    else if c == 98 then return [8]
    else if c == 102 then return [12]
    else if c == 110 then return [10]
    else if c == 114 then return [13]
    else if c == 116 then return [9]
    else if c == 117 then
      let n ← hexEscape
      if 0xDC00 ≤ n ∧ n ≤ 0xDFFF then failHere "lone leading surrogate in hex escape"
      else if 0xD800 ≤ n ∧ n ≤ 0xDBFF then
        trailingMark 92
        trailingMark 117
        let m ← hexEscape
        if m < 0xDC00 ∨ 0xDFFF < m then failHere "lone leading surrogate in hex escape"
        else return utf8 (((n - 0xD800) * 1024 + (m - 0xDC00)) + 0x10000)
      else return utf8 n
    else failHere "invalid escape"

def stringBody : Scan String := do
  let b ← read
  let rec go (acc : Array UInt8) : Nat → Scan (Array UInt8)
    | 0 => failHere "EOF while parsing a string"
    | f + 1 => do
      match ← next? with
      | none => failHere "EOF while parsing a string"
      | some c =>
        if c == 34 then return acc
        else if c == 92 then
          let e ← escape
          go (acc ++ e.toArray) f
        else if c < 32 then failHere "control character (\\u0000-\\u001F) found while parsing a string"
        else go (acc.push c) f
  let bytes ← go #[] (b.size + 1)
  return (String.fromUTF8? ⟨bytes⟩).getD ""

def overflows (a d limit : Nat) : Bool := a ≥ limit / 10 && (a > limit / 10 || d > limit % 10)

/-- The double `significand · 10 ^ exp`, scaled in at most two steps by powers of ten, or `none`
when it is too large. -/
def doubleOfParts (significand : Nat) (exp : Int) : Option Float :=
  let pow (k : Nat) : Float := Float.ofScientific 1 false k
  let rec go (f : Float) (e : Int) : Nat → Option Float
    | 0 => some f
    | fuel + 1 =>
      if e.natAbs ≤ 308 then
        if e ≥ 0 then
          let g := f * pow e.toNat
          if g.isInf then none else some g
        else some (f / pow e.natAbs)
      else if f == 0 then some f
      else if e ≥ 0 then none
      else go (f / pow 308) (e + 308) fuel
  go (Float.ofNat significand) exp 8

def numberOfParts (positive : Bool) (significand : Nat) (exp : Int) : Scan Json := do
  match doubleOfParts significand exp with
  | none => failHere "number out of range"
  | some f => return .float (if positive then f else -f)

def skipDigits : Nat → Scan Unit
  | 0 => pure ()
  | f + 1 => do
    match ← peek? with
    | some c => if isDigit c then bump *> skipDigits f else pure ()
    | none => pure ()

def exponentPart (positive : Bool) (significand : Nat) (start : Int) : Scan Json := do
  let b ← read
  bump
  let positiveExp ← do
    match ← peek? with
    | some 43 => bump; pure true
    | some 45 => bump; pure false
    | _ => pure true
  match ← next? with
  | none => failHere "EOF while parsing a value"
  | some c =>
    if !isDigit c then failHere "invalid number"
    else
      let limit := 2147483647
      let rec go (e : Nat) : Nat → Scan (Option Nat)
        | 0 => pure (some e)
        | f + 1 => do
          match ← peek? with
          | some d =>
            if isDigit d then
              bump
              let v := (d - 48).toNat
              if overflows e v limit then pure none else go (e * 10 + v) f
            else pure (some e)
          | none => pure (some e)
      match ← go (c - 48).toNat b.size with
      | none =>
        if significand ≠ 0 ∧ positiveExp then failHere "number out of range"
        else
          skipDigits b.size
          return .float (if positive then 0 else -0)
      | some e =>
        let fin : Int := if positiveExp then start + e else start - e
        numberOfParts positive significand fin

def fractionPart (positive : Bool) (significand : Nat) (start : Int) : Scan Json := do
  let b ← read
  bump
  let rec go (s : Nat) (k : Nat) : Nat → Scan (Nat × Nat × Bool)
    | 0 => pure (s, k, false)
    | f + 1 => do
      match ← peek? with
      | some d =>
        if isDigit d then
          let v := (d - 48).toNat
          if overflows s v 18446744073709551615 then pure (s, k, true)
          else bump *> go (s * 10 + v) (k + 1) f
        else pure (s, k, false)
      | none => pure (s, k, false)
  let (s, k, overflowed) ← go significand 0 b.size
  if overflowed then
    skipDigits b.size
    match ← peek? with
    | some 101 | some 69 => exponentPart positive s (start - k)
    | _ => numberOfParts positive s (start - k)
  else if k = 0 then
    match ← peek? with
    | some _ => failAhead "invalid number"
    | none => failAhead "EOF while parsing a value"
  else
    match ← peek? with
    | some 101 | some 69 => exponentPart positive s (start - k)
    | _ => numberOfParts positive s (start - k)

def numberTail (positive : Bool) (significand : Nat) : Scan Json := do
  match ← peek? with
  | some 46 => fractionPart positive significand 0
  | some 101 | some 69 => exponentPart positive significand 0
  | _ =>
    if positive then return .int significand
    else if significand = 0 then return .float (-0)
    else if significand ≤ 9223372036854775808 then return .int (-(significand : Int))
    else return .float (-(Float.ofNat significand))

/-- A number after its optional minus sign. Integers that fit 64 bits stay integers; longer ones
become doubles from their leading digits. -/
def number (positive : Bool) : Scan Json := do
  let b ← read
  match ← next? with
  | none => failHere "EOF while parsing a value"
  | some c =>
    if c == 48 then
      match ← peek? with
      | some d => if isDigit d then failAhead "invalid number" else numberTail positive 0
      | none => numberTail positive 0
    else if isDigit c then
      let rec go (s : Nat) : Nat → Scan Json
        | 0 => numberTail positive s
        | f + 1 => do
          match ← peek? with
          | some d =>
            if isDigit d then
              let v := (d - 48).toNat
              if overflows s v 18446744073709551615 then
                -- the remaining digits only scale the leading ones
                let rec longer (e : Nat) : Nat → Scan Json
                  | 0 => numberOfParts positive s e
                  | g + 1 => do
                    match ← peek? with
                    | some x =>
                      if isDigit x then bump *> longer (e + 1) g
                      else if x == 46 then fractionPart positive s e
                      else if x == 101 || x == 69 then exponentPart positive s e
                      else numberOfParts positive s e
                    | none => numberOfParts positive s e
                longer 0 b.size
              else bump *> go (s * 10 + v) f
            else numberTail positive s
          | none => numberTail positive s
      go (c - 48).toNat b.size
    else failHere "invalid number"

def insertMember (k : String) (v : Json) : List (String × Json) → List (String × Json)
  | [] => [(k, v)]
  | (k', v') :: ms =>
    if k = k' then (k, v) :: ms
    else if k < k' then (k, v) :: (k', v') :: ms
    else (k', v') :: insertMember k v ms

/-- The fault for a value of another kind than `exp`: the value is read to be named, and a
fault inside it wins. -/
def wrongKind {α : Type} (exp : String) : Scan α := do
  let v ← (do
    match ← peek? with
    | some 110 => bump; expectWord [117, 108, 108]; pure (some Json.null)
    | some 116 => bump; expectWord [114, 117, 101]; pure (some (Json.bool true))
    | some 102 => bump; expectWord [97, 108, 115, 101]; pure (some (Json.bool false))
    | some 45 => bump; pure (some (← number false))
    | some 34 => bump; pure (some (Json.str (← stringBody)))
    | some 91 => pure (some (Json.arr []))
    | some 123 => pure (some (Json.obj []))
    | some c => if isDigit c then pure (some (← number true)) else pure none
    | none => pure none)
  match v with
  | some v => failHere (invalidType (unexpected v) exp)
  | none => failAhead "expected value"

def closeList : Scan (Option ReadError) := do
  match ← skipBlank with
  | some 93 => bump; pure none
  | some 44 =>
    bump
    match ← skipBlank with
    | some 93 => tryCatch (failAhead "trailing comma") (fun e => pure (some e))
    | _ => tryCatch (failAhead "trailing characters") (fun e => pure (some e))
  | some _ => tryCatch (failAhead "trailing characters") (fun e => pure (some e))
  | none => tryCatch (failAhead "EOF while parsing a list") (fun e => pure (some e))

def closeObject : Scan (Option ReadError) := do
  match ← skipBlank with
  | some 125 => bump; pure none
  | some 44 => tryCatch (failAhead "trailing comma") (fun e => pure (some e))
  | some _ => tryCatch (failAhead "trailing characters") (fun e => pure (some e))
  | none => tryCatch (failAhead "EOF while parsing an object") (fun e => pure (some e))

/-- Runs the body of a list or object and then its closing: a fault of the body wins over a
fault of the closing, and a fault without a place is placed after both. -/
def enclosed {α : Type} (body : Scan α) (close : Scan (Option ReadError)) : Scan α := do
  let r ← tryCatch (Except.ok <$> body) (fun e => pure (Except.error e))
  let c ← close
  match r, c with
  | .ok v, none => pure v
  | .error e, _ => placed (throw e)
  | .ok _, some e => throw e

/-- Reads a list or an object whose opening bracket is next: fewer than 128 may be open at
once. -/
def nested {α : Type} (body : Scan α) : Scan α := do
  let c ← get
  if c.room ≤ 1 then failAhead "recursion limit exceeded"
  else
    set { c with room := c.room - 1 }
    let v ← body
    modify fun c => { c with room := c.room + 1 }
    pure v

def nextItem (first : Bool) : Scan (Option UInt8) := do
  let c ← skipBlank
  let c ← match c with
    | some 93 => pure none
    | some 44 =>
      if first then failAhead "expected value"
      else
        bump
        match ← skipBlank with
        | some 93 => failAhead "trailing comma"
        | some c => pure (some c)
        | none => failAhead "EOF while parsing a value"
    | some c => if first then pure (some c) else failAhead "expected `,` or `]`"
    | none => failAhead "EOF while parsing a list"
  pure c

/-- Before the next key of an object: false at the closing brace, else true after the key's
opening quote. After a comma a key must follow. -/
def nextKey (first : Bool) : Scan Bool := do
  match ← skipBlank with
  | some 125 => pure false
  | some 44 =>
    if first then failAhead "key must be a string"
    else
      bump
      match ← skipBlank with
      | some 34 => bump; pure true
      | some 125 => failAhead "trailing comma"
      | some _ => failAhead "key must be a string"
      | none => failAhead "EOF while parsing a value"
  | some 34 => if first then bump *> pure true else failAhead "expected `,` or `\x7d`"
  | some _ => if first then failAhead "key must be a string" else failAhead "expected `,` or `\x7d`"
  | none => failAhead "EOF while parsing an object"

def colon : Scan Unit := do
  match ← skipBlank with
  | some 58 => bump
  | some _ => failAhead "expected `:`"
  | none => failAhead "EOF while parsing an object"

mutual

def anyValue : Nat → Scan Json
  | 0 => failHere "recursion limit exceeded"
  | n + 1 => placed do
    match ← skipBlank with
    | none => failAhead "EOF while parsing a value"
    | some 110 => bump; expectWord [117, 108, 108]; pure .null
    | some 116 => bump; expectWord [114, 117, 101]; pure (.bool true)
    | some 102 => bump; expectWord [97, 108, 115, 101]; pure (.bool false)
    | some 45 => bump; number false
    | some 34 => bump; return .str (← stringBody)
    | some 91 => nested do bump; enclosed (return .arr (← anyItems n true)) closeList
    | some 123 => nested do bump; enclosed (return .obj (← anyMembers n true [])) closeObject
    | some c => if isDigit c then number true else failAhead "expected value"

def anyItems : Nat → Bool → Scan (List Json)
  | 0, _ => failHere "recursion limit exceeded"
  | n + 1, first => do
    match ← nextItem first with
    | none => pure []
    | some _ => return (← anyValue n) :: (← anyItems n false)

def anyMembers : Nat → Bool → List (String × Json) → Scan (List (String × Json))
  | 0, _, _ => failHere "recursion limit exceeded"
  | n + 1, first, acc => do
    if ← nextKey first then
      let k ← stringBody
      colon
      let v ← anyValue n
      anyMembers n false (insertMember k v acc)
    else pure acc

end

/-- Skips the rest of a number after its sign, whatever its size: a leading zero stands alone, and
a point or an exponent mark needs a digit after it. -/
def skipNumber : Scan Unit := do
  let b ← read
  match ← next? with
  | some 48 =>
    match ← peek? with
    | some d => if isDigit d then failAhead "invalid number"
    | none => pure ()
  | some c => if isDigit c then skipDigits b.size else failHere "invalid number"
  | none => failHere "invalid number"
  if (← peek?) == some 46 then
    bump
    let start ← offset
    skipDigits b.size
    if (← offset) == start then failAhead "invalid number"
  match ← peek? with
  | some 101 | some 69 =>
    bump
    match ← peek? with
    | some 43 | some 45 => bump
    | _ => pure ()
    match ← next? with
    | some d => if isDigit d then skipDigits b.size else failHere "invalid number"
    | none => failHere "invalid number"
  | _ => pure ()

/-- Skips the rest of a string after its opening quote; of an escape only its form is checked,
so a lone surrogate passes. -/
def skipString : Scan Unit := do
  let b ← read
  let rec go : Nat → Scan Unit
    | 0 => failHere "EOF while parsing a string"
    | f + 1 => do
      match ← peek? with
      | none => failHere "EOF while parsing a string"
      | some c =>
        if c == 34 then bump
        else if c == 92 then
          bump
          match ← next? with
          | none => failHere "EOF while parsing a string"
          | some e =>
            if e == 117 then
              let _ ← hexEscape
              go f
            else if [34, 92, 47, 98, 102, 110, 114, 116].contains e then go f
            else failHere "invalid escape"
        else if c < 32 then failHere "control character (\\u0000-\\u001F) found while parsing a string"
        else bump *> go f
  go (b.size + 1)

def skipScalar (c : UInt8) : Scan Unit := do
  if c == 110 then bump; expectWord [117, 108, 108]
  else if c == 116 then bump; expectWord [114, 117, 101]
  else if c == 102 then bump; expectWord [97, 108, 115, 101]
  else if c == 45 then bump; skipNumber
  else if c == 34 then bump; skipString
  else if isDigit c then skipNumber
  else failAhead "expected value"

def skipKey : Scan Unit := do
  match ← skipBlank with
  | some 34 => bump; skipString
  | some _ => failAhead "key must be a string"
  | none => failAhead "EOF while parsing a value"
  colon

inductive SkipStep where
  | value
  | after (acceptComma : Bool)

def skipFrom (b : ByteArray) : List UInt8 → SkipStep → Nat → Scan Unit
  | _, _, 0 => failHere "EOF while parsing a value"
  | stack, .value, f + 1 => do
    match ← skipBlank with
    | none => failAhead "EOF while parsing a value"
    | some c =>
      if c == 91 || c == 123 then
        bump
        skipFrom b (c :: stack) (.after false) f
      else
        skipScalar c
        if stack.isEmpty then pure () else skipFrom b stack (.after true) f
  | [], .after _, _ + 1 => pure ()
  | frame :: outer, .after acceptComma, f + 1 => do
    let inObject := frame == 123
    let itemNext : Scan Unit := do
      if inObject then skipKey
      skipFrom b (frame :: outer) .value f
    match ← skipBlank with
    | some 44 =>
      if acceptComma then bump *> itemNext
      else itemNext
    | some c =>
      if (c == 93 && !inObject) || (c == 125 && inObject) then
        bump
        if outer.isEmpty then pure () else skipFrom b outer (.after true) f
      else if acceptComma then
        failAhead (if inObject then "expected `,` or `\x7d`" else "expected `,` or `]`")
      else itemNext
    | none => failAhead (if inObject then "EOF while parsing an object" else "EOF while parsing a list")

/-- Skips one value of any kind without building it, the way unknown fields are passed over:
nesting has no limit, numbers no range, and strings are checked only for the form of their
escapes. A comma inside a skipped list or object must be followed by another item. -/
def skipValue : Scan Unit := do
  let b ← read
  skipFrom b [] .value (2 * (b.size - (← offset)) + 2)

def numberFor (exp : String) (check : Json → Except String Json) : Scan Json := placed do
  let v ← match ← skipBlank with
    | none => failAhead "EOF while parsing a value"
    | some 45 => bump; number false
    | some c => if isDigit c then number true else wrongKind exp
  match check v with
  | .ok w => pure w
  | .error m => throw { msg := m }

mutual

def shaped : Nat → Shape → Scan Json
  | 0, _ => failHere "recursion limit exceeded"
  | _ + 1, .int k => numberFor k.name (checkInt k)
  | _ + 1, .float => numberFor "f64" checkFloat
  | _ + 1, .bool => placed do
    match ← skipBlank with
    | none => failAhead "EOF while parsing a value"
    | some 116 => bump; expectWord [114, 117, 101]; pure (.bool true)
    | some 102 => bump; expectWord [97, 108, 115, 101]; pure (.bool false)
    | some _ => wrongKind "a boolean"
  | _ + 1, .string => placed do
    match ← skipBlank with
    | none => failAhead "EOF while parsing a value"
    | some 34 => bump; return .str (← stringBody)
    | some _ => wrongKind "a string"
  | _ + 1, .path => placed do
    match ← skipBlank with
    | none => failAhead "EOF while parsing a value"
    | some 34 => bump; return .str (← stringBody)
    | some _ => wrongKind "path string"
  | _ + 1, .unit => placed do
    match ← skipBlank with
    | none => failAhead "EOF while parsing a value"
    | some 110 => bump; expectWord [117, 108, 108]; pure .null
    | some _ => wrongKind "unit"
  | n + 1, .any => anyValue n
  | n + 1, .option s => do
    match ← skipBlank with
    | some 110 => bump; expectWord [117, 108, 108]; pure .null
    | _ => shaped n s
  | n + 1, .seq s => placed do
    match ← skipBlank with
    | none => failAhead "EOF while parsing a value"
    | some 91 => nested do bump; enclosed (return .arr (← shapedItems n s true)) closeList
    | some _ => wrongKind "a sequence"
  | n + 1, .tuple ss => placed do
    match ← skipBlank with
    | none => failAhead "EOF while parsing a value"
    | some 91 => nested do
      bump
      enclosed (return .arr (← shapedTuple n ss.length ss 0 true)) closeList
    | some _ => wrongKind ("a tuple of size " ++ toString ss.length)
  | n + 1, .record name fs => placed do
    match ← skipBlank with
    | none => failAhead "EOF while parsing a value"
    | some 91 => nested do
      bump
      enclosed (return .obj (← shapedRecordList n (recordAsList name fs.length) fs 0 true)) closeList
    | some 123 => nested do
      bump
      enclosed (do
        let seen ← shapedMembers n fs false true []
        match fillFields fs seen with
        | .ok v => pure v
        | .error m => throw { msg := m }) closeObject
    | some _ => wrongKind ("struct " ++ name)
  | n + 1, .exact name fs check => placed do
    let checked (r : Except String Json) : Scan Json :=
      match r >>= check with
      | .ok v => pure v
      | .error m => throw { msg := m }
    match ← skipBlank with
    | none => failAhead "EOF while parsing a value"
    | some 91 => nested do
      bump
      enclosed (do
        let v := Json.obj (← shapedRecordList n ("struct " ++ name) (exactFields fs) 0 true)
        checked (.ok v)) closeList
    | some 123 => nested do
      bump
      enclosed (do
        let seen ← shapedMembers n (exactFields fs) true true []
        checked (fillFields (exactFields fs) seen)) closeObject
    | some _ => wrongKind ("struct " ++ name)
  | n + 1, .dict s => placed do
    match ← skipBlank with
    | none => failAhead "EOF while parsing a value"
    | some 123 => nested do bump; enclosed (return .obj (← shapedDict n s true [])) closeObject
    | some _ => wrongKind "a map"
  | n + 1, .variants _ cases => do
    let tagOf (tag : String) : Scan (Option Shape) :=
      match cases.find? (·.1 == tag) with
      | none => throw { msg := "unknown variant `" ++ tag ++ "`, " ++ oneOf (cases.map (·.1)) }
      | some (_, s) => pure s
    match ← skipBlank with
    | none => failAhead "EOF while parsing a value"
    | some 34 =>
      bump
      let tag ← stringBody
      match ← placed (tagOf tag) with
      | none => pure (.str tag)
      | some _ => throw { msg := invalidType "unit variant" "newtype variant" }
    | some 123 =>
      let v ← nested do
        bump
        let tag ← placed do
          match ← skipBlank with
          | none => failAhead "EOF while parsing a value"
          | some 34 => bump; stringBody
          | some _ => wrongKind "variant identifier"
        let content ← placed (tagOf tag)
        colon
        match content with
        | none => do let _ ← shaped n .unit; pure (Json.str tag)
        | some s => do pure (Json.obj [(tag, ← shaped n s)])
      match ← skipBlank with
      | some 125 => bump; pure v
      | some _ => failHere "expected value"
      | none => failHere "EOF while parsing an object"
    | some _ => failAhead "expected value"

def shapedItems : Nat → Shape → Bool → Scan (List Json)
  | 0, _, _ => failHere "recursion limit exceeded"
  | n + 1, s, first => do
    match ← nextItem first with
    | none => pure []
    | some _ => return (← shaped n s) :: (← shapedItems n s false)

def shapedTuple : Nat → Nat → List Shape → Nat → Bool → Scan (List Json)
  | 0, _, _, _, _ => failHere "recursion limit exceeded"
  | _ + 1, _, [], _, _ => pure []
  | n + 1, size, s :: ss, i, first => do
    match ← nextItem first with
    | none => throw { msg := invalidLength i ("a tuple of size " ++ toString size) }
    | some _ => return (← shaped n s) :: (← shapedTuple n size ss (i + 1) false)

/-- A record given as a list: fields in declaration order, a missing tail from defaults; `exp` is
what a short list is told it lacked. -/
def shapedRecordList : Nat → String → List (String × Shape × Option Json) → Nat → Bool →
    Scan (List (String × Json))
  | 0, _, _, _, _ => failHere "recursion limit exceeded"
  | _ + 1, _, [], _, _ => pure []
  | n + 1, exp, (f, s, d) :: fs, i, first => do
    match ← nextItem first with
    | none => match d with
      | some dv => return (f, dv) :: (← shapedRecordList n exp fs (i + 1) false)
      | none => throw { msg := invalidLength i exp }
    | some _ =>
      let v ← shaped n s
      return (f, v) :: (← shapedRecordList n exp fs (i + 1) false)

/-- Members of a record given as an object: a repeated field is a fault, and an unknown key is
read and skipped, or refused when the record is `closed`. -/
def shapedMembers : Nat → List (String × Shape × Option Json) → Bool → Bool → List (String × Json) →
    Scan (List (String × Json))
  | 0, _, _, _, _ => failHere "recursion limit exceeded"
  | n + 1, fs, closed, first, acc => do
    if ← nextKey first then
      let k ← stringBody
      match fs.find? (·.1 == k) with
      | none =>
        if closed then throw { msg := unknownField k fs }
        colon
        skipValue
        shapedMembers n fs closed false acc
      | some (_, s, _) =>
        if acc.any (·.1 == k) then throw { msg := "duplicate field `" ++ k ++ "`" }
        colon
        let v ← shaped n s
        shapedMembers n fs closed false ((k, v) :: acc)
    else pure acc

def shapedDict : Nat → Shape → Bool → List (String × Json) → Scan (List (String × Json))
  | 0, _, _, _ => failHere "recursion limit exceeded"
  | n + 1, s, first, acc => do
    if ← nextKey first then
      let k ← stringBody
      colon
      let v ← shaped n s
      shapedDict n s false (insertMember k v acc)
    else pure acc

end

def finish {α : Type} (v : α) : Scan α := do
  match ← skipBlank with
  | none => pure v
  | some _ => failAhead "trailing characters"

def runScan {α : Type} (m : Scan α) (text : String) : Except String α :=
  let bytes := text.toUTF8
  match (Id.run (((m bytes).run).run {})).1 with
  | .ok v => .ok v
  | .error e => .error (ReadError.render bytes e)

def depthFor (n : Nat) : Nat := 8 * n + 64

def parse (text : String) : Except String Json :=
  runScan (do finish (← anyValue (depthFor text.utf8ByteSize))) text

def readText (s : Shape) (text : String) : Except String Json :=
  runScan (do finish (← shaped (depthFor text.utf8ByteSize) s)) text

def readAs (s : Shape) (v : Json) : Except String Json :=
  readValue (depthFor (compact v).length) s v

end Json

end TileSched
