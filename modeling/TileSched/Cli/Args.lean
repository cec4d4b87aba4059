import TileSched.Solver.Model
/-!
The command line of `tileopt`: one graph file and options. Arguments are read left to right. A
long option is `--name`, `--name value` or `--name=value`; short ones combine (`-vq`) and take a
value joined (`-tfile`, `-t=file`) or from the next argument; `--` ends the options. An option's
value is checked when the next option or argument arrives, or at the end.

Every refusal is reported with the same texts and in the same order as the usual command-line
conventions of the tool: unknown arguments with a suggestion of a close option name, values
outside a list with the list, numbers that do not parse with the reason.
-/
namespace TileSched

inductive CliFlag where
  | target | output | preset | iterations | solverNodes | solver | seed | dumpDir | noMerge | emit
  | verbose | quiet | help | version
  deriving DecidableEq, Repr, Inhabited

namespace CliFlag

def all : List CliFlag :=
  [target, output, preset, iterations, solverNodes, solver, seed, dumpDir, noMerge, emit, verbose, quiet,
    help, version]

def ofRun (f : CliFlag) : Bool := f != help && f != version

def long : CliFlag → String
  | target => "target" | output => "output" | preset => "preset" | iterations => "iterations"
  | solverNodes => "solver-nodes" | solver => "solver" | seed => "seed" | dumpDir => "dump-dir"
  | noMerge => "no-merge" | emit => "emit" | verbose => "verbose" | quiet => "quiet" | help => "help"
  | version => "version"

def short? : CliFlag → Option Char
  | target => some 't' | output => some 'o' | verbose => some 'v' | quiet => some 'q' | help => some 'h'
  | version => some 'V' | _ => none

def valueName? : CliFlag → Option String
  | target => some "FILE" | output => some "FILE" | preset => some "PRESET" | iterations => some "ITERATIONS"
  | solverNodes => some "SOLVER_NODES" | solver => some "SOLVER" | seed => some "SEED" | dumpDir => some "DIR"
  | emit => some "EMIT" | _ => none

def choices : CliFlag → List (String × String)
  | preset => [("quick", "Few iterations, small solver budget"), ("default", "Default settings"),
      ("thorough", "Many iterations, large solver budget")]
  | solver => [("smt", "Z3 optimizer"), ("branch-and-bound", "In-crate branch and bound")]
  | emit => [("tree", "Indented solved trees"), ("json", "Solved trees as JSON"),
      ("buffers", "Outer-memory buffer offsets as JSON")]
  | _ => []

def default? : CliFlag → Option String
  | preset => some "default" | emit => some "tree" | _ => none

def about : CliFlag → String
  | target => "Target options (JSON); defaults to a 3-level L1/L2/DDR hierarchy"
  | output => "Output file (defaults to stdout)"
  | preset => "Configuration preset"
  | iterations => "Search iterations"
  | solverNodes => "Solver node budget per tree"
  | solver => "Tree solver backend"
  | seed => "Random seed"
  | dumpDir => "Write diagnostic dumps to this directory"
  | noMerge => "Solve the unmerged graph only"
  | emit => "What to emit"
  | verbose => "Verbose output (-v, -vv, -vvv)"
  | quiet => "Quiet mode (suppress warnings)"
  | help => "Print help"
  | version => "Print version"

def suffix (f : CliFlag) : String :=
  match f.valueName? with
  | some v => " <" ++ v ++ ">"
  | none => if f = verbose then "..." else ""

def render (f : CliFlag) : String := "--" ++ f.long ++ f.suffix

def ofLong? (name : String) : Option CliFlag := all.find? (·.long == name)

def ofShort? (c : Char) : Option CliFlag := all.find? (·.short? == some c)

end CliFlag

inductive Preset where
  | quick | standard | thorough
  deriving DecidableEq, Repr, Inhabited

inductive EmitKind where
  | tree | json | buffers
  deriving DecidableEq, Repr, Inhabited

structure CliOptions where
  input : String := ""
  target : Option String := none
  output : Option String := none
  preset : Preset := .standard
  iterations : Option Nat := none
  solverNodes : Option Nat := none
  solver : Option Backend := none
  seed : Option Nat := none
  dumpDir : Option String := none
  noMerge : Bool := false
  emit : EmitKind := .tree
  verbose : Nat := 0
  quiet : Bool := false
  deriving Inhabited

inductive ArgKey where
  | file
  | flag (f : CliFlag)
  deriving DecidableEq, Repr, Inhabited

inductive CliRefusal where
  /-- An argument that is no option, with a close option name or a hint to escape it, and the
  usage line. -/
  | unknown (arg : String) (similar : Option String) (escapeTip : Bool) (usage : String)
  /-- A value outside an option's list, or an empty one. -/
  | invalidChoice (f : CliFlag) (value : String)
  /-- A value that does not parse, with the reason. -/
  | invalidValue (f : CliFlag) (value reason : String)
  /-- A switch given a value. -/
  | unexpectedValue (f : CliFlag) (value usage : String)
  /-- An option given twice. -/
  | repeated (f : CliFlag) (usage : String)
  /-- No graph file. -/
  | missingFile (usage : String)
  /-- An empty graph file name. -/
  | emptyFile
  deriving Inhabited

inductive CliRequest where
  | run (o : CliOptions)
  | help (long : Bool)
  | version
  | refused (r : CliRefusal)
  deriving Inhabited

namespace Cli

/-- Jaro similarity of two strings: characters match when equal and at most half the longer
length apart, each matched once; the score averages the matched share of each string and the
share of matches in the same order. -/
def jaro (a b : String) : Float :=
  let xs := a.toList
  let ys := b.toList
  if xs.isEmpty && ys.isEmpty then 1.0
  else if xs.isEmpty || ys.isEmpty then 0.0
  else
    let range := max xs.length ys.length / 2 - 1
    let step (acc : List Bool × List Bool) (ix : Char × Nat) :=
      let (c, i) := ix
      let lo := i - range
      let hi := min ys.length (i + range + 1)
      match (List.range hi).find? (fun j => lo ≤ j && ys[j]? == some c && !(acc.2.getD j false)) with
      | some j => (acc.1 ++ [true], acc.2.set j true)
      | none => (acc.1 ++ [false], acc.2)
    let (aFlags, bFlags) := xs.zipIdx.foldl step ([], List.replicate ys.length false)
    let aMatched := (xs.zip aFlags).filterMap fun (c, f) => if f then some c else none
    let bMatched := (ys.zip bFlags).filterMap fun (c, f) => if f then some c else none
    let m := aMatched.length
    if m = 0 then 0.0
    else
      let t := ((aMatched.zip bMatched).filter fun (x, y) => x != y).length / 2
      let mf := m.toFloat
      (mf / xs.length.toFloat + mf / ys.length.toFloat + (m - t).toFloat / mf) / 3.0

def similar? (v : String) (candidates : List String) : Option String :=
  let scored := (candidates.map fun c => (jaro v c, c)).filter (·.1 > 0.7)
  (scored.mergeSort fun x y => x.1 ≤ y.1).getLast?.map (·.2)

def parseNat (s : String) : Except String Nat :=
  let ds := match s.toList with
    | '+' :: rest => rest
    | cs => cs
  if s.isEmpty then .error "cannot parse integer from empty string"
  else if s = "+" then .error "invalid digit found in string"
  else
    ds.foldlM (fun acc c =>
      if !c.isDigit then .error "invalid digit found in string"
      else
        let v := acc * 10 + (c.toNat - '0'.toNat)
        if v ≥ 18446744073709551616 then .error "number too large to fit in target type" else .ok v) 0

def usageWith (used : List ArgKey) : String :=
  let opts := used.filterMap fun k => match k with
    | .flag f => some f
    | .file => none
  "Usage: tileopt" ++ String.join (opts.eraseDups.map fun f => " " ++ f.render) ++ " <FILE>"

def fullUsage : String := "Usage: tileopt [OPTIONS] <FILE>"

/-- The usage line that offers every argument of the run as one choice,
`<FILE|--target <FILE>|…|--quiet>`, after the switch `f` when that stands outside the run: the
line a switch given a value shows once some argument was already taken. -/
def choiceUsage (f : CliFlag) : String :=
  "Usage: tileopt" ++ (if f.ofRun then "" else " " ++ f.render) ++ " <FILE|" ++
    "|".intercalate ((CliFlag.all.filter CliFlag.ofRun).map (·.render)) ++ ">"

/-- The reading so far: the options, the arguments given in order, the option or file waiting
for its value, and whether `--` was seen. -/
structure ReadState where
  opts : CliOptions := {}
  seen : List ArgKey := []
  pending : Option (ArgKey × List String) := none
  trailing : Bool := false
  deriving Inhabited

abbrev Reading := StateT ReadState (Except CliRequest)

def refuse {α : Type} (r : CliRefusal) : Reading α := throw (.refused r)

def mark (k : ArgKey) : Reading Unit :=
  modify fun st => { st with seen := st.seen.erase k ++ [k] }

def given (k : ArgKey) : Reading Bool := do return (← get).seen.contains k

def setValue (f : CliFlag) (v : String) : Reading Unit := do
  let choice : Reading Nat := do
    match (f.choices.map (·.1)).idxOf? v with
    | some i => pure i
    | none => refuse (.invalidChoice f v)
  let number : Reading Nat := do
    match parseNat v with
    | .ok n => pure n
    | .error reason => refuse (.invalidValue f v reason)
  let path : Reading String := do
    if v.isEmpty then refuse (.invalidChoice f "") else pure v
  let o := (← get).opts
  let o ← match f with
    | .target => pure { o with target := some (← path) }
    | .output => pure { o with output := some (← path) }
    | .dumpDir => pure { o with dumpDir := some (← path) }
    | .preset => do
      let i ← choice
      pure { o with preset := if i = 0 then .quick else if i = 1 then .standard else .thorough }
    | .solver => do
      let i ← choice
      pure { o with solver := some (if i = 0 then .smt else .branchAndBound) }
    | .emit => do
      let i ← choice
      pure { o with emit := if i = 0 then .tree else if i = 1 then .json else .buffers }
    | .iterations => do
      let n ← number
      pure { o with iterations := some n }
    | .solverNodes => do
      let n ← number
      pure { o with solverNodes := some n }
    | .seed => do
      let n ← number
      pure { o with seed := some n }
    | _ => pure o
  modify fun st => { st with opts := o }

def takeOption (f : CliFlag) (vals : List String) : Reading Unit := do
  if vals.isEmpty then refuse (.invalidChoice f "")
  if ← given (.flag f) then refuse (.repeated f fullUsage)
  mark (.flag f)
  vals.forM (setValue f)

def settle : Reading Unit := do
  match (← get).pending with
  | none => pure ()
  | some (k, vals) =>
    modify fun st => { st with pending := none }
    match k with
    | .file =>
      mark .file
      let v := vals.headD ""
      if v.isEmpty then refuse .emptyFile
      modify fun st => { st with opts := { st.opts with input := v } }
    | .flag f => takeOption f vals

/-- Settles the waiting value before an unknown argument is reported, ignoring its refusal: an
option whose value does not parse still counts as given, one without a value does not, and one
given again is dropped. -/
def settleQuietly : Reading Unit := do
  let st ← get
  match settle.run st with
  | .ok ((), st') => set st'
  | .error _ =>
    let seen := match st.pending with
      | some (.flag f, _ :: _) =>
        if st.seen.contains (.flag f) then st.seen.erase (.flag f) else st.seen ++ [.flag f]
      | some (.file, _ :: _) => st.seen.erase .file ++ [.file]
      | _ => st.seen
    set { st with pending := none, seen }

/-- The usage line of an unknown long option: the full one when nothing was given, else the one
naming what was. -/
def usageOfGiven (seen : List ArgKey) : String := if seen.isEmpty then fullUsage else usageWith seen

def react (f : CliFlag) (isLong : Bool) (attached : Option String) : Reading Unit := do
  settle
  match f.valueName? with
  | some _ =>
    match attached with
    | some v => takeOption f [v]
    | none => modify fun st => { st with pending := some (.flag f, []) }
  | none =>
    match f with
    | .help => throw (.help isLong)
    | .version => throw .version
    | .verbose =>
      mark (.flag f)
      modify fun st => { st with opts := { st.opts with verbose := st.opts.verbose + 1 } }
    | _ =>
      if ← given (.flag f) then refuse (.repeated f fullUsage)
      mark (.flag f)
      modify fun st => { st with opts := match f with
        | .noMerge => { st.opts with noMerge := true }
        | _ => { st.opts with quiet := true } }

def longNames : List String := CliFlag.all.map (·.long)

def readLong (body : String) : Reading Unit := do
  let (name, value) := match body.splitOn "=" with
    | [n] => (n, none)
    | n :: rest => (n, some ("=".intercalate rest))
    | [] => (body, none)
  match CliFlag.ofLong? name with
  | some f =>
    match f.valueName?, value with
    | none, some v =>
      let given := (← get).seen
      settleQuietly
      refuse (.unexpectedValue f v (if given.isEmpty then usageWith [.flag f] else choiceUsage f))
    | _, _ => react f true value
  | none =>
    settleQuietly
    let similar := similar? name longNames
    if let some s := similar then
      if let some f := CliFlag.ofLong? s then
        if !(← given (.flag f)) then mark (.flag f)
    refuse (.unknown ("--" ++ name) (similar.map ("--" ++ ·)) similar.isNone (usageOfGiven (← get).seen))

def readShort : List Char → Reading Unit
  | [] => pure ()
  | c :: rest => do
    match CliFlag.ofShort? c with
    | none =>
      settleQuietly
      refuse (.unknown ("-" ++ c.toString) none true fullUsage)
    | some f =>
      match f.valueName? with
      | none => do
        react f false none
        readShort rest
      | some _ =>
        let v := match rest with
          | '=' :: more => some (String.ofList more)
          | [] => none
          | more => some (String.ofList more)
        react f false v

def readPlain (a : String) : Reading Unit := do
  let st ← get
  match st.pending with
  | some (.flag f, []) =>
    if !st.trailing then
      modify fun st => { st with pending := some (.flag f, [a]) }
      return
  | _ => pure ()
  if (← given .file) || (st.pending.map (·.1) == some .file) then
    settleQuietly
    refuse (.unknown a none false fullUsage)
  settle
  modify fun st => { st with pending := some (.file, [a]) }

def readArg (a : String) : Reading Unit := do
  if (← get).trailing then readPlain a
  else if a = "--" then modify fun st => { st with trailing := true }
  else if a.startsWith "--" then readLong (a.drop 2).toString
  else if a.startsWith "-" && a.length > 1 then readShort (a.drop 1).toString.toList
  else readPlain a

end Cli

def readCommandLine (args : List String) : CliRequest :=
  let run : Cli.Reading Unit := do
    args.forM Cli.readArg
    Cli.settle
    if !(← Cli.given .file) then Cli.refuse (.missingFile (Cli.usageWith ((← get).seen ++ [.file])))
  match run.run {} with
  | .ok ((), st) => .run st.opts
  | .error r => r

end TileSched
