import TileSched.Cli.Help
import TileSched.Search.Run
/-!
One run of the command: read the graph and target files, schedule the graph (by merge search,
or as it is with `--no-merge`), and write the chosen form of the result to standard output or a
file. The run is a pure function of the arguments and the files of the working directory; it
gives the exit code, the two output streams and the files afterwards.

Records at or above the level chosen by `-v` (more) and `-q` (errors only) go to standard error
as `[LEVEL source] message`. A failure ends the run with code one and the message, its context
first and then its causes.
-/
namespace TileSched

structure CommandResult where
  code : Nat
  stdout : String := ""
  stderr : String := ""
  files : FileTree
  deriving Inhabited

namespace Cli

def source : String := "tileopt"

/-- A failure with the context it happened in and its causes, outermost first; or an
arithmetic or indexing fault, which aborts the run. -/
structure Failure where
  message : String
  causes : List String := []
  aborted : Bool := false
  deriving Inhabited

def Failure.render (f : Failure) : String :=
  if f.aborted then
    "thread 'main' panicked:\n" ++ f.message ++ "\n"
  else
    "Error: " ++ f.message ++
      match f.causes with
      | [] => "\n"
      | [c] => "\n\nCaused by:\n    " ++ c ++ "\n"
      | cs => "\n\nCaused by:\n" ++ String.join (cs.zipIdx.map fun (c, i) => "    " ++ toString i ++ ": " ++ c ++ "\n")

def Failure.code (f : Failure) : Nat := if f.aborted then 101 else 1

def causesOf : Error → List String
  | e@(.serialization s) => [e.message, s]
  | e@(.io s) => [e.message, s]
  | e => [e.message]

def inContext (context : String) (e : Error) : Failure := ⟨context, causesOf e, false⟩

def bare (e : Error) : Failure :=
  match e, causesOf e with
  | .fault f, _ => ⟨f.message, [], true⟩
  | _, m :: rest => ⟨m, rest, false⟩
  | _, [] => ⟨e.message, [], false⟩

abbrev Step := ExceptT Failure (StateM Workspace)

def work {α : Type} (w : Work α) : Step α := fun ws =>
  match w.run ws with
  | (.ok a, ws) => (.ok a, ws)
  | (.error e, ws) => (.error (bare e), ws)

def note (level : LogLevel) (message : String) : Step Unit :=
  modify fun w => { w with log := w.log.push ⟨level, source, message⟩ }

def readNamed (what name : String) : Step String := do
  match (← get).files.readFile (FilePath.ofName name) with
  | .ok text => return text
  | .error e => throw ⟨"Failed to read " ++ what ++ " file: " ++ Text.quoted name, [e.message], false⟩

def configOf (o : CliOptions) : SchedulerConfig :=
  let c : SchedulerConfig := match o.preset with
    | .quick => .quick
    | .standard => {}
    | .thorough => .thorough
  let c := match o.iterations with
    | some n => { c with searchIterations := n }
    | none => c
  let c := match o.solverNodes with
    | some n => { c with solverBudget := { c.solverBudget with nodeLimit := n } }
    | none => c
  let c := match o.solver with
    | some b => { c with solverBudget := { c.solverBudget with backend := b } }
    | none => c
  let c := match o.seed with
    | some s => { c with seed := s }
    | none => c
  match o.dumpDir with
  | some d => { c with dumpDir := some d }
  | none => c

/-- The most detailed level shown: errors only when quiet, else warnings and one more level per
`-v`. -/
def shownLevel (o : CliOptions) : Nat :=
  if o.quiet then LogLevel.error.rank else min (LogLevel.warn.rank + o.verbose) LogLevel.trace.rank

/-- The text to write for a solution; buffer placements are traced only when their records are
shown. -/
def emitted (o : CliOptions) (c : SchedulerConfig) (name : String) (s : GraphSolution) : Step String := do
  let lift {α : Type} (r : Except Fault α) : Step α := work (Work.lift (liftFault r))
  match o.emit with
  | .tree => lift s.render
  | .json => return s.toJson.pretty 0
  | .buffers =>
    let (m, _, records) ← lift (Module.scheduleLogged ⟨[s.toFunction name "default"]⟩ (FirstFit.new c.alignment)
      (shownLevel o ≥ LogLevel.trace.rank))
    modify fun w => { w with log := w.log ++ records.toArray }
    return m.toJson.pretty 0

def execute (o : CliOptions) : Step String := do
  note .info "TileOpt v0.1.0"
  note .debug ("Input file: " ++ Text.quoted o.input)
  let text ← readNamed "graph" o.input
  let graph ← match Dataflow.ofText text with
    | .ok g => pure g
    | .error e => throw (inContext "Failed to load dataflow graph" e)
  let target ← match o.target with
    | none => pure Target.default
    | some t => do
      let text ← readNamed "target" t
      match Target.ofText text with
      | .ok t => pure t
      | .error e => throw (inContext "Failed to load target options" e)
  let config := configOf o
  note .debug ("Scheduler config: " ++ config.render)
  let solution ← if o.noMerge then do
      note .info "Solving unmerged graph..."
      work (solveUnmerged graph target config.solverBudget)
    else do
      note .info "Searching merges..."
      let outcome ← work (runSearch graph target config)
      outcome.merges.forM fun mp => note .info ("merged " ++ mp.render)
      pure outcome.solution
  if !solution.isOptimal then
    note .warn "solver budget exhausted on at least one tree; result may be suboptimal"
  let out ← emitted o config graph.name solution
  match o.output with
  | none => return out ++ "\n"
  | some p =>
    match (← get).files.writeFile (FilePath.ofName p) out with
    | .ok fs =>
      modify fun w => { w with files := fs }
      return ""
    | .error e => throw ⟨"Failed to write output file: " ++ Text.quoted p, [e.message], false⟩

end Cli

def runCommand (args : List String) (files : FileTree) : CommandResult :=
  match readCommandLine args with
  | .help long => { code := 0, stdout := if long then Cli.longHelp else Cli.shortHelp, files }
  | .version => { code := 0, stdout := Cli.versionText, files }
  | .refused r => { code := 2, stderr := Cli.refusalText r, files }
  | .run o =>
    let (r, ws) := (Cli.execute o).run.run { files }
    let level := Cli.shownLevel o
    let logText := String.join ((ws.log.toList.filter (·.level.rank ≤ level)).map (·.render ++ "\n"))
    match r with
    | .ok stdout => { code := 0, stdout, stderr := logText, files := ws.files }
    | .error f => { code := f.code, stderr := logText ++ f.render, files := ws.files }

end TileSched
