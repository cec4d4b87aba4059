import TileSched.Cli.Args
/-!
The texts the command line prints by itself: the short help (`-h`), one line per option with
its default and accepted values; the long help (`--help`), each option's help on lines of its
own with the accepted values explained; the version; and the messages of refused arguments.
-/
namespace TileSched.Cli

def aboutLine : String := "Tile sizing, fusion and buffer placement for tensor dataflow graphs"

def versionText : String := "tileopt 0.1.0\n"

def spaces (n : Nat) : String := String.ofList (List.replicate n ' ')

def flagColumn (f : CliFlag) : String :=
  (match f.short? with
    | some c => "-" ++ c.toString ++ ", "
    | none => "    ") ++ "--" ++ f.long ++ f.suffix

def shortAbout (f : CliFlag) : String :=
  let about := if f = .help then "Print help (see more with '--help')" else f.about
  let dflt := match f.default? with
    | some d => " [default: " ++ d ++ "]"
    | none => ""
  let values := if f.choices.isEmpty then ""
    else " [possible values: " ++ ", ".intercalate (f.choices.map (·.1)) ++ "]"
  about ++ dflt ++ values

def columnWidth : Nat := CliFlag.all.foldl (fun m f => max m (flagColumn f).length) 0

def shortHelp : String :=
  let line (w : Nat) (left about : String) := "  " ++ left ++ spaces (w - left.length + 2) ++ about ++ "\n"
  aboutLine ++ "\n\n" ++ fullUsage ++ "\n\nArguments:\n" ++ line 6 "<FILE>" "Dataflow graph (JSON)" ++
    "\nOptions:\n" ++ String.join (CliFlag.all.map fun f => line columnWidth (flagColumn f) (shortAbout f))

def helpIndent : String := spaces 10

/-- The help of an option in the long help: its line, then the accepted values with their help,
names padded to one width, then the default after a blank line. -/
def longAbout (f : CliFlag) : String :=
  let about := if f = .help then "Print help (see a summary with '-h')" else f.about
  let values := if f.choices.isEmpty then ""
    else
      let w := f.choices.foldl (fun m c => max m c.1.length) 0
      "\n\n" ++ helpIndent ++ "Possible values:" ++ String.join (f.choices.map fun (n, h) =>
        "\n" ++ helpIndent ++ "- " ++ n ++ ": " ++ spaces (w - n.length) ++ h)
  let dflt := match f.default? with
    | some d => "\n" ++ helpIndent ++ "\n" ++ helpIndent ++ "[default: " ++ d ++ "]"
    | none => ""
  about ++ values ++ dflt

def longHelp : String :=
  let entry (left about : String) := "  " ++ left ++ "\n" ++ helpIndent ++ about ++ "\n"
  aboutLine ++ "\n\n" ++ fullUsage ++ "\n\nArguments:\n" ++ entry "<FILE>" "Dataflow graph (JSON)" ++
    "\nOptions:\n" ++ "\n".intercalate (CliFlag.all.map fun f => entry (flagColumn f) (longAbout f))

def moreInformation : String := "\n\nFor more information, try '--help'.\n"

def choiceList (f : CliFlag) : String :=
  if f.choices.isEmpty then ""
  else "\n  [possible values: " ++ ", ".intercalate (f.choices.map (·.1)) ++ "]"

def refusalText : CliRefusal → String
  | .unknown arg similar tip usage =>
    let hint := match similar with
      | some s => "\n\n  tip: a similar argument exists: '" ++ s ++ "'"
      | none => if tip then "\n\n  tip: to pass '" ++ arg ++ "' as a value, use '-- " ++ arg ++ "'" else ""
    "error: unexpected argument '" ++ arg ++ "' found" ++ hint ++ "\n\n" ++ usage ++ moreInformation
  | .invalidChoice f v =>
    let head := if v.isEmpty then "a value is required for '" ++ f.render ++ "' but none was supplied"
      else "invalid value '" ++ v ++ "' for '" ++ f.render ++ "'"
    let hint := match similar? v (f.choices.map (·.1)) with
      | some s => "\n\n  tip: a similar value exists: '" ++ s ++ "'"
      | none => ""
    "error: " ++ head ++ choiceList f ++ hint ++ moreInformation
  | .invalidValue f v reason =>
    "error: invalid value '" ++ v ++ "' for '" ++ f.render ++ "': " ++ reason ++ moreInformation
  | .unexpectedValue f v usage =>
    "error: unexpected value '" ++ v ++ "' for '" ++ f.render ++ "' found; no more were expected\n\n" ++
      usage ++ moreInformation
  | .repeated f usage =>
    "error: the argument '" ++ f.render ++ "' cannot be used multiple times\n\n" ++ usage ++ moreInformation
  | .missingFile usage =>
    "error: the following required arguments were not provided:\n  <FILE>\n\n" ++ usage ++ moreInformation
  | .emptyFile => "error: a value is required for '<FILE>' but none was supplied" ++ moreInformation

end TileSched.Cli
