import TileSched.Cli.Run
/-!
The `tileopt` executable: loads the files the command line names into a working directory
held in memory, runs the command on it, then prints both output streams, writes back every
file the run made or changed, and exits with the run's code.
-/
namespace TileSched.Cli

def probe (path : String) : IO (Option Entry) := do
  try
    return some (.file (← IO.FS.readFile path))
  catch _ =>
    return none

end TileSched.Cli

open TileSched in
def main (args : List String) : IO UInt32 := do
  let names := match readCommandLine args with
    | .run o => [some o.input, o.target, o.output, o.dumpDir].filterMap id
    | _ => []
  let mut files : FileTree := {}
  for n in names do
    if n != "." then
      if let some e ← Cli.probe n then files := files.put [n] e
  let before := files.listing
  let r := runCommand args files
  IO.print r.stdout
  IO.eprint r.stderr
  for (path, text) in r.files.listing do
    if before.lookup path != some text then
      let dirs := (path.splitOn "/").dropLast
      if !dirs.isEmpty then IO.FS.createDirAll ("/".intercalate dirs)
      IO.FS.writeFile path text
  return UInt32.ofNat r.code
