import ChartNet.CommandLine

/-!
# The program

Reads the files that a command may need, runs it, and writes what it says.
-/

namespace ChartNet.Program

/-- The text of a file, if it can be read. -/
def readText? (path : Trail) : IO (Option String) := do
  try
    return some (← IO.FS.readFile path.text)
  catch _ => return none

/-- The files with one more, if it can be read. -/
def load (fs : Files) (path : Trail) : IO Files := do
  if (fs.read? path).isSome then return fs
  match ← readText? path with
  | some text => return fs.write path text
  | none => return fs

/-- The files with all those below a directory. -/
partial def loadDirectory (fs : Files) (path : Trail) : IO Files := do
  let directory := (← IO.currentDir) / path.text
  let mut fs := fs
  for entry in ← directory.readDir do
    let inner := path ++ [entry.fileName]
    let kind := (← entry.path.symlinkMetadata).type
    match kind with
    | .dir => fs ← loadDirectory fs inner
    | .file => fs ← load fs inner
    | _ => pure ()
  return fs

/-- The charts to which the text of a descriptor refers. -/
def references (text : String) : List String :=
  match Json.parse text with
  | .error _ => []
  | .ok j =>
    match Descriptor.ofJson j with
    | .ok d => d.references
    | .error _ => []

/-- The files with the charts to which a descriptor in a directory refers. -/
def loadCharts (fs : Files) (directory : Trail) (text : String) : IO Files :=
  (references text).foldlM (fun fs r => load fs (Trail.resolve directory r)) fs

/-- Whether a path leads to a directory. -/
def isDirectory (path : Trail) : IO Bool := do
  ((← IO.currentDir) / path.text).isDir

/-- The files that a command needs for its target, and the standard input if it needs that. -/
def gather (fs : Files) (target : String) (o : Options) : IO (Files × String) := do
  let path := Trail.resolve fs.directory target
  let fs := { fs with known := ← (Trail.stations fs.directory target).filterM isDirectory }
  if fs.givenDirectory target then
    let bases := (Glob.prepare o.includes).map fun g => Trail.resolve path (Glob.base g)
    let roots ← (path :: bases).filterM isDirectory
    let fs ← roots.foldlM loadDirectory { fs with known := roots ++ fs.known }
    let fs ← fs.all.foldlM (fun acc f => loadCharts acc f.1.dropLast f.2) fs
    return (fs, "")
  if target == "-" then
    let input ← (← IO.getStdin).readToEnd
    return (← loadCharts fs fs.directory input, input)
  let fs ← load fs path
  return (← loadCharts fs path.dropLast ((fs.read? path).getD ""), "")

end ChartNet.Program

open ChartNet Program in
/-- Runs the command. -/
def main (args : List String) : IO UInt32 := do
  let directory := Trail.names (← IO.currentDir).toString
  let needsFiles := !args.isEmpty && !(["expr", "-h", "--help"].contains (args.headD ""))
  let (files, input) ←
    if needsFiles then
      let o := Options.ofArgs args
      gather { directory := directory } (o.target args) o
    else pure ({ directory := directory }, "")
  let e := Command.run files input args
  for (path, text) in e.files.all do
    if files.read? path != some text then IO.FS.writeFile path.text text
  IO.print e.output
  IO.eprint e.errors
  return UInt32.ofNat e.exit
