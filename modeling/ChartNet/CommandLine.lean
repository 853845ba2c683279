import ChartNet.Document
import ChartNet.Files.Ignore
import ChartNet.Report

/-!
# The command line

The **command** compiles the descriptor in a file or on the standard input, all descriptors in a
directory, or one expression. `Command.run` says what it prints, which files there are afterwards
and how it exits, so that reading and writing are all that is left to do.
-/

namespace ChartNet

/-! ### Options -/

/-- How diagnostics are written. -/
inductive OutputFormat where
  | text
  | json
deriving DecidableEq

/-- The **options** of a command. -/
structure Options where
  format : OutputFormat := .text
  output : Option String := none
  includes : List String := []
  excludes : List String := []
  useIgnoreFiles : Bool := true
  positionals : List String := []
deriving DecidableEq

namespace Options

/-- The format that a text names, in small or capital letters. -/
def formatOf? (text : String) : Option OutputFormat :=
  match String.ofList (text.toList.map Char.toLower) with
  | "json" => some .json
  | "text" => some .text
  | _ => none

/-- The globs in a list with commas. -/
def globs (text : String) : List String :=
  ((Text.split ',' text).map Text.trim).filter (!·.isEmpty)

/-- The options after an argument that is not followed by a value of its own. -/
def single (o : Options) (arg : String) : Options :=
  if arg = "--no-gitignore" then { o with useIgnoreFiles := false }
  else if arg = "--gitignore" then { o with useIgnoreFiles := true }
  else if arg = "-" || !Text.startsWith arg "-" then
    { o with positionals := o.positionals ++ [arg] }
  else o

/-- The options after an argument and the value that follows it, if it takes one. -/
def valued? (o : Options) (arg value : String) : Option Options :=
  if arg = "--format" || arg = "-f" then
    (formatOf? value).map fun f => { o with format := f }
  else if arg = "--output" || arg = "-o" then some { o with output := some value }
  else if value.isEmpty then none
  else if arg = "--include" || arg = "-I" then
    some { o with includes := o.includes ++ globs value }
  else if arg = "--exclude" || arg = "-E" then
    some { o with excludes := o.excludes ++ globs value }
  else none

/-- The options after some arguments. -/
def addAll (o : Options) : List String → Options
  | [] => o
  | [arg] => o.single arg
  | arg :: value :: rest =>
    match o.valued? arg value with
    | some o => o.addAll rest
    | none => (o.single arg).addAll (value :: rest)

/-- The **options** of some arguments. -/
def ofArgs (args : List String) : Options :=
  ({} : Options).addAll args

/-- What a command is to work on: the first argument that is no option, or else the first one. -/
def target (o : Options) (args : List String) : String :=
  ((o.positionals.head?) <|> args.head?).getD "-"

/-- Whether a model goes to the standard output. -/
def printsModel (o : Options) : Bool :=
  o.output = none || o.output = some "-"

end Options

/-! ### Finding descriptors -/

/-- The globs of descriptors, unless others are given. -/
def defaultIncludes : List String := ["**/*.model.json"]

/-- What is left out if ignore files are not used. -/
def defaultExcludes : List String :=
  ["**/.git/**", "**/node_modules/**", "**/dist/**", "**/build/**", "**/out/**", "**/.cache/**",
    "**/coverage/**"]

/-- Some globs in runs: those with an exclamation mark take files out again that the globs before
them find, and are listed with each run of those. -/
def runs (globs : List String) : List (List String × List String) :=
  let step (g : String) : List String × List String × List (List String × List String) →
      List String × List String × List (List String × List String)
    | (run, out, done) =>
      if Text.startsWith g "!" then ([], String.ofList (g.toList.drop 1) :: out, (run, out) :: done)
      else (g :: run, out, done)
  let (run, out, done) := globs.foldr step ([], [], [])
  (run, out) :: done

/-- The **descriptors** in a directory, by the order of their paths. -/
def Files.candidates (fs : Files) (directory : Trail) (o : Options) : List Trail :=
  let excluded := o.excludes ++ if o.useIgnoreFiles then [] else defaultExcludes
  let includes := (if o.includes.isEmpty then defaultIncludes else o.includes).eraseDups
  let expand := List.map (fs.expandDirectory directory)
  let found := (runs includes).flatMap fun (run, out) =>
    fs.find directory (expand run) (expand (excluded ++ out))
  let rules := if o.useIgnoreFiles then fs.ignoreRules directory excluded else []
  let kept := found.eraseDups.filter fun path =>
    !IgnoreRule.leaveOut rules (path.drop directory.length)
  kept.mergeSort fun a b => Text.unitLe a.text b.text

/-! ### Compiling files -/

/-- A name without an ending, in small or capital letters. -/
def dropEnding (ending name : String) : String :=
  let cs := name.toList
  let n := cs.length - ending.length
  if (cs.drop n).map Char.toLower = ending.toList then String.ofList (cs.take n) else name

/-- Where the model of a descriptor is written: beside it, with its own ending. -/
def defaultOutput (path : Trail) : Trail :=
  let name := path.getLastD ""
  path.dropLast ++ [dropEnding ".json" (dropEnding ".model.json" name) ++ ".jani"]

/-- The outcome of compiling a text; charts are looked for from a directory on. -/
def Files.compile (fs : Files) (directory : Trail) (content : String) : Document.Outcome Json :=
  Document.compileText content fun reference => fs.read? (Trail.resolve directory reference)

/-- The diagnostics of an outcome. -/
def Document.Outcome.errors {α : Type} : Document.Outcome α → List Diagnostic
  | .ok _ => []
  | .error ds => ds

/-- The text of a model as it is written to files. -/
def modelText (model : Json) : String :=
  model.pretty 2 ++ "\n"

/-- The report on a descriptor: only errors in the JSON text have a place in it. -/
def descriptorReport (name content : String) (errors : List Diagnostic) : String :=
  let shown := if errors.any (·.code == some "IN-JSON") then content else ""
  Text.trimEnd (Report.text name shown errors)

/-! ### Commands -/

/-- What a command does: how it exits, what it prints, and the files afterwards. -/
structure Effect where
  exit : Nat := 0
  output : String := ""
  errors : String := ""
  files : Files
deriving DecidableEq

namespace Effect

/-- The effect with one more line of output. -/
def print (e : Effect) (line : String) : Effect :=
  { e with output := e.output ++ line ++ "\n" }

/-- The effect with one more line of errors. -/
def complain (e : Effect) (line : String) : Effect :=
  { e with errors := e.errors ++ line ++ "\n" }

/-- The effect with an exit code that tells whether all is well. -/
def exitIf (e : Effect) (ok : Bool) : Effect :=
  { e with exit := if ok then 0 else 1 }

end Effect

namespace Command

/-- How to use the command. -/
def usage : List String :=
  ["Usage: chart2jani <model.json> [-o out.jani]",
    "       cat model.json | chart2jani - [-o out.jani]",
    "       chart2jani <directory>",
    "       chart2jani expr \"<expression>\" [--expand]",
    "  - Compiles a model descriptor and the charts it names into a JANI model",
    "  - When a directory is given, compiles every **/*.model.json next to itself as <name>.jani",
    "  - \"chart2jani expr\" prints the JANI JSON of one expression",
    "Options:",
    "  --output, -o    Output file (default: stdout; \"-\" for stdout)",
    "  --include, -I   Glob(s) to include in directory mode (repeatable or comma-separated)",
    "  --exclude, -E   Glob(s) to exclude in directory mode (repeatable or comma-separated)",
    "  --no-gitignore  Do not respect .gitignore when scanning directories",
    "  --format, -f    Diagnostics format: text|json (default: text)",
    "  --expand        With expr, rewrite macros into primitive operators"]

/-- Prints the JSON form of an **expression**. -/
def runExpression (fs : Files) (args : List String) : Effect :=
  let start : Effect := { files := fs }
  match args.find? (!Text.startsWith · "--") with
  | none => (start.complain "Error: No expression given").exitIf false
  | some source =>
    match Document.compileExpr source (if args.contains "--expand" then some [] else none) with
    | .ok j => start.print (j.pretty 2)
    | .error ds =>
      (start.complain (Text.trimEnd (Report.text "<expression>" source ds))).exitIf false

/-- A descriptor that was compiled: its path, its text and what is wrong with it. -/
structure Compiled where
  path : Trail
  content : String
  errors : List Diagnostic

/-- Compiles descriptors one by one and writes their models. -/
def compileAll (fs : Files) : List Trail → List Compiled × Files
  | [] => ([], fs)
  | path :: rest =>
    let content := (fs.read? path).getD ""
    let outcome := fs.compile path.dropLast content
    let written :=
      match outcome with
      | .ok model => fs.write (defaultOutput path) (modelText model)
      | .error _ => fs
    let (others, fs) := compileAll written rest
    ({ path, content, errors := outcome.errors } :: others, fs)

/-- The summary of a directory. -/
def directoryJson (results : List Compiled) : Json :=
  let count := results.foldl (fun n r => n + Report.errorCount r.errors) 0
  .obj [("valid", .bool (count == 0)),
    ("files", .arr (results.map fun r => Report.fileSummary r.path.text r.errors)),
    ("errorCount", .nat count), ("modelCount", .nat results.length)]

/-- Compiles all descriptors in a **directory**. -/
def runDirectory (fs : Files) (directory : Trail) (o : Options) : Effect :=
  let (results, fs) := compileAll fs (fs.candidates directory o)
  let failed := results.filter (!·.errors.isEmpty)
  let start : Effect := { files := fs }
  match o.format with
  | .json =>
    (start.print ((directoryJson results).pretty 2)).exitIf
      (results.all fun r => Report.errorCount r.errors == 0)
  | .text =>
    if results.isEmpty then start.print "No model descriptors found."
    else
      let told := failed.foldl
        (fun e r => e.complain (descriptorReport r.path.text r.content r.errors)) start
      let done := Number.natText (results.length - failed.length)
      (told.print ("Compiled " ++ done ++ " of " ++ Number.natText results.length ++
        " model(s).")).exitIf failed.isEmpty

/-- Compiles the text of one **descriptor**; `name` is its name in reports. -/
def runDescriptor (fs : Files) (directory : Trail) (name content : String) (o : Options) : Effect :=
  let outcome := fs.compile directory content
  let errors := outcome.errors
  let start : Effect := { files := fs }
  let written :=
    match outcome, o.output with
    | .ok model, some out =>
      if o.printsModel then start
      else
        { start with files := fs.write (Trail.resolve fs.directory out) (modelText model) }.complain
          ("Wrote " ++ out)
    | _, _ => start
  match o.format with
  | .json =>
    let model : List (String × Json) :=
      match outcome with
      | .ok m => if o.printsModel then [("model", m)] else []
      | .error _ => []
    (written.print ((Json.obj (Report.fileMembers name errors ++ model)).pretty 2)).exitIf
      (Report.errorCount errors == 0)
  | .text =>
    match outcome with
    | .error ds => (written.complain (descriptorReport name content ds)).exitIf false
    | .ok m => if o.printsModel then { written with output := modelText m } else written

/-- **Runs** a command on some files; `input` is the standard input. -/
def run (fs : Files) (input : String) (args : List String) : Effect :=
  let help (ok : Bool) : Effect :=
    (usage.foldl Effect.print ({ files := fs } : Effect)).exitIf ok
  match args with
  | [] => help false
  | "expr" :: rest => runExpression fs rest
  | "-h" :: _ | "--help" :: _ => help true
  | _ =>
    let o := Options.ofArgs args
    let target := o.target args
    if fs.givenDirectory target then runDirectory fs (Trail.resolve fs.directory target) o
    else if target = "-" then runDescriptor fs fs.directory "<stdin>" input o
    else
      match fs.givenFile? target with
      | some content =>
        runDescriptor fs (Trail.resolve fs.directory target).dropLast target content o
      | none => (({ files := fs } : Effect).complain ("File not found: " ++ target)).exitIf false

end Command

end ChartNet
