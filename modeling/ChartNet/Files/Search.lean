import ChartNet.Files.Glob

/-!
# Searching files

A **search** has globs for the files to find and globs for what is left out. Globs without special
signs name their files; the others are searched from their bases on, all together from the directory
of the search if one of them has to be searched from there. Directories that are left out are not
entered, and a file that is left out is not found.
-/

namespace ChartNet

/-- A glob as it takes files out again: without the exclamation mark at its start. -/
def Glob.positive (text : String) : String :=
  match text.toList with
  | '!' :: '(' :: _ => text
  | '!' :: cs => String.ofList cs
  | _ => text

/-- The text of a glob with one slash for each run of slashes after its first character. -/
def Glob.singleSlashes (text : String) : String :=
  let rec go : List Char → List Char
    | '/' :: cs => if cs.head? = some '/' then go cs else '/' :: go cs
    | c :: cs => c :: go cs
    | [] => []
  match text.toList with
  | c :: cs => String.ofList (c :: go cs)
  | [] => ""

/-- The globs that some globs stand for. -/
def Glob.prepare (texts : List String) : List String :=
  (texts.flatMap Glob.expand).map Glob.singleSlashes

/-- A **search** in a directory: the patterns to find, the patterns of paths to leave out, the
patterns of full paths to leave out, and the patterns of directories that are not entered. -/
structure Search where
  directory : Trail
  found : List Text.Pattern
  leftOut : List Text.Pattern
  leftOutFull : List Text.Pattern
  closed : List Text.Pattern

namespace Search

/-- The text of a path without the name of the directory itself at its start. -/
def relative (path : String) : String :=
  match path.toList with
  | '.' :: '/' :: cs => String.ofList cs
  | _ => path

/-- The search of a directory for some globs. -/
def make (directory : Trail) (globs excluded : List String) : Search :=
  let isFull (g : String) : Bool := g.toList.head? == some '/'
  { directory
    found := globs.map Glob.pattern
    leftOut := (excluded.filter (!isFull ·)).map Glob.pattern
    leftOutFull := (excluded.filter isFull).map Glob.pattern
    closed := (excluded.filter Glob.closesDirectories).map Glob.pattern }

/-- Whether a search **finds** a file by the text of its path. -/
def finds (s : Search) (path : String) : Bool :=
  let p := Text.units (relative path)
  let full := Text.units (Trail.resolve s.directory path).text
  s.found.any (·.acceptsUnits p) && !s.leftOut.any (·.acceptsUnits p) &&
    !s.leftOutFull.any (·.acceptsUnits full)

/-- Whether a search **enters** a directory that the names of its globs allow. -/
def enters (s : Search) (tests : List (List Glob.NameTest)) (path : String) : Bool :=
  let p := relative path
  (tests.any fun t => Glob.mayEnter t (Text.split '/' p)) && !s.closed.any (·.accepts p)

end Search

/-- The directories above a path, from the outermost on. -/
def Trail.ancestors (path : Trail) : List Trail :=
  (List.range (path.length - 1)).map fun i => path.take (i + 1)

namespace Files

/-- The files that are found from a **base** on. -/
def findFrom (fs : Files) (directory : Trail) (excluded : List String) (base : String)
    (globs : List String) : List Trail :=
  let search := Search.make directory globs excluded
  let tests := globs.map Glob.nameTests
  let root := Trail.resolve directory base
  let start :=
    if base = "." then "" else if base.toList.getLast? = some '/' then base else base ++ "/"
  let textOf (path : Trail) : String := start ++ "/".intercalate path
  ((fs.under root).filter fun path =>
    path.ancestors.all (fun a => search.enters tests (textOf a)) && search.finds (textOf path)).map
      (root ++ ·)

/-- The files that are found by their **names**. -/
def findNamed (fs : Files) (directory : Trail) (excluded globs : List String) : List Trail :=
  let search := Search.make directory globs excluded
  globs.filterMap fun g =>
    let path := Trail.resolve directory g
    if (fs.read? path).isSome && search.finds g then some path else none

/-- Whether a glob leads out of the directory of its search. -/
def leadsOut (glob : String) : Bool :=
  Text.startsWith glob ".." || Text.startsWith glob "./.."

/-- The bases of some globs, each with its globs. -/
def byBase (globs : List String) : List (String × List String) :=
  (globs.map Glob.base).eraseDups.map fun b => (b, globs.filter fun g => Glob.base g == b)

/-- The **files** that some globs find in a directory and that others do not leave out. -/
def find (fs : Files) (directory : Trail) (globs excluded : List String) : List Trail :=
  let globs := Glob.prepare globs
  let excluded := (Glob.prepare excluded).map Glob.positive
  let described := globs.filter Glob.isDynamic
  let inside := described.filter (!leadsOut ·)
  let groups := byBase (described.filter leadsOut) ++
    if inside.any (Glob.base · == ".") then [(".", inside)] else byBase inside
  (fs.findNamed directory excluded (globs.filter (!Glob.isDynamic ·)) ++
    groups.flatMap fun (base, gs) => fs.findFrom directory excluded base gs).eraseDups

/-- The globs that a glob stands for if it names a directory: everything in it. -/
def expandDirectory (fs : Files) (directory : Trail) (glob : String) : String :=
  let name := if Text.startsWith glob "!" then String.ofList (glob.toList.drop 1) else glob
  if fs.isDirectory (Trail.resolve directory name) then Trail.join glob "**" else glob

end Files

end ChartNet
