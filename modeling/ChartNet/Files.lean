import ChartNet.Text.Split
import ChartNet.Text.Units

/-!
# Files

What the command line works on: a working directory and the **files** that there are, each with
its text. A path is the list of the names on the way from the root; a directory is there because
of the files in it, or because it is known to be.
-/

namespace ChartNet

/-- A **path** from the root: the names of directories, and last the name of what it leads to. -/
abbrev Trail := List String

namespace Trail

/-- The names in the text of a path; empty names and dots do not count. -/
def names (text : String) : List String :=
  (Text.split '/' text).filter fun n => !n.isEmpty && n != "."

/-- The path after one more name; two dots lead to the directory above. -/
def enter (path : Trail) (name : String) : Trail :=
  if name = ".." then path.dropLast else path ++ [name]

/-- Where the text of a path leads from a directory. -/
def resolve (directory : Trail) (text : String) : Trail :=
  (names text).foldl enter (if text.toList.head? = some '/' then [] else directory)

/-- The places on the way to where the text of a path leads from a directory. -/
def stations (directory : Trail) (text : String) : List Trail :=
  let start := if text.toList.head? = some '/' then [] else directory
  (names text).foldl (fun way name => way ++ [enter (way.getLastD start) name]) [start]

/-- The text of a path. -/
def text (path : Trail) : String :=
  "/" ++ "/".intercalate path

/-- The names of a path after one more name. Two dots take the last name away; if there is none they
stay, unless the path starts at the root. -/
def reduce (atRoot : Bool) (names : List String) (name : String) : List String :=
  if name != ".." then names ++ [name]
  else if names.isEmpty || names.getLast? == some ".." then
    if atRoot then names else names ++ [name]
  else names.dropLast

/-- The text of a path in its **normal form**: without dots, as far as that is possible. A slash at
its start or end stays. -/
def normalize (text : String) : String :=
  let atRoot := text.toList.head? == some '/'
  let closed := text.toList.getLast? == some '/'
  let body := "/".intercalate ((names text).foldl (reduce atRoot) [])
  if body.isEmpty then if atRoot then "/" else if closed then "./" else "."
  else (if atRoot then "/" else "") ++ body ++ if closed then "/" else ""

/-- The text of a path that goes on after another. -/
def join (base text : String) : String :=
  normalize (if base.isEmpty then text else if text.isEmpty then base else base ++ "/" ++ text)

end Trail

/-- The **files** that there are, the directory in which the work is done, and directories that are
known to be there. -/
structure Files where
  directory : Trail
  all : List (Trail × String) := []
  known : List Trail := []
deriving DecidableEq

namespace Files

/-- The text of a file. -/
def read? (fs : Files) (path : Trail) : Option String :=
  fs.all.lookup path

/-- The files after one was written. -/
def write (fs : Files) (path : Trail) (text : String) : Files :=
  { fs with all :=
      if fs.all.any (·.1 == path) then
        fs.all.map fun f => if f.1 == path then (path, text) else f
      else fs.all ++ [(path, text)] }

/-- Whether a path leads to a directory: the working directory or one above it, one that is known,
or one with files in it. -/
def isDirectory (fs : Files) (path : Trail) : Bool :=
  path.isPrefixOf fs.directory || fs.known.contains path ||
    fs.all.any fun f => path.isPrefixOf f.1 && path != f.1

/-- The paths of the files in a directory, from there on. -/
def under (fs : Files) (directory : Trail) : List Trail :=
  fs.all.filterMap fun f =>
    if directory.isPrefixOf f.1 && directory != f.1 then some (f.1.drop directory.length) else none

/-- Follows the names in the text of a path one by one; only a directory can be left. -/
def follow? (fs : Files) (path : Trail) : List String → Option Trail
  | [] => some path
  | name :: names =>
    if !fs.isDirectory path then none
    else if name.isEmpty || name = "." then fs.follow? path names
    else fs.follow? (path.enter name) names

/-- Where a text, as it was given, leads, if every directory on the way is there. -/
def locate? (fs : Files) (text : String) : Option Trail :=
  if text.isEmpty then none
  else
    fs.follow? (if text.toList.head? = some '/' then [] else fs.directory) (Text.split '/' text)

/-- Whether a text, as it was given, leads to a directory. -/
def givenDirectory (fs : Files) (text : String) : Bool :=
  (fs.locate? text).any fs.isDirectory

/-- The text of the file to which a text, as it was given, leads. -/
def givenFile? (fs : Files) (text : String) : Option String :=
  (fs.locate? text).bind fs.read?

end Files

end ChartNet
