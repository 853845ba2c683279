import ChartNet.Files.Search

/-!
# Ignore files

A `.gitignore` file lists patterns of files to leave out. A pattern without a slash matches at any
depth, one with a slash from the directory of the listing on; one that ends in a slash matches
directories only; one that starts with an exclamation mark takes files back in. The last pattern
that matches decides, but nothing is taken back in from a directory that is left out. Case does
not count.
-/

namespace ChartNet

/-- A **rule** of an ignore file: what it says about the paths of a pattern. The path of a directory
ends in a slash. -/
structure IgnoreRule where
  negative : Bool
  pattern : Text.Pattern
deriving DecidableEq

namespace IgnoreRule

open Text (Pattern)

/-- The name of ignore files. -/
def fileName : String := ".gitignore"

/-- The patterns of directories in which no ignore file is looked for. -/
def unlisted : List String :=
  ["**/node_modules", "**/flow-typed", "**/coverage", "**/.git"]

/-! ### Patterns -/

/-- At least one unit of a name. -/
def someName : Pattern := .oneOrMore Glob.inName

/-- Any number of directories. -/
def directories : Pattern := .many (.seq someName Glob.slash)

/-- What stars stand for, and how many characters after them go with them. At the start of a name,
two or more stand for any directories before a slash and for anything at the end; other stars stay
in one name. -/
def stars (count : Nat) (nameStart pathStart : Bool) (rest : List Char) : Pattern × Nat :=
  match rest with
  | [] =>
    if !nameStart then (Glob.star, 0)
    else if 1 < count && !pathStart then (.oneOrMore (.unit .all), 0)
    else (someName, 0)
  | c :: _ => if c = '/' && 1 < count && nameStart then (directories, 1) else (Glob.star, 0)

/-- The pattern of a bracket: it never stands for a slash, and a range whose ends are not in order
stands for nothing. -/
def bracketPattern (b : Bracket) : Pattern :=
  .seq (.notAhead Glob.slash) (.unit (b.toSet []))

/-- The parts of the pattern of a text; `nameStart` tells whether a name starts here and `pathStart`
whether the pattern does. A bracket that is not closed matches nothing. -/
def parts : Nat → (nameStart pathStart : Bool) → List Char → List Pattern
  | 0, _, _, _ | _, _, _, [] => []
  | fuel + 1, _, _, '\\' :: c :: cs => .chars [c] :: parts fuel false false cs
  | fuel + 1, _, _, '/' :: cs => Glob.slash :: parts fuel true false cs
  | fuel + 1, _, _, '?' :: cs => Glob.inName :: parts fuel false false cs
  | fuel + 1, nameStart, pathStart, '*' :: cs =>
    let more := (cs.takeWhile (· == '*')).length
    let (p, n) := stars (more + 1) nameStart pathStart (cs.drop more)
    p :: parts fuel (n == 1) false (cs.drop (more + n))
  | fuel + 1, _, _, '[' :: cs =>
    match Bracket.read? cs with
    | some (b, rest) => bracketPattern b :: parts fuel false false rest
    | none => [.never]
  | fuel + 1, _, _, c :: cs => .chars [c] :: parts fuel false false cs

/-- The pattern of the text of a rule. -/
def patternOf (cs : List Char) : Pattern :=
  let directoryOnly := cs.getLast? == some '/'
  let inner := if directoryOnly then cs.dropLast else cs
  let body := if cs.head? = some '/' then inner.drop 1 else inner
  let front := if inner.contains '/' then [] else [.optional (.seq (.many (.unit .all)) Glob.slash)]
  let back := if directoryOnly then [Glob.slash] else [.optional Glob.slash]
  .all (front ++ parts body.length true true body ++ back)

/-! ### Rules -/

/-- A text without the blanks at its end; a backslash keeps the blank after it. -/
def trimBlanks : List Char → List Char
  | [] => []
  | '\\' :: c :: cs => '\\' :: c :: trimBlanks cs
  | c :: cs =>
    match trimBlanks cs with
    | [] => if c = ' ' then [] else [c]
    | rest => c :: rest

/-- Whether a backslash at the end of a text has nothing to keep. -/
def danglingBackslash (cs : List Char) : Bool :=
  (cs.reverse.takeWhile (· == '\\')).length % 2 == 1

/-- The rule of a line in a listing of the directory `base`, if it is one. -/
def ofLine? (base : String) (line : String) : Option IgnoreRule :=
  if line.isEmpty || line.toList.head? = some '#' then none
  else
    let negative := line.toList.head? == some '!'
    let body := if negative then String.ofList (line.toList.drop 1) else line
    let cs := (Trail.join base body).toList
    let whole := if negative then '!' :: cs else cs
    if whole.all Text.isBlank || danglingBackslash whole || whole.head? = some '#' then none
    else
      let cs := if cs.head? = some '\uFEFF' then cs.drop 1 else cs
      some { negative, pattern := patternOf (trimBlanks cs) }

/-- The rules of the text of an ignore file in the directory `base`. -/
def ofText (base : Trail) (text : String) : List IgnoreRule :=
  (Text.lines text).filterMap (ofLine? ("/".intercalate base))

/-- Whether a rule covers a path. -/
def covers (r : IgnoreRule) (path : Trail) (directory : Bool) : Bool :=
  r.pattern.accepts ("/".intercalate path ++ if directory then "/" else "") true

/-- What rules decide about a path by itself: the last one that matches counts. -/
def refuses (rules : List IgnoreRule) (path : Trail) (directory : Bool) : Bool :=
  rules.foldl (fun ignored r => if r.covers path directory then !r.negative else ignored) false

/-- Whether rules **leave out** a file: they refuse it or a directory on the way to it. -/
def leaveOut (rules : List IgnoreRule) (path : Trail) : Bool :=
  path.ancestors.any (refuses rules · true) || refuses rules path false

end IgnoreRule

/-- The rules of the ignore files below a directory, those of outer directories first. -/
def Files.ignoreRules (fs : Files) (directory : Trail) (excluded : List String) :
    List IgnoreRule :=
  let listings := fs.find directory ["**/" ++ IgnoreRule.fileName] (excluded ++ IgnoreRule.unlisted)
  (listings.mergeSort fun a b => decide (a.length ≤ b.length)).flatMap fun path =>
    IgnoreRule.ofText (path.dropLast.drop directory.length) ((fs.read? path).getD "")

end ChartNet
