import ChartNet.Files
import ChartNet.Files.Glob.Pattern
import ChartNet.Files.Glob.Range

/-!
# Globs

A **glob** without special signs names one file. Any other describes files, and a search for them
starts at its **base**, the directory that its first names lead to, and enters only directories
that the names of the glob allow.
-/

namespace ChartNet.Glob

/-! ### Special signs -/

/-- Whether a condition holds of a list of characters from some place on, given the character before
that place. -/
def somewhere (p : Option Char → List Char → Bool) (before : Option Char) : List Char → Bool
  | [] => false
  | c :: cs => p before (c :: cs) || somewhere p (some c) cs

/-- The signs that say how often a group stands. -/
def groupSigns : List Char := ['!', '*', '+', '?', '@']

/-- Whether a bracket that is closed starts here. -/
def startsBracket : List Char → Bool
  | '[' :: cs => (cs.takeWhile (· != '[')).contains ']'
  | _ => false

/-- Whether there are alternatives before another parenthesis opens, and then a closing one. -/
def hasChoice : List Char → Bool
  | [] | '(' :: _ => false
  | '|' :: cs => (cs.takeWhile (· != '|')).contains ')' || hasChoice cs
  | _ :: cs => hasChoice cs

/-- Whether a group with alternatives and without a sign starts here. -/
def startsChoice (before : Option Char) : List Char → Bool
  | '(' :: cs => !before.any groupSigns.contains && hasChoice cs
  | _ => false

/-- Whether a group with a sign starts here. -/
def startsGroup : List Char → Bool
  | c :: '(' :: cs => groupSigns.contains c && (cs.takeWhile (· != '(')).contains ')'
  | _ => false

/-- Whether the first braces of a text hold a list or a range. -/
def hasBraces (cs : List Char) : Bool :=
  let body := (cs.dropWhile (· != '\x7b')).takeWhile (· != '\x7d')
  body.length < (cs.dropWhile (· != '\x7b')).length &&
    (body.contains ',' || Text.occursIn ['.', '.'] body)

/-- Whether a text is **dynamic**: it describes names rather than being one. -/
def isDynamic (text : String) : Bool :=
  let cs := text.toList
  cs.contains '\\' || cs.contains '*' || cs.contains '?' || cs.head? == some '!' || hasBraces cs ||
    somewhere (fun before rest => startsBracket rest || startsChoice before rest ||
      startsGroup rest)
      none cs

/-! ### The base -/

/-- Whether characters come right after each other in a list: the first, and some time after it the
second. -/
def followedBy (first second : Char) (cs : List Char) : Bool :=
  ((cs.dropWhile (· != first)).drop 1).contains second

/-- Whether a sign that is not escaped makes the start of a glob a description. -/
def describes : List Char → Bool
  | [] => false
  | '\\' :: _ :: cs => describes cs
  | c :: cs =>
    c == '*' || c == '[' || c == '\x7b' || (c == '(' && !cs.contains ')') ||
      (c == '(' && followedBy '|' ')' cs) ||
      (groupSigns.contains c && cs.head? == some '(' && cs.contains ')') ||
      ([']', '.', '+', ')'].contains c && cs.head? == some '?') || describes cs

/-- The characters that lose a backslash before them in a base. -/
def escapable : List Char :=
  ['!', '*', '?', '|', '[', ']', '(', ')', '\x7b', '\x7d']

/-- The text of a base as the name of a directory. -/
def unescaped : List Char → List Char
  | [] => []
  | c :: cs =>
    if c = '\\' && cs.head?.any escapable.contains then unescaped cs else c :: unescaped cs

/-- The longest start of some names, given last first, that describes nothing. -/
def plainStart : List (List Char) → List Char
  | [] => ['.']
  | name :: names =>
    let cs := ['/'].intercalate (name :: names).reverse
    if cs.isEmpty then ['/']
    else if cs.head? == some '!' || describes cs then plainStart names
    else cs

/-- The **base** of a glob: the directory from which on it has to be searched. -/
def base (text : String) : String :=
  let cs := text.toList
  let closed := (cs.getLast? == some ']' || cs.getLast? == some '\x7d') &&
    (cs.dropLast.contains '[' || cs.dropLast.contains '\x7b')
  let names := (Text.splitChars '/' cs).reverse
  String.ofList (unescaped (plainStart (if closed then names else names.drop 1)))

/-! ### Names -/

/-- Where the reader of the names of a glob stands: outside, or in a bracket, group or brace. -/
inductive Nesting where
  | none
  | bracket
  | group
  | braces (depth : Nat)

/-- The names of a glob: it is cut at the slashes that stand in no bracket, group or brace. -/
def cutNames : Nesting → List Char → List (List Char)
  | _, [] => [[]]
  | n, '\\' :: c :: cs =>
    match cutNames n cs with
    | [] => [['\\', c]]
    | p :: ps => ('\\' :: c :: p) :: ps
  | n, c :: cs =>
    let inner : Nesting :=
      match n with
      | .none =>
        if c = '[' then .bracket else if c = '(' then .group
        else if c = '\x7b' then .braces 1 else .none
      | .bracket => if c = ']' then .none else .bracket
      | .group => if c = ')' then .none else .group
      | .braces k =>
        if c = '\x7b' then .braces (k + 1)
        else if c = '\x7d' then if k ≤ 1 then .none else .braces (k - 1)
        else .braces k
    let rest := cutNames inner cs
    match n, c with
    | .none, '/' => [] :: rest
    | _, _ =>
      match rest with
      | [] => [[c]]
      | p :: ps => (c :: p) :: ps

/-- The **names** of a glob. A slash at the end starts no further name. -/
def names (text : String) : List String :=
  let parts := cutNames .none (withoutHere text.toList)
  let parts := if parts.getLast? == some [] && 1 < parts.length then parts.dropLast else parts
  parts.map String.ofList

/-- What a name of a glob allows: one name, names of a pattern, or any number of directories. -/
inductive NameTest where
  | exactly (name : String)
  | like (p : Text.Pattern)
  | anyDepth

/-- What the names of a glob allow. -/
def nameTests (text : String) : List NameTest :=
  (names text).map fun n =>
    if !isDynamic n then .exactly n
    else if Text.contains n "**" then .anyDepth
    else .like (pattern n)

/-- Whether a name is allowed. -/
def NameTest.allows (t : NameTest) (name : String) : Bool :=
  match t with
  | exactly n => n == name
  | like p => p.accepts name
  | anyDepth => true

/-- Whether the names of a glob allow to **enter** a directory, given by its names: a file that the
glob describes can be below it. -/
def mayEnter (tests : List NameTest) : List String → Bool
  | [] => true
  | name :: path =>
    match tests with
    | [] => false
    | .anyDepth :: _ => true
    | [_] => false
    | t :: ts => t.allows name && mayEnter ts path

/-- Whether leaving out what a glob describes also closes directories: it ends with two stars, or
its last name is no description. -/
def closesDirectories (text : String) : Bool :=
  let cs := text.toList
  let path := if cs.getLast? == some '/' then cs.dropLast else cs
  let last := ((Text.splitChars '/' path).getLast?).getD []
  ['/', '*', '*'].reverse.isPrefixOf cs.reverse || !isDynamic (String.ofList last)

end ChartNet.Glob
