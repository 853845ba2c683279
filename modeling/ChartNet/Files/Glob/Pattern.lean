import ChartNet.Files.Bracket

/-!
# The pattern of a glob

A **glob** describes paths. In a name, `*` stands for any characters and `?` for one; `**` between
slashes stands for any directories. Brackets stand for one character, and groups in parentheses for
alternatives; a sign before a group says how often it may stand there, or that it must not.

The glob is read from left to right. A `Draft` holds what has been read: the groups that are open,
each with its alternatives, and what kind of sign was read last, because the meaning of stars, dots
and signs of repetition depends on it.
-/

namespace ChartNet

namespace Glob

open Text (Pattern)

/-! ### Building blocks -/

/-- A slash. -/
def slash : Pattern := .chars ['/']

/-- A point. -/
def point : Pattern := .chars ['.']

/-- One unit of a name. -/
def inName : Pattern := .unit (.butNot '/'.toNat)

/-- Any units of a name, perhaps none. -/
def star : Pattern := .many inName

/-- The end of a name. -/
def nameEnd : Pattern := .either slash .stop

/-- One or two points that are a whole name: the directory itself, or the one above it. -/
def dots : Pattern := .all [point, .optional point, nameEnd]

/-- Any part of a path in which no name is made of points only. -/
def deep : Pattern :=
  .many (.seq (.notAhead (.seq (.either .start slash) dots)) (.unit .inLine))

/-- The condition that a unit follows. -/
def oneAhead : Pattern := .ahead (.unit .inLine)

/-! ### Drafts -/

/-- How often a **group** stands: once, perhaps, at least once, any number of times, or not at
all. -/
inductive Group where
  | once
  | perhaps
  | atLeastOnce
  | often
  | not
deriving DecidableEq

/-- An **open group**: what it is, the text after its opening parenthesis, its alternatives so far
and the parts of the last one, both last first. -/
structure OpenGroup where
  group : Group := .once
  text : List Char := []
  alternatives : List Pattern := []
  parts : List Pattern := []

/-- The pattern of what has been read in a group. -/
def OpenGroup.pattern (g : OpenGroup) : Pattern :=
  .oneOf ((.all g.parts.reverse :: g.alternatives).reverse)

/-- The kind of the **sign** that was read last. -/
inductive Sign where
  | start
  | slash
  | dot
  | stars
  | opening
  | closing
  | bracket
  | text
deriving DecidableEq

/-- What has been read of a glob: the innermost group, those around it, the last two signs, whether
bars are characters, whether this is between quotes, and whether the glob makes sense. -/
structure Draft where
  inner : OpenGroup := {}
  outer : List OpenGroup := []
  last : Sign := .start
  beforeLast : Sign := .start
  plainBars : Bool := false
  quoted : Bool := false
  valid : Bool := true

namespace Draft

/-- Whether a group is open. -/
def inGroup (d : Draft) : Bool :=
  !d.outer.isEmpty

/-- The draft with a sign read; text after text is one sign. -/
def note (d : Draft) (s : Sign) : Draft :=
  if s = .text && d.last = .text then d else { d with last := s, beforeLast := d.last }

/-- The draft with a pattern added that a sign stands for. -/
def add (d : Draft) (p : Pattern) (s : Sign) : Draft :=
  { d with inner := { d.inner with parts := p :: d.inner.parts } }.note s

/-- The draft with characters added that stand for themselves. -/
def addText (d : Draft) (cs : List Char) : Draft :=
  d.add (.chars cs) .text

/-- The draft without the part that was added last. -/
def dropPart (d : Draft) : Draft :=
  { d with inner := { d.inner with parts := d.inner.parts.drop 1 } }

/-- The draft with a change to the part that was added last; it makes no sense without one. -/
def changePart (d : Draft) (f : Pattern → Pattern) : Draft :=
  match d.inner.parts with
  | [] => { d with valid := false }
  | p :: ps => { d with inner := { d.inner with parts := f p :: ps } }.note .text

/-- The draft with a group opened. -/
def openGroup (d : Draft) (g : Group) (rest : List Char) : Draft :=
  { d with inner := { group := g, text := rest }, outer := d.inner :: d.outer }.note .opening

/-- The draft with another alternative begun. -/
def bar (d : Draft) : Draft :=
  { d with inner := { d.inner with
      alternatives := .all d.inner.parts.reverse :: d.inner.alternatives, parts := [] } }.note .text

/-! ### Groups -/

/-- The pattern of an ending that stands after a group that must not be there. -/
def endingPattern (cs : List Char) : Pattern :=
  .all (cs.map fun c => if c = '*' then star else if c = '?' then inName else .chars [c])

/-- Whether a text is an ending: a point and then characters other than points and slashes. -/
def isEnding : List Char → Bool
  | '.' :: cs => !cs.isEmpty && cs.all fun c => c != '.' && c != '/' && c != '\\'
  | _ => false

/-- The pattern of what is **not** in a group; `text` is the text of the group and `rest` what
follows it. What follows the group may take part in the comparison: an ending does if the group
has a star, and the end of the glob always does. -/
def without (inside : Pattern) (text rest : List Char) : Pattern :=
  let crosses := 1 < text.length && text.contains '/'
  let free := if crosses then deep else star
  if text.contains '*' && isEnding rest then
    .seq (.notAhead (.seq inside (endingPattern rest))) free
  else if crosses || rest.all (· == ')') then .seq (.notAhead (.seq inside .stop)) free
  else .seq (.notAhead inside) free

/-- The pattern of a group that is closed, with the text after it. -/
def closedPattern (g : OpenGroup) (rest : List Char) : Pattern :=
  let p := g.pattern
  match g.group with
  | .once => p
  | .perhaps => .optional p
  | .atLeastOnce => .oneOrMore p
  | .often => .many p
  | .not => without p (g.text.take (g.text.length - rest.length - 1)) rest

/-- The draft with the innermost group closed; a parenthesis that closes none stands for itself. -/
def closeGroup (d : Draft) (rest : List Char) : Draft :=
  match d.outer with
  | [] => d.add (.chars [')']) .closing
  | g :: gs => { d with inner := g, outer := gs }.add (closedPattern d.inner rest) .closing

/-- The draft at the end of the text: a parenthesis that is not closed stands for itself. -/
def closeAll (d : Draft) : List OpenGroup → Pattern × Bool
  | [] => (d.inner.pattern, d.valid)
  | g :: gs =>
    let inside := .seq (.chars ['(']) d.inner.pattern
    let valid := d.valid && d.inner.group == .once
    { d with inner := { g with parts := inside :: g.parts }, valid }.closeAll gs

/-! ### Stars -/

/-- The condition on what a star stands for at the start of a name, or after a point there. -/
def starGuard (d : Draft) (single : Bool) : List Pattern :=
  let one := if single then [oneAhead] else []
  match d.last with
  | .start | .slash => .notAhead dots :: one
  | .dot => .notAhead (.seq (.optional point) nameEnd) :: one
  | _ => []

/-- The draft with stars that stay in one name. -/
def addStar (d : Draft) (single : Bool) : Draft :=
  d.add (.all (d.starGuard single ++ [star])) .stars

/-- How much of a text repeats the two stars before it, with slashes between. -/
def repeated : List Char → Nat
  | '/' :: '*' :: '*' :: cs => if cs.isEmpty || cs.head? = some '/' then repeated cs + 3 else 0
  | _ => 0

/-- The draft with two stars at the start of a name or group, and how much of the text after them
goes with them. With a slash or the end on both sides they stand for any directories, also for none,
and what surrounds them goes with them. -/
def addDeep (d : Draft) (rest : List Char) : Draft × Nat :=
  let k := repeated rest
  let after := rest.drop k
  let inPath := d.last = .slash && d.beforeLast ≠ .start
  let guard := .notAhead dots
  match after with
  | [] =>
    if inPath && d.beforeLast ≠ .stars then
      (d.dropPart.add (.either (.all [slash, guard, deep]) .stop) .stars, k)
    else (d.add (if d.last = .slash then .seq guard deep else deep) .stars, k)
  | '/' :: more =>
    if d.last = .start then
      ((d.add (.oneOf [.start, slash, .seq deep slash]) .stars).note .slash, k + 1)
    else if inPath then
      let stop := if more.isEmpty then [] else [.stop]
      ((d.dropPart.add (.oneOf ([.all [slash, guard, deep, slash], slash] ++ stop)) .stars).note
        .slash, k + 1)
    else (d.add (if d.last = .slash then .seq guard deep else deep) .stars, k)
  | '@' :: '(' :: _ | '(' :: _ | ')' :: _ => (d.add deep .stars, k)
  | _ => (d.addStar false, k)

/-- The draft with some stars, and how much of the text after them goes with them. -/
def addStars (d : Draft) (count : Nat) (rest : List Char) : Draft × Nat :=
  if count = 2 then
    match d.last with
    | .start | .slash | .opening | .closing => d.addDeep rest
    | _ => (d.addStar false, 0)
  else (d.addStar (count == 1), 0)

/-! ### Signs -/

/-- Whether a group opens here; a question mark after the parenthesis makes it none. -/
def opensGroup : List Char → Bool
  | ['('] => true
  | '(' :: c :: _ => c != '?'
  | _ => false

/-- The draft with a character read after a backslash. -/
def addEscaped (d : Draft) (c : Char) : Draft :=
  match Bracket.letterClass? c, Bracket.control? c with
  | some rs, _ => d.add (.unit { ranges := rs }) .text
  | none, some u => d.add (.unit (.single u)) .text
  | none, none => d.addText [c]

/-- The characters that make a bracket more than a list of characters. -/
def listSigns : List Char :=
  ['-', '*', '+', '?', '.', '^', '$', '\x7b', '\x7d', '(', '|', ')', '[', ']']

/-- The pattern of a bracket. One that only lists characters also stands for its own text, and one
that means all other characters never means a slash. -/
def bracketPattern (b : Bracket) : Pattern :=
  let besides := if b.named || b.content.contains '/' then [] else ['/'.toNat]
  let set := .unit (b.toSet besides)
  if b.inverted || b.named || b.content.any listSigns.contains then set
  else .either (.chars ('[' :: b.content ++ [']'])) set

/-- The draft with a bracket read, and how much of the text after the sign goes with it. -/
def addBracket (d : Draft) (rest : List Char) : Draft × Nat :=
  match Bracket.read? rest with
  | none => (d.addText ['['], 0)
  | some (b, after) =>
    let d := if b.isOrdered then d else { d with valid := false }
    (d.add (bracketPattern b) .bracket, rest.length - after.length)

/-- The draft with a question mark read. -/
def addQuestion (d : Draft) (rest : List Char) : Draft × Nat :=
  if d.last ≠ .opening && opensGroup rest then (d.openGroup .perhaps (rest.drop 1), 1)
  else
    match d.last with
    | .opening => (d.addText ['?'], 0)
    | .closing => (d.changePart .optional, 0)
    | _ => (d.add inName .text, 0)

/-- The draft with a plus sign read: inside a group, and after a group or bracket, it repeats what
stands before it. -/
def addPlus (d : Draft) (rest : List Char) : Draft × Nat :=
  if opensGroup rest then (d.openGroup .atLeastOnce (rest.drop 1), 1)
  else if d.last = .opening then (d.addText ['+'], 0)
  else if d.last = .bracket || d.last = .closing || d.inGroup then
    if d.last = .stars then ({ d with valid := false }, 0) else (d.changePart .oneOrMore, 0)
  else (d.addText ['+'], 0)

/-- The draft with a star read. -/
def addStarRun (d : Draft) (rest : List Char) : Draft × Nat :=
  let more := (rest.takeWhile (· == '*')).length
  let after := rest.drop more
  if 1 < after.length && opensGroup after then
    if more = 0 then (d.openGroup .often (after.drop 1), 1) else (d.addStars more ('*' :: after)).1
      |>.openGroup .often (after.drop 1) |> (·, more + 1)
  else
    let (d, k) := d.addStars (more + 1) after
    (d, more + k)

/-- The draft with a point read; at the start of a name and in groups it is a sign of its own. -/
def addPoint (d : Draft) : Draft :=
  d.add point (if d.inGroup || d.last = .start || d.last = .slash then .dot else .text)

/-- The draft with a brace read. Braces that are not closed make no sense; others stand for
themselves, except that two points between them make them a bracket. -/
def addBrace (d : Draft) (rest : List Char) : Draft × Nat :=
  let body := rest.takeWhile (· != '\x7d')
  if body.length = rest.length then ({ d with valid := false }, 0)
  else if body.contains '\x7b' || !Text.occursIn ['.', '.'] body then (d.addText ['\x7b'], 0)
  else
    let ends := (body.filter (· != '.')).flatMap Bracket.plainParts
    (d.add (.unit { ranges := Bracket.ranges ends }) .bracket, body.length + 1)

/-- The draft with a character read, and how much of the text after it goes with it. -/
def read (d : Draft) (c : Char) (rest : List Char) : Draft × Nat :=
  if d.quoted && c != '"' then (d.addText [c], 0)
  else
    match c with
    | '"' => ({ d with quoted := !d.quoted }, 0)
    | '\\' =>
      match rest with
      | [] => (d.addText ['\\'], 0)
      | '/' :: _ | '.' :: _ | ';' :: _ => (d, 0)
      | e :: _ => (d.addEscaped e, 1)
    | '[' => d.addBracket rest
    | '(' => (d.openGroup .once rest, 0)
    | ')' => (d.closeGroup rest, 0)
    | '\x7b' => d.addBrace rest
    | '|' => (if d.plainBars then d.addText ['|'] else d.bar, 0)
    | '/' => (d.add slash .slash, 0)
    | '.' => (d.addPoint, 0)
    | '?' => d.addQuestion rest
    | '!' => if opensGroup rest then (d.openGroup .not (rest.drop 1), 1) else (d.addText ['!'], 0)
    | '+' => d.addPlus rest
    | '@' => if opensGroup rest then (d, 0) else (d.addText ['@'], 0)
    | '*' => d.addStarRun rest
    | c => (d.addText [c], 0)

/-- The draft with a text read; `fuel` is at least its length. -/
def readAll : Nat → Draft → List Char → Draft
  | 0, d, _ | _, d, [] => d
  | fuel + 1, d, c :: rest =>
    let (d, k) := d.read c rest
    readAll fuel d (rest.drop k)

end Draft

/-! ### Globs -/

/-- The text of a glob without the names of the directory itself at its start. -/
def withoutHere : List Char → List Char
  | '.' :: '/' :: cs => withoutHere cs
  | cs => cs

/-- The text before the last ending, a point and characters of words, and that ending. -/
def lastEnding? (cs : List Char) : Option (List Char × List Char) :=
  let word := (cs.reverse.takeWhile fun c => c.isAlphanum || c == '_').reverse
  match word, cs.reverse.drop word.length with
  | _ :: _, '.' :: front => some (front.reverse, '.' :: word)
  | _, _ => none

/-- The forms that mean something of their own, also with endings after them: two stars cross
directories, and what stands for an ending is not empty. -/
def shortForm? (fuel : Nat) (cs : List Char) : Option Pattern :=
  let guard := .notAhead dots
  match fuel, cs with
  | _, ['*', '*'] => some deep
  | _, ['*', '.', '*'] => some (.all [guard, star, point, oneAhead, star])
  | _, ['*', '*', '/', '*', '.', '*'] =>
    some (.all [.optional (.seq deep slash), guard, star, point, oneAhead, star])
  | 0, _ => none
  | fuel + 1, cs =>
    match lastEnding? cs with
    | some (front, ending) => (shortForm? fuel front).map (.seq · (.chars ending))
    | none => none

/-- The characters that open or close a part of a pattern. -/
def groupingSigns : List Char :=
  ['/', '(', ')', '[', ']', '\x7b', '\x7d', '"']

/-- Whether a text is a name without groups, brackets and quotes, in which a bar is a character. -/
def isSimple (cs : List Char) : Bool :=
  !cs.any (groupingSigns.contains ·) && cs.head? != some '*' && cs.head? != some '!'

/-- The pattern of the text of a glob. -/
def patternOf (cs : List Char) : Pattern :=
  let d := Draft.readAll cs.length { plainBars := isSimple cs } cs
  let (p, valid) := d.closeAll d.outer
  if valid then p else .never

/-- How many exclamation marks turn a glob into its opposite. -/
def marks : List Char → Nat
  | '!' :: '(' :: _ => 0
  | '!' :: cs => marks cs + 1
  | _ => 0

/-- The **pattern** of a glob. -/
def pattern (text : String) : Pattern :=
  let cs := withoutHere text.toList
  match shortForm? cs.length cs with
  | some p => p
  | none =>
    let n := marks cs
    let p := patternOf (cs.drop n)
    if n % 2 = 0 then p else .seq (.notAhead (.seq p .stop)) .anything

end Glob

end ChartNet
