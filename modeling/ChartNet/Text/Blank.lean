/-!
# Blank characters and lines

The **blank** characters are the ones the expression language skips: the Unicode spaces, the
line and paragraph separators, the ASCII control blanks and the byte order mark. Lines of a
document end at a line feed, with or without a carriage return before it.
-/

namespace ChartNet.Text

/-- The blank characters as ranges of code points, both ends included. -/
def blankRanges : List (Nat × Nat) :=
  [(0x9, 0xD), (0x20, 0x20), (0xA0, 0xA0), (0x1680, 0x1680), (0x2000, 0x200A), (0x2028, 0x2029),
    (0x202F, 0x202F), (0x205F, 0x205F), (0x3000, 0x3000), (0xFEFF, 0xFEFF)]

/-- Whether a character is **blank**. -/
def isBlank (c : Char) : Bool :=
  blankRanges.any fun r => r.1 ≤ c.toNat && c.toNat ≤ r.2

/-- What core takes for white space is blank. -/
theorem isBlank_of_isWhitespace {c : Char} (h : c.isWhitespace) : isBlank c := by
  simp only [Char.isWhitespace, Bool.or_eq_true, decide_eq_true_eq] at h
  rcases h with ((h | h) | h) | h <;> subst h <;> decide

/-- Whether a character ends a line, so that an escape cannot stand for it. -/
def endsLine (c : Char) : Bool :=
  c == '\n' || c == '\r' || c == '\u2028' || c == '\u2029'

/-- A list of characters without the blank ones at its end. -/
def trimEndChars (cs : List Char) : List Char :=
  (cs.reverse.dropWhile isBlank).reverse

/-- A text without the blank characters at its end. -/
def trimEnd (s : String) : String :=
  String.ofList (trimEndChars s.toList)

/-- A text without the blank characters at both ends. -/
def trim (s : String) : String :=
  String.ofList (trimEndChars (s.toList.dropWhile isBlank))

/-- The **lines** of a list of characters: it is cut at each line feed, and a carriage return
right before one goes with it. -/
def linesOf : List Char → List (List Char)
  | [] => [[]]
  | '\r' :: '\n' :: rest => [] :: linesOf rest
  | '\n' :: rest => [] :: linesOf rest
  | c :: rest =>
    match linesOf rest with
    | [] => [[c]]
    | l :: ls => (c :: l) :: ls

/-- The lines of a text; there is always at least one. -/
def lines (s : String) : List String :=
  (linesOf s.toList).map String.ofList

theorem linesOf_ne_nil (cs : List Char) : linesOf cs ≠ [] := by
  fun_cases linesOf cs <;> simp_all

/-- Whether characters stand somewhere in a list of characters. -/
def occursIn (part : List Char) : List Char → Bool
  | [] => part.isEmpty
  | c :: cs => part.isPrefixOf (c :: cs) || occursIn part cs

/-- Whether a text **contains** another. -/
def contains (s part : String) : Bool :=
  occursIn part.toList s.toList

/-- A text begins with another when its characters do. -/
def startsWith (s start : String) : Bool :=
  start.toList.isPrefixOf s.toList

/-- What remains of a list of characters after a given start. -/
def after? (start cs : List Char) : Option (List Char) :=
  if start.isPrefixOf cs then some (cs.drop start.length) else none

end ChartNet.Text
