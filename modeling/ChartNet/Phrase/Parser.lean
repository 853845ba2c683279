import ChartNet.Phrase

/-!
# From tokens to phrases

A predictive descent: every decision looks at the next token only. `Phrase.parse` accepts a list
of tokens exactly if all of it is one phrase, and otherwise reports the first token that no
phrase can continue with, together with what was expected there.

The binary operators have six **levels**, from disjunction, the loosest, down to the
multiplicative operators; below them stand the unary operators and then the postfix forms.
-/

namespace ChartNet.Phrase

/-- What a token list had to continue with. -/
inductive Expected where
  | token (kind : TokenKind)
  | operand
  | nothing
deriving DecidableEq

/-- Why a token list is no phrase: what was expected, the token found instead (none at the end),
and whether this was between the arguments of a call. -/
structure ParseError where
  expected : Expected
  found : Option Token
  inArguments : Bool
deriving DecidableEq

/-- A part read from a token list, with fewer tokens left. -/
abbrev Parsed (α : Type) (ts : List Token) :=
  Except ParseError (α × { rest : List Token // rest.length < ts.length })

/-- A part read from a token list, with no more tokens left. -/
abbrev Extended (α : Type) (ts : List Token) :=
  Except ParseError (α × { rest : List Token // rest.length ≤ ts.length })

/-- The error at the start of a token list. -/
def wrong (args : Bool) (expected : Expected) (ts : List Token) : ParseError :=
  ⟨expected, ts.head?, args⟩

/-- Takes a token of the given kind. -/
def expect (args : Bool) (kind : TokenKind) (ts : List Token) : Parsed Token ts :=
  match ts with
  | t :: rest =>
    if t.kind = kind then .ok (t, ⟨rest, by simp⟩)
    else .error (wrong args (.token kind) (t :: rest))
  | [] => .error (wrong args (.token kind) [])

/-- The **binary operators of a level**; level six binds loosest. -/
def isBinary : Nat → TokenKind → Bool
  | 6, .orOr => true
  | 5, .andAnd => true
  | 4, .equals | 4, .notEquals => true
  | 3, .less | 3, .lessEquals | 3, .greater | 3, .greaterEquals => true
  | 2, .plus | 2, .minus => true
  | 1, .star | 1, .slash | 1, .percent => true
  | _, _ => false

/-- The unary operators. -/
def isUnary : TokenKind → Bool
  | .bang | .plus | .minus => true
  | _ => false

/-- The tokens that a primary phrase starts with. -/
def startsPrimary : TokenKind → Bool
  | .number | .string | .trueWord | .falseWord | .word | .leftParen | .leftBracket => true
  | _ => false

/-- Whether a token list starts with a token that a phrase can start with. -/
def startsPhrase : List Token → Bool
  | t :: _ => isUnary t.kind || startsPrimary t.kind
  | [] => false

mutual

/-- A phrase: a disjunction, or a conditional with a disjunction as its test. -/
def phrase (args : Bool) (ts : List Token) : Parsed Phrase ts :=
  match level args 6 ts with
  | .error e => .error e
  | .ok (test, ⟨[], h⟩) => .ok (test, ⟨[], h⟩)
  | .ok (test, ⟨t :: r, h⟩) =>
    if t.kind = .question then
      have hr : r.length < ts.length := by simp only [List.length_cons] at h; omega
      match phrase args r with
      | .error e => .error e
      | .ok (whenTrue, ⟨r₁, h₁⟩) =>
        match expect args .colon r₁ with
        | .error e => .error e
        | .ok (_, ⟨r₂, h₂⟩) =>
          match phrase args r₂ with
          | .error e => .error e
          | .ok (whenFalse, ⟨r₃, h₃⟩) =>
            .ok (.conditional test whenTrue whenFalse, ⟨r₃, by omega⟩)
    else .ok (test, ⟨t :: r, h⟩)
termination_by 11 * ts.length + 9

/-- A chain of operands joined by the operators of a level. -/
def level (args : Bool) (k : Nat) (ts : List Token) : Parsed Phrase ts :=
  match k with
  | 0 => unaryPhrase args ts
  | k + 1 =>
    match level args k ts with
    | .error e => .error e
    | .ok (left, ⟨r, h⟩) =>
      match levelRest args k left r with
      | .error e => .error e
      | .ok (p, ⟨r₁, h₁⟩) => .ok (p, ⟨r₁, by omega⟩)
termination_by 11 * ts.length + k + 2

/-- The rest of a chain of level `k + 1` whose first operands are `left`. -/
def levelRest (args : Bool) (k : Nat) (left : Phrase) (ts : List Token) : Extended Phrase ts :=
  match ts with
  | [] => .ok (left, ⟨[], by simp⟩)
  | t :: rest =>
    if isBinary (k + 1) t.kind then
      match level args k rest with
      | .error e => .error e
      | .ok (right, ⟨r, h⟩) =>
        match levelRest args k (.binary t left right) r with
        | .error e => .error e
        | .ok (p, ⟨r₁, h₁⟩) => .ok (p, ⟨r₁, by simp only [List.length_cons]; omega⟩)
    else .ok (left, ⟨t :: rest, by simp⟩)
termination_by 11 * ts.length + k
decreasing_by
  · simp only [List.length_cons]; omega
  · simp only [List.length_cons]; omega

/-- An operand with unary operators before it. -/
def unaryPhrase (args : Bool) (ts : List Token) : Parsed Phrase ts :=
  match ts with
  | [] => .error (wrong args .operand [])
  | t :: rest =>
    if isUnary t.kind then
      match unaryPhrase args rest with
      | .error e => .error e
      | .ok (p, ⟨r, h⟩) => .ok (.unary t p, ⟨r, by simp only [List.length_cons]; omega⟩)
    else
      match primary args (t :: rest) with
      | .error e => .error e
      | .ok (p, ⟨r, h⟩) =>
        match suffixes args p r with
        | .error e => .error e
        | .ok (q, ⟨r₁, h₁⟩) => .ok (q, ⟨r₁, by omega⟩)
termination_by 11 * ts.length + 1
decreasing_by
  · simp only [List.length_cons]; omega
  · omega
  · simp only [List.length_cons] at *; omega

/-- A literal, a name, a group or a list. -/
def primary (args : Bool) (ts : List Token) : Parsed Phrase ts :=
  match ts with
  | [] => .error (wrong args .operand [])
  | t :: rest =>
    match t.kind with
    | .number => .ok (.number t, ⟨rest, by simp⟩)
    | .string => .ok (.string t, ⟨rest, by simp⟩)
    | .trueWord => .ok (.truth t true, ⟨rest, by simp⟩)
    | .falseWord => .ok (.truth t false, ⟨rest, by simp⟩)
    | .word => .ok (.name t, ⟨rest, by simp⟩)
    | .leftParen =>
      match phrase args rest with
      | .error e => .error e
      | .ok (inner, ⟨r, h⟩) =>
        match expect args .rightParen r with
        | .error e => .error e
        | .ok (_, ⟨r₁, h₁⟩) => .ok (.group t inner, ⟨r₁, by simp only [List.length_cons]; omega⟩)
    | .leftBracket =>
      if startsPhrase rest then
        match phrases args rest with
        | .error e => .error e
        | .ok (items, ⟨r, h⟩) =>
          match expect args .rightBracket r with
          | .error e => .error e
          | .ok (_, ⟨r₁, h₁⟩) => .ok (.list t items, ⟨r₁, by simp only [List.length_cons]; omega⟩)
      else
        match expect args .rightBracket rest with
        | .error e => .error e
        | .ok (_, ⟨r₁, h₁⟩) => .ok (.list t [], ⟨r₁, by simp only [List.length_cons]; omega⟩)
    | _ => .error (wrong args .operand (t :: rest))
termination_by 11 * ts.length
decreasing_by
  · simp only [List.length_cons]; omega
  · simp only [List.length_cons]; omega

/-- The member accesses, indexes and calls after a phrase. -/
def suffixes (args : Bool) (base : Phrase) (ts : List Token) : Extended Phrase ts :=
  match ts with
  | [] => .ok (base, ⟨[], by simp⟩)
  | t :: rest =>
    match t.kind with
    | .dot =>
      match expect args .word rest with
      | .error e => .error e
      | .ok (word, ⟨r, h⟩) =>
        match suffixes args (.member base word) r with
        | .error e => .error e
        | .ok (p, ⟨r₁, h₁⟩) => .ok (p, ⟨r₁, by simp only [List.length_cons]; omega⟩)
    | .leftBracket =>
      match phrase args rest with
      | .error e => .error e
      | .ok (position, ⟨r, h⟩) =>
        match expect args .rightBracket r with
        | .error e => .error e
        | .ok (_, ⟨r₁, h₁⟩) =>
          match suffixes args (.index base t position) r₁ with
          | .error e => .error e
          | .ok (p, ⟨r₂, h₂⟩) => .ok (p, ⟨r₂, by simp only [List.length_cons]; omega⟩)
    | .leftParen =>
      if startsPhrase rest then
        match phrases true rest with
        | .error e => .error e
        | .ok (arguments, ⟨r, h⟩) =>
          match expect args .rightParen r with
          | .error e => .error e
          | .ok (_, ⟨r₁, h₁⟩) =>
            match suffixes args (.call base t arguments) r₁ with
            | .error e => .error e
            | .ok (p, ⟨r₂, h₂⟩) => .ok (p, ⟨r₂, by simp only [List.length_cons]; omega⟩)
      else
        match expect args .rightParen rest with
        | .error e => .error e
        | .ok (_, ⟨r₁, h₁⟩) =>
          match suffixes args (.call base t []) r₁ with
          | .error e => .error e
          | .ok (p, ⟨r₂, h₂⟩) => .ok (p, ⟨r₂, by simp only [List.length_cons]; omega⟩)
    | _ => .ok (base, ⟨t :: rest, by simp⟩)
termination_by 11 * ts.length
decreasing_by
  all_goals simp only [List.length_cons]; omega

/-- Phrases separated by commas, at least one. -/
def phrases (args : Bool) (ts : List Token) : Parsed (List Phrase) ts :=
  match phrase args ts with
  | .error e => .error e
  | .ok (p, ⟨[], h⟩) => .ok ([p], ⟨[], h⟩)
  | .ok (p, ⟨t :: r, h⟩) =>
    if t.kind = .comma then
      have hr : r.length < ts.length := by simp only [List.length_cons] at h; omega
      match phrases args r with
      | .error e => .error e
      | .ok (ps, ⟨r₁, h₁⟩) => .ok (p :: ps, ⟨r₁, by omega⟩)
    else .ok ([p], ⟨t :: r, h⟩)
termination_by 11 * ts.length + 10

end

/-- The **phrase** that a token list is. -/
def parse (ts : List Token) : Except ParseError Phrase :=
  match phrase false ts with
  | .error e => .error e
  | .ok (p, ⟨[], _⟩) => .ok p
  | .ok (_, ⟨t :: _, _⟩) => .error ⟨.nothing, some t, false⟩

end ChartNet.Phrase
