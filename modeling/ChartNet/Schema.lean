import ChartNet.Json.Basic
import ChartNet.Number.Text
import ChartNet.Diagnostic

/-!
# Schemas

A **schema** reads a value of a type from a JSON value and lists what is wrong with it. Reading
has three outcomes: the value is valid; it is **flawed**, which means that it has the right type
and breaks some further condition; or it is refused. A flawed value is still looked at further, so
that all its issues are found. The issues stand in the order of the schema, depth first.

A choice takes the first alternative that finds the value valid; if there is none it takes the
issues of the first that finds it flawed, and if all refuse it, only says that the input is
invalid.
-/

namespace ChartNet

/-- An **issue**: the path to the value that it concerns, and what is wrong. -/
structure Issue where
  path : List String
  message : String
deriving DecidableEq

/-- The **outcome** of reading a value. -/
inductive Verdict (α : Type) where
  | valid (a : α)
  | flawed (a : α) (issues : List Issue)
  | refused (issues : List Issue)

namespace Verdict

variable {α β : Type}

/-- The issues of an outcome. -/
def issues : Verdict α → List Issue
  | valid _ => []
  | flawed _ is => is
  | refused is => is

/-- The value read, also if it is flawed. -/
def value? : Verdict α → Option α
  | valid a => some a
  | flawed a _ => some a
  | refused _ => none

/-- The outcome with a function applied to the value. -/
def map (f : α → β) : Verdict α → Verdict β
  | valid a => valid (f a)
  | flawed a is => flawed (f a) is
  | refused is => refused is

/-- The outcome of reading two parts of a value: refused if one is, and with the issues of
both. -/
def seq (f : Verdict (α → β)) (x : Verdict α) : Verdict β :=
  match f, x with
  | valid f, x => x.map f
  | flawed f is, valid a => flawed (f a) is
  | flawed f is, flawed a js => flawed (f a) (is ++ js)
  | flawed _ is, refused js => refused (is ++ js)
  | refused is, x => refused (is ++ x.issues)

/-- The outcome with further issues that do not refuse the value. -/
def addIssues (v : Verdict α) (more : List Issue) : Verdict α :=
  if more.isEmpty then v
  else
    match v with
    | valid a => flawed a more
    | flawed a is => flawed a (is ++ more)
    | refused is => refused (is ++ more)

/-- The outcomes of the parts of a list, in order. -/
def all : List (Verdict α) → Verdict (List α)
  | [] => valid []
  | v :: vs => (v.map List.cons).seq (all vs)

/-- The value, or the issues if there are any. -/
def toExcept : Verdict α → Except (List Issue) α
  | valid a => .ok a
  | flawed _ is => .error is
  | refused is => .error is

end Verdict

/-- A **schema** for a type: reads a value, which may be absent, at a path. -/
abbrev Schema (α : Type) := List String → Option Json → Verdict α

namespace Schema

variable {α β : Type}

/-- Refuses a value with one issue. -/
def refuse (path : List String) (message : String) : Verdict α :=
  .refused [⟨path, message⟩]

/-- Refuses a value of another kind than expected. -/
def mismatch (expected : String) (path : List String) : Option Json → Verdict α
  | none => refuse path "Required"
  | some j => refuse path ("Expected " ++ expected ++ ", received " ++ j.kindName)

/-- The outcome for a value that has the right kind, with the messages of the conditions that it
breaks. -/
def checked (path : List String) (a : α) (messages : List String) : Verdict α :=
  (Verdict.valid a).addIssues (messages.map (⟨path, ·⟩))

/-- The schema with a function applied to what it reads. -/
def map (f : α → β) (s : Schema α) : Schema β := fun path v => (s path v).map f

/-- A text. -/
def text : Schema String := fun path v =>
  match v with
  | some (.str s) => .valid s
  | _ => mismatch "string" path v

/-- A text that is not empty, with the words for an empty one. -/
def nonEmpty (message : String := "String must contain at least 1 character(s)") :
    Schema String := fun path v =>
  match v with
  | some (.str s) => checked path s (if s.isEmpty then [message] else [])
  | _ => mismatch "string" path v

/-- A number that must meet some conditions, each given by the message if it does not. -/
def number (conditions : List (Float → Option String) := []) : Schema Float := fun path v =>
  match v with
  | some (.num x) => checked path x (conditions.filterMap (· x))
  | _ => mismatch "number" path v

/-- The condition of being whole. -/
def whole (x : Float) : Option String :=
  if Number.isWhole x then none else some "Expected integer, received float"

/-- The condition of being above zero. -/
def positive (x : Float) : Option String :=
  if x > 0 then none else some "Number must be greater than 0"

/-- The condition of being at least `least`. -/
def atLeast (least : Float) (x : Float) : Option String :=
  if x ≥ least then none
  else some ("Number must be greater than or equal to " ++ Number.text least)

/-- A truth value. -/
def boolean : Schema Bool := fun path v =>
  match v with
  | some (.bool b) => .valid b
  | _ => mismatch "boolean" path v

/-- Any value. -/
def anything : Schema Json := fun _ v => .valid (v.getD .null)

/-- Exactly the given text. -/
def exactly (s : String) : Schema Unit := fun path v =>
  if v = some (.str s) then .valid ()
  else refuse path ("Invalid literal value, expected \"" ++ s ++ "\"")

/-- Words between quotes, as alternatives. -/
def alternatives (words : List String) : String :=
  " | ".intercalate (words.map fun w => "'" ++ w ++ "'")

/-- One of the given words, each with what it stands for. -/
def oneOf (cases : List (String × α)) : Schema α := fun path v =>
  let words := alternatives (cases.map (·.1))
  match v with
  | some (.str s) =>
    match cases.find? (·.1 == s) with
    | some c => .valid c.2
    | none => refuse path ("Invalid enum value. Expected " ++ words ++ ", received '" ++ s ++ "'")
  | _ => mismatch words path v

/-- A value that may be absent. -/
def optional (s : Schema α) : Schema (Option α) := fun path v =>
  match v with
  | none => .valid none
  | v => (s path v).map some

/-- A value that may be null. -/
def nullable (s : Schema α) : Schema (Option α) := fun path v =>
  match v with
  | some .null => .valid none
  | v => (s path v).map some

/-- A value that is `a` if it is absent. -/
def withDefault (a : α) (s : Schema α) : Schema α := fun path v =>
  match v with
  | none => .valid a
  | v => s path v

/-- The outcomes for the elements of a list, from an index on. -/
def items (s : Schema α) (path : List String) (i : Nat) : List Json → List (Verdict α)
  | [] => []
  | j :: js => s (path ++ [Number.natText i]) (some j) :: items s path (i + 1) js

/-- A list with at least `least` elements. -/
def list (s : Schema α) (least : Nat := 0) : Schema (List α) := fun path v =>
  match v with
  | some (.arr js) =>
    let short :=
      if js.length < least then
        [⟨path, "Array must contain at least " ++ Number.natText least ++ " element(s)"⟩]
      else []
    (((Verdict.valid id).addIssues short).seq (Verdict.all (items s path 0 js)))
  | _ => mismatch "array" path v

/-- A pair, written as a list of two elements. -/
def pair (s : Schema α) (t : Schema β) : Schema (α × β) := fun path v =>
  match v with
  | some (.arr (a :: b :: rest)) =>
    let long : List Issue :=
      if rest.isEmpty then [] else [⟨path, "Array must contain at most 2 element(s)"⟩]
    (((Verdict.valid Prod.mk).addIssues long).seq (s (path ++ ["0"]) (some a))).seq
      (t (path ++ ["1"]) (some b))
  | some (.arr _) => refuse path "Array must contain at least 2 element(s)"
  | _ => mismatch "array" path v

/-- Tries alternatives in order; `flawed` is the first flawed outcome so far. -/
def firstOf (path : List String) (v : Option Json) : Option (Verdict α) → List (Schema α) →
    Verdict α
  | some flawed, [] => flawed
  | none, [] => refuse path "Invalid input"
  | flawed, s :: ss =>
    match s path v with
    | .valid a => .valid a
    | .flawed a is => firstOf path v (flawed <|> some (.flawed a is)) ss
    | .refused _ => firstOf path v flawed ss

/-- A **choice** between alternatives. -/
def choice (alternatives : List (Schema α)) : Schema α := fun path v =>
  firstOf path v none alternatives

/-! ### Objects -/

/-- The **members** of an object that a schema knows, and how to read them. -/
structure Fields (α : Type) where
  keys : List String
  read : List String → List (String × Json) → Verdict α

/-- A member. -/
def field (key : String) (s : Schema α) : Fields α where
  keys := [key]
  read path members := s (path ++ [key]) (Json.lookup key members)

/-- No member. -/
def Fields.pure (a : α) : Fields α where
  keys := []
  read _ _ := .valid a

/-- Members after other members. -/
def Fields.seq (f : Fields (α → β)) (x : Unit → Fields α) : Fields β where
  keys := f.keys ++ (x ()).keys
  read path members := (f.read path members).seq ((x ()).read path members)

instance : Applicative Fields where
  pure := Fields.pure
  seq := Fields.seq

/-- An object; members that the schema does not know are ignored. -/
def object (fields : Fields α) : Schema α := fun path v =>
  match v with
  | some (.obj members) => fields.read path members
  | _ => mismatch "object" path v

/-- The names of members that the schema does not know. -/
def unknownKeys (fields : Fields α) (members : List (String × Json)) : List String :=
  (members.map (·.1)).filter fun k => !fields.keys.contains k

/-- An object without members that the schema does not know. -/
def strictObject (fields : Fields α) : Schema α := fun path v =>
  match v with
  | some (.obj members) =>
    let unknown := unknownKeys fields members
    (fields.read path members).addIssues <|
      if unknown.isEmpty then []
      else
        [⟨path, "Unrecognized key(s) in object: " ++
          ", ".intercalate (unknown.map fun k => "'" ++ k ++ "'")⟩]
  | _ => mismatch "object" path v

/-- The outcomes for the values of members. -/
def values (s : Schema α) (path : List String) : List (String × Json) → List (Verdict (String × α))
  | [] => []
  | (key, j) :: ms => (s (path ++ [key]) (some j)).map (key, ·) :: values s path ms

/-- An object whose further members all have one schema. -/
def openObject (fields : Fields α) (rest : Schema β) : Schema (α × List (String × β)) :=
  fun path v =>
    match v with
    | some (.obj members) =>
      let others := members.filter fun m => !fields.keys.contains m.1
      ((fields.read path members).map Prod.mk).seq (Verdict.all (values rest path others))
    | _ => mismatch "object" path v

/-- An object with any names, whose members all have one schema. -/
def record (s : Schema α) : Schema (List (String × α)) := fun path v =>
  match v with
  | some (.obj members) => Verdict.all (values s path members)
  | _ => mismatch "object" path v

/-- An object of one of several forms, told apart by the text of one member. -/
def tagged (key : String) (cases : List (String × Schema α)) : Schema α := fun path v =>
  match v with
  | some (.obj members) =>
    let tag : Option (String × Schema α) :=
      match Json.lookup key members with
      | some (.str s) => cases.find? (·.1 == s)
      | _ => none
    match tag with
    | some c => c.2 path v
    | none =>
      refuse (path ++ [key])
        ("Invalid discriminator value. Expected " ++ alternatives (cases.map (·.1)))
  | _ => mismatch "object" path v

/-- A further condition on a value that was read, even a flawed one. -/
def refine (message : String) (condition : α → Bool) (s : Schema α) : Schema α := fun path v =>
  let r := s path v
  match r.value? with
  | some a => r.addIssues (if condition a then [] else [⟨path, message⟩])
  | none => r

/-- Reads a whole document. -/
def read (s : Schema α) (j : Json) : Except (List Issue) α :=
  (s [] (some j)).toExcept

end Schema

/-- The path of an issue with dots between its parts. -/
def Issue.pathText (i : Issue) : String :=
  ".".intercalate i.path

/-- The place of an issue in words. -/
def Issue.place (i : Issue) : String :=
  if i.path.isEmpty then "<root>" else i.pathText

/-- An issue as a diagnostic about a document. -/
def Issue.diagnostic (what : String) (i : Issue) : Diagnostic where
  line := 1
  column := 1
  message := "Invalid " ++ what ++ " at " ++ i.place ++ ": " ++ i.message
  code := some "IN-SCHEMA"
  ofShape := true

end ChartNet
