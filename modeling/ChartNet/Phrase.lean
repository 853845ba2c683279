import ChartNet.Token

/-!
# Phrases

A **phrase** is the tree of an expression as it is written: groups, lists, member accesses,
indexes, calls and operators, each with the tokens that later messages point at. Binary phrases
of one level are grouped to the left, conditionals to the right.
-/

namespace ChartNet

/-- A **phrase** of the expression language. -/
inductive Phrase where
  | number (token : Token)
  | string (token : Token)
  | truth (token : Token) (value : Bool)
  | name (token : Token)
  | group (opening : Token) (inner : Phrase)
  | list (opening : Token) (items : List Phrase)
  | member (base : Phrase) (name : Token)
  | index (base : Phrase) (opening : Token) (position : Phrase)
  | call (base : Phrase) (opening : Token) (arguments : List Phrase)
  | unary (op : Token) (operand : Phrase)
  | binary (op : Token) (left right : Phrase)
  | conditional (test whenTrue whenFalse : Phrase)

/-- The **first token** of a phrase. -/
def Phrase.first : Phrase → Token
  | number t | string t | truth t _ | name t | group t _ | list t _ | unary t _ => t
  | member b _ | index b _ _ | call b _ _ => b.first
  | binary _ l _ => l.first
  | conditional t _ _ => t.first

end ChartNet
