import ChartNet.Expr.Jani

/-!
# The kinds of the numbers in an expression

An expression is `Tagged` if its kinds fit its numbers: int literals and the numbers of int arrays
are whole, and the bounds of distributions are in order. `retagged` gives every number the kind that
it needs: a real literal that is whole becomes an int, and an array value gets the least kind that
fits its numbers. Kinds do not show in the JSON form.

An expression is `Declared` if its constants are those of the table of constants, and not members
that the table inherits.
-/

namespace ChartNet

/-! ### The numbers of an expression -/

mutual

/-- The **numbers** in an element of an array value. -/
def Element.numbers : Element → List Float
  | .num x => [x]
  | .list items => numbersOf items

/-- The numbers in elements of an array value. -/
def Element.numbersOf : List Element → List Float
  | [] => []
  | el :: els => el.numbers ++ numbersOf els

end

/-- The numbers in an array value, at all levels. -/
def ArrayValue.numbers (v : ArrayValue) : List Float :=
  Element.numbersOf v.elements

/-- The **kind that numbers need**: real if one of them is not whole. -/
def NumKind.ofNumbers (xs : List Float) : NumKind :=
  if xs.all Number.isWhole then .int else .real

/-- A kind **fits** a number: an int is whole. -/
def NumKind.Fits (k : NumKind) (x : Float) : Prop :=
  k = .int → Number.isWhole x = true

namespace NumKind

instance (k : NumKind) (x : Float) : Decidable (k.Fits x) :=
  inferInstanceAs (Decidable (k = .int → Number.isWhole x = true))

theorem ofNumbers_append (xs ys : List Float) :
    ofNumbers (xs ++ ys) = (ofNumbers xs).join (ofNumbers ys) := by
  simp only [ofNumbers, List.all_append]
  cases xs.all Number.isWhole <;> cases ys.all Number.isWhole <;> rfl

/-- The kind that numbers need fits them. -/
theorem fits_ofNumbers {xs : List Float} {x : Float} (hx : x ∈ xs) : (ofNumbers xs).Fits x := by
  intro hint
  by_cases hall : xs.all Number.isWhole = true
  · exact List.all_eq_true.1 hall x hx
  · simp [ofNumbers, hall] at hint

end NumKind

/-- A constant is **declared** if the table has it itself, and does not inherit it. -/
def NamedConstant.Declared : NamedConstant → Prop
  | .e | .pi => True
  | .inherited _ => False

instance : DecidablePred NamedConstant.Declared
  | .e | .pi => inferInstanceAs (Decidable True)
  | .inherited _ => inferInstanceAs (Decidable False)

namespace Literal

/-- The number that a literal is, if it is one. -/
def values : Literal → List Float
  | num _ x => [x]
  | bool _ | constant _ => []

/-- A literal is tagged correctly if its kind fits it. -/
def Tagged : Literal → Prop
  | num k x => k.Fits x
  | bool _ | constant _ => True

/-- A literal is declared unless it is a constant that is not. -/
def Declared : Literal → Prop
  | constant c => c.Declared
  | bool _ | num _ _ => True

instance : DecidablePred Declared
  | constant c => inferInstanceAs (Decidable c.Declared)
  | bool _ | num _ _ => inferInstanceAs (Decidable True)

/-- The literal with a real that is whole turned into an int. -/
def retagged : Literal → Literal
  | num .real x => if Number.isWhole x then num .int x else num .real x
  | num .int x => num .int x
  | bool b => bool b
  | constant c => constant c

end Literal

namespace Expr

/-- The numbers in an expression, the bounds of distributions included. -/
def values : Expr → List Float
  | ident _ => []
  | lit v => v.values
  | uniform l u => [l, u]
  | array v => v.numbers
  | unary _ a => a.values
  | binary _ a b => a.values ++ b.values
  | ternary _ a b c => a.values ++ b.values ++ c.values
  | quaternary _ a b c d => a.values ++ b.values ++ c.values ++ d.values

/-- An expression is **tagged** correctly: kinds fit their numbers, and bounds are in order. -/
def Tagged : Expr → Prop
  | ident _ => True
  | lit v => v.Tagged
  | uniform l u => l ≤ u
  | array v => ∀ x ∈ v.numbers, v.base.Fits x
  | unary _ a => a.Tagged
  | binary _ a b => a.Tagged ∧ b.Tagged
  | ternary _ a b c => a.Tagged ∧ b.Tagged ∧ c.Tagged
  | quaternary _ a b c d => a.Tagged ∧ b.Tagged ∧ c.Tagged ∧ d.Tagged

/-- An expression is **declared** if all constants in it are. -/
def Declared : Expr → Prop
  | lit v => v.Declared
  | ident _ | uniform _ _ | array _ => True
  | unary _ a => a.Declared
  | binary _ a b => a.Declared ∧ b.Declared
  | ternary _ a b c => a.Declared ∧ b.Declared ∧ c.Declared
  | quaternary _ a b c d => a.Declared ∧ b.Declared ∧ c.Declared ∧ d.Declared

instance decidableDeclared : DecidablePred Declared
  | lit v => inferInstanceAs (Decidable v.Declared)
  | ident _ | uniform _ _ | array _ => inferInstanceAs (Decidable True)
  | unary _ a => decidableDeclared a
  | binary _ a b =>
    have := decidableDeclared a
    have := decidableDeclared b
    inferInstanceAs (Decidable (a.Declared ∧ b.Declared))
  | ternary _ a b c =>
    have := decidableDeclared a
    have := decidableDeclared b
    have := decidableDeclared c
    inferInstanceAs (Decidable (a.Declared ∧ b.Declared ∧ c.Declared))
  | quaternary _ a b c d =>
    have := decidableDeclared a
    have := decidableDeclared b
    have := decidableDeclared c
    have := decidableDeclared d
    inferInstanceAs (Decidable (a.Declared ∧ b.Declared ∧ c.Declared ∧ d.Declared))

/-- An expression is **well-formed** if it is tagged correctly, its constants are declared and its
numbers are finite. That operators have exactly their operands, and array values one kind, is in the
type of expressions. -/
structure WellFormed (e : Expr) : Prop where
  tagged : e.Tagged
  declared : e.Declared
  finite : ∀ x ∈ e.values, x.isFinite = true

/-- The expression with the kinds that its numbers need: a real literal that is whole becomes an
int, and every array value becomes real if one of its numbers is not whole, and int otherwise. -/
def retagged : Expr → Expr
  | ident n => ident n
  | lit v => lit v.retagged
  | uniform l u => uniform l u
  | array v => array ⟨.ofNumbers v.numbers, v.elements⟩
  | unary op a => unary op a.retagged
  | binary op a b => binary op a.retagged b.retagged
  | ternary op a b c => ternary op a.retagged b.retagged c.retagged
  | quaternary op a b c d => quaternary op a.retagged b.retagged c.retagged d.retagged

/-- The JSON form does not show the kinds. -/
theorem toJson_retagged (e : Expr) : e.retagged.toJson = e.toJson := by
  induction e with
  | ident n => rfl
  | lit v =>
    unfold retagged Literal.retagged
    split
    · split <;> rfl
    all_goals rfl
  | uniform l u => rfl
  | array v => rfl
  | unary op a iha => simp only [retagged, toJson, iha]
  | binary op a b iha ihb => simp only [retagged, toJson, iha, ihb]
  | ternary op a b c iha ihb ihc => simp only [retagged, toJson, iha, ihb, ihc]
  | quaternary op a b c d iha ihb ihc ihd => simp only [retagged, toJson, iha, ihb, ihc, ihd]

end Expr

end ChartNet
