import ChartNet.Macro.Expand
import ChartNet.Number.Arithmetic

/-!
# Values of constant expressions

`Expr.evaluate` gives the **value** of an expression over literals and constants. Constants may be
defined by other constants; one that is defined in terms of itself is an error, which also bounds
the depth of definitions: every definition that is entered is one that is not being evaluated
yet. Logical operators and conditionals evaluate only the operands that they need.
-/

namespace ChartNet

/-- The value of a constant expression. -/
inductive ConstantValue where
  | num (x : Float)
  | bool (b : Bool)
deriving DecidableEq

namespace ConstantValue

/-- The text of a value. -/
def text : ConstantValue → String
  | num x => Number.text x
  | bool b => if b then "true" else "false"

/-- The number that an operand must be. -/
def number (op : String) : ConstantValue → Result Float
  | num x => .ok x
  | bool b => failConfig (.notNumber op b)

/-- The truth value that an operand must be. -/
def truth (op : String) : ConstantValue → Result Bool
  | bool b => .ok b
  | num x => failConfig (.notBool op x)

/-- Whether two values are equal; values of different kinds are not. -/
def same : ConstantValue → ConstantValue → Bool
  | num x, num y => x == y
  | bool a, bool b => a == b
  | _, _ => false

end ConstantValue

/-- The function on numbers that an operator is. -/
def UnaryOp.arithmetic? : UnaryOp → Option (Float → Float)
  | .abs => some Float.abs
  | .floor => some Float.floor
  | .ceil => some Float.ceil
  | .sin => some Float.sin
  | .cos => some Float.cos
  | _ => none

/-- The function on numbers that an operator is. -/
def BinaryOp.arithmetic? : BinaryOp → Option (Float → Float → Float)
  | .add => some (· + ·)
  | .sub => some (· - ·)
  | .mul => some (· * ·)
  | .div => some (· / ·)
  | .mod => some Number.remainder
  | .pow => some Number.power
  | .log => some fun x y => Float.log x / Float.log y
  | .min => some Number.smaller
  | .max => some Number.larger
  | _ => none

/-- The comparison of numbers that an operator is. -/
def BinaryOp.comparison? : BinaryOp → Option (Float → Float → Bool)
  | .lt => some fun x y => x < y
  | .le => some fun x y => x ≤ y
  | .gt => some fun x y => x > y
  | .ge => some fun x y => x ≥ y
  | _ => none

/-- The constants that are not among the given names. -/
def Constants.without (constants : Constants) (names : List String) : Constants :=
  constants.filter fun c => !names.contains c.1

/-- Entering the definition of a constant leaves fewer constants to enter. -/
theorem Constants.length_without_lt {constants : Constants} {names : List String} {name : String}
    {e : Expr} (h : constants.get? name = some e) (hn : ¬ names.contains name) :
    (constants.without (name :: names)).length < (constants.without names).length := by
  obtain ⟨c, hc, _⟩ := Option.map_eq_some_iff.1 h
  have hmem := List.mem_of_find?_eq_some hc
  have hname : c.1 = name := by simpa using List.find?_some hc
  have hsub : (constants.without (name :: names)).Sublist (constants.without names) := by
    have hfilter : constants.without (name :: names)
        = (constants.without names).filter (·.1 != name) := by
      simp only [Constants.without, List.filter_filter]
      refine List.filter_congr fun d _ => ?_
      by_cases hd : d.1 = name <;> simp [hd]
    rw [hfilter]
    exact List.filter_sublist
  refine Nat.lt_of_le_of_ne hsub.length_le fun heq => ?_
  have hin : c ∈ constants.without names := by
    simp only [Constants.without, List.mem_filter]
    exact ⟨hmem, by simpa [hname] using hn⟩
  rw [← hsub.eq_of_length heq] at hin
  simp [Constants.without, hname] at hin

/-- The value of an expression while the definitions of some names are being evaluated. -/
def Expr.evaluateIn (constants : Constants) (visiting : List String) (e : Expr) :
    Result ConstantValue :=
  match e with
  | lit (.bool b) => .ok (.bool b)
  | lit (.num _ x) => .ok (.num x)
  | lit (.constant c) => .ok (.num c.value)
  | uniform _ _ => failConfig .randomConstant
  | array _ => failConfig (.notConstantOp Opcode.elements.code)
  | ident n =>
    match _h : constants.get? n with
    | none => failConfig (.notConstant n)
    | some definition =>
      if _hn : visiting.contains n then failConfig (.selfReference n)
      else definition.evaluateIn constants (n :: visiting)
  | unary op a =>
    match op.arithmetic? with
    | some f => do return .num (f (← (← a.evaluateIn constants visiting).number op.code))
    | none =>
      match op with
      | .not => do return .bool (!(← (← a.evaluateIn constants visiting).truth op.code))
      | _ => failConfig (.notConstantOp op.code)
  | binary op a b =>
    match op.arithmetic? with
    | some f => do
      let x ← (← a.evaluateIn constants visiting).number op.code
      let y ← (← b.evaluateIn constants visiting).number op.code
      return .num (f x y)
    | none =>
      match op.comparison? with
      | some r => do
        let x ← (← a.evaluateIn constants visiting).number op.code
        let y ← (← b.evaluateIn constants visiting).number op.code
        return .bool (r x y)
      | none =>
        match op with
        | .eq => do
          let v ← a.evaluateIn constants visiting
          let w ← b.evaluateIn constants visiting
          return .bool (v.same w)
        | .ne => do
          let v ← a.evaluateIn constants visiting
          let w ← b.evaluateIn constants visiting
          return .bool (!v.same w)
        | .and => do
          if ← (← a.evaluateIn constants visiting).truth op.code then
            return .bool (← (← b.evaluateIn constants visiting).truth op.code)
          else return .bool false
        | .or => do
          if ← (← a.evaluateIn constants visiting).truth op.code then return .bool true
          else return .bool (← (← b.evaluateIn constants visiting).truth op.code)
        | .implies => do
          if ← (← a.evaluateIn constants visiting).truth op.code then
            return .bool (← (← b.evaluateIn constants visiting).truth op.code)
          else return .bool true
        | _ => failConfig (.notConstantOp op.code)
  | ternary op a b c =>
    match op with
    | .ite => do
      if ← (← a.evaluateIn constants visiting).truth op.code then b.evaluateIn constants visiting
      else c.evaluateIn constants visiting
    | _ => failConfig (.notConstantOp op.code)
  | quaternary op _ _ _ _ => failConfig (.notConstantOp op.code)
termination_by ((constants.without visiting).length, sizeOf e)
decreasing_by
  · exact Prod.Lex.left _ _ (Constants.length_without_lt _h _hn)
  all_goals
    apply Prod.Lex.right
    simp only [unary.sizeOf_spec, binary.sizeOf_spec, ternary.sizeOf_spec]
    omega

/-- The **value** of a constant expression. -/
def Expr.evaluate (constants : Constants) (e : Expr) : Result ConstantValue :=
  e.evaluateIn constants []

end ChartNet
