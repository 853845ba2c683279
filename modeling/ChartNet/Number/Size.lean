import ChartNet.Number.Text

/-!
# Sizes

A **size** is a number that counts something: the elements that one dimension of an array can
hold, or the options drawn from a distribution. Where sizes are checked they are natural
numbers; a type that was given any other number keeps it, so that the number can be reported.
-/

namespace ChartNet

/-- A number given as a **size**: a natural number, or one that counts nothing. -/
inductive Size where
  | whole (n : Nat)
  | other (x : Float)
deriving DecidableEq

namespace Size

/-- A size from a number. -/
def ofFloat (x : Float) : Size :=
  match Number.toNat? x with
  | some n => whole n
  | none => other x

/-- The number that was given as a size. -/
def toFloat : Size → Float
  | whole n => Float.ofNat n
  | other x => x

/-- The text of a size. -/
def text (s : Size) : String :=
  Number.text s.toFloat

/-- Whether a size is a natural number above zero. -/
def isPositive : Size → Bool
  | whole n => decide (0 < n)
  | other _ => false

/-- The number of elements of a sequence made with this size: a fractional part is dropped, and
a negative size gives none. -/
def count : Size → Nat
  | whole n => n
  | other x =>
    match Number.dyadic? x with
    | some d => if d.negative then 0 else d.wholePart
    | none => 0

/-- The number of elements to which a sequence is filled up: the least that is not below the
size. -/
def fill : Size → Nat
  | whole n => n
  | other x =>
    match Number.dyadic? x with
    | some d => if d.negative then 0 else if d.isWhole then d.wholePart else d.wholePart + 1
    | none => 0

/-- Whether `n` elements are **within** the size. -/
def admits : Size → Nat → Bool
  | whole m, n => decide (n ≤ m)
  | other x, n => decide (Float.ofNat n ≤ x)

@[simp] theorem count_whole (n : Nat) : (whole n).count = n := rfl

@[simp] theorem fill_whole (n : Nat) : (whole n).fill = n := rfl

@[simp] theorem admits_whole (m n : Nat) : (whole m).admits n = decide (n ≤ m) := rfl

theorem isPositive_iff {s : Size} : s.isPositive ↔ ∃ n, 0 < n ∧ s = whole n := by
  cases s <;> simp [isPositive]

end Size

end ChartNet
