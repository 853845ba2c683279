import ChartNet.Number.Dyadic

/-!
# Ranks

Assignments happen by **rank**: those of a lower rank first, those of one rank at the same time.
The ranks that charts give are whole numbers; a network that is built by hand may give any number,
so a rank also has a fraction, counted in the finest step that a double can have. Ranks compare by
their whole numbers first and are totally ordered.
-/

namespace ChartNet

/-- A **rank**: a whole number, and on top of it a fraction in steps of the smallest double. -/
structure Rank where
  whole : Int := 0
  fraction : Nat := 0
deriving DecidableEq

namespace Rank

/-- The rank of a whole number. -/
def ofInt (n : Int) : Rank where
  whole := n

/-- The rank at which charts start to count. -/
def zero : Rank := ofInt 0

/-- The rank that is higher by one. -/
def next (r : Rank) : Rank :=
  { r with whole := r.whole + 1 }

/-- The **order** of ranks: the whole numbers decide, and then the fractions. -/
def le (r s : Rank) : Bool :=
  decide (r.whole < s.whole) || (r.whole == s.whole && decide (r.fraction ≤ s.fraction))

/-- The higher of two ranks. -/
def max (r s : Rank) : Rank :=
  if r.le s then s else r

theorem le_iff {r s : Rank} :
    r.le s ↔ r.whole < s.whole ∨ r.whole = s.whole ∧ r.fraction ≤ s.fraction := by
  simp [le]

@[simp] theorem le_refl (r : Rank) : r.le r := by
  simp [le]

/-- Of two ranks one is at most the other. -/
theorem le_total (r s : Rank) : r.le s || s.le r := by
  simp only [Bool.or_eq_true, le_iff]
  omega

/-- The order of ranks is transitive. -/
theorem le_trans {r s t : Rank} (hrs : r.le s) (hst : s.le t) : r.le t := by
  rw [le_iff] at hrs hst ⊢
  omega

/-- Ranks that are at most each other are one. -/
theorem le_antisymm {r s : Rank} (hrs : r.le s) (hsr : s.le r) : r = s := by
  rw [le_iff] at hrs hsr
  cases r
  cases s
  simp only [mk.injEq] at *
  omega

/-- A rank is below the next one. -/
theorem not_next_le (r : Rank) : ¬ r.next.le r := by
  simp only [le_iff, next]
  omega

@[simp] theorem next_ofInt (n : Int) : (ofInt n).next = ofInt (n + 1) := rfl

/-- How many of the finest steps make one. -/
def steps : Nat := Number.twoPow 1074

/-- The rank that a finite double is. -/
def ofFloat (x : Float) : Rank :=
  match Number.dyadic? x with
  | none => zero
  | some d =>
    let value : Int := if d.negative then -d.significand else d.significand
    match d.exponent with
    | .ofNat k => ofInt (value * Number.twoPow k)
    | .negSucc k =>
      { whole := value.fdiv (Number.twoPow (k + 1))
        fraction := (value.fmod (Number.twoPow (k + 1))).toNat * Number.twoPow (1073 - k) }

/-- The double nearest to a rank. -/
def toFloat (r : Rank) : Float :=
  if r.fraction = 0 then Float.ofInt r.whole
  else
    let value : Int := r.whole * steps + r.fraction
    let size := Float.ofScientific (value.natAbs * Nat.pow 5 1074) true 1074
    if value < 0 then -size else size

end Rank

end ChartNet
