import ChartNet.Expr.Constant
import ChartNet.Proofs.Array.Paths

/-!
# Values of expressions in a store

`Expr.valueIn` evaluates an expression in a store that gives variables their values. An expression
has no value if one of the steps of its evaluation has none: an operand is of the wrong kind, or an
index leads out of its array. So that an expression **has** a value says that all accesses that are
made are in range. Logical operators and conditionals evaluate their operands from left to right,
and only those that they need; a conjunction whose first condition is false has a value even if the
second condition has none.

Draws have no value, nor have array comprehensions and macros, which no expanded expression
contains.
-/

namespace ChartNet

/-- A **value**: a truth value, or a number or an array. -/
inductive Value where
  | bool (b : Bool)
  | data (e : Element)
deriving DecidableEq

namespace Value

/-- The truth value that a value is. -/
def truth? : Value → Option Bool
  | bool b => some b
  | data _ => none

/-- The number that a value is. -/
def number? : Value → Option Float
  | data (.num x) => some x
  | _ => none

/-- The natural number that a value is. -/
def index? (v : Value) : Option Nat :=
  v.number?.bind Number.toNat?

/-- The element of an array at an index; there is none out of range. -/
def item? (v : Value) (i : Nat) : Option Value :=
  match v with
  | data e => (e.at? [i]).map data
  | bool _ => none

/-- Whether two values are equal; arrays are not compared. -/
def same? : Value → Value → Option Bool
  | bool a, bool b => some (a == b)
  | data (.num x), data (.num y) => some (x == y)
  | _, _ => none

end Value

namespace Expr

/-- The store of given numbers and arrays. -/
def storeOf (data : List (String × Element)) (name : String) : Option Value :=
  (data.lookup name).map .data

/-- The **value** of an expression in a store. -/
def valueIn (σ : String → Option Value) : Expr → Option Value
  | ident n => σ n
  | lit (.bool b) => some (.bool b)
  | lit (.num _ x) => some (.data (.num x))
  | lit (.constant c) => some (.data (.num c.value))
  | array v => some (.data (.list v.elements))
  | uniform _ _ => none
  | unary .not a => do return .bool !(← (← a.valueIn σ).truth?)
  | unary op a => do
    let f ← op.arithmetic?
    return .data (.num (f (← (← a.valueIn σ).number?)))
  | binary .and a b => do
    if ← (← a.valueIn σ).truth? then return .bool (← (← b.valueIn σ).truth?) else return .bool false
  | binary .or a b => do
    if ← (← a.valueIn σ).truth? then return .bool true else return .bool (← (← b.valueIn σ).truth?)
  | binary .implies a b => do
    if ← (← a.valueIn σ).truth? then return .bool (← (← b.valueIn σ).truth?) else return .bool true
  | binary .eq a b => do return .bool (← (← a.valueIn σ).same? (← b.valueIn σ))
  | binary .ne a b => do return .bool !(← (← a.valueIn σ).same? (← b.valueIn σ))
  | binary .access a i => do (← a.valueIn σ).item? (← (← i.valueIn σ).index?)
  | binary op a b => do
    let x ← (← a.valueIn σ).number?
    let y ← (← b.valueIn σ).number?
    match op.comparison? with
    | some r => return .bool (r x y)
    | none => return .data (.num ((← op.arithmetic?) x y))
  | ternary .ite a b c => do if ← (← a.valueIn σ).truth? then b.valueIn σ else c.valueIn σ
  | ternary _ _ _ _ | quaternary _ _ _ _ _ => none

variable {σ : String → Option Value} {a b : Expr} {es indexes : List Expr} {p q : Prop}

/-! ### Indexes -/

/-- An expression **is an index** if its value is this natural number. -/
def IsIndex (σ : String → Option Value) (e : Expr) (n : Nat) : Prop :=
  (e.valueIn σ).bind Value.index? = some n

theorem IsIndex.exists_number {n : Nat} (h : a.IsIndex σ n) :
    ∃ x, a.valueIn σ = some (.data (.num x)) ∧ Number.toNat? x = some n := by
  obtain ⟨v, hv, hn⟩ := Option.bind_eq_some_iff.1 h
  obtain ⟨x, hx, hn⟩ := Option.bind_eq_some_iff.1 hn
  rcases v with b | y | items
  · cases hx
  · exact ⟨y, hv, Option.some.inj hx ▸ hn⟩
  · cases hx

theorem isIndex_nat {n : Nat} (hn : n < 2 ^ 53) : (nat n).IsIndex σ n := Number.toNat?_ofNat hn

/-- An access has the element of the array at the index, if there is one. -/
theorem valueIn_access {e part : Element} {i : Expr} {n : Nat} (ha : a.valueIn σ = some (.data e))
    (hi : i.IsIndex σ n) (hpart : e.at? [n] = some part) :
    (access a i).valueIn σ = some (.data part) := by
  obtain ⟨x, hx, hn⟩ := hi.exists_number
  simp [access, valueIn, ha, hx, Value.index?, Value.number?, hn, Value.item?, hpart]

/-- A chain of accesses has the element that its indexes lead to. -/
theorem valueIn_foldl_access {e part : Element} {path : List Nat}
    (ha : a.valueIn σ = some (.data e))
    (hindexes : List.Forall₂ (IsIndex σ) indexes path) (hpart : e.at? path = some part) :
    (indexes.foldl access a).valueIn σ = some (.data part) := by
  induction hindexes generalizing a e with
  | nil =>
    cases hpart
    exact ha
  | @cons i n indexes path hi hindexes ih =>
    rw [← List.singleton_append, Element.at?_append] at hpart
    obtain ⟨item, hitem, hpart⟩ := Option.bind_eq_some_iff.1 hpart
    exact ih (valueIn_access ha hi hitem) hpart

/-! ### Conditions -/

/-- A condition **decides** a proposition if it has a truth value, and this is true exactly where
the proposition holds. -/
def Decides (σ : String → Option Value) (e : Expr) (p : Prop) : Prop :=
  ∃ b, e.valueIn σ = some (.bool b) ∧ (b = true ↔ p)

theorem Decides.congr (h : a.Decides σ p) (hpq : p ↔ q) : a.Decides σ q :=
  let ⟨b, hb, hp⟩ := h
  ⟨b, hb, hp.trans hpq⟩

/-- Comparing two numbers decides whether they are equal. -/
theorem decides_eq {x y : Float} (ha : a.valueIn σ = some (.data (.num x)))
    (hb : b.valueIn σ = some (.data (.num y))) : (eq a b).Decides σ ((x == y) = true) :=
  ⟨x == y, by simp [eq, valueIn, ha, hb, Value.same?], Iff.rfl⟩

/-- A conjunction needs its second condition only **where the first one is true**. -/
theorem Decides.and (ha : a.Decides σ p) (hb : p → b.Decides σ q) :
    (and a b).Decides σ (p ∧ q) := by
  obtain ⟨x, hx, hp⟩ := ha
  cases x with
  | false =>
    have hp : ¬ p := fun h => nomatch hp.2 h
    exact ⟨false, by simp [Expr.and, valueIn, hx, Value.truth?], by simp [hp]⟩
  | true =>
    have hp : p := hp.1 rfl
    obtain ⟨y, hy, hq⟩ := hb hp
    exact ⟨y, by simp [Expr.and, valueIn, hx, hy, Value.truth?], by simpa [hp] using hq⟩

/-- Conditions on the items of a list, conjoined from the left after a first condition, are needed
**only where this is true**; then it is enough that each of them decides something. -/
theorem Decides.conjunction {α : Type} {items : List α} {f : Nat → α → Expr} {Q : Nat → α → Prop}
    (hfirst : a.Decides σ p)
    (hrest : p → ∀ i item, items[i]? = some item → (f i item).Decides σ (Q i item)) :
    (conjunction (a :: items.mapIdx f)).Decides σ (p ∧ ∀ i item, items[i]? = some item →
      Q i item) := by
  change ((items.mapIdx f).foldl Expr.and a).Decides σ _
  induction items using List.reverseRecOn with
  | nil => exact hfirst.congr (by simp)
  | append_singleton items last ih =>
    have hleft {i : Nat} {item : α} (hitem : items[i]? = some item) :
        (items ++ [last])[i]? = some item := by
      rw [List.getElem?_append_left (List.getElem?_eq_some_iff.1 hitem).1, hitem]
    have hlast : (items ++ [last])[items.length]? = some last := by simp
    rw [List.mapIdx_concat, List.foldl_append]
    refine ((ih fun hp i item hitem => hrest hp i item (hleft hitem)).and
      fun h => hrest h.1 items.length last hlast).congr ?_
    rw [and_assoc]
    refine and_congr_right fun _ =>
      ⟨fun ⟨hinit, hQ⟩ i item hitem => ?_, fun h => ⟨fun i item hitem =>
      h i item (hleft hitem), h _ last hlast⟩⟩
    rcases lt_trichotomy i items.length with hi | rfl | hi
    · exact hinit i item (by rwa [List.getElem?_append_left hi] at hitem)
    · rw [hlast, Option.some.injEq] at hitem
      exact hitem ▸ hQ
    · rw [List.getElem?_eq_none (by simpa using hi)] at hitem
      cases hitem

end Expr

end ChartNet
