import ChartNet.Proofs.Body.Steps
import ChartNet.Proofs.Interpretation
import ChartNet.Proofs.Names
import ChartNet.Proofs.Number.Doubles

/-!
# Stores with arrays

An interpretation **has arrays** if it says which values are whole numbers and which item an array
has at an index, and if accesses, sums, maxima and replacements behave as they are called. An array
of several dimensions is an array of arrays, so its elements are found along **paths** of indexes,
and replacing the element at a path changes no other element (`Arrays.replaced`).

How much of an array is in use is held by its length variables. They are named apart from the array
and from each other (`lengthName_ne`, `lengthName_injective`).

Numbers and lists of numbers, nested to any depth, are such an interpretation (`nestedArrays`).
-/

namespace ChartNet

/-! ### Names of length variables -/

/-- Different dimensions of an array have different length variables. -/
theorem lengthName_injective (x : String) : Function.Injective (lengthName x) := by
  intro m n h
  simp only [lengthName, String.append_assoc, String.append_right_inj] at h
  exact Number.natText_injective ((String.append_left_inj _).1 h)

/-- A length variable is not the array itself. -/
theorem lengthName_ne (x : String) (m : Nat) : lengthName x m ≠ x := by
  intro h
  have hlength := congrArg String.length h
  simp only [lengthName, String.length_append] at hlength
  have hend : "_len".length = 4 := by decide
  omega

namespace Interpretation

/-! ### Arrays -/

/-- An interpretation **has arrays**: numbers and items of arrays, and expressions over them. -/
structure Arrays (I : Interpretation) where
  number : Int → I.Value
  item : I.Value → Int → Option I.Value
  eval_ident : ∀ σ x, I.eval σ (.ident x) = σ x
  eval_one : ∀ σ, I.eval σ (.int 1) = number 1
  eval_add : ∀ {σ a b m n}, I.eval σ a = number m → I.eval σ b = number n →
    I.eval σ (.binary .add a b) = number (m + n)
  eval_max : ∀ {σ a b m n}, I.eval σ a = number m → I.eval σ b = number n →
    I.eval σ (.binary .max a b) = number (max m n)
  eval_access : ∀ {σ a i p v}, I.eval σ i = number p → item (I.eval σ a) p = some v →
    I.eval σ (a.access i) = v
  eval_congr : ∀ {σ τ e}, (∀ x ∈ e.occurrences, σ x = τ x) → I.eval σ e = I.eval τ e
  replace_nil : ∀ v w, I.replace v [] w = w
  item_replace : ∀ {v p u} ps w, item v p = some u →
    item (I.replace v (number p :: ps) w) p = some (I.replace u ps w)
  item_replace_of_ne : ∀ v {p q} ps w, q ≠ p → item (I.replace v (number p :: ps) w) q = item v q

/-- A path of indexes stays **within** some capacities, one per dimension. -/
def Within (sizes : List Nat) (path : List Int) : Prop :=
  List.Forall₂ (fun (size : Nat) (p : Int) => 0 ≤ p ∧ p < size) sizes path

namespace Arrays

variable {I : Interpretation} (A : I.Arrays)

/-- What stands at a **path** in an array of arrays. -/
def at? (v : I.Value) (path : List Int) : Option I.Value :=
  path.foldlM A.item v

@[simp] theorem at?_nil (v : I.Value) : A.at? v [] = some v := rfl

@[simp] theorem at?_cons (v : I.Value) (p : Int) (path : List Int) :
    A.at? v (p :: path) = (A.item v p).bind fun u => A.at? u path := rfl

/-- A value is an array with some **capacities** whose elements have a property. -/
def IsArray (element : I.Value → Prop) : List Nat → I.Value → Prop
  | [], v => element v
  | size :: sizes, v =>
    ∀ p : Int, 0 ≤ p → p < size → ∃ u, A.item v p = some u ∧ IsArray element sizes u

/-- Every path within the capacities of an array leads to an element. -/
theorem exists_at? {element : I.Value → Prop} {sizes : List Nat} {v : I.Value} {path : List Int}
    (hv : A.IsArray element sizes v) (hpath : Within sizes path) :
    ∃ u, A.at? v path = some u ∧ element u := by
  induction hpath generalizing v with
  | nil => exact ⟨v, rfl, hv⟩
  | cons hp _ ih =>
    obtain ⟨u, hitem, hu⟩ := hv _ hp.1 hp.2
    obtain ⟨w, hat, hw⟩ := ih hu
    exact ⟨w, by simp [hitem, hat], hw⟩

/-- The value of **accesses** is what stands at their path. -/
theorem eval_foldl_access {σ : I.Store} {e : Expr} {is : List Expr} {path : List Int} {v : I.Value}
    (his : is.map (I.eval σ) = path.map A.number) (hat : A.at? (I.eval σ e) path = some v) :
    I.eval σ (is.foldl Expr.access e) = v := by
  induction is generalizing e path with
  | nil =>
    obtain rfl : path = [] := by simpa using his.symm
    simpa using hat
  | cons i is ih =>
    cases path with
    | nil => simp at his
    | cons p path =>
      simp only [List.map_cons, List.cons.injEq] at his
      obtain ⟨u, hu, hat⟩ := Option.bind_eq_some_iff.1 hat
      exact ih his.2 (by rwa [A.eval_access his.1 hu])

/-! ### Replacing an element -/

/-- A value has another element **at one path** and is otherwise as before. -/
structure Replaced (before after : I.Value) (path : List Int) (new : I.Value) : Prop where
  here : A.at? after path = some new
  elsewhere : ∀ q, q.length = path.length → q ≠ path → A.at? after q = A.at? before q

/-- **Replacing** an element of an array changes this element only. -/
theorem replaced {v u : I.Value} {path : List Int} (h : A.at? v path = some u) (w : I.Value) :
    A.Replaced v (I.replace v (path.map A.number) w) path w := by
  induction path generalizing v with
  | nil =>
    refine ⟨by simp [A.replace_nil], fun q hq hne => ?_⟩
    exact absurd (List.length_eq_zero_iff.1 hq) hne
  | cons p path ih =>
    obtain ⟨row, hrow, hat⟩ := Option.bind_eq_some_iff.1 h
    obtain ⟨hhere, helsewhere⟩ := ih hat
    have hitem := A.item_replace (path.map A.number) w hrow
    refine ⟨by simp [hitem, hhere], fun q hq hne => ?_⟩
    obtain ⟨p', q, rfl⟩ := List.exists_cons_of_length_eq_add_one hq
    by_cases hp : p' = p
    · subst hp
      have hq' : q.length = path.length := by simpa using hq
      have hne' : q ≠ path := fun h => hne (by rw [h])
      simp [hitem, hrow, helsewhere q hq' hne']
    · simp [A.item_replace_of_ne v (path.map A.number) w hp]

/-! ### Stores -/

/-- A store holds an **array variable** with some capacities: elements up to the capacities, and a
whole number for the length of every row. -/
structure HoldsArray (σ : I.Store) (x : String) (sizes : List Nat) : Prop where
  elements : A.IsArray (fun _ => True) sizes (σ x)
  lengths : ∀ m < sizes.length,
    A.IsArray (fun v => ∃ n, v = A.number n) (sizes.take m) (σ (lengthName x (m + 1)))

variable {A} in
/-- A path that stays within the capacities, with any last index, passes through rows that have a
length in every dimension. -/
theorem HoldsArray.exists_length {σ : I.Store} {x : String} {sizes : List Nat}
    (hσ : A.HoldsArray σ x sizes) {path : List Int} (hlength : path.length = sizes.length)
    (hpath : Within sizes.dropLast path.dropLast) :
    ∀ m < path.length, ∃ n, A.at? (σ (lengthName x (m + 1))) (path.take m) = some (A.number n) := by
  intro m hm
  have hwithin : Within (sizes.take m) (path.take m) := by
    have htake := List.forall₂_take m hpath
    rwa [List.dropLast_eq_take, List.dropLast_eq_take, List.take_take, List.take_take,
      min_eq_left (by omega), min_eq_left (by omega)] at htake
  obtain ⟨u, hat, n, rfl⟩ := A.exists_at? (hσ.lengths m (hlength ▸ hm)) hwithin
  exact ⟨n, hat⟩

/-- A store after an **element** of an array was set. -/
structure ElementSet (σ τ : I.Store) (x : String) (path : List Int) (new : I.Value) : Prop where
  element : A.Replaced (σ x) (τ x) path new
  others : ∀ y ≠ x, τ y = σ y

/-- The lengths of an array are **widened** along a path: each row that the path passes through is
in use up to the index where the path leaves it, or further if it was before. -/
def LengthsWidened (σ τ : I.Store) (x : String) (path : List Int) : Prop :=
  ∀ (m : Nat) (h : m < path.length), ∃ n,
    A.at? (σ (lengthName x (m + 1))) (path.take m) = some (A.number n) ∧
      A.Replaced (σ (lengthName x (m + 1))) (τ (lengthName x (m + 1))) (path.take m)
        (A.number (max (path[m] + 1) n))

/-- A store after the **lengths** of an array were widened along a path. -/
structure Widened (σ τ : I.Store) (x : String) (path : List Int) : Prop where
  lengths : A.LengthsWidened σ τ x path
  others : ∀ y, (∀ m < path.length, y ≠ lengthName x (m + 1)) → τ y = σ y

/-- A store after an **assignment to an element**: the element at the path `ps` is new, the lengths
are widened along the path `qs`, and nothing else is different. -/
structure ElementAssigned (σ τ : I.Store) (x : String) (ps qs : List Int) (new : I.Value) :
    Prop where
  element : A.Replaced (σ x) (τ x) ps new
  lengths : A.LengthsWidened σ τ x qs
  others : ∀ y ≠ x, (∀ m < qs.length, y ≠ lengthName x (m + 1)) → τ y = σ y

variable {A}

/-- Setting an element and widening the lengths afterwards **assigns** the element. -/
theorem ElementSet.assigned {σ τ ρ : I.Store} {x : String} {ps qs : List Int} {new : I.Value}
    (hset : A.ElementSet σ τ x ps new) (hwidened : A.Widened τ ρ x qs) :
    A.ElementAssigned σ ρ x ps qs new := by
  refine ⟨?_, fun m hm => ?_, fun y hy hlengths => ?_⟩
  · rw [hwidened.others x fun m _ => (lengthName_ne x (m + 1)).symm]
    exact hset.element
  · rw [← hset.others _ (lengthName_ne x (m + 1))]
    exact hwidened.lengths m hm
  · rw [hwidened.others y hlengths, hset.others y hy]

end Arrays

/-! ### Nested lists of rational numbers -/

/-- A **datum**: a rational number, or a list of data. -/
inductive Datum where
  | num (x : ℚ)
  | list (items : List Datum)

namespace Datum

open Number (numberOf)

/-- The index that a datum is, if it is a natural number. -/
def index? : Datum → Option Nat
  | num x => if x.den = 1 ∧ 0 ≤ x.num then some x.num.toNat else none
  | list _ => none

/-- The **item** of a list at an index. -/
def item : Datum → Int → Option Datum
  | list items, .ofNat n => items[n]?
  | _, _ => none

/-- Replaces the datum at a path. -/
def replace : Datum → List Datum → Datum → Datum
  | _, [], w => w
  | list items, p :: ps, w =>
    match p.index? with
    | some n => list (items.modify n fun u => u.replace ps w)
    | none => list items
  | v, _ :: _, _ => v

/-- Zero is false. -/
def isTrue : Datum → Bool
  | num x => x ≠ 0
  | list _ => true

/-- A truth value as a number. -/
def ofBool (b : Bool) : Datum := num (if b then 1 else 0)

@[simp] theorem isTrue_ofBool (b : Bool) : (ofBool b).isTrue = b := by
  cases b <;> simp [ofBool, isTrue]

/-- The arithmetic of numbers and the access to lists; other operators are left out. -/
def combine : BinaryOp → Datum → Datum → Datum
  | .add, num x, num y => num (x + y)
  | .max, num x, num y => num (max x y)
  | .and, a, b => ofBool (a.isTrue && b.isTrue)
  | .access, a, i => (i.index?.bind fun n => a.item n).getD (num 0)
  | _, _, _ => num 0

/-- The value of an expression. -/
def eval (σ : String → Datum) : Expr → Datum
  | .ident x => σ x
  | .lit (.num _ x) => num (numberOf x)
  | .lit (.bool b) => ofBool b
  | .unary .not a => ofBool !(eval σ a).isTrue
  | .binary op a b => combine op (eval σ a) (eval σ b)
  | _ => num 0

theorem eval_congr {σ τ : String → Datum} {e : Expr} (h : ∀ x ∈ e.occurrences, σ x = τ x) :
    eval σ e = eval τ e := by
  fun_induction eval σ e with
  | case1 x => exact h x (by simp [Expr.occurrences])
  | case2 | case3 => rfl
  | case4 a ih => simp [eval, ih h]
  | case5 op a b iha ihb =>
    simp only [Expr.occurrences, List.mem_append] at h
    rw [eval, iha fun x hx => h x (.inl hx), ihb fun x hx => h x (.inr hx)]
  | case6 => simp_all [eval]

@[simp] theorem index?_num (n : Nat) : (num n).index? = some n := by
  simp [index?]

/-- Only whole numbers are indexes. -/
theorem eq_of_index?_num {p : Int} {n : Nat} (h : (num p).index? = some n) : p = n := by
  have hp : 0 ≤ p ∧ p.toNat = n := by simpa [index?] using h
  omega

/-- Lists have items at natural numbers. -/
theorem item_eq_some {v u : Datum} {p : Int} :
    v.item p = some u ↔ ∃ items, ∃ n : Nat, v = list items ∧ p = n ∧ items[n]? = some u := by
  constructor
  · intro h
    cases v with
    | num x => simp [item] at h
    | list items =>
      cases p with
      | ofNat n => exact ⟨items, n, rfl, rfl, h⟩
      | negSucc n => simp [item] at h
  · rintro ⟨items, n, rfl, rfl, h⟩
    exact h

end Datum

/-- The interpretation by **nested lists** of rational numbers. -/
@[reducible]
def nested : Interpretation where
  Value := Datum
  eval := Datum.eval
  judge σ :=
    { holds := fun e => (Datum.eval σ e).isTrue
      holds_true := by simp [Expr.bool, Datum.eval]
      holds_not := fun a => by simp [Expr.not, Datum.eval]
      holds_and := fun a b => by simp [Expr.and, Datum.eval, Datum.combine] }
  replace := Datum.replace

/-- Nested lists of rational numbers are arrays. -/
def nestedArrays : nested.Arrays where
  number n := .num n
  item := Datum.item
  eval_ident _ _ := rfl
  eval_one _ := by
    have hone : 1 = Number.numberOf 1 := by decide +kernel
    simp [Expr.int, Datum.eval, ← hone]
  eval_add := by
    intro σ a b m n (ha : Datum.eval σ a = .num m) (hb : Datum.eval σ b = .num n)
    simp [Datum.eval, ha, hb, Datum.combine]
  eval_max := by
    intro σ a b m n (ha : Datum.eval σ a = .num m) (hb : Datum.eval σ b = .num n)
    simp [Datum.eval, ha, hb, Datum.combine]
  eval_access := by
    intro σ a i p v (hi : Datum.eval σ i = .num p) (hitem : (Datum.eval σ a).item p = some v)
    obtain ⟨-, n, -, rfl, -⟩ := Datum.item_eq_some.1 hitem
    simp [Expr.access, Datum.eval, Datum.combine, hi, hitem]
  eval_congr := Datum.eval_congr
  replace_nil v w := by simp [Datum.replace]
  item_replace := by
    intro v p u ps w hitem
    obtain ⟨items, n, rfl, rfl, hu⟩ := Datum.item_eq_some.1 hitem
    simp [Datum.replace, Datum.item, hu]
  item_replace_of_ne := by
    intro v p q ps w hne
    cases v with
    | num x => simp [Datum.replace]
    | list items =>
      simp only [Datum.replace]
      split
      · rename_i n hn
        cases q with
        | ofNat m =>
          have hnm : n ≠ m := by
            rintro rfl
            exact hne (Datum.eq_of_index?_num hn).symm
          simp [Datum.item, hnm]
        | negSucc m => rfl
      · rfl

end Interpretation

end ChartNet
