import ChartNet.Proofs.Number.Equality
import ChartNet.Proofs.Source.Fitting

/-!
# Nested arrays by paths

A **path** of indexes, outermost first, leads to an element of a nested array (`Element.at?`). An
array variable holds lists that are as long as the capacities of their dimensions. How much of each
list is in use is held by its **length variables** (`Companions`): the one of a dimension has a
length at every path that leads to a list of the dimension (`lengthAt`). An array is **cut** to such
lengths by dropping from each list what is beyond its length (`Element.cut`).
-/

namespace ChartNet

namespace Element

variable {r : Nat → Nat → Prop} {n : Nat} {caps path : List Nat} {e part : Element}
  {items : List Element}

/-! ### Paths and sizes -/

/-- The element at a **path**. -/
def at? : Element → List Nat → Option Element
  | e, [] => some e
  | num _, _ :: _ => none
  | list items, i :: path => items[i]?.bind fun item => item.at? path

@[simp] theorem at?_nil : e.at? [] = some e := by cases e <;> rfl

@[simp] theorem at?_num_cons {x : Float} {i : Nat} : (num x).at? (i :: path) = none := rfl

@[simp] theorem at?_list_cons {i : Nat} :
    (list items).at? (i :: path) = items[i]?.bind fun item => item.at? path := rfl

theorem at?_append {path' : List Nat} :
    e.at? (path ++ path') = (e.at? path).bind fun part => part.at? path' := by
  induction path generalizing e with
  | nil => simp
  | cons i path ih =>
    cases e with
    | num x => rfl
    | list items => cases h : items[i]? <;> simp [h, ih]

/-- An element is **sized** by capacities: it has one dimension for each of them, and the length of
every list is related to the capacity of its dimension. -/
def Sized (r : Nat → Nat → Prop) : List Nat → Element → Prop
  | [], num _ => True
  | n :: caps, list items => r items.length n ∧ ∀ item ∈ items, Sized r caps item
  | _, _ => False

theorem sized_nil : Sized r [] e ↔ ∃ x, e = num x := by
  cases e <;> simp [Sized]

theorem sized_cons :
    Sized r (n :: caps) e ↔
      ∃ items, e = list items ∧ r items.length n ∧ ∀ item ∈ items, Sized r caps item := by
  cases e <;> simp [Sized]

/-- What a path leads to is sized by the capacities of the dimensions that are left. -/
theorem Sized.at? (h : Sized r caps e) (hpath : e.at? path = some part) :
    path.length ≤ caps.length ∧ Sized r (caps.drop path.length) part := by
  induction path generalizing caps e with
  | nil =>
    cases hpath
    exact ⟨Nat.zero_le _, h⟩
  | cons i path ih =>
    cases caps with
    | nil =>
      obtain ⟨x, rfl⟩ := sized_nil.1 h
      cases hpath
    | cons n caps =>
      obtain ⟨items, rfl, -, hitems⟩ := sized_cons.1 h
      obtain ⟨item, hitem, hpart⟩ := Option.bind_eq_some_iff.1 hpath
      obtain ⟨hle, hsized⟩ := ih (hitems item (List.mem_of_getElem? hitem)) hpart
      exact ⟨Nat.succ_le_succ hle, hsized⟩

/-- A path to a list is shorter than there are dimensions. -/
theorem Sized.length_lt (h : Sized r caps e) (hpath : e.at? path = some (list items)) :
    path.length < caps.length := by
  obtain ⟨hle, hsized⟩ := h.at? hpath
  refine lt_of_le_of_ne hle fun heq => ?_
  rw [heq, List.drop_length, sized_nil] at hsized
  obtain ⟨x, hx⟩ := hsized
  cases hx

/-- Arrays that use their whole capacities have the same paths, as far as they have the same
dimensions. -/
theorem Sized.exists_at? {e' : Element} (h : Sized (· = ·) caps e) (hpath : e.at? path = some part)
    (h' : Sized (· = ·) (caps.take path.length) e') : ∃ x, e'.at? path = some (num x) := by
  induction path generalizing caps e e' with
  | nil =>
    obtain ⟨x, rfl⟩ := sized_nil.1 h'
    exact ⟨x, rfl⟩
  | cons i path ih =>
    cases caps with
    | nil =>
      obtain ⟨x, rfl⟩ := sized_nil.1 h
      cases hpath
    | cons n caps =>
      obtain ⟨items, rfl, hlength, hitems⟩ := sized_cons.1 h
      obtain ⟨items', rfl, hlength', hitems'⟩ := sized_cons.1 h'
      obtain ⟨item, hitem, hpart⟩ := Option.bind_eq_some_iff.1 hpath
      obtain ⟨hi, -⟩ := List.getElem?_eq_some_iff.1 hitem
      have hi' : i < items'.length := by rwa [hlength', ← hlength]
      simp only [at?_list_cons, List.getElem?_eq_getElem hi', Option.bind_some]
      exact ih (hitems item (List.mem_of_getElem? hitem)) hpart (hitems' _ (List.getElem_mem hi'))

/-- A number that a path leads to is one of the numbers of the element. -/
theorem mem_numbers_of_at? {x : Float} (h : e.at? path = some (num x)) : x ∈ e.numbers := by
  induction path generalizing e with
  | nil =>
    cases Option.some.inj (at?_nil.symm.trans h)
    simp [numbers]
  | cons i path ih =>
    cases e with
    | num y => cases h
    | list items =>
      obtain ⟨item, hitem, hx⟩ := Option.bind_eq_some_iff.1 h
      exact mem_numbersOf (List.mem_of_getElem? hitem) (ih hx)

/-- An element can be **counted** if its lists are so short that their lengths are exact as
doubles. -/
def Counted (e : Element) : Prop :=
  ∀ path items, e.at? path = some (list items) → items.length < 2 ^ 53

theorem Counted.length_lt (h : (list items).Counted) : items.length < 2 ^ 53 := h [] items rfl

theorem Counted.item {item : Element} {i : Nat} (h : (list items).Counted)
    (hitem : items[i]? = some item) :
    item.Counted :=
  fun path items' hpath => h (i :: path) items' (by simp [hitem, hpath])

theorem counted_num {x : Float} : (num x).Counted := by
  rintro (_ | ⟨i, path⟩) items h <;> cases h

theorem counted_list :
    (list items).Counted ↔ items.length < 2 ^ 53 ∧ ∀ item ∈ items, item.Counted := by
  constructor
  · intro h
    refine ⟨h.length_lt, fun item hitem => ?_⟩
    obtain ⟨i, hi⟩ := List.getElem?_of_mem hitem
    exact h.item hi
  · rintro ⟨hlength, hitems⟩ (_ | ⟨i, path⟩) items' hpath
    · cases hpath
      exact hlength
    · obtain ⟨item, hitem, hpath⟩ := Option.bind_eq_some_iff.1 hpath
      exact hitems item (List.mem_of_getElem? hitem) path items' hpath

/-! ### Cutting -/

/-- An element **cut** in its first dimensions to the lengths at the paths to their lists. -/
def cut : Nat → (List Nat → Nat) → Element → Element
  | d + 1, length, list items =>
    list ((items.take (length [])).mapIdx fun i item => item.cut d fun path => length (i :: path))
  | _, _, e => e

@[simp] theorem cut_zero {length : List Nat → Nat} : e.cut 0 length = e := by cases e <;> rfl

end Element

/-! ### Length variables -/

/-- Elements are **companions** of an array: they are the values of its length variables, one per
dimension. The one of a dimension is an array over the dimensions before it, and all of its numbers
are lengths within the capacity of the dimension. -/
structure Companions (caps : List Nat) (lengths : List Element) : Prop where
  length_eq : lengths.length = caps.length
  sized : ∀ {k : Nat} {length : Element}, lengths[k]? = some length →
    length.Sized (· = ·) (caps.take k)
  within : ∀ {k cap : Nat} {length : Element}, caps[k]? = some cap → lengths[k]? = some length →
    ∀ x ∈ length.numbers, ∃ n ≤ cap, Number.toNat? x = some n

/-- The **length** that length variables have for the list at a path. -/
def lengthAt (lengths : List Element) (path : List Nat) : Nat :=
  match lengths[path.length]?.bind fun length => length.at? path with
  | some (.num x) => (Number.toNat? x).getD 0
  | _ => 0

theorem lengthAt_eq {lengths : List Element} {path : List Nat} {length : Element}
    {x : Float} {n : Nat}
    (hlength : lengths[path.length]? = some length) (hx : length.at? path = some (.num x))
    (hn : Number.toNat? x = some n) : lengthAt lengths path = n := by
  simp [lengthAt, hlength, hx, hn]

end ChartNet
