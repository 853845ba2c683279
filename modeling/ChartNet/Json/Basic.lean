import ChartNet.Number.Reading

/-!
# JSON values

A **JSON value** keeps the members of an object in order. `object` puts members into the order
in which they are listed everywhere: names that are array indices first, ascending, then the
other names by first appearance; of two members of one name the later value counts, at the
place of the first.
-/

namespace ChartNet

/-- A **JSON value**; numbers are doubles. -/
inductive Json where
  | null
  | bool (b : Bool)
  | num (x : Float)
  | str (s : String)
  | arr (items : List Json)
  | obj (members : List (String × Json))
deriving Inhabited

namespace Json

mutual

/-- Equality of JSON values is decidable. -/
def decEq : (a b : Json) → Decidable (a = b)
  | null, null => isTrue rfl
  | bool a, bool b =>
    if h : a = b then isTrue (by rw [h]) else isFalse (by simpa using h)
  | num a, num b =>
    if h : a = b then isTrue (by rw [h]) else isFalse (by simpa using h)
  | str a, str b =>
    if h : a = b then isTrue (by rw [h]) else isFalse (by simpa using h)
  | arr a, arr b =>
    match decEqItems a b with
    | isTrue h => isTrue (by rw [h])
    | isFalse h => isFalse (by simpa using h)
  | obj a, obj b =>
    match decEqMembers a b with
    | isTrue h => isTrue (by rw [h])
    | isFalse h => isFalse (by simpa using h)
  | null, bool _ | null, num _ | null, str _ | null, arr _ | null, obj _
  | bool _, null | bool _, num _ | bool _, str _ | bool _, arr _ | bool _, obj _
  | num _, null | num _, bool _ | num _, str _ | num _, arr _ | num _, obj _
  | str _, null | str _, bool _ | str _, num _ | str _, arr _ | str _, obj _
  | arr _, null | arr _, bool _ | arr _, num _ | arr _, str _ | arr _, obj _
  | obj _, null | obj _, bool _ | obj _, num _ | obj _, str _ | obj _, arr _ =>
    isFalse (by simp)

/-- Equality of lists of JSON values is decidable. -/
def decEqItems : (a b : List Json) → Decidable (a = b)
  | [], [] => isTrue rfl
  | x :: xs, y :: ys =>
    match decEq x y, decEqItems xs ys with
    | isTrue h, isTrue k => isTrue (by rw [h, k])
    | isFalse h, _ => isFalse (by simp [h])
    | _, isFalse k => isFalse (by simp [k])
  | [], _ :: _ | _ :: _, [] => isFalse (by simp)

/-- Equality of lists of members is decidable. -/
def decEqMembers : (a b : List (String × Json)) → Decidable (a = b)
  | [], [] => isTrue rfl
  | (m, x) :: xs, (n, y) :: ys =>
    if hn : m = n then
      match decEq x y, decEqMembers xs ys with
      | isTrue h, isTrue k => isTrue (by rw [hn, h, k])
      | isFalse h, _ => isFalse (by simp [h])
      | _, isFalse k => isFalse (by simp [k])
    else isFalse (by simp [hn])
  | [], _ :: _ | _ :: _, [] => isFalse (by simp)

end

instance : DecidableEq Json := decEq

mutual

/-- How deep arrays and objects are **nested** in a value. -/
def depth : Json → Nat
  | arr items => depthItems items + 1
  | obj members => depthMembers members + 1
  | _ => 0

/-- The greatest depth in a list of values. -/
def depthItems : List Json → Nat
  | [] => 0
  | x :: xs => max x.depth (depthItems xs)

/-- The greatest depth in a list of members. -/
def depthMembers : List (String × Json) → Nat
  | [] => 0
  | (_, x) :: xs => max x.depth (depthMembers xs)

end

/-- What a value is called in messages. -/
def kindName : Json → String
  | null => "null"
  | bool _ => "boolean"
  | num _ => "number"
  | str _ => "string"
  | arr _ => "array"
  | obj _ => "object"

/-- The value of a name in a list of members. -/
def lookup (name : String) (members : List (String × Json)) : Option Json :=
  (members.find? (·.1 == name)).map (·.2)

/-- A member of an object is smaller than the object. -/
theorem sizeOf_lt_of_lookup {name : String} {members : List (String × Json)} {v : Json}
    (h : lookup name members = some v) : sizeOf v < sizeOf (obj members) := by
  obtain ⟨m, hm, rfl⟩ := Option.map_eq_some_iff.1 h
  have hmem := List.sizeOf_lt_of_mem (List.mem_of_find?_eq_some hm)
  have hsize : sizeOf m = 1 + sizeOf m.1 + sizeOf m.2 := rfl
  simp only [obj.sizeOf_spec]
  omega

/-- The value of a member of an object; other values have no members. -/
def get? (j : Json) (name : String) : Option Json :=
  match j with
  | obj members => lookup name members
  | _ => none

/-- Sets the value of a name: in place if the name is there, otherwise at the end. -/
def put (members : List (String × Json)) (name : String) (value : Json) : List (String × Json) :=
  if members.any (·.1 == name) then
    members.map fun m => if m.1 == name then (name, value) else m
  else members ++ [(name, value)]

/-- The **array index** that a name spells: digits without a leading zero, below the greatest
length of an array. -/
def index? (name : String) : Option Nat :=
  let cs := name.toList
  if cs.isEmpty || !cs.all Char.isDigit || (cs.head? == some '0' && cs.length != 1) then none
  else
    let n := Number.natOfDigits cs
    if n < 4294967295 then some n else none

/-- Lists members by the rule for names: array indices first, ascending. -/
def arrange {α : Type} (members : List (String × α)) : List (String × α) :=
  let indexed := members.filterMap fun m => (index? m.1).map (·, m)
  (indexed.mergeSort fun a b => decide (a.1 ≤ b.1)).map (·.2) ++
    members.filter fun m => (index? m.1).isNone

/-- The **object** with the given members. -/
def object (members : List (String × Json)) : Json :=
  obj (arrange (members.foldl (fun ms m => put ms m.1 m.2) []))

/-- An object written member by member; a member without a value is left out. -/
def fields (members : List (String × Option Json)) : Json :=
  obj (members.filterMap fun m => m.2.map (m.1, ·))

/-- A number that is a natural number. -/
def nat (n : Nat) : Json :=
  num (Float.ofNat n)

end Json

end ChartNet
