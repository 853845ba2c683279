/-!
# Lists of named values

Fields of events, senders and the like are lists of pairs of a **name** and a value, in the order in
which the names first came up.

Some tables are kept as objects, and all objects **inherit** a few members. Where a table is asked
for a name without asking whether the entry is its own, these members are found as well. One of them
is special: an entry of the name `__proto__` cannot be made, as setting it changes what is
inherited.
-/

namespace ChartNet

variable {α : Type}

/-- Sets the value of a name: in place if the name is there, otherwise at the end. -/
def assocPut (pairs : List (String × α)) (name : String) (value : α) : List (String × α) :=
  if pairs.any (·.1 == name) then pairs.map fun p => if p.1 == name then (name, value) else p
  else pairs ++ [(name, value)]

/-- The value of a name. -/
def assocGet? (pairs : List (String × α)) (name : String) : Option α :=
  (pairs.find? (·.1 == name)).map (·.2)

/-- The pairs with each name once: the last value of a name, at the place of the first. -/
def assocOfList (pairs : List (String × α)) : List (String × α) :=
  pairs.foldl (fun ps p => assocPut ps p.1 p.2) []

/-! ### Inherited members -/

/-- The **members** that every object inherits. -/
inductive ObjectMember where
  | maker
  | defineGetter
  | defineSetter
  | hasOwn
  | isPrototype
  | lookupGetter
  | lookupSetter
  | isEnumerable
  | proto
  | localText
  | text
  | value
deriving DecidableEq

namespace ObjectMember

/-- The name of a member. -/
def name : ObjectMember → String
  | maker => "constructor"
  | defineGetter => "__defineGetter__"
  | defineSetter => "__defineSetter__"
  | hasOwn => "hasOwnProperty"
  | isPrototype => "isPrototypeOf"
  | lookupGetter => "__lookupGetter__"
  | lookupSetter => "__lookupSetter__"
  | isEnumerable => "propertyIsEnumerable"
  | proto => "__proto__"
  | localText => "toLocaleString"
  | text => "toString"
  | value => "valueOf"

/-- All members. -/
def all : List ObjectMember :=
  [maker, defineGetter, defineSetter, hasOwn, isPrototype, lookupGetter, lookupSetter, isEnumerable,
    proto, localText, text, value]

/-- The member of a name. -/
def ofName? (name : String) : Option ObjectMember :=
  all.find? (·.name == name)

end ObjectMember

/-- The entries that an object takes up: all but those of the name `__proto__`. -/
def objectEntries (pairs : List (String × α)) : List (String × α) :=
  pairs.filter (·.1 != ObjectMember.proto.name)

private theorem find?_putInPlace (pairs : List (String × α)) (name other : String) (value : α) :
    (pairs.map fun p => if p.1 == name then (name, value) else p).find? (·.1 == other) =
      (pairs.find? (·.1 == other)).map fun p => if p.1 == name then (name, value) else p := by
  rw [List.find?_map]
  congr 2
  funext p
  by_cases hp : p.1 = name <;> simp [hp]

/-- A name that was set has its value. -/
@[simp] theorem assocGet?_assocPut_self (pairs : List (String × α)) (name : String) (value : α) :
    assocGet? (assocPut pairs name value) name = some value := by
  unfold assocGet? assocPut
  split
  · rename_i h
    rw [find?_putInPlace]
    obtain ⟨p, hp, hn⟩ := List.any_eq_true.1 h
    cases hf : pairs.find? (·.1 == name) with
    | none => exact absurd hn (by simpa using List.find?_eq_none.1 hf p hp)
    | some q =>
      have hq : q.1 = name := by simpa using List.find?_some hf
      simp [hq]
  · rename_i h
    have hf : pairs.find? (·.1 == name) = none :=
      List.find?_eq_none.2 fun p hp hn => h (List.any_eq_true.2 ⟨p, hp, hn⟩)
    rw [List.find?_append]
    simp [hf]

/-- Setting a name leaves the values of other names. -/
theorem assocGet?_assocPut_of_ne (pairs : List (String × α)) {name other : String} (value : α)
    (h : other ≠ name) : assocGet? (assocPut pairs name value) other = assocGet? pairs other := by
  unfold assocGet? assocPut
  split
  · rw [find?_putInPlace]
    cases hf : pairs.find? (·.1 == other) with
    | none => rfl
    | some q =>
      have hq : q.1 = other := by simpa using List.find?_some hf
      simp [hq, h]
  · rw [List.find?_append]
    cases hf : pairs.find? (·.1 == other) <;> simp [Ne.symm h]

end ChartNet
