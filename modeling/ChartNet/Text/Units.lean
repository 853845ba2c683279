/-!
# Text measured in 16-bit units

Columns, offsets and lengths in diagnostics count **16-bit units**: a character below
`0x10000` is one unit, any other a pair. Sorted lists of names compare these units, so a
name outside the basic plane comes before one that starts with U+FFFD.
-/

namespace ChartNet.Text

/-- The 16-bit **units** of a character, most significant first. -/
def unitsOf (c : Char) : List Nat :=
  if c.toNat < 0x10000 then [c.toNat]
  else [0xD800 + (c.toNat - 0x10000) / 0x400, 0xDC00 + (c.toNat - 0x10000) % 0x400]

/-- The units of a text, in order. -/
def units (s : String) : List Nat :=
  s.toList.flatMap unitsOf

/-- How many units a character takes. -/
def charWidth (c : Char) : Nat :=
  if c.toNat < 0x10000 then 1 else 2

/-- How many units a list of characters takes. -/
def widthOf (cs : List Char) : Nat :=
  cs.foldl (fun n c => n + charWidth c) 0

/-- The **width** of a text: how many units it takes. -/
def width (s : String) : Nat :=
  widthOf s.toList

/-- A character has as many units as its width says. -/
theorem length_unitsOf (c : Char) : (unitsOf c).length = charWidth c := by
  unfold unitsOf charWidth
  split <;> rfl

/-- The width of characters is the number of their units. -/
theorem widthOf_eq_length (cs : List Char) : widthOf cs = (cs.flatMap unitsOf).length := by
  suffices h : ∀ n, cs.foldl (fun n c => n + charWidth c) n = n + (cs.flatMap unitsOf).length by
    simpa [widthOf] using h 0
  induction cs with
  | nil => simp
  | cons c cs ih =>
    intro n
    simp [ih, length_unitsOf, Nat.add_assoc]

/-- The width of a text is the number of its units. -/
theorem width_eq_length_units (s : String) : width s = (units s).length :=
  widthOf_eq_length s.toList

/-- Whether one list of units comes before another or equals it: the first difference decides,
and a list comes before its extensions. -/
def unitsLe : List Nat → List Nat → Bool
  | [], _ => true
  | _ :: _, [] => false
  | m :: ms, n :: ns => decide (m < n) || (m == n && unitsLe ms ns)

/-- Of two lists of units one comes before the other. -/
theorem unitsLe_total (a b : List Nat) : unitsLe a b || unitsLe b a := by
  fun_induction unitsLe a b with
  | case1 => simp
  | case2 => simp [unitsLe]
  | case3 m ms n ns ih =>
    simp only [unitsLe, Bool.or_eq_true, Bool.and_eq_true, decide_eq_true_eq, beq_iff_eq] at ih ⊢
    rcases Nat.lt_trichotomy m n with h | rfl | h
    · exact .inl (.inl h)
    · exact ih.imp (fun h => .inr ⟨rfl, h⟩) (fun h => .inr ⟨rfl, h⟩)
    · exact .inr (.inl h)

/-- The order of lists of units is transitive. -/
theorem unitsLe_trans {a b c : List Nat} (hab : unitsLe a b) (hbc : unitsLe b c) :
    unitsLe a c := by
  fun_induction unitsLe a b generalizing c with
  | case1 => simp [unitsLe]
  | case2 => simp at hab
  | case3 m ms n ns ih =>
    cases c with
    | nil => simp [unitsLe] at hbc
    | cons k ks =>
      simp only [unitsLe, Bool.or_eq_true, Bool.and_eq_true, decide_eq_true_eq, beq_iff_eq]
        at hab hbc ⊢
      rcases hab with hab | ⟨rfl, hab⟩
      · rcases hbc with hbc | ⟨rfl, _⟩ <;> omega
      · rcases hbc with hbc | ⟨rfl, hbc⟩
        · exact .inl hbc
        · exact .inr ⟨rfl, ih hab hbc⟩

/-- The **order by units**: texts compare like their lists of units. -/
def unitLe (a b : String) : Bool :=
  unitsLe (units a) (units b)

/-- Names sorted by units; equal names keep their order. -/
def sortByUnits (names : List String) : List String :=
  names.mergeSort unitLe

end ChartNet.Text
