/-!
# Cutting text at a character
-/

namespace ChartNet.Text

/-- The pieces of a list of characters between the occurrences of a **separator**; there is always
at least one. -/
def splitChars (separator : Char) : List Char → List (List Char)
  | [] => [[]]
  | c :: cs =>
    if c = separator then [] :: splitChars separator cs
    else
      match splitChars separator cs with
      | [] => [[c]]
      | p :: ps => (c :: p) :: ps

/-- The pieces of a text between the occurrences of a separator. -/
def split (separator : Char) (s : String) : List String :=
  (splitChars separator s.toList).map String.ofList

theorem splitChars_ne_nil (separator : Char) (cs : List Char) : splitChars separator cs ≠ [] := by
  fun_cases splitChars separator cs <;> simp_all

/-- Putting the separator between the pieces gives the text back. -/
theorem intercalate_splitChars (separator : Char) (cs : List Char) :
    [separator].intercalate (splitChars separator cs) = cs := by
  induction cs with
  | nil => rfl
  | cons c cs ih =>
    rw [splitChars]
    split
    · rename_i h
      subst h
      cases hs : splitChars c cs with
      | nil => exact absurd hs (splitChars_ne_nil c cs)
      | cons p ps => simpa [List.intercalate, List.intersperse, hs] using ih
    · cases hs : splitChars separator cs with
      | nil => exact absurd hs (splitChars_ne_nil separator cs)
      | cons p ps =>
        rw [hs] at ih
        cases ps <;> simp_all [List.intercalate, List.intersperse]

end ChartNet.Text
