import ChartNet.Proofs.Source.Written

/-!
# Fitting literals

A literal that is **fitted** to a shape has as many dimensions as the shape, none of its lists is
longer than the capacity of its dimension, and if it has reals the shape is one of reals
(`Source.fits_of_fit`). What is stored is the literal with every list filled up with zeros to the
capacity (`Element.Fills`), and the length variables get the lengths of its lists before that
(`Element.Measures`).
-/

namespace ChartNet

namespace Element

/-- An element **fills** sizes: it has a dimension for each of them, none of its lists is longer
than its size, and `stored` is the element with each list filled up with zeros to its size. -/
def Fills : List Size → Element → Element → Prop
  | [], given, stored => ∃ x, given = .num x ∧ stored = .num x
  | size :: rest, given, stored => ∃ items filled, given = .list items ∧ size.admits items.length ∧
      List.Forall₂ (Fills rest) items filled ∧
      stored = .list (fillTo size.fill (zeroElement rest) filled)

/-- An element **measures** another `k` dimensions below its own: it is the length of it for
`k = 0`, and otherwise the list of what measures its elements one dimension less, filled up with
zeros to their size. -/
def Measures : Nat → List Size → Element → Element → Prop
  | 0, _, given, length => ∃ items, given = .list items ∧ length = .num (Float.ofNat items.length)
  | k + 1, sizes, given, length => ∃ size rest items lengths, sizes = size :: rest ∧
      given = .list items ∧ List.Forall₂ (Measures k rest) items lengths ∧
      length = .list (fillTo size.fill (zeroElement (rest.take k)) lengths)

end Element

/-! ### Fitting -/

section Fitting

variable {kind base : NumKind} {pad : Bool} {size : Size} {rest sizes : List Size}
  {given stored : List Element}

/-- How an element of a list is **fitted** to the sizes of the dimensions below the list. -/
def FitsItem (kind base : NumKind) (pad : Bool) : List Size → Element → Element → Prop
  | [], el, fitted => ∃ x, el = .num x ∧ fitted = .num x ∧ ¬ (kind = .real ∧ base = .int)
  | size :: rest, el, fitted => ∃ items fits, el = .list items ∧ fitted = .list fits ∧
      fitElements kind base pad (size :: rest) items = .ok fits

/-- An element of a list, fitted. -/
private def fitItem (kind base : NumKind) (pad : Bool) (rest : List Size) (el : Element) :
    Result Element :=
  match rest, el with
  | [], .list _ => failType .literalTooDeep
  | [], .num x => if kind = .real ∧ base = .int then failType (.realInIntArray x) else .ok (.num x)
  | _ :: _, .num _ => failType .literalTooShallow
  | _ :: _, .list items => (fitElements kind base pad rest items).map .list

private theorem fitItem_eq_ok {el fitted : Element} :
    fitItem kind base pad rest el = .ok fitted ↔ FitsItem kind base pad rest el fitted := by
  unfold fitItem
  cases rest with
  | nil =>
    cases el with
    | num x => by_cases hreal : kind = .real ∧ base = .int <;>
      simp [FitsItem, failType, hreal, eq_comm]
    | list items => simp [FitsItem, failType]
  | cons r rs =>
    cases el with
    | num x => simp [FitsItem, failType]
    | list items => simp [FitsItem, Result.map_eq_ok, and_comm, eq_comm (a := fitted)]

/-- A list is fitted **item by item**, if it is not too long. -/
theorem fitElements_cons :
    fitElements kind base pad (size :: rest) given = .ok stored ↔
      size.admits given.length ∧ ∃ items, List.Forall₂ (FitsItem kind base pad rest) given items ∧
        stored = if pad then fillTo size.fill (zeroElement rest) items else items := by
  rw [fitElements]
  cases hadmits : size.admits given.length with
  | false => simp [failType, bind, Except.bind]
  | true =>
    simp only [Bool.not_true, Bool.false_eq_true, if_false, Result.bind_eq_ok, Result.mapM_eq_ok,
      Except.ok.injEq, true_and, eq_comm (a := stored)]
    exact exists_congr fun items => and_congr_left fun _ =>
      ⟨fun h => h.imp fun el fitted => fitItem_eq_ok.1,
        fun h => h.imp fun el fitted => fitItem_eq_ok.2⟩

/-- A literal that is fitted **fills the sizes**. -/
theorem fills_of_fitElements (h : fitElements kind base true sizes given = .ok stored) :
    Element.Fills sizes (.list given) (.list stored) := by
  induction sizes generalizing given stored with
  | nil => cases h
  | cons size rest ih =>
    obtain ⟨hadmits, items, hitems, rfl⟩ := fitElements_cons.1 h
    refine ⟨given, items, rfl, hadmits, hitems.imp fun el fitted hfits => ?_, rfl⟩
    cases rest with
    | nil =>
      obtain ⟨x, rfl, rfl, -⟩ := hfits
      exact ⟨x, rfl, rfl⟩
    | cons r rs =>
      obtain ⟨els, fits, rfl, rfl, hfits⟩ := hfits
      exact ih hfits

/-- A literal that is fitted but not filled up stays as it is. -/
theorem eq_of_fitElements (h : fitElements kind base false sizes given = .ok stored) :
    stored = given := by
  induction sizes generalizing given stored with
  | nil => cases h
  | cons size rest ih =>
    obtain ⟨-, items, hitems, rfl⟩ := fitElements_cons.1 h
    rw [← List.forall₂_eq_eq_eq]
    refine hitems.flip.imp fun fitted el hfits => ?_
    cases rest with
    | nil =>
      obtain ⟨x, rfl, rfl, -⟩ := hfits
      rfl
    | cons r rs =>
      obtain ⟨els, fits, rfl, rfl, hfits⟩ := hfits
      exact congrArg Element.list (ih hfits)

/-- Reals are fitted to an int array only if there is no number among them. -/
theorem numbersOf_of_fitElements (h : fitElements .real .int pad sizes given = .ok stored) :
    Element.numbersOf given = [] := by
  induction sizes generalizing given stored with
  | nil => cases h
  | cons size rest ih =>
    obtain ⟨-, items, hitems, -⟩ := fitElements_cons.1 h
    -- a number among the items is refused, and one below them by induction on the dimensions
    refine List.eq_nil_iff_forall_not_mem.2 fun x hx => ?_
    obtain ⟨el, hel, hx⟩ := Element.exists_of_mem_numbersOf hx
    obtain ⟨fitted, -, hfits⟩ := exists_of_mem_forall₂ hitems.flip hel
    cases rest with
    | nil =>
      obtain ⟨-, -, -, hnot⟩ := hfits
      exact hnot ⟨rfl, rfl⟩
    | cons r rs =>
      obtain ⟨els, fits, rfl, rfl, hfits⟩ := hfits
      rw [Element.numbers, ih hfits] at hx
      exact List.not_mem_nil hx

/-- The lengths of a literal **measure** it, if it has as many dimensions as sizes. -/
theorem measures_of_lengthsBelow {k : Nat} (hk : k < sizes.length) {length : Element}
    (h : lengthsBelow k sizes given = .ok length) :
    Element.Measures k sizes (.list given) length := by
  induction k generalizing sizes given length with
  | zero =>
    cases h
    exact ⟨given, rfl, rfl⟩
  | succ k ih =>
    obtain ⟨size, rest, rfl⟩ :=
      List.exists_cons_of_ne_nil (List.ne_nil_of_length_pos (Nat.zero_lt_of_lt hk))
    simp only [lengthsBelow, Result.bind_eq_ok, Result.mapM_eq_ok] at h
    obtain ⟨lengths, hlengths, heq⟩ := h
    cases heq
    refine ⟨size, rest, given, lengths, rfl, rfl, hlengths.imp fun el length hlength => ?_, rfl⟩
    cases el with
    | num x => cases hlength
    | list items => exact ih (by simpa using hk) hlength

/-- The lengths of a value **measure** it, one dimension after the other. -/
theorem ArrayValue.measures_of_lengths {value : ArrayValue} {shape : ArrayShape}
    {lengths : List Element} (h : value.lengths shape = .ok lengths) :
    List.Forall₂ (fun k length => Element.Measures k shape.sizes (.list value.elements) length)
      (List.range shape.sizes.length) lengths := by
  have hindexed := Result.mapM_eq_ok.1 h
  refine List.forall₂_iff_get.2 ⟨hindexed.length_eq, fun i hi hi' => ?_⟩
  have hlength := (List.forall₂_iff_get.1 hindexed).2 i hi hi'
  refine measures_of_lengthsBelow ?_ hlength
  simpa using hi

end Fitting

/-! ### Literals of texts -/

/-- A literal **fits** a shape and gives its variable and its length variables some values: they
hold it filled up, and what measures it, and reals go to reals only. -/
structure ArrayShape.Fits (shape : ArrayShape) (value stored : ArrayValue)
    (lengths : List Element) :
    Prop where
  base : value.base = .real → shape.base = .real
  stored : stored.base = shape.base ∧
    Element.Fills shape.sizes (.list value.elements) (.list stored.elements)
  lengths : List.Forall₂ (fun k length =>
    Element.Measures k shape.sizes (.list value.elements) length)
    (List.range shape.sizes.length) lengths

/-- **A literal that is fitted to a shape fits it.** -/
theorem Source.fits_of_fit {text : String} {source : Source} {form : LiteralForm}
    {shape : ArrayShape} {value stored fitted : ArrayValue} {lengths : List Element}
    (hread : Source.read text = .ok source) (hliteral : source.meaning = .literal form value)
    (hstored : source.fit shape true = .ok stored) (hfitted : source.fit shape false = .ok fitted)
    (hlengths : fitted.lengths shape = .ok lengths) : shape.Fits value stored lengths := by
  have hfit : ∀ {pad v}, source.fit shape pad = .ok v → ∃ els,
      fitElements value.base shape.base pad shape.sizes value.elements = .ok els ∧
        v = ⟨shape.base, els⟩ := by
    intro pad v h
    simp only [Source.fit, hliteral] at h
    split at h
    · cases h
    · obtain ⟨els, hels, rfl⟩ := Result.map_eq_ok.1 h
      exact ⟨els, hels, rfl⟩
  obtain ⟨filled, hfilled, rfl⟩ := hfit hstored
  obtain ⟨els, hels, rfl⟩ := hfit hfitted
  obtain rfl := eq_of_fitElements hels
  refine ⟨fun hreal => ?_, ⟨rfl, fills_of_fitElements hfilled⟩, ?_⟩
  · -- a literal of reals has a real, which no int array takes
    have hwritten : value.Written := by
      simpa [hliteral, Meaning.Resolved] using Source.resolved_of_read hread
    cases hbase : shape.base with
    | real => rfl
    | int =>
      rw [hreal, hbase] at hels
      exact absurd (numbersOf_of_fitElements hels) (hwritten.real hreal)
  · exact ArrayValue.measures_of_lengths hlengths

end ChartNet
