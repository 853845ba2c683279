import ChartNet.Automaton.Variable
import ChartNet.Proofs.Array.Paths

/-!
# Padded arrays lose nothing

An array variable has no room for a ragged array: a literal is padded with zeros to the capacity in
every dimension, and the lengths that its lists had go to the length variables. Nothing is lost
(`ArrayValue.fit_ofCaps`): cutting the padded array to the lengths gives the literal back, and what
is cut off is zero.

Padding and measuring are two recursions. They are compared through the relations `Element.Fills`
and `Element.Measures`, which follow the dimensions: at each path to a list of the literal, the
companion of its dimension has the length of this list (`Element.Measures.at?`), and these lengths
are all that cutting looks at (`Element.Fills.cut_eq`).
-/

namespace ChartNet

/-! ### What can be fitted -/

/-- The elements of a list have no numbers if none of them has. -/
theorem Element.numbersOf_eq_nil_iff {els : List Element} :
    Element.numbersOf els = [] ↔ ∀ el ∈ els, el.numbers = [] := by
  simp only [List.eq_nil_iff_forall_not_mem]
  constructor
  · exact fun h el hel x hx => h x (Element.mem_numbersOf hel hx)
  · intro h x hx
    obtain ⟨el, hel, hx⟩ := Element.exists_of_mem_numbersOf hx
    exact h el hel x hx

section Fitting

variable {kind base : NumKind} {pad : Bool} {n k cap : Nat} {caps path : List Nat}
  {given : List Element} {size : Size} {sizes : List Size} {e stored length : Element} {x : Float}

/-- A literal **can be fitted** if none of its lists is too long, it has as many dimensions as there
are capacities, and it has no reals for an int array. -/
theorem exists_fitElements_iff :
    (∃ stored, fitElements kind base pad (caps.map .whole) given = .ok stored) ↔
      (Element.list given).Sized (· ≤ ·) caps ∧
        (base = .int → kind = .real → Element.numbersOf given = []) := by
  induction caps generalizing given with
  | nil => simp [fitElements, failType, Element.Sized]
  | cons n rest ih =>
    -- an item is fitted by itself, so the induction hypothesis speaks of each item alone
    have hitem (el : Element) : (∃ fitted, FitsItem kind base pad (rest.map .whole) el fitted) ↔
        el.Sized (· ≤ ·) rest ∧ (base = .int → kind = .real → el.numbers = []) := by
      cases rest with
      | nil => cases el <;> simp [FitsItem, Element.Sized, Element.numbers, imp_not_comm]
      | cons m rest =>
        cases el with
        | num x => simp [FitsItem, Element.Sized]
        | list items =>
          rw [Element.numbers, ← ih]
          simp [FitsItem]
    calc (∃ stored, fitElements kind base pad ((n :: rest).map .whole) given = .ok stored)
        ↔ given.length ≤ n ∧
            ∃ fitted, List.Forall₂ (FitsItem kind base pad (rest.map .whole)) given fitted := by
          simp only [List.map_cons, fitElements_cons, Size.admits_whole, decide_eq_true_eq]
          constructor
          · rintro ⟨_, hle, fitted, hfits, -⟩
            exact ⟨hle, fitted, hfits⟩
          · rintro ⟨hle, fitted, hfits⟩
            exact ⟨_, hle, fitted, hfits, rfl⟩
      _ ↔ given.length ≤ n ∧ ∀ el ∈ given,
            el.Sized (· ≤ ·) rest ∧ (base = .int → kind = .real → el.numbers = []) := by
          simp only [exists_forall₂_iff, hitem]
      _ ↔ _ := by
          rw [Element.numbersOf_eq_nil_iff]
          constructor
          · rintro ⟨hle, h⟩
            exact ⟨⟨hle, fun el hel => (h el hel).1⟩,
              fun hbase hkind el hel => (h el hel).2 hbase hkind⟩
          · rintro ⟨⟨hle, hsized⟩, hnone⟩
            exact ⟨hle, fun el hel => ⟨hsized el hel, fun hbase hkind => hnone hbase hkind el hel⟩⟩

/-- The length variables of a literal that fits **have values**. -/
theorem exists_lengthsBelow (h : (Element.list given).Sized (· ≤ ·) caps) (hk : k < caps.length) :
    ∃ length, lengthsBelow k (caps.map .whole) given = .ok length := by
  induction k generalizing caps given with
  | zero => exact ⟨_, rfl⟩
  | succ k ih =>
    obtain ⟨n, rest, rfl⟩ := List.exists_cons_of_length_pos (Nat.zero_lt_of_lt hk)
    have hk : k < rest.length := Nat.lt_of_succ_lt_succ hk
    -- there are dimensions below, so the items are lists
    have hitems : ∀ el ∈ given, ∃ items, el = .list items ∧
        (Element.list items).Sized (· ≤ ·) rest := by
      intro el hel
      obtain ⟨m, rest, rfl⟩ := List.exists_cons_of_length_pos (Nat.zero_lt_of_lt hk)
      obtain ⟨items, rfl, hsized⟩ := Element.sized_cons.1 (h.2 el hel)
      exact ⟨items, rfl, hsized⟩
    simp only [lengthsBelow, List.map_cons, List.tail_cons, Result.bind_eq_ok, Except.ok.injEq]
    rw [exists_comm]
    simp only [exists_and_left, exists_eq', and_true]
    refine Result.exists_mapM_eq_ok.2 fun el hel => ?_
    obtain ⟨items, rfl, hsized⟩ := hitems el hel
    exact ih hsized hk

/-! ### What is padded -/

theorem length_fillTo {zero : Element} (h : given.length ≤ n) :
    (fillTo n zero given).length = n := by
  simp [fillTo, h]

theorem mem_fillTo {zero el : Element} (h : el ∈ fillTo n zero given) : el ∈ given ∨ el = zero := by
  rcases List.mem_append.1 h with h | h
  · exact .inl h
  · exact .inr (List.eq_of_mem_replicate h)

/-- The padding uses the whole capacities. -/
theorem sized_zeroElement : (zeroElement (caps.map .whole)).Sized (· = ·) caps := by
  induction caps with
  | nil => trivial
  | cons n rest ih =>
    refine ⟨List.length_replicate, fun item hitem => ?_⟩
    rw [List.eq_of_mem_replicate hitem]
    exact ih

/-- The numbers of the padding are zeros. -/
theorem eq_zero_of_mem_zeroElement (hx : x ∈ (zeroElement sizes).numbers) : x = 0 := by
  induction sizes with
  | nil => simpa [zeroElement, Element.numbers] using hx
  | cons size rest ih =>
    obtain ⟨el, hel, hx⟩ := Element.exists_of_mem_numbersOf hx
    rw [List.eq_of_mem_replicate hel] at hx
    exact ih hx

namespace Element

/-- An array that is filled up uses the whole capacities. -/
theorem Fills.sized (h : Fills (caps.map .whole) e stored) : stored.Sized (· = ·) caps := by
  induction caps generalizing e stored with
  | nil =>
    obtain ⟨x, -, rfl⟩ := h
    trivial
  | cons n rest ih =>
    obtain ⟨items, filled, rfl, hadmits, hfills, rfl⟩ := h
    have hle : filled.length ≤ n := by simpa [← hfills.length_eq] using hadmits
    refine ⟨length_fillTo hle, fun item hitem => ?_⟩
    rcases mem_fillTo hitem with hitem | rfl
    · obtain ⟨el, -, hfills⟩ := exists_of_mem_forall₂ hfills hitem
      exact ih hfills
    · exact sized_zeroElement

/-- A number that is not of the literal **is zero**. -/
theorem Fills.eq_zero (h : Fills sizes e stored) (hx : stored.at? path = some (num x))
    (hnone : e.at? path = none) : x = 0 := by
  induction path generalizing sizes e stored with
  | nil => simp at hnone
  | cons i path ih =>
    cases sizes with
    | nil =>
      obtain ⟨y, -, rfl⟩ := h
      cases hx
    | cons size rest =>
      obtain ⟨items, filled, rfl, -, hfills, rfl⟩ := h
      obtain ⟨el, hel, hx⟩ := Option.bind_eq_some_iff.1 hx
      -- the path goes on in an item of the literal, or in the padding
      rcases lt_or_ge i filled.length with hi | hi
      · have hi' : i < items.length := hfills.length_eq ▸ hi
        rw [fillTo, List.getElem?_append_left hi, List.getElem?_eq_getElem hi,
          Option.some.injEq] at hel
        rw [at?_list_cons, List.getElem?_eq_getElem hi', Option.bind_some] at hnone
        rw [← hel] at hx
        exact ih ((List.forall₂_iff_get.1 hfills).2 i hi' hi) hx hnone
      · rw [fillTo, List.getElem?_append_right hi] at hel
        rw [List.eq_of_mem_replicate (List.mem_of_getElem? hel)] at hx
        exact eq_zero_of_mem_zeroElement (mem_numbers_of_at? hx)

/-- **Cutting undoes padding**, if the lengths are those of the lists of the literal. -/
theorem Fills.cut_eq {lengths : List Nat → Nat} (h : Fills sizes e stored)
    (hlengths : ∀ path items, e.at? path = some (list items) → lengths path = items.length) :
    stored.cut sizes.length lengths = e := by
  induction sizes generalizing e stored lengths with
  | nil =>
    obtain ⟨x, rfl, rfl⟩ := h
    rfl
  | cons size rest ih =>
    obtain ⟨items, filled, rfl, -, hfills, rfl⟩ := h
    have htake : (fillTo size.fill (zeroElement rest) filled).take (lengths []) = filled := by
      rw [hlengths [] items rfl, hfills.length_eq]
      exact List.take_left
    rw [List.length_cons, cut, htake, list.injEq]
    refine List.ext_getElem (by simpa using hfills.length_eq.symm) fun i hi hi' => ?_
    rw [List.getElem_mapIdx]
    refine ih ((List.forall₂_iff_get.1 hfills).2 i hi' (by simpa using hi))
      fun path items' hpath => ?_
    exact hlengths (i :: path) items' (by simpa [List.getElem?_eq_getElem hi'] using hpath)

/-! ### What is measured -/

/-- What measures the literal has, at the path to a list, the length of this list. -/
theorem Measures.at? {items : List Element} (h : Measures path.length sizes e length)
    (hpath : e.at? path = some (list items)) :
    length.at? path = some (num (Float.ofNat items.length)) := by
  induction path generalizing sizes e length with
  | nil =>
    obtain ⟨items', rfl, rfl⟩ := h
    cases hpath
    rfl
  | cons i path ih =>
    obtain ⟨size, rest, items', lengths, rfl, rfl, hmeasures, rfl⟩ := h
    obtain ⟨item, hitem, hpath⟩ := Option.bind_eq_some_iff.1 hpath
    obtain ⟨hi, rfl⟩ := List.getElem?_eq_some_iff.1 hitem
    have hi' : i < lengths.length := hmeasures.length_eq ▸ hi
    rw [at?_list_cons, fillTo, List.getElem?_append_left hi', List.getElem?_eq_getElem hi',
      Option.bind_some]
    exact ih ((List.forall₂_iff_get.1 hmeasures).2 i hi hi') hpath

/-- What measures a literal that fits is a **companion**: an array over the dimensions before, of
lengths within the capacity. -/
theorem Measures.companion (h : Measures k (caps.map .whole) e length)
    (hsized : e.Sized (· ≤ ·) caps) (hcounted : e.Counted) (hcap : caps[k]? = some cap) :
    length.Sized (· = ·) (caps.take k) ∧
      ∀ x ∈ length.numbers, ∃ n ≤ cap, Number.toNat? x = some n := by
  induction k generalizing caps e length with
  | zero =>
    obtain ⟨items, rfl, rfl⟩ := h
    obtain ⟨n, rest, rfl⟩ := List.exists_cons_of_length_pos (List.getElem?_eq_some_iff.1 hcap).1
    cases hcap
    refine ⟨trivial, fun x hx => ⟨items.length, hsized.1, ?_⟩⟩
    rw [List.mem_singleton.1 hx]
    exact Number.toNat?_ofNat hcounted.length_lt
  | succ k ih =>
    obtain ⟨size, rest, items, lengths, hcaps, rfl, hmeasures, rfl⟩ := h
    obtain ⟨n, caps, rfl, rfl, rfl⟩ := List.map_eq_cons_iff.1 hcaps
    obtain ⟨hle, hsized⟩ := hsized
    rw [← List.map_take]
    -- each length is of an item of the literal, or in the padding
    have hitem : ∀ length ∈ lengths, length.Sized (· = ·) (caps.take k) ∧
        ∀ x ∈ length.numbers, ∃ n ≤ cap, Number.toNat? x = some n := by
      intro length hlength
      obtain ⟨i, hi, rfl⟩ := List.getElem_of_mem hlength
      have hi' : i < items.length := hmeasures.length_eq ▸ hi
      exact ih ((List.forall₂_iff_get.1 hmeasures).2 i hi' hi) (hsized _ (List.getElem_mem hi'))
        (hcounted.item (List.getElem?_eq_getElem hi')) hcap
    refine ⟨⟨length_fillTo (hmeasures.length_eq ▸ hle), fun length hlength => ?_⟩, fun x hx => ?_⟩
    · rcases mem_fillTo hlength with hlength | rfl
      · exact (hitem length hlength).1
      · exact sized_zeroElement
    · obtain ⟨length, hlength, hx⟩ := exists_of_mem_numbersOf hx
      rcases mem_fillTo hlength with hlength | rfl
      · exact (hitem length hlength).2 x hx
      · rw [eq_zero_of_mem_zeroElement hx]
        exact ⟨0, Nat.zero_le cap, Number.toNat?_ofNat (by norm_num)⟩

end Element

end Fitting

/-! ### Padding and lengths -/

/-- The shape of an array of numbers of a kind with given **capacities**. -/
def ArrayShape.ofCaps (base : NumKind) (caps : List Nat) : ArrayShape := ⟨base, caps.map .whole⟩

/-- The capacities of what a variable of a type holds; a number has none. -/
def DataType.capacities : DataType → List Nat
  | .array shape => shape.sizes.map (·.count)
  | _ => []

/-- A type **takes** an element if it is a type of numbers, the element uses its whole capacities,
and all numbers in the element are whole if the type is one of ints. -/
def DataType.Takes (t : DataType) (e : Element) : Prop :=
  t.base ≠ .bool ∧ e.Sized (· = ·) t.capacities ∧
    (t.base = .int → ∀ x ∈ e.numbers, Number.isWhole x = true)

/-- The type of a length variable takes the companion of its dimension. -/
theorem ArrayShape.takes_lengthType {base : NumKind} {caps : List Nat} {k : Nat} {length : Element}
    (hsized : length.Sized (· = ·) (caps.take k))
    (hnat : ∀ x ∈ length.numbers, ∃ n, Number.toNat? x = some n) :
    ((ArrayShape.ofCaps base caps).lengthType (k + 1)).Takes length := by
  have hwhole : ∀ x ∈ length.numbers, Number.isWhole x = true := by
    intro x hx
    obtain ⟨n, hn⟩ := hnat x hx
    exact Number.isWhole_of_toNat? hn
  cases k with
  | zero => exact ⟨nofun, hsized, fun _ => hwhole⟩
  | succ k =>
    refine ⟨nofun, ?_, fun _ => hwhole⟩
    have hcaps : ((ArrayShape.ofCaps base caps).lengthType (k + 2)).capacities =
      caps.take (k + 1) := by
      simp [lengthType, ofCaps, DataType.capacities, ← List.map_take, Function.comp_def]
    rwa [hcaps]

/-- A value **pads** to an array and lengths if nothing is lost: the array uses the whole
capacities, the lengths are companions of the types of the length variables, the value is the array
cut to the lengths, and what is cut off is zero. -/
structure ArrayValue.PadsTo (value : ArrayValue) (base : NumKind) (caps : List Nat)
    (padded : ArrayValue) (lengths : List Element) : Prop where
  base_eq : padded.base = base
  sized : (Element.list padded.elements).Sized (· = ·) caps
  companions : Companions caps lengths
  types : ∀ {k : Nat} {length : Element}, lengths[k]? = some length →
    ((ArrayShape.ofCaps base caps).lengthType (k + 1)).Takes length
  cut_eq : (Element.list padded.elements).cut caps.length (lengthAt lengths) = .list value.elements
  eq_zero : ∀ {path : List Nat} {x : Float},
    (Element.list padded.elements).at? path = some (.num x) →
      (Element.list value.elements).at? path = none → x = 0

namespace ArrayValue

variable {value : ArrayValue} {base : NumKind} {caps path : List Nat} {lengths : List Element}

/-- A value can be fitted if its elements can. -/
theorem exists_fit_iff {pad : Bool} : (∃ fitted, value.fit (.ofCaps base caps) pad = .ok fitted) ↔
    (Element.list value.elements).Sized (· ≤ ·) caps ∧
      (base = .int → value.base = .real → value.numbers = []) := by
  simp only [fit, ArrayShape.ofCaps, Result.map_eq_ok]
  rw [exists_comm]
  simp only [exists_and_left, exists_eq', and_true]
  exact exists_fitElements_iff

theorem exists_lengths (hsized : (Element.list value.elements).Sized (· ≤ ·) caps) :
    ∃ lengths, value.lengths (.ofCaps base caps) = .ok lengths :=
  Result.exists_mapM_eq_ok.2 fun k hk =>
    exists_lengthsBelow hsized (by simpa [ArrayShape.ofCaps] using hk)

/-- There is one length variable for each dimension, and what it gets measures the value there. -/
theorem measures_of_getElem? (h : value.lengths (.ofCaps base caps) = .ok lengths) {k : Nat}
    {length : Element} (hk : lengths[k]? = some length) :
    k < caps.length ∧ Element.Measures k (caps.map .whole) (.list value.elements) length := by
  obtain ⟨hlength, hmeasures⟩ := List.forall₂_iff_get.1 (measures_of_lengths h)
  obtain ⟨hlt, rfl⟩ := List.getElem?_eq_some_iff.1 hk
  have hrange := hmeasures k (hlength ▸ hlt) hlt
  rw [List.get_eq_getElem, List.getElem_range] at hrange
  exact ⟨by simpa [ArrayShape.ofCaps, ← hlength] using hlt, hrange⟩

/-- The lengths of a value that fits are **companions**. -/
theorem companions_of_lengths (hsized : (Element.list value.elements).Sized (· ≤ ·) caps)
    (hcounted : (Element.list value.elements).Counted)
    (h : value.lengths (.ofCaps base caps) = .ok lengths) : Companions caps lengths where
  length_eq := by simpa [ArrayShape.ofCaps] using (measures_of_lengths h).length_eq.symm
  sized hk := by
    obtain ⟨hlt, hmeasures⟩ := measures_of_getElem? h hk
    exact (hmeasures.companion hsized hcounted (List.getElem?_eq_getElem hlt)).1
  within hcap hk := ((measures_of_getElem? h hk).2.companion hsized hcounted hcap).2

/-- At the path to a list of the value, its lengths are **the length of this list**. -/
theorem lengthAt_of_lengths (hsized : (Element.list value.elements).Sized (· ≤ ·) caps)
    (hcounted : (Element.list value.elements).Counted)
    (h : value.lengths (.ofCaps base caps) = .ok lengths) {items : List Element}
    (hpath : (Element.list value.elements).at? path = some (.list items)) :
    lengthAt lengths path = items.length := by
  have hlt : path.length < lengths.length := by
    rw [(companions_of_lengths hsized hcounted h).length_eq]
    exact hsized.length_lt hpath
  have hlength := List.getElem?_eq_getElem hlt
  exact lengthAt_eq hlength ((measures_of_getElem? h hlength).2.at? hpath)
    (Number.toNat?_ofNat (hcounted path items hpath))

/-- A value whose elements fill the capacities **pads** to the filled array and its lengths. -/
theorem padsTo_of_fills {stored : List Element}
    (hfills : Element.Fills (caps.map .whole) (.list value.elements) (.list stored))
    (hsized : (Element.list value.elements).Sized (· ≤ ·) caps)
    (hcounted : (Element.list value.elements).Counted)
    (h : value.lengths (.ofCaps base caps) = .ok lengths) :
    value.PadsTo base caps ⟨base, stored⟩ lengths where
  base_eq := rfl
  sized := hfills.sized
  companions := companions_of_lengths hsized hcounted h
  types {k length} hk := by
    have hcompanions := companions_of_lengths hsized hcounted h
    refine ArrayShape.takes_lengthType (hcompanions.sized hk) fun x hx => ?_
    have hcap := List.getElem?_eq_getElem (measures_of_getElem? h hk).1
    obtain ⟨n, -, hn⟩ := hcompanions.within hcap hk x hx
    exact ⟨n, hn⟩
  cut_eq := by
    rw [← List.length_map (f := Size.whole)]
    exact hfills.cut_eq fun path items => lengthAt_of_lengths hsized hcounted h
  eq_zero := hfills.eq_zero

/-- **Padded arrays and their lengths lose nothing.** A literal can be fitted if and only if it has
the dimensions of the shape, none of its lists is longer than the capacity of its dimension, and no
real goes to an int array. Then its unpadded form is the literal with the kind of the shape, which
has lengths, and the literal pads to the padded form and these lengths. -/
theorem fit_ofCaps (value : ArrayValue) (base : NumKind) (caps : List Nat) :
    (∀ pad, (∃ fitted, value.fit (.ofCaps base caps) pad = .ok fitted) ↔
      (Element.list value.elements).Sized (· ≤ ·) caps ∧
        (base = .int → value.base = .real → value.numbers = [])) ∧
    ∀ padded, value.fit (.ofCaps base caps) true = .ok padded →
      (Element.list value.elements).Counted →
      value.fit (.ofCaps base caps) false = .ok ⟨base, value.elements⟩ ∧
      ∃ lengths, (⟨base, value.elements⟩ : ArrayValue).lengths (.ofCaps base caps) = .ok lengths ∧
        value.PadsTo base caps padded lengths := by
  refine ⟨fun pad => exists_fit_iff, fun padded hpadded hcounted => ?_⟩
  have hfits := exists_fit_iff.1 ⟨padded, hpadded⟩
  obtain ⟨stored, hstored, rfl⟩ := Result.map_eq_ok.1 hpadded
  -- it can be fitted unpadded as well, and then stays as it is
  obtain ⟨unpadded, hunpadded⟩ : ∃ fitted, value.fit (.ofCaps base caps) false = .ok fitted :=
    exists_fit_iff.2 hfits
  obtain ⟨els, hels, rfl⟩ := Result.map_eq_ok.1 hunpadded
  obtain rfl := eq_of_fitElements hels
  obtain ⟨lengths, hlengths⟩ : ∃ lengths,
      (⟨base, value.elements⟩ : ArrayValue).lengths (.ofCaps base caps) = .ok lengths :=
    exists_lengths hfits.1
  exact ⟨hunpadded, lengths, hlengths,
    padsTo_of_fills (fills_of_fitElements hstored) hfits.1 hcounted hlengths⟩

/-- A ragged literal of ints with a full and an empty list, in an array of reals. -/
theorem fit_ofCaps_of_ragged :
    ∃ padded lengths,
      (⟨.int, [.list [.num 1, .num 2], .list [], .list [.num 3]]⟩ : ArrayValue).fit
        (.ofCaps .real [4, 2]) true = .ok padded ∧
      (⟨.int, [.list [.num 1, .num 2], .list [], .list [.num 3]]⟩ : ArrayValue).PadsTo
        .real [4, 2] padded lengths := by
  obtain ⟨hiff, hpads⟩ :=
    fit_ofCaps ⟨.int, [.list [.num 1, .num 2], .list [], .list [.num 3]]⟩ .real [4, 2]
  obtain ⟨padded, hpadded⟩ := (hiff true).2 ⟨by simp [Element.Sized], nofun⟩
  have hlengths := hpads padded hpadded (by simp [Element.counted_list, Element.counted_num])
  obtain ⟨-, lengths, -, hpads⟩ := hlengths
  exact ⟨padded, lengths, hpadded, hpads⟩

end ArrayValue

end ChartNet
