import ChartNet.Phrase.Meaning
import ChartNet.Proofs.Array.Padding
import ChartNet.Proofs.Expr.Values

/-!
# Comparing with a literal array means equality

The comparison of an array with a literal is written out as a condition: the length in use is that
of the literal, and then each element is the one of the literal, which for an element that is an
array again is such a condition. `AccessChain.decides_arrayEquality` says what this condition means
in a store that holds an array variable with its length variables: it has a truth value, so no
access leads out of an array, and it is true exactly where the array, cut to its lengths, agrees
with the literal. So a variable that starts from a padded literal is equal to the literals that
agree with this one.

The literal may be longer than the capacity, so there need be no element to compare with. But the
condition on the length comes before those on the elements, and where it is true, all of the
elements are there. The proof is by induction on the dimensions, with the invariant that the indexes
of the access chain lead to an element of the array (`AccessChain.Leads`).
-/

namespace ChartNet

/-! ### Agreement -/

/-- Elements **agree** if they are equal numbers, or lists of the same length whose items agree. -/
inductive Element.Agrees : Element → Element → Prop
  | num {x y : Float} (h : (x == y) = true) : Agrees (num x) (num y)
  | list {as bs : List Element} (hlength : as.length = bs.length)
      (hitems : ∀ (i : Nat) (a b : Element), as[i]? = some a → bs[i]? = some b → Agrees a b) :
      Agrees (list as) (list bs)

theorem Element.agrees_num {x y : Float} : Agrees (num x) (num y) ↔ (x == y) = true :=
  ⟨fun h => by cases h with | num h => exact h, .num⟩

theorem Element.agrees_list {as bs : List Element} : Agrees (list as) (list bs) ↔
    as.length = bs.length ∧
      ∀ (i : Nat) (a b : Element), as[i]? = some a → bs[i]? = some b → Agrees a b :=
  ⟨fun h => by cases h with | list hlength hitems => exact ⟨hlength, hitems⟩,
    fun h => .list h.1 h.2⟩

/-- A list that is **cut to a length** agrees with another list if this has the length, and the
items of both agree when cut in turn. -/
theorem Element.agrees_cut_list {d : Nat} {length : List Nat → Nat} {rows items : List Element}
    (hle : length [] ≤ rows.length) : ((list rows).cut (d + 1) length).Agrees (list items) ↔
      length [] = items.length ∧
        ∀ (i : Nat) (item : Element), items[i]? = some item → ∀ row, rows[i]? = some row →
          (row.cut d fun path => length (i :: path)).Agrees item := by
  rw [cut, agrees_list, List.length_mapIdx, List.length_take, Nat.min_eq_left hle]
  refine and_congr_right fun heq => ?_
  have htake {i : Nat} {item : Element} (hitem : items[i]? = some item) :
      (rows.take (length []))[i]? = rows[i]? :=
    List.getElem?_take_of_lt (heq ▸ (List.getElem?_eq_some_iff.1 hitem).1)
  simp only [List.getElem?_mapIdx, Option.map_eq_some_iff]
  constructor
  · intro h i item hitem row hrow
    exact h i _ item ⟨row, (htake hitem).trans hrow, rfl⟩ hitem
  · rintro h i _ item ⟨row, hrow, rfl⟩ hitem
    exact h i item hitem row ((htake hitem).symm.trans hrow)

/-! ### Arrays in a store -/

/-- A store **holds an array** in a variable if the variable has it as its value, with its whole
capacities, and the length variables have the values of its companions. -/
structure HoldsArray (σ : String → Option Value) (x : String) (caps : List Nat) (array : Element)
    (lengths : List Element) : Prop where
  value : σ x = some (.data array)
  sized : array.Sized (· = ·) caps
  companions : Companions caps lengths
  lengths : ∀ {k : Nat} {length : Element}, lengths[k]? = some length →
    σ (lengthName x (k + 1)) = some (.data length)

/-- The indexes of an access chain **lead** along a path to an element of an array. -/
structure AccessChain.Leads (σ : String → Option Value) (c : AccessChain) (array : Element)
    (path : List Nat) (part : Element) : Prop where
  indexes : List.Forall₂ (Expr.IsIndex σ) c.indexes path
  part : array.at? path = some part

namespace AccessChain

variable {σ : String → Option Value} {c : AccessChain} {caps path : List Nat} {array part : Element}
  {lengths : List Element}

theorem Leads.valueIn_toExpr (hholds : HoldsArray σ c.root caps array lengths)
    (hleads : c.Leads σ array path part) : c.toExpr.valueIn σ = some (.data part) :=
  Expr.valueIn_foldl_access hholds.value hleads.indexes hleads.part

/-- One more index leads to an item of the list. -/
theorem Leads.push {rows : List Element} {row : Element} {i : Nat}
    (hleads : c.Leads σ array path (.list rows)) (hi : i < 2 ^ 53) (hrow : rows[i]? = some row) :
    (c.push (.nat i)).Leads σ array (path ++ [i]) row where
  indexes := List.rel_append hleads.indexes (.cons (Expr.isIndex_nat hi) .nil)
  part := by
    rw [Element.at?_append, hleads.part]
    simp [hrow]

/-- The length of what a chain leads to **is that of its companion**, and within the capacity. -/
theorem Leads.isIndex_length {rows : List Element} (hholds : HoldsArray σ c.root caps array lengths)
    (hleads : c.Leads σ array path (.list rows)) :
    c.length.IsIndex σ (lengthAt lengths path) ∧ lengthAt lengths path ≤ rows.length := by
  have hlt := hholds.sized.length_lt hleads.part
  obtain ⟨-, hsized⟩ := hholds.sized.at? hleads.part
  rw [List.drop_eq_getElem_cons hlt] at hsized
  obtain ⟨length, hlength⟩ : ∃ length, lengths[path.length]? = some length :=
    ⟨_, List.getElem?_eq_getElem (hholds.companions.length_eq ▸ hlt)⟩
  -- the companion has a number at the path, since it has the dimensions that the path goes through
  obtain ⟨x, hx⟩ := hholds.sized.exists_at? hleads.part (hholds.companions.sized hlength)
  obtain ⟨n, hle, hn⟩ := hholds.companions.within (List.getElem?_eq_getElem hlt) hlength x
    (Element.mem_numbers_of_at? hx)
  rw [lengthAt_eq hlength hx hn]
  refine ⟨?_, hsized.1 ▸ hle⟩
  have hname : (Expr.ident (lengthName c.root (c.indexes.length + 1))).valueIn σ =
      some (.data length) := by
    rw [hleads.indexes.length_eq]
    exact hholds.lengths hlength
  have hvalue : c.length.valueIn σ = some (.data (.num x)) := by
    rw [AccessChain.length, dimensionLength, Nat.add_sub_cancel, List.take_length]
    exact Expr.valueIn_foldl_access hname hleads.indexes hx
  rw [Expr.IsIndex, hvalue]
  exact hn

/-! ### The condition -/

theorem elementEqualities_eq {base : NumKind} {i : Nat} {items : List Element} :
    elementEqualities c base i items =
      items.mapIdx fun j item => elementEquality (c.push (.nat (i + j))) base item := by
  induction items generalizing i with
  | nil => simp [elementEqualities]
  | cons item items ih =>
    simp only [elementEqualities, ih, List.mapIdx_cons, Nat.add_zero, Nat.add_right_comm,
      ← Nat.add_assoc]

theorem elementEquality_list {base : NumKind} {items : List Element} :
    elementEquality c base (.list items) = .conjunction (.eq c.length (.nat items.length) ::
      items.mapIdx fun i item => elementEquality (c.push (.nat i)) base item) := by
  simp only [elementEquality, elementEqualities_eq, Nat.zero_add]

/-- The condition that what a chain leads to equals an element **decides** whether what is in use of
the one agrees with the other. -/
theorem Leads.decides_elementEquality {base : NumKind} {rest : List Nat} {literal : Element}
    (hholds : HoldsArray σ c.root caps array lengths) (hleads : c.Leads σ array path part)
    (hpart : part.Sized (· = ·) rest) (hliteral : literal.Sized (fun _ _ => True) rest)
    (hcounted : literal.Counted) :
    (elementEquality c base literal).Decides σ
      ((part.cut rest.length fun path' => lengthAt lengths (path ++ path')).Agrees literal) := by
  induction rest generalizing c path part literal with
  | nil =>
    obtain ⟨x, rfl⟩ := Element.sized_nil.1 hpart
    obtain ⟨y, rfl⟩ := Element.sized_nil.1 hliteral
    rw [elementEquality]
    exact (Expr.decides_eq (hleads.valueIn_toExpr hholds) rfl).congr Element.agrees_num.symm
  | cons cap rest ih =>
    obtain ⟨rows, rfl, -, hrows⟩ := Element.sized_cons.1 hpart
    obtain ⟨items, rfl, -, hitems⟩ := Element.sized_cons.1 hliteral
    obtain ⟨hlength, hle⟩ := hleads.isIndex_length hholds
    obtain ⟨x, hx, hn⟩ := hlength.exists_number
    have hfirst : (Expr.eq c.length (.nat items.length)).Decides σ
        (lengthAt lengths path = items.length) :=
      (Expr.decides_eq hx rfl).congr (Number.beq_ofNat_iff hn hcounted.length_lt)
    rw [elementEquality_list, List.length_cons, Element.agrees_cut_list (by simpa using hle),
      List.append_nil]
    refine hfirst.conjunction fun heq i item hitem => ?_
    -- the lengths are equal, so there is a row for the item
    have hi : i < items.length := (List.getElem?_eq_some_iff.1 hitem).1
    have hrow : rows[i]? = some rows[i] := List.getElem?_eq_getElem (by omega)
    have hpush := hleads.push (hi.trans hcounted.length_lt) hrow
    refine (ih (c := c.push (.nat i)) hholds hpush (hrows _ (List.getElem_mem _))
      (hitems _ (List.mem_of_getElem? hitem)) (hcounted.item hitem)).congr ?_
    simp [hrow]

/-- A variable with the values that **a literal pads to** is compared with another literal: the
condition decides whether the two literals agree. -/
theorem decides_arrayEquality_of_padsTo {x : String} {value other padded : ArrayValue}
    {base : NumKind} (hpads : value.PadsTo base caps padded lengths)
    (hvalue : σ x = some (.data (.list padded.elements)))
    (hlengths : ∀ {k : Nat} {length : Element}, lengths[k]? = some length →
      σ (lengthName x (k + 1)) = some (.data length))
    (hdepth : (Element.list other.elements).Sized (fun _ _ => True) caps)
    (hcounted : (Element.list other.elements).Counted) :
    (arrayEquality ⟨x, []⟩ other).Decides σ
      ((Element.list value.elements).Agrees (.list other.elements)) := by
  have hholds : HoldsArray σ x caps (.list padded.elements) lengths :=
    { value := hvalue, sized := hpads.sized, companions := hpads.companions, lengths := hlengths }
  have hleads : Leads σ ⟨x, []⟩ (.list padded.elements) [] (.list padded.elements) := ⟨.nil, rfl⟩
  rw [← hpads.cut_eq]
  exact hleads.decides_elementEquality hholds hpads.sized hdepth hcounted

/-- **Comparing with a literal array means equality.** In a store that holds an array, a chain whose
indexes lead to a part of the array is compared with a literal of as many dimensions as are left.
The condition has a truth value, so it makes no access out of range, and is true exactly where the
part, cut to the lengths that the length variables hold, agrees with the literal in every length and
every number. -/
theorem decides_arrayEquality {value : ArrayValue} (hholds : HoldsArray σ c.root caps array lengths)
    (hleads : c.Leads σ array path part)
    (hdepth : (Element.list value.elements).Sized (fun _ _ => True) (caps.drop path.length))
    (hcounted : (Element.list value.elements).Counted) :
    (arrayEquality c value).Decides σ
      ((part.cut (caps.length - path.length) fun path' => lengthAt lengths (path ++ path')).Agrees
        (.list value.elements)) := by
  rw [← List.length_drop]
  exact hleads.decides_elementEquality hholds (hholds.sized.at? hleads.part).2 hdepth hcounted

/-- The second row of an array with room for two rows of two numbers, which uses one number of
it. -/
theorem decides_arrayEquality_of_row :
    (arrayEquality ⟨"x", [.nat 1]⟩ ⟨.int, [.num 3]⟩).valueIn (Expr.storeOf
      [("x", .list [.list [.num 1, .num 2], .list [.num 3, .num 0]]), ("x.d1_len", .num 2),
        ("x.d2_len", .list [.num 2, .num 1])]) = some (.bool true) := by
  have htwo : Number.toNat? 2 = some 2 := Number.toNat?_ofNat (by norm_num)
  have hone : Number.toNat? 1 = some 1 := Number.toNat?_ofNat (by norm_num)
  have hthree : Number.toNat? 3 = some 3 := Number.toNat?_ofNat (by norm_num)
  have hcompanions : Companions [2, 2] [.num 2, .list [.num 2, .num 1]] :=
    { length_eq := rfl
      sized := by rintro (_ | _ | k) length hlength <;> cases hlength <;> simp [Element.Sized]
      within := by
        rintro (_ | _ | k) cap length hcap hlength <;> cases hcap <;> cases hlength <;>
          simp [Element.numbers, Element.numbersOf, htwo, hone] }
  have hholds : HoldsArray (Expr.storeOf
      [("x", .list [.list [.num 1, .num 2], .list [.num 3, .num 0]]), ("x.d1_len", .num 2),
        ("x.d2_len", .list [.num 2, .num 1])]) "x" [2, 2]
      (.list [.list [.num 1, .num 2], .list [.num 3, .num 0]]) [.num 2, .list [.num 2, .num 1]] :=
    { value := rfl
      sized := by simp [Element.Sized]
      companions := hcompanions
      lengths := by
        have hfirst : lengthName "x" 1 = "x.d1_len" := by decide
        have hsecond : lengthName "x" 2 = "x.d2_len" := by decide
        rintro (_ | _ | k) length hlength <;> cases hlength
        · rw [Nat.zero_add, hfirst]
          rfl
        · rw [Nat.zero_add, Nat.one_add, hsecond]
          rfl }
  have hdecides : (arrayEquality ⟨"x", [.nat 1]⟩ ⟨.int, [.num 3]⟩).Decides _ _ :=
    decides_arrayEquality hholds ⟨.cons (Expr.isIndex_nat (by norm_num)) .nil, rfl⟩
      (by simp [Element.Sized]) (by simp [Element.counted_list, Element.counted_num])
  obtain ⟨b, hb, hiff⟩ := hdecides
  have hlength : lengthAt [.num 2, .list [.num 2, .num 1]] [1] = 1 := lengthAt_eq rfl rfl hone
  -- the row of the array is longer than the literal, but its length variable counts one item
  rw [hb, hiff.2 ((Element.agrees_cut_list (hlength.trans_le (by simp))).2 ⟨hlength, ?_⟩)]
  rintro (_ | i) item hitem row hrow <;> cases hitem
  cases hrow
  exact .num ((Number.beq_ofNat_iff hthree (by norm_num)).2 rfl)

end AccessChain

end ChartNet
