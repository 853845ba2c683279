import ChartNet.Proofs.Fields

/-!
# Variables of events by name

Charts refer to the variables of events by name. Declaring writes such a name forwards, from the
event, the field and the number of a dimension; looking up reads it backwards, and tries every
event, as both events and fields may have dots in their names. If no two variables have one name,
both agree (`Events.variableType_iff_declared`), apart from two kinds of names:

* a name with a numeral that numbers are not written in, such as `scan.data.d01_len`, is **misread**
  as that of a length variable, and has a type although there may be no such variable;
* the length variables of a field whose name is empty or has more than one line are **overlooked**.
-/

namespace ChartNet

/-! ### Parts with distinct names -/

namespace Event

variable {e : Event} {part field : String} {t : DataType}

/-- Parts are told apart by their names, if these are distinct. -/
theorem eq_of_mem_parts (hparts : (e.parts.map (·.1)).Nodup) {p p' : String × DataType}
    (hp : p ∈ e.parts) (hp' : p' ∈ e.parts) (hname : p.1 = p'.1) : p = p' :=
  List.inj_on_of_nodup_map hparts hp hp' hname

theorem fieldType?_of_mem (hparts : (e.parts.map (·.1)).Nodup) (h : (field, t) ∈ e.fields) :
    e.fieldType? field = some t := by
  cases hfield : e.fieldType? field with
  | none => simpa using List.find?_eq_none.1 (Option.map_eq_none_iff.1 hfield) _ h
  | some u =>
    have heq := eq_of_mem_parts hparts (mem_parts_of_field (mem_of_fieldType? hfield))
      (mem_parts_of_field h) rfl
    exact congrArg (some ·.2) heq

/-! ### Reading names backwards -/

/-- A name is **plain** if it has characters, all of one line. -/
def Plain (field : String) : Prop := field ≠ "" ∧ ∀ c ∈ field.toList, Text.endsLine c = false

instance (field : String) : Decidable (Plain field) := inferInstanceAs (Decidable (_ ∧ _))

/-- What is spelled like a length is split there, if it is the length of a plain name. -/
theorem splitLength?_append (field : String) {digits : List Char} (h : ∀ c ∈ digits, c.isDigit) :
    splitLength? (field ++ ".d" ++ String.ofList digits ++ "_len") =
      if digits ≠ [] ∧ Plain field then some (field, Number.natOfDigits digits) else none := by
  -- The name is read from its end: the mark of lengths, the digits, the mark of dimensions, and the
  -- rest.
  have hend : Text.after? "_len".toList.reverse
      (field ++ ".d" ++ String.ofList digits ++ "_len").toList.reverse =
        some (digits.reverse ++ (".d".toList.reverse ++ field.toList.reverse)) :=
    Text.after?_eq_some.2 (by simp)
  have hdigits : ∀ c ∈ digits.reverse, c.isDigit := fun c hc => h c (List.mem_reverse.1 hc)
  have hstart : ∀ cs : List Char, (".d".toList.reverse ++ cs).takeWhile Char.isDigit = [] ∧
      (".d".toList.reverse ++ cs).dropWhile Char.isDigit = ".d".toList.reverse ++ cs :=
    fun cs => ⟨rfl, rfl⟩
  have hroot : Text.after? ".d".toList.reverse (".d".toList.reverse ++ field.toList.reverse) =
      some field.toList.reverse :=
    Text.after?_eq_some.2 rfl
  rw [splitLength?, hend]
  simp only [List.takeWhile_append_of_pos hdigits, List.dropWhile_append_of_pos hdigits, hstart,
    List.append_nil, List.reverse_reverse, hroot, String.ofList_toList]
  have hrefused : (digits.isEmpty || field.toList.reverse.isEmpty ||
      field.toList.reverse.any Text.endsLine) = false ↔ digits ≠ [] ∧ Plain field := by
    simp [Plain, and_assoc]
  by_cases hplain : digits ≠ [] ∧ Plain field
  · rw [if_pos hplain, hrefused.2 hplain]
    rfl
  · rw [if_neg hplain, if_pos (by rwa [← hrefused, Bool.not_eq_false] at hplain)]

/-- An event **misreads** what is the length of an array except that its numeral is not written as
numbers are. -/
def Misreads (e : Event) (part : String) : Prop :=
  ∃ field shape digits, e.fieldType? field = some (.array shape) ∧ Plain field ∧
    IsLengthName part field digits ∧ (∀ k, digits ≠ Number.digitsOf k) ∧
    1 ≤ Number.natOfDigits digits ∧ Number.natOfDigits digits ≤ shape.sizes.length

/-- An event **overlooks** the lengths of an array whose name is not plain. -/
def Overlooks (e : Event) (part : String) : Prop :=
  ∃ field shape k, e.fieldType? field = some (.array shape) ∧ ¬ Plain field ∧
    part = lengthName field k ∧ 1 ≤ k ∧ k ≤ shape.sizes.length

/-- What an event knows is a part of it, unless it misreads it. -/
theorem mem_parts_of_partType? (h : e.partType? part = some t) :
    (part, t) ∈ e.parts ∨ e.Misreads part := by
  unfold partType? at h
  split at h
  · rename_i hvalid
    obtain rfl := Option.some.inj h
    exact .inl (mem_parts.2 (.inl (by rw [hvalid])))
  · split at h
    · rename_i u hfield
      obtain rfl := Option.some.inj h
      exact .inl (mem_parts_of_field (mem_of_fieldType? hfield))
    · split at h
      · rename_i field k hsplit
        split at h
        · rename_i shape hfield
          split at h
          · rename_i hk
            obtain rfl := Option.some.inj h
            obtain ⟨digits, ⟨rfl, hdigits⟩, rfl⟩ := isLengthName_of_splitLength? hsplit
            by_cases hwritten : ∃ n, digits = Number.digitsOf n
            · obtain ⟨n, rfl⟩ := hwritten
              rw [Number.natOfDigits_digitsOf] at hk ⊢
              exact .inl (lengthName_mem_parts (mem_of_fieldType? hfield) hk.1 hk.2)
            · refine .inr ⟨field, shape, digits, hfield, ?_, ⟨rfl, hdigits⟩,
                not_exists.1 hwritten, hk⟩
              by_contra hplain
              simp [splitLength?_append _ hdigits, hplain] at hsplit
          · cases h
        · cases h
      · cases h

/-- An event knows what is split into an array and one of its dimensions. -/
theorem exists_partType? {shape : ArrayShape} {k : Nat}
    (hfield : e.fieldType? field = some (.array shape))
    (hsplit : splitLength? part = some (field, k)) (hk : 1 ≤ k) (hle : k ≤ shape.sizes.length) :
    ∃ t, e.partType? part = some t := by
  unfold partType?
  split
  · exact ⟨_, rfl⟩
  · cases e.fieldType? part with
    | some u => exact ⟨u, rfl⟩
    | none => exact ⟨shape.lengthType k, by simp [hsplit, hfield, hk, hle]⟩

theorem Misreads.exists_partType? (h : e.Misreads part) : ∃ t, e.partType? part = some t := by
  obtain ⟨field, shape, digits, hfield, hplain, ⟨rfl, hdigits⟩, -, hk, hle⟩ := h
  have hne : digits ≠ [] := by
    rintro rfl
    simp [Number.natOfDigits] at hk
  exact e.exists_partType? hfield
    (by rw [splitLength?_append _ hdigits, if_pos ⟨hne, hplain⟩]) hk hle

/-- An event knows its parts, unless it overlooks them. -/
theorem exists_partType?_of_mem_parts (hparts : (e.parts.map (·.1)).Nodup) (h : (part, t) ∈ e.parts)
    (hseen : ¬ e.Overlooks part) : ∃ t, e.partType? part = some t := by
  rcases mem_parts.1 h with hvalid | ⟨⟨field, u⟩, hfield, hpart⟩
  · obtain ⟨rfl, -⟩ := Prod.mk.inj hvalid
    exact ⟨_, if_pos rfl⟩
  · have hknown := fieldType?_of_mem hparts hfield
    rcases DataType.mem_parts.1 hpart with ⟨rfl, rfl⟩ | ⟨shape, rfl, k, hk, hle, rfl, rfl⟩
    · unfold partType?
      split
      · exact ⟨_, rfl⟩
      · exact ⟨t, by rw [hknown]⟩
    · have hplain : Plain field := by
        by_contra hnot
        exact hseen ⟨field, shape, k, hknown, hnot, rfl, hk, hle⟩
      obtain ⟨hname, hdigits⟩ := isLengthName_lengthName field k
      refine e.exists_partType? hknown (k := k) ?_ hk hle
      rw [hname, splitLength?_append _ hdigits, if_pos ⟨Nat.toDigits_ne_nil, hplain⟩,
        Number.natOfDigits_digitsOf]

theorem Overlooks.mem_parts (h : e.Overlooks part) : ∃ t, (part, t) ∈ e.parts := by
  obtain ⟨field, shape, k, hfield, -, rfl, hk, hle⟩ := h
  exact ⟨_, lengthName_mem_parts (mem_of_fieldType? hfield) hk hle⟩

/-- An event does not know what it overlooks. -/
theorem Overlooks.partType?_eq_none (hparts : (e.parts.map (·.1)).Nodup) (h : e.Overlooks part) :
    e.partType? part = none := by
  obtain ⟨field, shape, k, hfield, hplain, rfl, hk, hle⟩ := h
  have hmem := lengthName_mem_parts (mem_of_fieldType? hfield) hk hle
  obtain ⟨hspelled, hdigits⟩ := isLengthName_lengthName field k
  have hvalid : lengthName field k ≠ "valid" := by
    intro heq
    have htype := congrArg Prod.snd (eq_of_mem_parts hparts hmem (Event.mem_parts.2 (.inl rfl)) heq)
    rw [ArrayShape.lengthType] at htype
    split at htype <;> cases htype
  -- A field of this name would be declared with the same name as the length.
  have hnone : e.fieldType? (lengthName field k) = none := by
    rw [Option.eq_none_iff_forall_ne_some]
    intro t ht
    rw [parts, List.map_cons, List.map_flatMap, List.nodup_cons] at hparts
    have hsame := eq_of_mem_flatMap hparts.2 (mem_of_fieldType? hfield) (mem_of_fieldType? ht)
      (List.mem_map_of_mem (DataType.mem_parts.2 (.inr ⟨shape, rfl, k, hk, hle, rfl, rfl⟩)))
      (List.mem_map.2 ⟨(lengthName field k, t), List.mem_cons_self, rfl⟩)
    have hlength := congrArg String.length (Prod.mk.inj hsame).1
    simp only [lengthName, String.length_append] at hlength
    have : "_len".length = 4 := rfl
    omega
  rw [partType?, if_neg hvalid, hnone]
  simp only [hspelled, splitLength?_append _ hdigits, hplain, and_false, if_false]

end Event

/-! ### Looking up among all events -/

namespace Events

variable {es : Events} {e e' : Event} {x part : String} {t : DataType}

/-- The names and types of all variables of events. -/
def declared (es : Events) : List (String × DataType) :=
  es.all.flatMap fun e => e.parts.map fun p => (e.name ++ "." ++ p.1, p.2)

theorem mem_declared :
    (x, t) ∈ es.declared ↔ ∃ e ∈ es.all, ∃ part, (part, t) ∈ e.parts ∧
      e.name ++ "." ++ part = x := by
  simp [declared]

theorem map_of_mapM {vss : List (List Variable)} (h : es.all.mapM Event.vars = .ok vss) :
    vss.flatten.map (fun v => (v.name, v.type)) = es.declared := by
  rw [List.map_flatten, declared, List.flatMap_def]
  congr 1
  rw [← List.forall₂_eq_eq_eq, List.forall₂_map_left_iff, List.forall₂_map_right_iff]
  exact (Result.mapM_eq_ok.1 h).flip.imp fun vs e hvars => Event.map_of_vars hvars

/-- The names of the parts of an event are distinct, if those of all variables are. -/
theorem nodup_parts (h : (es.declared.map (·.1)).Nodup) (he : e ∈ es.all) :
    (e.parts.map (·.1)).Nodup := by
  rw [declared, List.map_flatMap] at h
  have hnames := (List.nodup_flatMap.1 h).1 e he
  rw [List.map_map] at hnames
  refine List.Nodup.of_map (fun part => e.name ++ "." ++ part) ?_
  rwa [List.map_map]

/-- If all names are distinct, a name is that of one part of one event. -/
theorem eq_of_declared (h : (es.declared.map (·.1)).Nodup) (he : e ∈ es.all) (he' : e' ∈ es.all)
    {p p' : String × DataType} (hp : p ∈ e.parts) (hp' : p' ∈ e'.parts)
    (hname : e.name ++ "." ++ p.1 = e'.name ++ "." ++ p'.1) : e = e' ∧ p = p' := by
  have hevents := h
  rw [declared, List.map_flatMap] at hevents
  obtain rfl : e = e' := by
    refine eq_of_mem_flatMap hevents he he' (b := e.name ++ "." ++ p.1) ?_ ?_
    · simp only [List.map_map, List.mem_map]
      exact ⟨p, hp, rfl⟩
    · simp only [List.map_map, List.mem_map]
      exact ⟨p', hp', hname.symm⟩
  exact ⟨rfl, Event.eq_of_mem_parts (nodup_parts h he) hp hp' ((String.append_right_inj _).1 hname)⟩

/-- What is looked up is known to an event of which the name begins with the name. -/
theorem exists_of_variableType? (h : es.variableType? x = some t) :
    ∃ e ∈ es.all, ∃ part, e.name ++ "." ++ part = x ∧ e.partType? part = some t := by
  obtain ⟨e, he, h⟩ := List.exists_of_findSome?_eq_some h
  obtain ⟨part, hpart, h⟩ := Option.bind_eq_some_iff.1 h
  refine ⟨e, he, String.ofList part, ?_, h⟩
  rw [← String.toList_inj, Text.after?_eq_some.1 hpart, String.toList_append, String.toList_ofList]

/-- What an event knows has a type. -/
theorem exists_variableType? (he : e ∈ es.all) (h : e.partType? part = some t) :
    ∃ u, es.variableType? (e.name ++ "." ++ part) = some u := by
  rw [← Option.isSome_iff_exists, variableType?, List.findSome?_isSome_iff]
  refine ⟨e, he, ?_⟩
  rw [Text.after?_eq_some.2 (String.toList_append ..), Option.bind_some, String.ofList_toList, h]
  rfl

/-- Some event misreads a part of a name. -/
def Misreads (es : Events) (x : String) : Prop :=
  ∃ e ∈ es.all, ∃ part, e.name ++ "." ++ part = x ∧ e.Misreads part

/-- Some event overlooks a part of a name. -/
def Overlooks (es : Events) (x : String) : Prop :=
  ∃ e ∈ es.all, ∃ part, e.name ++ "." ++ part = x ∧ e.Overlooks part

/-- **Looking up finds what is declared.** If no two variables of events have one name, looking up a
name that no event misreads gives a type if and only if a variable of the name has it, unless the
name is overlooked. A name that is misread always has a type. -/
theorem variableType_iff_declared {vss : List (List Variable)}
    (hvars : es.all.mapM Event.vars = .ok vss) (hnodup : (vss.flatten.map (·.name)).Nodup)
    (x : String) :
    (¬ es.Misreads x → ∀ t, es.variableType? x = some t ↔
        (∃ vs ∈ vss, ∃ v ∈ vs, v.name = x ∧ v.type = t) ∧ ¬ es.Overlooks x) ∧
      (es.Misreads x → ∃ t, es.variableType? x = some t) := by
  have hdeclared : ∀ {t}, (∃ vs ∈ vss, ∃ v ∈ vs, v.name = x ∧ v.type = t) ↔
    (x, t) ∈ es.declared := by
    intro t
    rw [← map_of_mapM hvars]
    simp only [List.mem_map, List.mem_flatten, Prod.mk.injEq]
    tauto
  have hnames : (es.declared.map (·.1)).Nodup := by
    rwa [← map_of_mapM hvars, List.map_map]
  refine ⟨fun hread t => ?_, ?_⟩
  · have hsound : ∀ {t}, es.variableType? x = some t → (x, t) ∈ es.declared ∧ ¬ es.Overlooks x := by
      intro t ht
      obtain ⟨e, he, part, rfl, hpart⟩ := exists_of_variableType? ht
      have hmem := (Event.mem_parts_of_partType? hpart).resolve_right
        fun h => hread ⟨e, he, part, rfl, h⟩
      refine ⟨mem_declared.2 ⟨e, he, part, hmem, rfl⟩, ?_⟩
      -- What is overlooked is declared as well, so it would be the same part of the same event.
      rintro ⟨e', he', part', hname, hoverlooks⟩
      obtain ⟨t', hmem'⟩ := hoverlooks.mem_parts
      obtain ⟨rfl, heq⟩ := eq_of_declared hnames he' he hmem' hmem hname
      obtain ⟨rfl, -⟩ := Prod.mk.inj heq
      simp [hoverlooks.partType?_eq_none (nodup_parts hnames he)] at hpart
    rw [hdeclared]
    refine ⟨hsound, ?_⟩
    rintro ⟨hmem, hseen⟩
    obtain ⟨e, he, part, hpart, rfl⟩ := mem_declared.1 hmem
    obtain ⟨u, hu⟩ := Event.exists_partType?_of_mem_parts (nodup_parts hnames he) hpart
      fun h => hseen ⟨e, he, part, rfl, h⟩
    obtain ⟨u', hu'⟩ := exists_variableType? he hu
    have heq := List.inj_on_of_nodup_map hnames (hsound hu').1 hmem rfl
    exact hu'.trans (congrArg (some ·.2) heq)
  · rintro ⟨e, he, part, rfl, hmisreads⟩
    obtain ⟨u, hu⟩ := hmisreads.exists_partType?
    exact exists_variableType? he hu

/-- With an array of one dimension, its length is looked up as declared, but the name with a zero in
front of the dimension has a type too, and no variable. -/
theorem variableType_iff_declared_of_scan : ∃ (es : Events) (vss : List (List Variable)),
    es.all.mapM Event.vars = .ok vss ∧ (vss.flatten.map (·.name)).Nodup ∧
      ¬ es.Misreads "scan.data.d1_len" ∧ es.variableType? "scan.data.d1_len" = some .int ∧
      es.Misreads "scan.data.d01_len" ∧ (∃ t, es.variableType? "scan.data.d01_len" = some t) ∧
      ¬ ∃ vs ∈ vss, ∃ v ∈ vs, v.name = "scan.data.d01_len" := by
  let scan : Event := .declare "scan" [("data", .array ⟨.int, [.whole 4]⟩)]
  let vss : List (List Variable) := ([scan].mapM Event.vars).toOption.getD []
  have hvars : (⟨[scan]⟩ : Events).all.mapM Event.vars = .ok vss := rfl
  have hnodup : (vss.flatten.map (·.name)).Nodup := by decide +kernel
  have hfields : ∀ {field shape}, scan.fieldType? field = some (.array shape) → field = "data" := by
    intro field shape hfield
    have hmem := Event.mem_of_fieldType? hfield
    exact (Prod.mk.inj (List.mem_singleton.1 hmem)).1
  have hplain : Event.Plain "data" := by
    simp [Event.Plain, Text.endsLine]
  have hread : ¬ (⟨[scan]⟩ : Events).Misreads "scan.data.d1_len" := by
    rintro ⟨e, he, part, hname, field, shape, digits, hfield, -, ⟨rfl, -⟩, hwritten, -⟩
    obtain rfl := List.mem_singleton.1 he
    obtain rfl := hfields hfield
    have hdigits : digits = ['1'] := by
      have hchars : "scan.data.d".toList ++ (digits ++ "_len".toList) =
          "scan.data.d".toList ++ (['1'] ++ "_len".toList) := by
        simpa [scan, Event.declare] using congrArg String.toList hname
      exact List.append_cancel_right (List.append_cancel_left hchars)
    exact hwritten 1 hdigits
  have hseen : ¬ (⟨[scan]⟩ : Events).Overlooks "scan.data.d1_len" := by
    rintro ⟨e, he, part, -, field, shape, k, hfield, hnot, -⟩
    obtain rfl := List.mem_singleton.1 he
    obtain rfl := hfields hfield
    exact hnot hplain
  -- no number is written with a zero in front
  have hwritten : ∀ k, ['0', '1'] ≠ Number.digitsOf k := by
    intro k heq
    have hk := congrArg Number.natOfDigits heq
    rw [Number.natOfDigits_digitsOf] at hk
    exact absurd (hk ▸ heq) (by decide)
  have hspelled : IsLengthName "data.d01_len" "data" ['0', '1'] :=
    ⟨rfl, by simp⟩
  have hmisread : (⟨[scan]⟩ : Events).Misreads "scan.data.d01_len" :=
    ⟨scan, List.mem_singleton_self _, "data.d01_len", rfl, "data", _, ['0', '1'], rfl, hplain,
      hspelled, hwritten, by decide, by decide⟩
  obtain ⟨hdeclared, -⟩ := variableType_iff_declared hvars hnodup "scan.data.d1_len"
  obtain ⟨-, hfound⟩ := variableType_iff_declared hvars hnodup "scan.data.d01_len"
  refine ⟨⟨[scan]⟩, vss, hvars, hnodup, hread, (hdeclared hread .int).2 ⟨?_, hseen⟩, hmisread,
    hfound hmisread, ?_⟩
  · decide +kernel
  · decide +kernel

end Events

end ChartNet
