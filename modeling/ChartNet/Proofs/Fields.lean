import ChartNet.Proofs.Build
import ChartNet.Proofs.Number.Numerals
import ChartNet.Proofs.Registry

/-!
# Fields of events

An event **holds** variables: whether it is valid, and one for each of its fields, with the length
variables of arrays. Its name followed by a dot and more can mean any of them to a chart, also if a
length variable is written with another numeral; all that it can mean is what the event **offers**.
What is declared for an event is given by its **parts** and their types (`Event.map_of_vars`).

Registered events only **grow** while charts are compiled: a field stays, with as many dimensions as
it has. So an event offers for good what it once offered.
-/

namespace ChartNet

/-- In a list of blocks without repetitions, no item is in two blocks. -/
theorem eq_of_mem_flatMap {α β : Type} {l : List α} {f : α → List β} (h : (l.flatMap f).Nodup)
    {a a' : α} {b : β} (ha : a ∈ l) (ha' : a' ∈ l) (hb : b ∈ f a) (hb' : b ∈ f a') : a = a' := by
  have : Std.Symm (Function.onFun List.Disjoint f) := ⟨fun _ _ hdisjoint => hdisjoint.symm⟩
  by_contra hne
  exact (List.nodup_flatMap.1 h).2.forall ha ha' hne hb hb'

/-! ### Variables with their lengths -/

/-- How many **dimensions** a type has; only arrays have any. -/
def DataType.dimensions : DataType → Nat
  | .array shape => shape.sizes.length
  | _ => 0

@[simp] theorem DataType.dimensions_scalar (s : Scalar) : (scalar s).dimensions = 0 := rfl

theorem DataType.dimensions_of_not_isArray {t : DataType} (h : t.isArray = false) :
    t.dimensions = 0 := by
  cases t with
  | array shape => cases h
  | _ => rfl

/-- The names of a variable of a type and of its length variables. -/
def DataType.names (t : DataType) (x : String) : List String :=
  x :: (List.range t.dimensions).map fun i => lengthName x (i + 1)

theorem DataType.mem_names {t : DataType} {x y : String} :
    y ∈ t.names x ↔ y = x ∨ ∃ i < t.dimensions, y = lengthName x (i + 1) := by
  simp [names, eq_comm]

/-- Names depend on the number of dimensions only. -/
theorem DataType.names_congr {t t' : DataType} (h : t'.dimensions = t.dimensions) (x : String) :
    t'.names x = t.names x := by
  rw [names, names, h]

theorem ArrayShape.dimensions_lengthType (shape : ArrayShape) (k : Nat) :
    (shape.lengthType k).dimensions = if k = 1 then 0 else min (k - 1) shape.sizes.length := by
  unfold lengthType
  split <;> simp [DataType.dimensions, DataType.int]

/-- A new variable has the name and the type that it is given. -/
theorem Variable.of_make {name : String} {t : DataType} {init : Option Expr} {transient : Bool}
    {v : Variable} (h : Variable.make name t init transient = .ok v) :
    v.name = name ∧ v.type = t := by
  unfold make at h
  split at h
  · cases h
    exact ⟨rfl, rfl⟩
  · cases h

/-- The length variables of an array have the names and types of lengths. -/
theorem map_lengthVariables {name : String} {shape : ArrayShape} {lengths : List Element}
    {transient : Bool} {vs : List Variable}
    (h : lengthVariables name shape lengths transient = .ok vs) :
    vs.map (fun v => (v.name, v.type)) = (List.range shape.sizes.length).map fun i =>
      (lengthName name (i + 1), shape.lengthType (i + 1)) := by
  rw [← List.forall₂_eq_eq_eq, List.forall₂_map_left_iff, List.forall₂_map_right_iff]
  refine (Result.mapM_eq_ok.1 h).flip.imp fun v i hv => ?_
  obtain ⟨hname, htype⟩ := Variable.of_make hv
  rw [hname, htype]

theorem map_name_lengthVariables {name : String} {shape : ArrayShape} {lengths : List Element}
    {transient : Bool} {vs : List Variable}
    (h : lengthVariables name shape lengths transient = .ok vs) :
    vs.map (·.name) = (List.range shape.sizes.length).map fun i => lengthName name (i + 1) := by
  have hnames := congrArg (List.map Prod.fst) (map_lengthVariables h)
  rwa [List.map_map, List.map_map] at hnames

theorem type_of_lengthVariables {name : String} {shape : ArrayShape} {lengths : List Element}
    {transient : Bool} {vs : List Variable}
    (h : lengthVariables name shape lengths transient = .ok vs) :
    ∀ v ∈ vs, ∃ i, v.type = shape.lengthType i := by
  intro v hv
  have hmem := List.mem_map_of_mem (f := fun v => (v.name, v.type)) hv
  rw [map_lengthVariables h] at hmem
  obtain ⟨i, -, hi⟩ := List.mem_map.1 hmem
  exact ⟨i + 1, (Prod.mk.inj hi).2.symm⟩

/-- The names and types of a variable of a type and of its length variables. -/
def DataType.parts (t : DataType) (name : String) : List (String × DataType) :=
  (name, t) ::
    match t with
    | .array shape => (List.range shape.sizes.length).map fun i =>
        (lengthName name (i + 1), shape.lengthType (i + 1))
    | _ => []

theorem DataType.mem_parts {t u : DataType} {name part : String} :
    (part, u) ∈ t.parts name ↔ part = name ∧ u = t ∨ ∃ shape, t = .array shape ∧
      ∃ k, 1 ≤ k ∧ k ≤ shape.sizes.length ∧ part = lengthName name k ∧ u = shape.lengthType k := by
  cases t with
  | scalar s => simp [parts]
  | bounded base lower upper => simp [parts]
  | array shape =>
    simp only [parts, List.mem_cons, Prod.mk.injEq, List.mem_map, List.mem_range, array.injEq,
      exists_eq_left']
    refine or_congr_right ⟨?_, ?_⟩
    · rintro ⟨i, hi, rfl, rfl⟩
      exact ⟨i + 1, Nat.le_add_left 1 i, hi, rfl, rfl⟩
    · rintro ⟨k, hk, hle, rfl, rfl⟩
      exact ⟨k - 1, by omega, by rw [Nat.sub_add_cancel hk], by rw [Nat.sub_add_cancel hk]⟩

theorem lengthName_append (a b : String) (k : Nat) :
    lengthName (a ++ b) k = a ++ lengthName b k := by
  simp only [lengthName, String.append_assoc]

/-- What is put in front of a name is in front of the names of its lengths. -/
theorem DataType.names_append (t : DataType) (a name : String) :
    t.names (a ++ name) = (t.parts name).map fun p => a ++ p.1 := by
  cases t <;> simp [names, parts, dimensions, lengthName_append]

/-- What receives values of two types has as many dimensions as before. -/
theorem DataType.dimensions_unify {s t u : DataType} (h : s.unify t = some u) :
    u.dimensions = s.dimensions := by
  cases s <;> cases t <;> simp only [unify] at h <;> (try split at h) <;> (try split at h) <;>
    cases h <;> rfl

/-! ### Names of lengths -/

theorem Text.after?_eq_some {start cs rest : List Char} :
    after? start cs = some rest ↔ cs = start ++ rest := by
  unfold after?
  constructor
  · intro h
    split at h
    · rename_i hprefix
      obtain ⟨rest', rfl⟩ := List.isPrefixOf_iff_prefix.1 hprefix
      simpa using h
    · cases h
  · rintro rfl
    simp

/-- A name is **spelled** like the length variable of another, with some digits for the dimension.
-/
def IsLengthName (x y : String) (digits : List Char) : Prop :=
  x = y ++ ".d" ++ String.ofList digits ++ "_len" ∧ ∀ c ∈ digits, c.isDigit

theorem isLengthName_lengthName (x : String) (k : Nat) :
    IsLengthName (lengthName x k) x (Number.digitsOf k) :=
  ⟨rfl, fun _ hc => Nat.isDigit_of_mem_toDigits (by decide) le_rfl hc⟩

/-- A name is **irregular** if it is spelled like a length variable, but either of something that is
itself spelled like one, or with a dimension that is not written as numbers are. -/
def Irregular (x : String) : Prop :=
  ∃ y digits, IsLengthName x y digits ∧
    ((∀ k, digits ≠ Number.digitsOf k) ∨ ∃ z digits', IsLengthName y z digits')

theorem irregular_lengthName {x y : String} {digits : List Char} (h : IsLengthName x y digits)
    (k : Nat) : Irregular (lengthName x k) :=
  ⟨x, _, isLengthName_lengthName x k, .inr ⟨y, digits, h⟩⟩

/-- A part of an event that is split is spelled like a length variable of the field. -/
theorem Event.isLengthName_of_splitLength? {part field : String} {k : Nat}
    (h : splitLength? part = some (field, k)) :
    ∃ digits, IsLengthName part field digits ∧ Number.natOfDigits digits = k := by
  unfold splitLength? at h
  split at h
  · cases h
  · rename_i cs hend
    simp only at h
    split at h
    · cases h
    · rename_i root hstart
      split at h
      · cases h
      · cases h
        refine ⟨_, ⟨?_, fun c hc => ?_⟩, rfl⟩
        · have hcs : cs = cs.takeWhile Char.isDigit ++ (".d".toList.reverse ++ root) := by
            rw [← Text.after?_eq_some.1 hstart, List.takeWhile_append_dropWhile]
          have hpart := congrArg List.reverse (Text.after?_eq_some.1 hend)
          rw [hcs] at hpart
          rw [← String.toList_inj]
          simpa using hpart
        · exact List.mem_takeWhile_imp (List.mem_reverse.1 hc)

/-! ### What an event offers -/

namespace Event

/-- A name is that of a **variable** of an event. -/
def Holds (e : Event) (x : String) : Prop :=
  x = e.name ++ ".valid" ∨
    ∃ field t, e.fieldType? field = some t ∧ x ∈ t.names (e.name ++ "." ++ field)

/-- A name is what a chart can mean by a part of an event, or a length variable of it. -/
def Offers (e : Event) (x : String) : Prop :=
  e.Holds x ∨ ∃ field shape part k, e.fieldType? field = some (.array shape) ∧
    splitLength? part = some (field, k) ∧ 1 ≤ k ∧ k ≤ shape.sizes.length ∧
    x ∈ (shape.lengthType k).names (e.name ++ "." ++ part)

variable {e e' e'' : Event} {x : String}

/-- The type that a part of an event has for a chart is that of something it offers. -/
theorem offers_of_partType? {part : String} {t : DataType} (h : e.partType? part = some t)
    (hx : x ∈ t.names (e.name ++ "." ++ part)) : e.Offers x := by
  unfold partType? at h
  split at h
  · rename_i hvalid
    obtain rfl := Option.some.inj h
    have hname : e.name ++ "." ++ "valid" = e.name ++ ".valid" := by
      rw [String.append_assoc]
      rfl
    have hx : x = e.name ++ "." ++ part := by
      simpa [DataType.mem_names, DataType.dimensions, DataType.bool] using hx
    exact .inl (.inl (by rw [hx, hvalid, hname]))
  · split at h
    · rename_i type htype
      obtain rfl := Option.some.inj h
      exact .inl (.inr ⟨part, _, htype, hx⟩)
    · split at h
      · rename_i field k hsplit
        split at h
        · rename_i shape hfield
          split at h
          · rename_i hk
            obtain rfl := Option.some.inj h
            exact .inr ⟨field, shape, part, k, hfield, hsplit, hk.1, hk.2, hx⟩
          · cases h
        · cases h
      · cases h

/-- Apart from irregular names an event offers the names of its variables. -/
theorem Offers.holds (h : e.Offers x) (hregular : ¬ Irregular x) : e.Holds x := by
  rcases h with hholds | ⟨field, shape, part, k, hfield, hsplit, hk, hk', hx⟩
  · exact hholds
  · obtain ⟨digits, ⟨rfl, hdigits⟩, rfl⟩ := isLengthName_of_splitLength? hsplit
    have hpart : IsLengthName (e.name ++ "." ++ (field ++ ".d" ++ String.ofList digits ++ "_len"))
        (e.name ++ "." ++ field) digits := ⟨by simp only [String.append_assoc], hdigits⟩
    rcases DataType.mem_names.1 hx with rfl | ⟨i, -, rfl⟩
    · by_cases hwritten : ∃ n, digits = Number.digitsOf n
      · obtain ⟨n, rfl⟩ := hwritten
        rw [Number.natOfDigits_digitsOf] at hk hk'
        refine .inr ⟨field, _, hfield, DataType.mem_names.2 (.inr ⟨n - 1, ?_, ?_⟩)⟩
        · exact lt_of_lt_of_le (Nat.sub_lt hk Nat.one_pos) hk'
        · rw [Nat.sub_add_cancel hk]
          exact hpart.1
      · exact absurd ⟨_, digits, hpart, .inl (not_exists.1 hwritten)⟩ hregular
    · exact absurd (irregular_lengthName hpart _) hregular

/-! ### What an event declares -/

/-- The **parts** of an event: what its variables are called after its name, with their types. -/
def parts (e : Event) : List (String × DataType) :=
  ("valid", .bool) :: e.fields.flatMap fun f => f.2.parts f.1

theorem mem_parts {p : String × DataType} :
    p ∈ e.parts ↔ p = ("valid", .bool) ∨ ∃ f ∈ e.fields, p ∈ f.2.parts f.1 := by
  simp [parts]

/-- The variables of an event are called after it and its parts. -/
theorem map_of_vars {vs : List Variable} (h : e.vars = .ok vs) :
    vs.map (fun v => (v.name, v.type)) = e.parts.map fun p => (e.name ++ "." ++ p.1, p.2) := by
  simp only [vars, Result.bind_eq_ok] at h
  obtain ⟨valid, hvalid, fields, hfields, heq⟩ := h
  cases heq
  obtain ⟨hname, htype⟩ := Variable.of_make hvalid
  have hparts : fields.map (List.map fun v => (v.name, v.type)) =
      e.fields.map fun f => (f.2.parts f.1).map fun p => (e.name ++ "." ++ p.1, p.2) := by
    rw [← List.forall₂_eq_eq_eq, List.forall₂_map_left_iff, List.forall₂_map_right_iff]
    refine (Result.mapM_eq_ok.1 hfields).flip.imp fun part f hpart => ?_
    obtain ⟨v, hv, hpart⟩ := Result.bind_eq_ok.1 hpart
    obtain ⟨hname, htype⟩ := Variable.of_make hv
    split at hpart
    · rename_i shape harray
      obtain ⟨lengths, hlengths, heq⟩ := Result.bind_eq_ok.1 hpart
      cases heq
      simp [DataType.parts, harray, hname, htype, map_lengthVariables hlengths, lengthName_append]
    · rename_i hscalar
      cases hpart
      have hparts : f.2.parts f.1 = [f] := by
        rw [DataType.parts]
        exact hscalar
      simp [hparts, hname, htype]
  rw [List.map_cons, List.map_flatten, hparts, hname, htype, parts, List.map_cons, List.map_flatMap,
    List.flatMap_def, String.append_assoc]
  rfl

theorem map_name_of_vars {vs : List Variable} (h : e.vars = .ok vs) :
    vs.map (·.name) = e.parts.map fun p => e.name ++ "." ++ p.1 := by
  have hnames := congrArg (List.map Prod.fst) (map_of_vars h)
  rwa [List.map_map, List.map_map] at hnames

/-- A field is one of the parts. -/
theorem mem_parts_of_field (h : (field, t) ∈ e.fields) : (field, t) ∈ e.parts :=
  mem_parts.2 (.inr ⟨_, h, List.mem_cons_self⟩)

/-- The lengths of an array are parts. -/
theorem lengthName_mem_parts {shape : ArrayShape} {k : Nat} (h : (field, .array shape) ∈ e.fields)
    (hk : 1 ≤ k) (hle : k ≤ shape.sizes.length) :
    (lengthName field k, shape.lengthType k) ∈ e.parts :=
  mem_parts.2 (.inr ⟨_, h, DataType.mem_parts.2 (.inr ⟨shape, rfl, k, hk, hle, rfl, rfl⟩)⟩)

theorem mem_of_fieldType? (h : e.fieldType? field = some t) : (field, t) ∈ e.fields := by
  obtain ⟨f, hf, rfl⟩ := Option.map_eq_some_iff.1 h
  obtain rfl : f.1 = field := by simpa using List.find?_some hf
  exact List.mem_of_find?_eq_some hf

/-- All variables of an event are **declared**. -/
theorem mem_of_vars {vs : List Variable} (h : e.vars = .ok vs) (hx : e.Holds x) :
    x ∈ vs.map (·.name) := by
  rw [map_name_of_vars h]
  rcases hx with rfl | ⟨field, t, hfield, hx⟩
  · refine List.mem_map.2 ⟨_, mem_parts.2 (.inl rfl), ?_⟩
    rw [String.append_assoc]
    rfl
  · rw [DataType.names_append] at hx
    obtain ⟨p, hp, rfl⟩ := List.mem_map.1 hx
    exact List.mem_map_of_mem (mem_parts.2 (.inr ⟨_, mem_of_fieldType? hfield, hp⟩))

/-- A field of an event has a variable of its **type**. -/
theorem exists_of_vars {vs : List Variable} (h : e.vars = .ok vs) {field : String} {t : DataType}
    (hfield : e.fieldType? field = some t) :
    ∃ v ∈ vs, v.name = e.name ++ "." ++ field ∧ v.type = t := by
  have hmem := List.mem_map_of_mem (f := fun p => (e.name ++ "." ++ p.1, p.2))
    (mem_parts_of_field (mem_of_fieldType? hfield))
  rw [← map_of_vars h] at hmem
  obtain ⟨v, hv, heq⟩ := List.mem_map.1 hmem
  exact ⟨v, hv, Prod.mk.inj heq⟩

/-! ### Growing -/

/-- An event **grows**: its fields stay, with as many dimensions as before. -/
structure Grows (e e' : Event) : Prop where
  name : e'.name = e.name
  fields : ∀ {field t}, e.fieldType? field = some t →
    ∃ t', e'.fieldType? field = some t' ∧ t'.dimensions = t.dimensions

@[refl] theorem Grows.refl (e : Event) : e.Grows e :=
  ⟨rfl, fun h => ⟨_, h, rfl⟩⟩

theorem Grows.trans (h : e.Grows e') (h' : e'.Grows e'') : e.Grows e'' := by
  refine ⟨h'.name.trans h.name, fun hfield => ?_⟩
  obtain ⟨t', hfield', hdimensions⟩ := h.fields hfield
  obtain ⟨t'', hfield'', hdimensions'⟩ := h'.fields hfield'
  exact ⟨t'', hfield'', hdimensions'.trans hdimensions⟩

/-- What an event offers, it offers when it has grown. -/
theorem Grows.offers (h : e.Grows e') (hx : e.Offers x) : e'.Offers x := by
  rcases hx with (hx | ⟨field, t, hfield, hx⟩) |
    ⟨field, shape, part, k, hfield, hsplit, hk, hk', hx⟩
  · exact .inl (.inl (h.name ▸ hx))
  · obtain ⟨t', hfield', hdimensions⟩ := h.fields hfield
    exact .inl (.inr ⟨field, t', hfield', by rwa [h.name, DataType.names_congr hdimensions]⟩)
  · obtain ⟨t', hfield', hdimensions⟩ := h.fields hfield
    cases t' with
    | array shape' =>
      have hlength : shape'.sizes.length = shape.sizes.length := hdimensions
      refine .inr ⟨field, shape', part, k, hfield', hsplit, hk, hlength ▸ hk', ?_⟩
      rwa [h.name, DataType.names_congr]
      rw [ArrayShape.dimensions_lengthType, ArrayShape.dimensions_lengthType, hlength]
    | _ => simp [DataType.dimensions] at hdimensions; omega

/-- A field that a value is sent in has a type afterwards, and other fields stay. -/
theorem grows_recordField {field : String} {type : DataType}
    (h : e.recordField field type = .ok e') :
    e.Grows e' ∧ ∃ t, e'.fieldType? field = some t := by
  have hput : ∀ t : DataType, (∀ known, e.fieldType? field = some known →
      t.dimensions = known.dimensions) →
      e.Grows { e with fields := assocPut e.fields field t } ∧
        ∃ t', ({ e with fields := assocPut e.fields field t } : Event).fieldType? field =
          some t' := by
    intro t hdimensions
    refine ⟨⟨rfl, fun {other s} hother => ?_⟩, t, assocGet?_assocPut_self _ _ _⟩
    by_cases heq : other = field
    · subst heq
      exact ⟨t, assocGet?_assocPut_self _ _ _, hdimensions s hother⟩
    · exact ⟨s, (assocGet?_assocPut_of_ne _ _ heq).trans hother, rfl⟩
  obtain ⟨hnone, -, rfl⟩ | ⟨known, merged, hknown, hmerged, ⟨-, -, rfl⟩ | ⟨-, rfl⟩⟩ :=
    recordField_eq_ok.1 h
  · exact hput type (by simp [hnone])
  · exact ⟨.refl _, known, hknown⟩
  · refine hput merged fun known' hknown' => ?_
    rw [← Option.some.inj (hknown.symm.trans hknown')]
    exact DataType.dimensions_unify hmerged

end Event

namespace Events

/-! ### Registries that grow -/

/-- Events **grow**: they stay distinct, and each of them stays and grows. -/
structure Grows (es es' : Events) : Prop where
  nodup : es.names.Nodup → es'.names.Nodup
  events : es.names.Nodup → ∀ e ∈ es.all, ∃ e' ∈ es'.all, e.Grows e'

variable {es es' es'' : Events}

@[refl] theorem Grows.refl (es : Events) : es.Grows es :=
  ⟨id, fun _ e he => ⟨e, he, .refl e⟩⟩

theorem Grows.trans (h : es.Grows es') (h' : es'.Grows es'') : es.Grows es'' := by
  refine ⟨fun hn => h'.nodup (h.nodup hn), fun hn e he => ?_⟩
  obtain ⟨e', he', hgrows⟩ := h.events hn e he
  obtain ⟨e'', he'', hgrows'⟩ := h'.events (h.nodup hn) e' he'
  exact ⟨e'', he'', hgrows.trans hgrows'⟩

/-- The event of a name grows if it is changed to one that has grown. -/
theorem grows_modify {name : String} {f : Event → Event}
    (hname : ∀ e, e.name = name → (f e).name = name)
    (hf : ∀ e, es.get? name = some e → e.Grows (f e)) : es.Grows (es.modify name f) := by
  refine ⟨fun hn => by rwa [names_modify es name hname], fun hn e he => ?_⟩
  refine ⟨_, List.mem_map_of_mem he, ?_⟩
  split
  · rename_i heq
    exact hf e (by simpa [beq_iff_eq.1 heq] using get?_of_mem hn he)
  · exact .refl e

theorem grows_ensure (es : Events) (name : String) : es.Grows (es.ensure name) := by
  refine ⟨(extends_ensure name es name).nodup, fun _ e he => ⟨e, ?_, .refl e⟩⟩
  unfold ensure
  split
  · exact he
  · exact List.mem_append_left _ he

/-- There is an event of a name that is ensured. -/
theorem exists_get?_ensure (es : Events) (name : String) :
    ∃ e, (es.ensure name).get? name = some e := by
  rw [get?_ensure]
  cases es.get? name <;> simp

theorem grows_addSender (es : Events) (name automaton action : String) :
    es.Grows (es.addSender name automaton action) :=
  (grows_ensure es name).trans (grows_modify (fun _ h => h) fun _ _ => ⟨rfl, fun h => ⟨_, h, rfl⟩⟩)

theorem grows_addReceiver (es : Events) (name automaton action : String) :
    es.Grows (es.addReceiver name automaton action) :=
  (grows_ensure es name).trans (grows_modify (fun _ h => h) fun _ _ => ⟨rfl, fun h => ⟨_, h, rfl⟩⟩)

/-- What a chart can mean by a name is offered by some event. -/
theorem exists_offers_of_variableType? {x y : String} {t : DataType}
    (h : es.variableType? x = some t) (hy : y ∈ t.names x) : ∃ e ∈ es.all, e.Offers y := by
  obtain ⟨e, he, htype⟩ := List.exists_of_findSome?_eq_some h
  obtain ⟨part, hafter, hpart⟩ := Option.bind_eq_some_iff.1 htype
  refine ⟨e, he, Event.offers_of_partType? hpart ?_⟩
  have hname : e.name ++ "." ++ String.ofList part = x := by
    rw [← String.toList_inj, Text.after?_eq_some.1 hafter]
    simp
  rwa [hname]

end Events

end ChartNet
