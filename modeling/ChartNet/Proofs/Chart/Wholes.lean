import ChartNet.Proofs.Body.Notes
import ChartNet.Proofs.Chart.Targets
import ChartNet.Proofs.Source.Fitting

/-!
# Whole arrays

A whole array variable **receives** a literal that fits its shape, or another array variable of as
many dimensions, and its length variables receive the lengths of the literal or the length variables
of the other one (`ArrayShape.Receives`). This is so wherever an array is stored: in a step, in a
send, and where a variable starts (`arrays_fit`). A variable that is no array can be sent no array
and starts from none.

A step is less careful: it stores any value in a variable that is no array, and in an element. Only
of a literal is it looked at whether the array has room for it, and whether it has reals; of an
array that is copied only a send looks at the second.
-/

namespace ChartNet

/-! ### Receiving -/

/-- An expression **is an array** for a lookup: an array value, or a name with an array type. -/
def Expr.IsArray (types : TypeLookup) : Expr → Prop
  | .array _ => True
  | .ident x => ∃ shape, types x = some (.array shape)
  | _ => False

/-- An expression whose type is no array is none. -/
theorem Expr.not_isArray_of_infer {types : TypeLookup} {e : Expr} {found : Option DataType}
    (h : e.infer types = .ok found) (hscalar : ∀ t ∈ found, t.isArray = false) :
    ¬ e.IsArray types := by
  cases e with
  | ident x =>
    cases h
    rintro ⟨shape, hshape⟩
    exact absurd (hscalar _ hshape) (by simp [DataType.isArray])
  | array v =>
    cases h
    exact absurd (hscalar _ rfl) (by simp [DataType.isArray])
  | _ => exact id

/-- An element is no array. -/
theorem AccessChain.not_isArray {c : AccessChain} (hindexes : c.indexes ≠ []) {types : TypeLookup} :
    ¬ c.toExpr.IsArray types := by
  intro harray
  have hchain := c.chain?_toExpr
  cases hexpr : c.toExpr with
  | ident x =>
    rw [hexpr] at hchain
    cases hchain
    exact hindexes rfl
  | array v =>
    rw [hexpr] at hchain
    cases hchain
  | _ =>
    rw [hexpr] at harray
    exact harray

/-- A text that is no literal means an array only if it is a name. -/
theorem Source.not_isArray_of_read {text : String} {source : Source} {e : Expr} {types : TypeLookup}
    (hread : Source.read text = .ok source) (hplain : source.meaning = .plain e)
    (hname : ∀ x, e ≠ .ident x) : ¬ e.IsArray types := by
  have hwritten : e.Written .value := by
    simpa [hplain, Meaning.Resolved] using Source.resolved_of_read hread
  cases e with
  | ident x => exact absurd rfl (hname x)
  | array v =>
    cases hwritten with
    | call hf happly => exact absurd happly (Expr.apply?_ne_array _ _ _)
  | _ => exact id

/-- The expression of a text where the data of an event can be read is the one that the text is,
with these data renamed. -/
theorem Source.exists_of_parseFor {event : Option String} {text : String} {e : Expr}
    (h : parseFor event text = .ok e) :
    ∃ source, read text = .ok source ∧ e = source.expr.withEvent event := by
  obtain ⟨source, hread, h⟩ := Result.bind_eq_ok.1 h
  refine ⟨source, hread, ?_⟩
  cases hmeaning : source.meaning with
  | plain e' =>
    rw [hmeaning] at h
    cases h
    rw [expr, hmeaning]
  | literal form v =>
    rw [hmeaning] at h
    cases form with
    | string => cases h
    | list =>
      cases h
      rw [expr, hmeaning]

/-- An array variable of a shape **receives** a value from a source, and its length variables
receive others: from a literal that fits the shape, or from another array variable of as many
dimensions. -/
inductive ArrayShape.Receives (scope : Scope) (shape : ArrayShape) (source : Source) :
    Expr → List Expr → Prop
  | literal {form : LiteralForm} {value stored : ArrayValue} {lengths : List Element}
      (written : source.meaning = .literal form value) (fits : shape.Fits value stored lengths) :
      Receives scope shape source (.array stored) (lengths.map Element.toExpr)
  | copy {name : String} {given : ArrayShape}
      (named : source.expr.withEvent scope.event = .ident name)
      (typed : scope.types name = some (.array given))
      (dimensions : given.sizes.length = shape.sizes.length) :
      Receives scope shape source (.ident name)
        ((List.range shape.sizes.length).map fun i => .ident (lengthName name (i + 1)))

/-- A variable of a type **receives** a value and its length variables others: an array variable as
its shape says, and any other a value that is no array. -/
def DataType.Receives (scope : Scope) (source : Source) (value : Expr) (lengths : List Expr) :
    DataType → Prop
  | .array shape => shape.Receives scope source value lengths
  | _ => value = source.expr.withEvent scope.event ∧ ¬ value.IsArray scope.types ∧ lengths = []

theorem DataType.receives_iff_of_scalar {type : DataType} (htype : type.isArray = false)
    {scope : Scope} {source : Source} {value : Expr} {lengths : List Expr} :
    type.Receives scope source value lengths ↔
      value = source.expr.withEvent scope.event ∧ ¬ value.IsArray scope.types ∧ lengths = [] := by
  cases type with
  | array shape => cases htype
  | _ => rfl

/-! ### Steps -/

namespace Scope

variable {scope : Scope} {as : List Assignment} {r : Rank}

/-- A whole array **receives what it is assigned**. -/
theorem receives_of_assignArray {text target : String} {shape : ArrayShape} {source : Source}
    (hread : Source.read text = .ok source)
    (h : scope.assignArray target shape source r = .ok as) :
    ∃ value lengths, shape.Receives scope source value lengths ∧
      as = storing target value lengths r r.next := by
  rcases assignArray_cases h with ⟨form, value, fitted, lengths, stored, hliteral, hfitted,
    hlengths, hstored, rfl⟩ | ⟨name, given, hnamed, htyped, hdimensions, rfl⟩
  · exact ⟨_, _,
      .literal hliteral (Source.fits_of_fit hread hliteral hstored hfitted hlengths), rfl⟩
  · exact ⟨_, _, .copy hnamed htyped hdimensions, rfl⟩

/-- **A step** whose target is a whole array stores what the array receives. Any other step stores
the expression of its text as it is, and no array in a length variable. -/
theorem receives_of_assign {location text : String} (h : scope.assign location text r = .ok as) :
    ∃ target, Source.parseFor scope.event location = .ok target ∧
      ((∃ x shape source value lengths, target = .ident x ∧ scope.types x = some (.array shape) ∧
        Source.read text = .ok source ∧ shape.Receives scope source value lengths ∧
        as = storing x value lengths r r.next) ∨
      ¬ target.IsArray scope.types ∧ ∃ value widened, Source.parseFor scope.event text = .ok value ∧
        as = { ref := target, value, index := r } :: widened ∧
        ∀ a ∈ widened, ¬ a.value.IsArray scope.types) := by
  cases assigns_of_assign h with
  | @scalar x type value htarget htype hscalar hvalue =>
    refine ⟨_, htarget, .inr ⟨?_, value, [], hvalue, rfl, List.forall_mem_nil _⟩⟩
    rintro ⟨shape, hshape⟩
    rw [Option.some.inj (htype.symm.trans hshape)] at hscalar
    cases hscalar
  | whole htarget htype hread harray =>
    obtain ⟨value, lengths, hreceives, rfl⟩ := receives_of_assignArray hread harray
    exact ⟨_, htarget, .inl ⟨_, _, _, value, lengths, rfl, htype, hread, hreceives, rfl⟩⟩
  | @element c _ value htarget hindexes _ _ hvalue =>
    refine ⟨_, htarget, .inr ⟨c.not_isArray hindexes, value, _, hvalue, rfl, fun a ha => ?_⟩⟩
    obtain ⟨i, hi, rfl⟩ := List.mem_mapIdx.1 ha
    exact id

end Scope

/-! ### Sends -/

namespace BodyScope

variable {s : BodyScope} {es es' : Events} {source : Source} {given type : DataType}

/-- A field that admits the type that is recorded for a plain value admits the type of the value,
and so that of a name that is the value. -/
theorem admits_of_payloadType {e value : Expr} (hsource : source.meaning = .plain e)
    (hvalue : e.withEvent s.event = value) (h : s.payloadType es source = .ok given)
    (hadmits : type.Admits given) :
    (∃ t, value.infer (s.scope es).types = .ok (some t) ∧ type.Admits t) ∧
      ∀ x t, value = .ident x → (s.scope es).types x = some t → type.Admits t := by
  obtain ⟨t, ht, hform, hbase⟩ := payloadType_of_plain hsource h
  rw [hvalue] at ht
  refine ⟨⟨t, ht, hadmits.congr hform hbase⟩, fun x t' hx htyped => ?_⟩
  rw [hx, Expr.infer, Except.ok.injEq, htyped] at ht
  exact Option.some.inj ht ▸ hadmits.congr hform hbase

/-- A literal is sent as an array. -/
theorem isArray_of_payloadType {form : LiteralForm} {value : ArrayValue}
    (hsource : source.meaning = .literal form value) (h : s.payloadType es source = .ok given) :
    given.isArray = true := by
  simp only [payloadType, hsource, Except.ok.injEq] at h
  rw [← h]
  rfl

/-- An array field receives what it would receive **before its type was recorded**. -/
theorem receives_of_payloadType {shape : ArrayShape} {value : Expr} {lengths : List Expr}
    (hreceives : shape.Receives (s.scope es') source value lengths)
    (h : s.payloadType es source = .ok given) (hadmits : (DataType.array shape).Admits given) :
    shape.Receives (s.scope es) source value lengths ∧ ∀ x t, value = .ident x →
      (s.scope es).types x = some t → (DataType.array shape).Admits t := by
  cases hreceives with
  | literal hliteral hfits =>
    refine ⟨.literal hliteral hfits, fun x t hx => ?_⟩
    cases hx
  | @copy name _ hnamed =>
    cases hmeaning : source.meaning with
    | literal form v =>
      rw [Source.expr, hmeaning] at hnamed
      cases hevent : (s.scope es').event <;> rw [hevent] at hnamed <;> cases hnamed
    | plain e =>
      -- before the field was recorded, the name had a type of the form that was recorded
      have hvalue : e.withEvent s.event = .ident name := by
        rwa [Source.expr, hmeaning] at hnamed
      obtain ⟨⟨t, ht, htype⟩, hnames⟩ := admits_of_payloadType hmeaning hvalue h hadmits
      have htyped : (s.scope es).types name = some t := Except.ok.inj ht
      obtain ⟨hform, hdimensions⟩ := (DataType.admits_iff.1 htype).1
      cases t with
      | array given => exact ⟨.copy hnamed htyped hdimensions.symm, hnames⟩
      | _ => cases hform

/-- A field that is no array receives what is sent in it as it is, which is **no array**. -/
theorem receives_scalar_of_payloadType (h : s.payloadType es source = .ok given)
    (hadmits : type.Admits given) (hscalar : type.isArray = false) :
    type.Receives (s.scope es) source (source.expr.withEvent s.event) [] ∧
      ∀ x t, source.expr.withEvent s.event = .ident x → (s.scope es).types x = some t →
        type.Admits t := by
  cases hmeaning : source.meaning with
  | literal form v =>
    exact absurd (isArray_of_payloadType hmeaning h)
      (by simp [← (DataType.admits_iff.1 hadmits).1.1, hscalar])
  | plain e =>
    have hvalue : e.withEvent s.event = source.expr.withEvent s.event := by
      rw [Source.expr, hmeaning, Meaning.expr]
    obtain ⟨⟨t, ht, htype⟩, hnames⟩ := admits_of_payloadType hmeaning hvalue h hadmits
    refine ⟨(DataType.receives_iff_of_scalar hscalar).2
      ⟨rfl, Expr.not_isArray_of_infer ht fun t' ht' => ?_, rfl⟩, hnames⟩
    rw [← Option.some.inj ht', ← (DataType.admits_iff.1 htype).1.1, hscalar]

/-- The variable of a field **receives what is sent**, and a field admits the type of a name that is
sent in it. -/
theorem receives_of_sendParam {event : String} {p : Param} {sent : List Assignment}
    (h : (s.sendParam event p).Yields es sent es') :
    ∃ type source value lengths, es'.fieldType? event p.name = some type ∧
      Source.read p.expr = .ok source ∧ type.Receives (s.scope es) source value lengths ∧
      (∀ x t, value = .ident x → (s.scope es).types x = some t → type.Admits t) ∧
      sent = storing (event ++ "." ++ p.name) value lengths .zero .zero := by
  obtain ⟨source, given, type, hread, hgiven, hrecord, hassigned⟩ := yields_sendParam.1 h
  obtain ⟨hfield, hadmits⟩ := EventM.admits_recordField hrecord
  rcases hassigned with ⟨shape, as, rfl, rfl, has⟩ | ⟨hscalar, value, hvalue, rfl⟩
  · obtain ⟨value, lengths, hreceives, rfl⟩ := Scope.receives_of_assignArray hread has
    obtain ⟨hreceives, hnames⟩ := receives_of_payloadType hreceives hgiven hadmits
    refine ⟨.array shape, source, value, lengths, hfield, hread, hreceives, hnames, ?_⟩
    -- all that a send assigns is assigned at once
    exact congrArg (_ :: ·) (List.ext_getElem (by simp) fun i _ _ => by simp)
  · obtain ⟨_, hread', rfl⟩ := Source.exists_of_parseFor hvalue
    cases hread.symm.trans hread'
    obtain ⟨hreceives, hnames⟩ := receives_scalar_of_payloadType hgiven hadmits hscalar
    exact ⟨type, source, _, [], hfield, hread, hreceives, hnames, rfl⟩

end BodyScope

/-! ### Variables -/

/-- The values from which the length variables of a variable start if none are given. -/
def DataType.lengthDefaults : DataType → List Expr
  | .array shape => (List.range shape.sizes.length).map fun i => (shape.lengthType (i + 1)).default
  | _ => []

/-- A variable **starts** from zero if nothing is given and otherwise from what it receives; an
array variable starts from any other expression as it is. -/
inductive DataType.Starts (types : TypeLookup) (type : DataType) (text : Option String) :
    Expr → List Expr → Prop
  | default (absent : text = none) : Starts types type text type.default type.lengthDefaults
  | received {written : String} {source : Source} {value : Expr} {lengths : List Expr}
      (given : text = some written) (read : Source.read written = .ok source)
      (receives : type.Receives { types } source value lengths) :
      Starts types type text value lengths
  | computed {written : String} {source : Source} (given : text = some written)
      (read : Source.read written = .ok source) (whole : type.isArray = true)
      (unnamed : ∀ x, source.expr ≠ .ident x) (scalar : ¬ source.expr.IsArray types) :
      Starts types type text source.expr type.lengthDefaults

theorem Variable.init_of_make {name : String} {t : DataType} {init : Option Expr} {transient : Bool}
    {v : Variable} (h : Variable.make name t init transient = .ok v) :
    v.init = init.getD t.default := by
  unfold make at h
  split at h
  · cases h
    rfl
  · cases h

/-- The length variables of an array start from the lengths that are given, and from zeros
otherwise. -/
theorem init_lengthVariables {name : String} {shape : ArrayShape} {lengths : List Element}
    {transient : Bool} {vs : List Variable}
    (h : lengthVariables name shape lengths transient = .ok vs) :
    vs.map (·.init) = (List.range shape.sizes.length).map fun i =>
      (lengths[i]?.map Element.toExpr).getD (shape.lengthType (i + 1)).default := by
  have hinits := Result.mapM_eq_ok.1 h
  rw [← List.forall₂_eq_eq_eq, List.forall₂_map_left_iff, List.forall₂_map_right_iff]
  exact hinits.flip.imp fun v i hv => Variable.init_of_make hv

/-- If a length is given for each dimension, the length variables start from these. -/
theorem init_lengthVariables_of_length {name : String} {shape : ArrayShape} {lengths : List Element}
    {transient : Bool} {vs : List Variable}
    (h : lengthVariables name shape lengths transient = .ok vs)
    (hlength : lengths.length = shape.sizes.length) :
    vs.map (·.init) = lengths.map Element.toExpr := by
  rw [init_lengthVariables h]
  refine List.ext_getElem (by simp [hlength]) fun i hi hi' => ?_
  rw [List.length_map] at hi'
  simp [hi']

namespace Data

variable {d : Data} {types : TypeLookup}

/-- The length variables of an array that starts from another one start from those of the other
one. -/
theorem init_copiedLengths {name source : String} {shape : ArrayShape} {vs : List Variable}
    (h : copiedLengths name source shape = .ok vs) :
    vs.map (·.init) =
      (List.range shape.sizes.length).map fun i => .ident (lengthName source (i + 1)) := by
  obtain ⟨vars, hvars, heq⟩ := Result.bind_eq_ok.1 h
  cases heq
  have hlength : vars.length = shape.sizes.length := by
    simpa using congrArg List.length (map_name_lengthVariables hvars)
  exact List.ext_getElem (by simp [hlength]) fun i _ _ => by simp

/-- An **array variable** starts from what its entry gives. -/
theorem starts_of_arrayVariables {shape : ArrayShape} {v : Variable} {lengths : List Variable}
    (h : d.arrayVariables shape types = .ok (v :: lengths)) :
    (DataType.array shape).Starts types d.expr v.init (lengths.map (·.init)) := by
  unfold arrayVariables at h
  split at h
  · rename_i habsent
    simp only [Result.bind_eq_ok] at h
    obtain ⟨v, hv, lengths, hlengths, heq⟩ := h
    cases heq
    rw [Variable.init_of_make hv, init_lengthVariables hlengths]
    exact .default habsent
  · rename_i text hgiven
    obtain ⟨source, hread, h⟩ := Result.bind_eq_ok.1 h
    split at h
    · rename_i form value hliteral
      simp only [Result.bind_eq_ok] at h
      obtain ⟨stored, hstored, fitted, hfitted, starts, hstarts, v, hv, lengths, hlengths, heq⟩ := h
      cases heq
      rw [Variable.init_of_make hv,
        init_lengthVariables_of_length hlengths (Scope.length_of_lengths hstarts)]
      exact .received hgiven hread
        (.literal hliteral (Source.fits_of_fit hread hliteral hstored hfitted hstarts))
    · rename_i name hplain
      split at h
      · rename_i given htyped
        split at h
        · cases h
        · rename_i hdimensions
          simp only [Result.bind_eq_ok] at h
          obtain ⟨lengths, hlengths, v, hv, heq⟩ := h
          cases heq
          have hexpr : source.expr = .ident name := by rw [Source.expr, hplain, Meaning.expr]
          rw [Variable.init_of_make hv, init_copiedLengths hlengths, Option.getD_some, hexpr]
          exact .received hgiven hread (.copy hexpr htyped (not_not.1 hdimensions))
      · cases h
    · rename_i e hname hplain
      simp only [Result.bind_eq_ok] at h
      obtain ⟨v, hv, lengths, hlengths, heq⟩ := h
      cases heq
      have hexpr : source.expr = e := by rw [Source.expr, hplain, Meaning.expr]
      rw [Variable.init_of_make hv, init_lengthVariables hlengths, Option.getD_some, ← hexpr]
      exact .computed hgiven hread rfl (hexpr ▸ hname)
        (hexpr ▸ Source.not_isArray_of_read hread hplain hname)

/-- A variable that is no array starts from what its entry gives. -/
theorem starts_of_scalarVariable {type : DataType} (htype : type.isArray = false) {v : Variable}
    (h : d.scalarVariable type types = .ok v) : v.type.Starts types d.expr v.init [] := by
  have hlengths : type.lengthDefaults = [] := by
    cases type with
    | array shape => cases htype
    | _ => rfl
  unfold scalarVariable at h
  split at h
  · rename_i habsent
    rw [(Variable.of_make h).2, Variable.init_of_make h, ← hlengths]
    exact .default habsent
  · rename_i text hgiven
    simp only [Result.bind_eq_ok] at h
    obtain ⟨init, hparse, found, hfound, h⟩ := h
    have hparse' : Source.parseFor none text = .ok init := hparse
    obtain ⟨source, hread, rfl⟩ := Source.exists_of_parseFor hparse'
    obtain ⟨hfits, hmake⟩ : (∀ t ∈ found, canStartFrom type t = true) ∧
        Variable.make d.id type (some source.expr) = .ok v := by
      split at h
      · split at h
        · rename_i hstart
          exact ⟨fun t ht => Option.some.inj ht ▸ hstart, h⟩
        · cases h
      · exact ⟨fun t ht => absurd ht (Option.not_mem_none t), h⟩
    rw [(Variable.of_make hmake).2, Variable.init_of_make hmake]
    refine .received hgiven hread ((DataType.receives_iff_of_scalar htype).2 ⟨rfl, ?_, rfl⟩)
    refine Expr.not_isArray_of_infer hfound fun t ht => ?_
    have hstart := hfits t ht
    rw [canStartFrom, Bool.and_eq_true, Bool.not_eq_true'] at hstart
    exact hstart.1

/-- The **variables of an entry** are one variable, which starts from what the entry gives, and its
length variables. -/
theorem starts_of_vars {capacity : Size} {vs : List Variable} (h : d.vars capacity types = .ok vs) :
    ∃ v lengths, vs = v :: lengths ∧ vs.map (·.name) = v.type.names d.id ∧
      v.type.Starts types d.expr v.init (lengths.map (·.init)) := by
  obtain ⟨declared, -, ⟨shape, -, hvars⟩ | ⟨hscalar, t, v, ht, hv, rfl⟩⟩ := vars_cases h
  · obtain ⟨v, lengths, rfl, hname, htype, hlengths, -⟩ := exists_of_arrayVariables hvars
    refine ⟨v, lengths, rfl, ?_, htype ▸ starts_of_arrayVariables hvars⟩
    rw [List.map_cons, hname, hlengths, htype]
    rfl
  · have hplain := isArray_boundedType ht hscalar
    obtain ⟨hname, htype⟩ := of_scalarVariable hv
    refine ⟨v, [], rfl, ?_, starts_of_scalarVariable hplain hv⟩
    simp [DataType.names, hname, htype, DataType.dimensions_of_not_isArray hplain]

end Data

/-! ### Arrays fit -/

/-- **Whole arrays receive what fits them**, where a step, a send or the start of a variable stores
them. A field that is sent and a variable that starts are no arrays unless they receive one, and a
field also admits the type of an array that is copied to it. -/
theorem arrays_fit :
    (∀ {scope : Scope} {location text : String} {r : Rank} {as : List Assignment},
      scope.assign location text r = .ok as →
      ∃ target, Source.parseFor scope.event location = .ok target ∧
        ((∃ x shape source value lengths, target = .ident x ∧ scope.types x = some (.array shape) ∧
          Source.read text = .ok source ∧ shape.Receives scope source value lengths ∧
          as = storing x value lengths r r.next) ∨
        ¬ target.IsArray scope.types ∧ ∃ value widened,
          Source.parseFor scope.event text = .ok value ∧
          as = { ref := target, value, index := r } :: widened ∧
          ∀ a ∈ widened, ¬ a.value.IsArray scope.types)) ∧
    (∀ {s : BodyScope} {es es' : Events} {event : String} {p : Param} {sent : List Assignment},
      (s.sendParam event p).Yields es sent es' →
      ∃ type source value lengths, es'.fieldType? event p.name = some type ∧
        Source.read p.expr = .ok source ∧ type.Receives (s.scope es) source value lengths ∧
        (∀ x t, value = .ident x → (s.scope es).types x = some t → type.Admits t) ∧
        sent = storing (event ++ "." ++ p.name) value lengths .zero .zero) ∧
    ∀ {d : Data} {capacity : Size} {types : TypeLookup} {vs : List Variable},
      d.vars capacity types = .ok vs →
      ∃ v lengths, vs = v :: lengths ∧ vs.map (·.name) = v.type.names d.id ∧
        v.type.Starts types d.expr v.init (lengths.map (·.init)) :=
  ⟨Scope.receives_of_assign, BodyScope.receives_of_sendParam, Data.starts_of_vars⟩

/-- A literal of one element is padded to the capacity of the array that it is assigned to, an array
that is sent goes with its length, and one of another capacity initialises a variable as it is. -/
theorem arrays_fit_of_literal :
    let types : TypeLookup := fun x => if x = "a" then some (.array ⟨.int, [.whole 2]⟩) else none
    let robot : BodyScope := { automaton := "robot", vars := types, capacity := .whole 2 }
    let b : Data := { id := "b", type := "int32[3]", expr := some "a" }
    (∃ as, Scope.assign { types } "a" "[1]" .zero = .ok as ∧
      as.map (·.value) = [.array ⟨.int, [.num 1, .num 0]⟩, .int 1] ∧
      ∃ shape source value lengths, types "a" = some (.array shape) ∧
        Source.read "[1]" = .ok source ∧ shape.Receives { types } source value lengths ∧
        as = storing "a" value lengths .zero Rank.zero.next) ∧
    (∃ sent es', (robot.sendParam "go" { name := "f", expr := "a" }).Yields {} sent es' ∧
      ∃ type source value lengths, es'.fieldType? "go" "f" = some type ∧
        Source.read "a" = .ok source ∧ type.Receives (robot.scope {}) source value lengths ∧
        (∀ x t, value = .ident x → (robot.scope {}).types x = some t → type.Admits t) ∧
        sent = storing "go.f" value lengths .zero .zero) ∧
    ∃ vs, b.vars (.whole 2) types = .ok vs ∧ vs.map (·.init) = [.ident "a", .ident "a.d1_len"] ∧
      ∃ v lengths, vs = v :: lengths ∧ vs.map (·.name) = v.type.names "b" ∧
        v.type.Starts types (some "a") v.init (lengths.map (·.init)) := by
  intro types robot b
  refine ⟨?_, ?_, ?_⟩
  · have haccepted : ((Scope.assign { types } "a" "[1]" .zero).toOption.any fun as => decide
        (as.map (·.value) = [.array ⟨.int, [.num 1, .num 0]⟩, .int 1])) = true := by decide +kernel
    obtain ⟨as, has, hvalues⟩ := Result.exists_of_any haccepted
    refine ⟨as, has, of_decide_eq_true hvalues, ?_⟩
    obtain ⟨target, htarget, hstored⟩ := arrays_fit.1 has
    have hname : Source.parseFor none "a" = .ok (.ident "a") := by decide +kernel
    cases htarget.symm.trans hname
    rcases hstored with ⟨_, shape, source, value, lengths, ⟨⟩, hstored⟩ | ⟨hscalar, -⟩
    · exact ⟨shape, source, value, lengths, hstored⟩
    · exact absurd ⟨_, rfl⟩ hscalar
  · obtain ⟨sent, es', hsent⟩ :=
      Build.exists_yields (x := robot.sendParam "go" { name := "f", expr := "a" }) (s := {})
        (by decide +kernel)
    exact ⟨sent, es', hsent, arrays_fit.2.1 hsent⟩
  · have haccepted : ((b.vars (.whole 2) types).toOption.any fun vs => decide
        (vs.map (·.init) = [.ident "a", .ident "a.d1_len"])) = true := by decide +kernel
    obtain ⟨vs, hvs, hinits⟩ := Result.exists_of_any haccepted
    exact ⟨vs, hvs, of_decide_eq_true hinits, arrays_fit.2.2 hvs⟩

/-- **Elsewhere arrays are not looked at**: a number and an element receive an array, an array of
ints receives a longer one of reals or starts from it, a field receives a longer array, and an array
starts from a number. -/
theorem arrays_fit_not_elsewhere :
    let ints : DataType := .array ⟨.int, [.whole 2]⟩
    let types : TypeLookup := fun x =>
      ([("x", .int), ("a", ints), ("longer", .array ⟨.int, [.whole 3]⟩),
        ("reals", .array ⟨.real, [.whole 3]⟩)] : List (String × DataType)).lookup x
    let robot : BodyScope := { automaton := "robot", vars := types, capacity := .whole 3 }
    let declared : Events := { all := [.declare "go" [("f", ints)]] }
    let starts (text : String) : Result (List (DataType × Expr)) :=
      (({ id := "b", type := "int32[2]", expr := some text } : Data).vars (.whole 3) types).map
        fun vs =>
        vs.map fun v => (v.type, v.init)
    Scope.assign { types } "x" "a" .zero = .ok [{ ref := .ident "x", value := .ident "a" }] ∧
    (Scope.assign { types } "a[0]" "a" .zero).map (fun as => as.head?.map (·.value)) =
      .ok (some (.ident "a")) ∧
    Scope.assign { types } "a" "reals" .zero =
      .ok (storing "a" (.ident "reals") [.ident "reals.d1_len"] .zero Rank.zero.next) ∧
    (robot.sendParam "go" { name := "f", expr := "longer" }).Yields declared
      (storing "go.f" (.ident "longer") [.ident "longer.d1_len"] .zero .zero) declared ∧
    starts "reals" = .ok [(ints, .ident "reals"), (.int, .ident "reals.d1_len")] ∧
    starts "1" = .ok [(ints, .int 1), (.int, .int 0)] := by
  intro ints types robot declared starts
  refine ⟨?_, ?_, ?_, ?_, ?_, ?_⟩
  case refine_4 => unfold Build.Yields; decide +kernel
  all_goals decide +kernel

end ChartNet
